/-
# What a step of the contention does

What a contender knows at each of its phases is `PhaseOk`.  A file that was
judged stale is that of a crashed contender, so that it does not change any more;
a reclaim whose second observation agrees with the first is about exactly that
file, and unless its claim is fenced the file is still at the pathname (`Ready`).
For a registry lease, whose content is not read from the file that `lstat` saw,
this needs that a change of the content shows in the time of modification
(`Timely`).

A call has one of six effects (`call_allowed`), and what the other contenders
know outlives each of them (`PhaseOk.evolves`).
-/
import SingularityFlow.Leases.Contention

namespace SingularityFlow

open Ecma

namespace Contention

section Steps

variable {C : Type} {kind : Kind} {w w' u : World C} {a c d : C} {e : Surroundings}
variable {r : Reclaim C} {id : FileId} {info : Info} {i : Identity C}

/-! ## What a contender knows -/

/-- The owner of the file has crashed. -/
def Abandoned (w : World C) (id : FileId) : Prop :=
  ∃ f, w.files id = some f ∧ w.phases f.creator = .crashed

/-- The file was as old as this once. -/
def Seen (w : World C) (info : Info) : Prop :=
  ∃ f, w.files info.id = some f ∧ info.mtime ≤ f.mtime

/-- The content of a registry lease that was observed, if the file is still
there and as it was. -/
structure Observes (w : World C) (i : Identity C) : Prop where
  seen : Seen w i.info
  content : ∀ f, w.files i.info.id = some f → f.mtime = i.info.mtime → w.path = some i.info.id →
    i.content = f.content

/-- A file that was judged stale. -/
structure Reclaimable (kind : Kind) (w : World C) (i : Identity C) : Prop where
  abandoned : Abandoned w i.info.id
  observes : kind = .registry → Observes w i

/-- All earlier claims are fenced. -/
def Fenced (w : World C) (r : Reclaim C) : Prop :=
  ∀ m < r.generation, ∃ creator, w.claims ⟨r.identity, m⟩ = some ⟨creator, .fenced⟩

def Standing (w : World C) (r : Reclaim C) : Prop := ∃ claim, w.claims r = some claim

/-- The contender has made the claim, and moved nothing into it yet. -/
def Claimed (w : World C) (c : C) (r : Reclaim C) : Prop :=
  w.claims r = some ⟨c, .missing⟩ ∨ w.claims r = some ⟨c, .fenced⟩

/-- An observation that the file of a crashed contender agrees with for good. -/
def Genuine (w : World C) (i : Identity C) : Prop :=
  ∃ f, w.files i.info.id = some f ∧ i.info.mtime = f.mtime ∧ i.content = f.content
    ∧ w.phases f.creator = .crashed

/-- A rename into the claim moves the file that was observed, or nothing. -/
structure Ready (w : World C) (r : Reclaim C) : Prop where
  genuine : Genuine w r.identity
  path : ∀ creator, w.claims r = some ⟨creator, .missing⟩ → w.path = some r.identity.info.id

/-- The second observation of a reclaim. -/
def CurrentOk (w : World C) (r : Reclaim C) : Look C → Prop
  | .readFile info => info = r.identity.info → Ready w r
  | .after opened content =>
      opened.id = r.identity.info.id → ∀ f, w.files opened.id = some f → content = f.content
  | .judge info content => ⟨info, content⟩ = r.identity → Ready w r
  | _ => True

def LookOk (kind : Kind) (w : World C) (c : C) : Task C → Look C → Prop
  | .existing, .readFile info => kind = .registry ∧ Seen w info
  | .existing, .judge info content => kind = .registry → Observes w ⟨info, content⟩
  | .existing, .lstat => True
  | .existing, _ => kind = .cache
  | .current r, look => Reclaimable kind w r.identity ∧ Claimed w c r ∧ CurrentOk w r look
  | .release _, _ => True

def PhaseOk (kind : Kind) (w : World C) (c : C) : Phase C → Prop
  | .look task look => LookOk kind w c task look
  | .claim r => Reclaimable kind w r.identity ∧ Fenced w r
  | .claimInfo r | .claimDestination r | .claimOwner r | .fence r | .fenceInfo r =>
      Reclaimable kind w r.identity ∧ Fenced w r ∧ Standing w r
  | .fenceFile r => Reclaimable kind w r.identity ∧ Fenced w { r with generation := r.generation + 1 }
  | .claimFile r => Reclaimable kind w r.identity ∧ Claimed w c r
  | .rename r => Claimed w c r ∧ Ready w r
  | _ => True

/-- The file of a contender is at the pathname. -/
def Owns (w : World C) (c : C) (id : FileId) : Prop :=
  w.path = some id ∧ ∃ f, w.files id = some f ∧ f.creator = c

theorem Owns.unique {id' : FileId} (hc : Owns w c id) (hd : Owns w d id') : c = d := by
  obtain ⟨hpath, f, hf, rfl⟩ := hc
  obtain ⟨hpath', f', hf', rfl⟩ := hd
  obtain rfl := Option.some.inj (hpath.symm.trans hpath')
  rw [Option.some.inj (hf.symm.trans hf')]

structure Inv (kind : Kind) (w : World C) : Prop where
  owns : ∀ c id, (w.phases c).own? = some id → Owns w c id
  path : ∀ id, w.path = some id → ∃ f, w.files id = some f
  chain : ∀ r, Standing w r → Fenced w r
  phases : ∀ c, PhaseOk kind w c (w.phases c)

/-! ## What outlives a step -/

/-- What a step leaves true in which `a`, if anybody, moves files. -/
structure Evolves (kind : Kind) (a : Option C) (w w' : World C) : Prop where
  crashed : ∀ c, w.phases c = .crashed → w'.phases c = .crashed
  /-- A file changes only while its creator is alive, and a change of a registry
  lease shows in its time. -/
  files : ∀ id f, w.files id = some f → ∃ f', w'.files id = some f' ∧ f'.creator = f.creator
    ∧ (w.phases f.creator = .crashed → f' = f)
    ∧ (kind = .registry → f.mtime ≤ f'.mtime ∧ (f'.mtime = f.mtime → f'.content = f.content))
  /-- Only a new file comes to the pathname. -/
  arrives : ∀ id, w'.path = some id → w.path = some id ∨ w.files id = none
  /-- The file of a crashed contender leaves it only by a rename of `a`. -/
  leaves : ∀ id, w.path = some id → w'.path = some id ∨ ¬ Abandoned w id
    ∨ ∃ r b, a = some b ∧ r.identity.info.id = id ∧ Genuine w r.identity
      ∧ w.claims r = some ⟨b, .missing⟩
  claims : ∀ r claim, w.claims r = some claim →
    ∃ claim', w'.claims r = some claim' ∧ claim'.creator = claim.creator
      ∧ (claim.destination = .fenced → claim'.destination = .fenced)
      ∧ (claim'.destination = .missing → claim.destination = .missing)
      ∧ (a ≠ some claim.creator → claim.destination = .missing →
        claim'.destination = .missing ∨ claim'.destination = .fenced)

section Evolution

variable {a : Option C} (h : Evolves kind a w w')

include h

theorem Abandoned.evolves (hid : Abandoned w id) : Abandoned w' id := by
  obtain ⟨f, hf, hcrashed⟩ := hid
  obtain ⟨f', hf', -, hsame, -⟩ := h.files id f hf
  obtain rfl := hsame hcrashed
  exact ⟨_, hf', h.crashed _ hcrashed⟩

theorem Genuine.evolves (hi : Genuine w i) : Genuine w' i := by
  obtain ⟨f, hf, hmtime, hcontent, hcrashed⟩ := hi
  obtain ⟨f', hf', -, hsame, -⟩ := h.files _ f hf
  obtain rfl := hsame hcrashed
  exact ⟨_, hf', hmtime, hcontent, h.crashed _ hcrashed⟩

theorem Seen.evolves (hkind : kind = .registry) (hseen : Seen w info) : Seen w' info := by
  obtain ⟨f, hf, hle⟩ := hseen
  obtain ⟨f', hf', -, -, htime⟩ := h.files _ f hf
  exact ⟨f', hf', Nat.le_trans hle (htime hkind).1⟩

theorem Observes.evolves (hkind : kind = .registry) (hi : Observes w i) : Observes w' i := by
  refine ⟨hi.seen.evolves h hkind, fun f' hf' hmtime hpath => ?_⟩
  obtain ⟨f, hf, hle⟩ := hi.seen
  obtain ⟨f'', hf'', -, -, htime⟩ := h.files _ f hf
  obtain rfl := Option.some.inj (hf'.symm.trans hf'')
  obtain ⟨hle', hsame⟩ := htime hkind
  have hmtime' : f.mtime = i.info.mtime := Nat.le_antisymm (hmtime ▸ hle') hle
  have hpath' : w.path = some i.info.id :=
    (h.arrives _ hpath).resolve_right fun hnone => nomatch hnone.symm.trans hf
  exact (hi.content f hf hmtime' hpath').trans (hsame (hmtime.trans hmtime'.symm)).symm

theorem Reclaimable.evolves (hi : Reclaimable kind w i) : Reclaimable kind w' i :=
  ⟨hi.abandoned.evolves h, fun hkind => (hi.observes hkind).evolves h hkind⟩

theorem Fenced.evolves (hr : Fenced w r) : Fenced w' r := by
  intro m hm
  obtain ⟨creator, hclaim⟩ := hr m hm
  obtain ⟨⟨creator', destination'⟩, hclaim', rfl, hfenced, -⟩ := h.claims _ _ hclaim
  obtain rfl := hfenced rfl
  exact ⟨_, hclaim'⟩

theorem Standing.evolves (hr : Standing w r) : Standing w' r := by
  obtain ⟨claim, hclaim⟩ := hr
  obtain ⟨claim', hclaim', -⟩ := h.claims _ _ hclaim
  exact ⟨claim', hclaim'⟩

theorem Claimed.evolves (hne : a ≠ some c) (hr : Claimed w c r) : Claimed w' c r := by
  rcases hr with hr | hr
  · obtain ⟨⟨creator', destination'⟩, hclaim', rfl, -, -, hkept⟩ := h.claims _ _ hr
    rcases hkept hne rfl with hd | hd
    · obtain rfl := hd
      exact .inl hclaim'
    · obtain rfl := hd
      exact .inr hclaim'
  · obtain ⟨⟨creator', destination'⟩, hclaim', rfl, hfenced, -⟩ := h.claims _ _ hr
    obtain rfl := hfenced rfl
    exact .inr hclaim'

/-- **No other contender moves the file that a reclaim is about.**  Of two claims
for it, the earlier one is fenced. -/
theorem Ready.evolves (hchain : ∀ r, Standing w r → Fenced w r)
    (hne : a ≠ some c) (hclaimed : Claimed w c r) (hr : Ready w r) : Ready w' r := by
  refine ⟨hr.genuine.evolves h, fun creator hmissing => ?_⟩
  have hbefore : w.claims r = some ⟨c, .missing⟩ := by
    rcases hclaimed with hc | hc
    · exact hc
    · obtain ⟨claim', hclaim', -, hfenced, -⟩ := h.claims _ _ hc
      obtain rfl := Option.some.inj (hmissing.symm.trans hclaim')
      cases hfenced rfl
  have hpath := hr.path c hbefore
  rcases h.leaves _ hpath with hstill | halive | ⟨r', b, rfl, hid, hgenuine, hclaim⟩
  · exact hstill
  · obtain ⟨f, hf, -, -, hcrashed⟩ := hr.genuine
    exact absurd ⟨f, hf, hcrashed⟩ halive
  · -- both reclaims are about the same observation
    obtain ⟨f, hf, hmtime, hcontent, -⟩ := hr.genuine
    obtain ⟨f', hf', hmtime', hcontent', -⟩ := hgenuine
    rw [hid] at hf'
    obtain rfl := Option.some.inj (hf.symm.trans hf')
    obtain ⟨⟨⟨id, mtime⟩, content⟩, n⟩ := r
    obtain ⟨⟨⟨id', mtime'⟩, content'⟩, n'⟩ := r'
    obtain rfl : id' = id := hid
    obtain rfl : mtime' = mtime := hmtime'.trans hmtime.symm
    obtain rfl : content' = content := hcontent'.trans hcontent.symm
    rcases Nat.lt_trichotomy n n' with hlt | rfl | hlt
    · obtain ⟨_, hfenced⟩ := hchain _ ⟨_, hclaim⟩ n hlt
      cases hfenced.symm.trans hbefore
    · cases hbefore.symm.trans hclaim
      exact absurd rfl hne
    · obtain ⟨_, hfenced⟩ := hchain _ ⟨_, hbefore⟩ n' hlt
      cases hfenced.symm.trans hclaim

theorem CurrentOk.evolves {look : Look C}
    (hchain : ∀ r, Standing w r → Fenced w r) (hne : a ≠ some c)
    (habandoned : Abandoned w r.identity.info.id) (hclaimed : Claimed w c r)
    (hlook : CurrentOk w r look) : CurrentOk w' r look := by
  cases look with
  | readFile info => exact fun hinfo => (hlook hinfo).evolves h hchain hne hclaimed
  | judge info content => exact fun hinfo => (hlook hinfo).evolves h hchain hne hclaimed
  | after opened content =>
      intro hid f' hf'
      obtain ⟨f, hf, hcrashed⟩ := habandoned
      rw [← hid] at hf
      obtain ⟨f'', hf'', -, hsame, -⟩ := h.files _ f hf
      obtain rfl := hsame hcrashed
      obtain rfl := Option.some.inj (hf'.symm.trans hf'')
      exact hlook hid _ hf
  | _ => trivial

/-- **What another contender knows.** -/
theorem PhaseOk.evolves {p : Phase C}
    (hchain : ∀ r, Standing w r → Fenced w r) (hne : a ≠ some c)
    (hp : PhaseOk kind w c p) : PhaseOk kind w' c p := by
  cases p with
  | look task look =>
      cases task with
      | existing =>
          cases look with
          | readFile info => exact ⟨hp.1, hp.2.evolves h hp.1⟩
          | judge info content => exact fun hkind => (hp hkind).evolves h hkind
          | _ => exact hp
      | current r =>
          obtain ⟨hreclaimable, hclaimed, hlook⟩ := hp
          exact ⟨hreclaimable.evolves h, hclaimed.evolves h hne,
            hlook.evolves h hchain hne hreclaimable.abandoned hclaimed⟩
      | release => trivial
  | claim r | fenceFile r => exact ⟨hp.1.evolves h, hp.2.evolves h⟩
  | claimInfo r | claimDestination r | claimOwner r | fence r | fenceInfo r =>
      exact ⟨hp.1.evolves h, hp.2.1.evolves h, hp.2.2.evolves h⟩
  | claimFile r => exact ⟨hp.1.evolves h, hp.2.evolves h hne⟩
  | rename r => exact ⟨hp.1.evolves h hne, hp.2.evolves h hchain hne hp.1⟩
  | _ => trivial

end Evolution

/-! ## What the surroundings grant -/

/-- A lease whose owner is alive is not judged stale. -/
def Fair (w : World C) : Action C → Prop
  | .act c e => ∀ task info content, w.phases c = .look task (.judge info content) →
      e.stale = true → Abandoned w info.id
  | _ => True

/-- A new file is not named as an earlier one, and a change of a registry lease
shows in its time: writing the record raises it, and no heartbeat takes it back. -/
def Timely (kind : Kind) (w : World C) : Action C → Prop
  | .act c e =>
      (w.phases c = .opening → w.path = none → w.files e.id = none)
        ∧ ∀ id f, w.phases c = .write id → kind = .registry → w.files id = some f → f.mtime < e.mtime
  | .beat c mtime => ∀ id f, (w.phases c).own? = some id → w.files id = some f → f.mtime ≤ mtime
  | _ => True

/-! ## What a call does -/

variable [DecidableEq C]

/-- The effects of a step of `c` on the file system. -/
inductive Effect (kind : Kind) (w : World C) (c : C) : World C → Prop
  | none : Effect kind w c w
  | create {id : FileId} {f : File C} : w.path = .none → w.files id = .none → f.creator = c →
      Effect kind w c (w.create id f)
  | write {id : FileId} {f f' : File C} : (w.phases c).own? = some id → w.files id = some f →
      f'.creator = f.creator →
      (kind = .registry → f.mtime ≤ f'.mtime ∧ (f'.mtime = f.mtime → f'.content = f.content)) →
      Effect kind w c (w.setFile id f')
  | remove {id : FileId} : (w.phases c).own? = some id → Effect kind w c { w with path := .none }
  | claim {r : Reclaim C} : w.claims r = .none → Fenced w r →
      Effect kind w c (w.setClaim r ⟨c, .missing⟩)
  | fence {r : Reclaim C} {creator : C} : w.claims r = some ⟨creator, .missing⟩ →
      Effect kind w c (w.setClaim r ⟨creator, .fenced⟩)
  | retire {r : Reclaim C} {id : FileId} : Ready w r → w.claims r = some ⟨c, .missing⟩ →
      w.path = some id → Effect kind w c (w.retire r c id)

/-- What `c` knows at its next phase, and what it has there. -/
structure Enters (kind : Kind) (w u : World C) (c : C) (p : Phase C) : Prop where
  ok : PhaseOk kind u c p
  own : ∀ id, p.own? = some id → u.path = some id ∧ ∃ f, u.files id = some f ∧ f.creator = c

/-- A step: an effect, and the phase it comes to. -/
def Allowed (kind : Kind) (w : World C) (c : C) (w' : World C) : Prop :=
  ∃ u p, w' = u.goto c p ∧ Effect kind w c u ∧ Enters kind w u c p

theorem allowed_goto {p : Phase C} (hok : PhaseOk kind w c p)
    (hown : ∀ id, p.own? = some id → Owns w c id) : Allowed kind w c (w.goto c p) :=
  ⟨w, p, rfl, .none, hok, hown⟩

/-- A phase in which a contender has no file and knows nothing. -/
theorem allowed_rest {p : Phase C} (hok : PhaseOk kind w c p) (hown : p.own? = none) :
    Allowed kind w c (w.goto c p) :=
  allowed_goto hok fun _ hid => nomatch hown.symm.trans hid

theorem allowed_next (hreclaimable : Reclaimable kind w r.identity)
    (hfenced : Fenced w { r with generation := r.generation + 1 }) :
    Allowed kind w c (w.goto c r.next) := by
  unfold Reclaim.next
  split
  · exact allowed_rest ⟨hreclaimable, hfenced⟩ rfl
  · exact allowed_rest trivial rfl

omit [DecidableEq C] in
theorem Fenced.succ {creator : C} (h : Fenced w r) (hr : w.claims r = some ⟨creator, .fenced⟩) :
    Fenced w { r with generation := r.generation + 1 } := by
  intro m hm
  rcases Nat.lt_succ_iff_lt_or_eq.mp hm with hlt | rfl
  · exact h m hlt
  · exact ⟨creator, hr⟩

/-- Making a claim and fencing another one leaves the files as they are. -/
theorem Reclaimable.setClaim {claim : Claim C} (h : Reclaimable kind w i) :
    Reclaimable kind (w.setClaim r claim) i :=
  ⟨h.abandoned, fun hkind => ⟨(h.observes hkind).seen, (h.observes hkind).content⟩⟩

theorem call_allowed_claim (hok : PhaseOk kind w c (w.phases c)) (hp : w.phases c = .claim r)
    (h : call kind w c e = .ok w') : Allowed kind w c w' := by
  rw [hp] at hok
  rw [call, hp] at h
  dsimp only at h
  split at h
  · next hnone =>
      cases h
      exact ⟨_, _, rfl, .claim hnone hok.2, ⟨hok.1.setClaim, .inl (setClaim_self w r _)⟩, nofun⟩
  · next claim hclaim =>
      cases h
      exact allowed_rest ⟨hok.1, hok.2, claim, hclaim⟩ rfl

theorem call_allowed_claimInfo (hok : PhaseOk kind w c (w.phases c))
    (hp : w.phases c = .claimInfo r) (h : call kind w c e = .ok w') : Allowed kind w c w' := by
  rw [hp] at hok
  obtain ⟨hreclaimable, hfenced, claim, hclaim⟩ := hok
  rw [call, hp] at h
  simp only [hclaim] at h
  cases h
  exact allowed_rest ⟨hreclaimable, hfenced, claim, hclaim⟩ rfl

theorem call_allowed_claimDestination (hok : PhaseOk kind w c (w.phases c))
    (hp : w.phases c = .claimDestination r) (h : call kind w c e = .ok w') : Allowed kind w c w' := by
  rw [hp] at hok
  rw [call, hp] at h
  dsimp only at h
  split at h
  · cases h
    exact allowed_rest trivial rfl
  · next hclaim =>
      cases h
      exact allowed_next hok.1 (hok.2.1.succ hclaim)
  · cases h
    exact allowed_rest hok rfl
  · cases h
    exact allowed_rest hok rfl

theorem call_allowed_fence (hok : PhaseOk kind w c (w.phases c)) (hp : w.phases c = .fence r)
    (h : call kind w c e = .ok w') : Allowed kind w c w' := by
  rw [hp] at hok
  rw [call, hp] at h
  dsimp only at h
  split at h
  · cases h
    exact allowed_rest trivial rfl
  · next creator hmissing =>
      cases h
      have hfenced : Fenced (w.setClaim r ⟨creator, .fenced⟩) r := by
        intro m hm
        obtain ⟨creator', hclaim⟩ := hok.2.1 m hm
        have hne : (⟨r.identity, m⟩ : Reclaim C) ≠ r :=
          fun heq => absurd (congrArg Reclaim.generation heq) (Nat.ne_of_lt hm)
        exact ⟨creator', (setClaim_of_ne w _ hne).trans hclaim⟩
      exact ⟨_, _, rfl, .fence hmissing, ⟨hok.1.setClaim, hfenced.succ (setClaim_self w r _)⟩, nofun⟩
  · cases h
    exact allowed_rest hok rfl

theorem call_allowed_fenceInfo (hok : PhaseOk kind w c (w.phases c)) (hp : w.phases c = .fenceInfo r)
    (h : call kind w c e = .ok w') : Allowed kind w c w' := by
  rw [hp] at hok
  rw [call, hp] at h
  dsimp only at h
  split at h
  · next hclaim =>
      cases h
      exact allowed_next hok.1 (hok.2.1.succ hclaim)
  · cases h
    exact allowed_rest trivial rfl

theorem call_allowed_rename (hok : PhaseOk kind w c (w.phases c)) (hp : w.phases c = .rename r)
    (h : call kind w c e = .ok w') : Allowed kind w c w' := by
  rw [hp] at hok
  obtain ⟨hclaimed, hready⟩ := hok
  rw [call, hp] at h
  rcases hclaimed with hclaim | hclaim
  · simp only [World.moves, hclaim] at h
    split at h
    · next claim id hc hpath =>
        cases h
        obtain rfl := Option.some.inj hc
        exact ⟨_, _, rfl, .retire hready hclaim hpath, trivial, nofun⟩
    · cases h
      exact allowed_rest trivial rfl
  · simp only [World.moves, hclaim] at h
    cases h
    exact allowed_rest trivial rfl

/-- What an observation leads to that tells nothing. -/
theorem allowed_absent {task : Task C} : Allowed kind w c (w.goto c (absent kind task)) := by
  cases task with
  | existing => cases kind <;> exact allowed_rest trivial rfl
  | current => exact allowed_rest trivial rfl
  | release => exact allowed_rest trivial rfl

theorem allowed_refused {task : Task C} : Allowed kind w c (w.goto c (refused task)) := by
  cases task <;> exact allowed_rest trivial rfl

omit [DecidableEq C] in
theorem observed_eq_some {f : File C} (h : w.observed = some (info, f)) :
    w.path = some info.id ∧ w.files info.id = some f ∧ info.mtime = f.mtime := by
  obtain ⟨id, hpath, h⟩ := Option.bind_eq_some_iff.mp h
  obtain ⟨f', hf', h⟩ := Option.map_eq_some_iff.mp h
  cases h
  exact ⟨hpath, hf', rfl⟩

omit [DecidableEq C] in
/-- A second observation that agrees with the first: what was observed is the
file of a crashed contender, and it is there. -/
theorem ready_of_observed {f : File C} (habandoned : Abandoned w r.identity.info.id)
    (hpath : w.path = some info.id) (hf : w.files info.id = some f) (hmtime : info.mtime = f.mtime)
    (hinfo : info = r.identity.info) (hcontent : r.identity.content = f.content) : Ready w r := by
  subst hinfo
  obtain ⟨f', hf', hcrashed⟩ := habandoned
  obtain rfl := Option.some.inj (hf.symm.trans hf')
  exact ⟨⟨_, hf, hmtime, hcontent, hcrashed⟩, fun _ _ => hpath⟩

/-- A look goes on with the same task. -/
theorem allowed_look {task : Task C} {look look' : Look C} (hinv : Inv kind w)
    (hp : w.phases c = .look task look) (hok : LookOk kind w c task look') :
    Allowed kind w c (w.goto c (.look task look')) := by
  refine allowed_goto hok fun id hid => hinv.owns c id ?_
  rw [hp]
  cases task with
  | release own => exact hid
  | _ => cases hid

/-- What is done with an observation. -/
theorem allowed_resume {task : Task C} {content : Content C} (hinv : Inv kind w)
    (hp : w.phases c = .look task (.judge info content))
    (hfair : e.stale = true → Abandoned w info.id) :
    Allowed kind w c (w.goto c (resume kind c e.stale info content task)) := by
  have hok := hinv.phases c
  rw [hp] at hok
  cases task with
  | existing =>
      rw [resume]
      split
      · next hstale =>
          exact allowed_rest ⟨⟨hfair hstale, hok⟩, fun m hm => absurd hm (Nat.not_lt_zero m)⟩ rfl
      · exact allowed_rest trivial rfl
  | current r =>
      obtain ⟨-, hclaimed, hready⟩ := hok
      rw [resume]
      split
      · next hsame =>
          have hsame := (Bool.and_eq_true_iff.mp hsame).2
          exact allowed_rest ⟨hclaimed, hready (of_decide_eq_true hsame)⟩ rfl
      · exact allowed_rest trivial rfl
  | release own =>
      rw [resume]
      split
      · refine allowed_goto trivial fun id hid => hinv.owns c id ?_
        rw [hp]
        exact hid
      · exact allowed_rest trivial rfl

theorem call_allowed_look {task : Task C} {look : Look C} (hinv : Inv kind w)
    (hp : w.phases c = .look task look)
    (hfair : ∀ info content, look = .judge info content → e.stale = true → Abandoned w info.id)
    (h : call kind w c e = .ok w') : Allowed kind w c w' := by
  have hok := hinv.phases c
  rw [hp] at hok
  rw [call, hp] at h
  cases h
  cases look with
  | lstat =>
      cases hobserved : w.observed with
      | none =>
          simp only [observe, hobserved]
          exact allowed_absent
      | some found =>
          obtain ⟨hpath, hf, hmtime⟩ := observed_eq_some hobserved
          cases kind with
          | registry =>
              simp only [observe, hobserved]
              refine allowed_look hinv hp ?_
              cases task with
              | existing => exact ⟨rfl, _, hf, Nat.le_of_eq hmtime⟩
              | release => trivial
              | current r =>
                  obtain ⟨hreclaimable, hclaimed, -⟩ := hok
                  refine ⟨hreclaimable, hclaimed, fun hinfo => ?_⟩
                  have hcontent := (hreclaimable.observes rfl).content
                  rw [← hinfo] at hcontent
                  exact ready_of_observed hreclaimable.abandoned hpath hf hmtime hinfo
                    (hcontent _ hf hmtime.symm hpath)
          | cache =>
              simp only [observe, hobserved]
              refine allowed_look hinv hp ?_
              cases task with
              | existing => rfl
              | release => trivial
              | current r => exact ⟨hok.1, hok.2.1, trivial⟩
  | readFile info =>
      rw [observe]
      split
      · exact allowed_absent
      · next info' f hobserved =>
          obtain ⟨hpath, hf, -⟩ := observed_eq_some hobserved
          refine allowed_look hinv hp ?_
          cases task with
          | existing =>
              refine fun _ => ⟨hok.2, fun f' hf' _ hpath' => ?_⟩
              obtain hid := Option.some.inj (hpath'.symm.trans hpath)
              rw [← hid] at hf
              rw [Option.some.inj (hf'.symm.trans hf)]
          | release => trivial
          | current r =>
              refine ⟨hok.1, hok.2.1, fun hsame => hok.2.2 ?_⟩
              exact congrArg Identity.info hsame
  | openFile before =>
      rw [observe]
      split
      · exact allowed_absent
      · refine allowed_look hinv hp ?_
        cases task with
        | existing => exact hok
        | release => trivial
        | current r => exact ⟨hok.1, hok.2.1, trivial⟩
  | fstat before opened =>
      rw [observe]
      split
      · exact allowed_absent
      · split
        · refine allowed_look hinv hp ?_
          cases task with
          | existing => exact hok
          | release => trivial
          | current r => exact ⟨hok.1, hok.2.1, trivial⟩
        · exact allowed_refused
  | read opened =>
      rw [observe]
      split
      · exact allowed_absent
      · next f hf =>
          refine allowed_look hinv hp ?_
          cases task with
          | existing => exact hok
          | release => trivial
          | current r =>
              refine ⟨hok.1, hok.2.1, fun _ f' hf' => ?_⟩
              rw [Option.some.inj (hf.symm.trans hf')]
  | after opened content =>
      rw [observe]
      split
      · exact allowed_absent
      · next info f hobserved =>
          obtain ⟨hpath, hf, hmtime⟩ := observed_eq_some hobserved
          split
          · next hinfo =>
              subst hinfo
              refine allowed_look hinv hp ?_
              cases task with
              | existing => exact fun hkind => nomatch hkind.symm.trans hok
              | release => trivial
              | current r =>
                  obtain ⟨hreclaimable, hclaimed, hread⟩ := hok
                  refine ⟨hreclaimable, hclaimed, fun hsame => ?_⟩
                  have hinfo : info = r.identity.info := congrArg Identity.info hsame
                  have hcontent : content = r.identity.content := congrArg Identity.content hsame
                  have hid : info.id = r.identity.info.id := congrArg Info.id hinfo
                  exact ready_of_observed hreclaimable.abandoned hpath hf hmtime hinfo
                    (hcontent.symm.trans (hread hid f hf))
          · exact allowed_refused
  | judge info content => exact allowed_resume hinv hp (hfair info content rfl)

/-- A contender that has its file keeps it. -/
theorem allowed_keeps {p : Phase C} (hinv : Inv kind w) (hok : PhaseOk kind w c p)
    (hown : (w.phases c).own? = some id) (hp : p.own? = some id ∨ p.own? = none) :
    Allowed kind w c (w.goto c p) := by
  refine allowed_goto hok fun id' hid' => ?_
  rcases hp with hp | hp
  · obtain rfl := Option.some.inj (hp.symm.trans hid')
    exact hinv.owns c id hown
  · cases hp.symm.trans hid'

/-- A contender writes its own file. -/
theorem allowed_write {p : Phase C} {f f' : File C} (hinv : Inv kind w) (hok : ∀ u, PhaseOk kind u c p)
    (hown : (w.phases c).own? = some id) (hp : p.own? = some id) (hf : w.files id = some f)
    (hcreator : f'.creator = f.creator)
    (htime : kind = .registry → f.mtime ≤ f'.mtime ∧ (f'.mtime = f.mtime → f'.content = f.content)) :
    Allowed kind w c ((w.setFile id f').goto c p) := by
  refine ⟨_, _, rfl, .write hown hf hcreator htime, hok _, fun id' hid' => ?_⟩
  obtain rfl := Option.some.inj (hp.symm.trans hid')
  obtain ⟨hpath, f'', hf'', howner⟩ := hinv.owns c id hown
  obtain rfl := Option.some.inj (hf.symm.trans hf'')
  exact ⟨hpath, f', setFile_self w id f', hcreator.trans howner⟩

theorem call_allowed_opening (hp : w.phases c = .opening)
    (hfresh : w.path = none → w.files e.id = none) (h : call kind w c e = .ok w') :
    Allowed kind w c w' := by
  rw [call, hp] at h
  dsimp only at h
  split at h
  · next hnone =>
      split at h
      · cases h
      · cases h
        refine ⟨_, _, rfl, .create hnone (hfresh hnone) rfl, trivial, fun id hid => ?_⟩
        obtain rfl := Option.some.inj hid
        exact ⟨rfl, _, setFile_self _ _ _, rfl⟩
  · cases h
    exact allowed_rest trivial rfl

/-- The calls of a contender that has its file. -/
theorem call_allowed_own (hinv : Inv kind w) (hown : (w.phases c).own? = some id)
    (hlook : ∀ task look, w.phases c ≠ .look task look)
    (htimely : ∀ f, w.phases c = .write id → kind = .registry → w.files id = some f → f.mtime < e.mtime)
    (h : call kind w c e = .ok w') : Allowed kind w c w' := by
  cases hp : w.phases c with
  | look task look => exact absurd hp (hlook task look)
  | stat id' =>
      rw [call, hp] at h
      cases h
      rw [hp] at hown
      exact allowed_keeps hinv trivial (hp ▸ hown) (.inl hown)
  | write id' =>
      rw [hp] at hown
      obtain rfl := Option.some.inj hown
      rw [call, hp] at h
      dsimp only at h
      split at h
      · cases h
      · next f hf =>
          cases h
          refine allowed_write hinv (fun _ => trivial) (hp ▸ rfl) rfl hf rfl fun hkind => ?_
          have hlt := htimely f hp hkind hf
          exact ⟨Nat.le_of_lt hlt, fun heq => absurd heq (Nat.ne_of_gt hlt)⟩
  | sync id' =>
      rw [call, hp] at h
      cases h
      rw [hp] at hown
      exact allowed_keeps hinv trivial (hp ▸ hown) (.inl hown)
  | held own =>
      rw [call, hp] at h
      rw [hp] at hown
      dsimp only at h
      split at h <;> cases h
      · exact allowed_rest trivial rfl
      · exact allowed_keeps hinv trivial (hp ▸ hown) (.inl hown)
  | candidate id' =>
      rw [call, hp] at h
      rw [hp] at hown
      dsimp only at h
      split at h
      · cases h
        exact allowed_rest trivial rfl
      · split at h <;> cases h
        · exact allowed_keeps hinv trivial (hp ▸ hown) (.inl hown)
        · exact allowed_rest trivial rfl
  | remove id' =>
      rw [call, hp] at h
      cases h
      exact ⟨_, _, rfl, .remove hown, trivial, nofun⟩
  | _ =>
      rw [hp] at hown
      cases hown

/-- **One call of a contender.** -/
theorem call_allowed (hinv : Inv kind w) (hfair : Fair w (.act c e))
    (htimely : Timely kind w (.act c e)) (h : call kind w c e = .ok w') : Allowed kind w c w' := by
  have hok := hinv.phases c
  cases hp : w.phases c with
  | opening => exact call_allowed_opening hp (htimely.1 hp) h
  | look task look =>
      refine call_allowed_look hinv hp (fun info content hlook => ?_) h
      rw [hlook] at hp
      exact hfair task info content hp
  | claim r => exact call_allowed_claim hok hp h
  | claimInfo r => exact call_allowed_claimInfo hok hp h
  | claimDestination r => exact call_allowed_claimDestination hok hp h
  | claimOwner r =>
      rw [hp] at hok
      rw [call, hp] at h
      cases h
      cases e.stale with
      | true => exact allowed_rest hok rfl
      | false => exact allowed_rest trivial rfl
  | fence r => exact call_allowed_fence hok hp h
  | fenceInfo r => exact call_allowed_fenceInfo hok hp h
  | fenceFile r =>
      rw [hp] at hok
      rw [call, hp] at h
      cases h
      exact allowed_next hok.1 hok.2
  | claimFile r =>
      rw [hp] at hok
      rw [call, hp] at h
      cases h
      exact allowed_rest ⟨hok.1, hok.2, trivial⟩ rfl
  | rename r => exact call_allowed_rename hok hp h
  | waiting =>
      rw [call, hp] at h
      cases h
      cases e.goesOn <;> exact allowed_rest trivial rfl
  | finished =>
      rw [call, hp] at h
      cases h
  | crashed =>
      rw [call, hp] at h
      cases h
  | stat id | write id | sync id | candidate id | remove id =>
      have hown : (w.phases c).own? = some id := by rw [hp]; rfl
      exact call_allowed_own hinv hown (fun _ _ heq => nomatch hp.symm.trans heq)
        (fun f hwrite => htimely.2 id f hwrite) h
  | held own =>
      have hown : (w.phases c).own? = some own.id := by rw [hp]; rfl
      exact call_allowed_own hinv hown (fun _ _ heq => nomatch hp.symm.trans heq)
        (fun f hwrite => htimely.2 own.id f hwrite) h

/-- A call that fails. -/
theorem failed_allowed (hinv : Inv kind w) : Allowed kind w c (w.goto c (failed kind (w.phases c))) := by
  cases hp : w.phases c with
  | write id | sync id =>
      have hown : (w.phases c).own? = some id := by rw [hp]; rfl
      cases kind <;> exact allowed_keeps hinv trivial hown (.inl rfl)
  | _ => exact allowed_rest trivial rfl

end Steps

end Contention

end SingularityFlow
