/-
# What a step of a contender does

A contender has the lock from the moment it has seen its own record published
until its release moves the directory away.  What it knows at each of its phases
is `PhaseOk`: an owner read while a directory stood at the pathname is its
owner, and the owner of a directory judged stale has crashed.  Of its calls,
five effects on the file system are all that matters (`act_allowed`), and they
leave what the others know as it is (`Evolves`).
-/
import SingularityFlow.Locks.Protocol

namespace SingularityFlow

open Ecma

namespace Locks

section Steps

variable {C : Type} {w w' : World C} {a c d : C} {e : Surroundings C}
variable {r : Retire C} {g : Nat}

/-! ## Having the lock -/

/-- The retirement that a contender is about to make. -/
def Phase.retire? : Phase C → Option (Retire C)
  | .look (.current r) _ _ | .look (.final r) _ _ | .claim r | .claimInfo r | .claimDestination r
  | .fence r | .fenceInfo r | .claimFile r | .rename r => some r
  | _ => none

/-- The contender has the lock: it has been given it, and the rename of its
release is not made yet. -/
def Phase.owning : Phase C → Bool
  | .afterAcquire _ _ | .held | .look .release _ _ => true
  | p => p.retire?.any fun r => r.back = .released

/-- The owner record of the contender stands at the pathname. -/
def Owns (w : World C) (c : C) : Prop :=
  ∃ g, w.path = some g ∧ (w.directories g).owner = some c

theorem Owns.unique (hc : Owns w c) (hd : Owns w d) : c = d := by
  obtain ⟨g, hg, hc⟩ := hc
  obtain ⟨g', hg', hd⟩ := hd
  obtain rfl := Option.some.inj (hg.symm.trans hg')
  exact Option.some.inj (hc.symm.trans hd)

/-- The call may make, move or remove a directory or a file. -/
def Phase.writes : Phase C → Bool
  | .create _ | .writePending _ _ | .writeHeartbeat _ _ | .link _ _ | .exclusiveWrite _ _
  | .removePending _ _ | .claim _ | .fence _ | .claimFile _ | .rename _ | .restoreCreate _ _
  | .restoreEntry _ _ _ | .removeClaim _ _ _ => true
  | _ => false

/-! ## What a contender knows -/

/-- All looks but the one at a moved directory are at the pathname. -/
def Task.isPublic : Task C → Bool
  | .moved _ => false
  | _ => true

def Task.retire? : Task C → Option (Retire C)
  | .current r | .final r => some r
  | _ => none

theorem lookup_of_isPublic {task : Task C} (h : task.isPublic) : w.lookup task = w.path := by
  cases task with
  | moved => cases h
  | _ => rfl

/-- An owner that was read while the directory stood at the pathname is its
owner. -/
def LookOk (w : World C) : Look C → Prop
  | .before => True
  | .owner before => before < w.next
  | .after before owner =>
      before < w.next
        ∧ (w.path = some before → ∀ d, owner = some d → (w.directories before).owner = some d)

/-- Only its own directory does a contender retire without asking whether it is
stale. -/
def RetireOk (c : C) (r : Retire C) : Prop := r.requireStale = false → ∀ d, r.owner = some d → d = c

/-- The owner of a directory that was judged stale has crashed. -/
def StaleOk (w : World C) (r : Retire C) : Prop :=
  r.requireStale → ∀ d, r.owner = some d → (w.phases d).isCrashed

def PhaseOk (w : World C) (c : C) : Phase C → Prop
  | .look task _ look => (∀ r, task.retire? = some r → RetireOk c r) ∧ (task.isPublic → LookOk w look)
  | .claim r | .claimInfo r | .claimDestination r | .fence r | .fenceInfo r | .claimFile r =>
      RetireOk c r
  | .rename r => RetireOk c r ∧ StaleOk w r
  | _ => True

/-- What an observation of the pathname tells. -/
structure SeenOk (w : World C) (o : Observed C) : Prop where
  owner : ∀ g, o.info = some g → w.path = some g ∧ ∀ d, o.owner = some d → (w.directories g).owner = some d
  inactive : o.active = false → ∀ d, o.owner = some d → (w.phases d).isCrashed

/-- A contender may come to this phase. -/
def Enters (w : World C) (c : C) (p : Phase C) : Prop :=
  PhaseOk w c p ∧ (p.owning → (w.phases c).owning ∨ Owns w c)

theorem enters_nextAttempt (attempt : Nat) : Enters w c (nextAttempt attempt) := by
  unfold nextAttempt
  split <;> exact ⟨trivial, nofun⟩

theorem enters_cleaned (attempt : Nat) (again : Bool) : Enters w c (cleaned attempt again) := by
  unfold cleaned
  split
  · exact enters_nextAttempt attempt
  · exact ⟨trivial, nofun⟩

theorem enters_failAttempt (attempt acquired : Nat) : Enters w c (failAttempt attempt acquired) :=
  ⟨⟨nofun, fun _ => trivial⟩, nofun⟩

theorem enters_return (r : Retire C) (result thrown : Bool) :
    Enters w c (r.return result thrown) := by
  unfold Retire.return
  cases r.back with
  | reclaimed attempt =>
      dsimp only
      split
      · exact ⟨trivial, nofun⟩
      · exact enters_nextAttempt attempt
  | cleaned attempt again => exact enters_cleaned attempt again
  | released => exact ⟨trivial, nofun⟩

/-- Looking at the pathname tells what `SeenOk` says. -/
theorem seenOk_missing (active : Bool) : SeenOk w ⟨none, none, active⟩ :=
  ⟨nofun, nofun⟩

theorem seenOk_after {owner : Option C} (hpath : w.path = some g)
    (hok : LookOk w (.after g owner)) : SeenOk w ⟨some g, owner, !w.stale e owner⟩ := by
  constructor
  · intro g' hg'
    obtain rfl := Option.some.inj hg'
    exact ⟨hpath, hok.2 hpath⟩
  · intro hinactive d hd
    have hstale : w.stale e owner = true := by simpa using hinactive
    obtain rfl : owner = some d := hd
    simp only [World.stale, Bool.and_eq_true, Option.all_some] at hstale
    exact hstale.2

theorem owning_look {task : Task C} {tries : Nat} {look look' : Look C} (tries' : Nat) :
    (Phase.look task tries' look).owning = (Phase.look task tries look').owning := by
  cases task <;> rfl

theorem enters_advance (hr : RetireOk c r) (ho : r.back = .released → (w.phases c).owning) :
    Enters w c r.advance := by
  unfold Retire.advance
  split
  · exact ⟨hr, fun h => .inl (ho (of_decide_eq_true h))⟩
  · exact enters_return r false true

variable [DecidableEq C]

theorem resume_enters {task : Task C} {tries : Nat} {look : Look C} {o : Observed C}
    (hphase : w.phases c = .look task tries look) (hok : PhaseOk w c (w.phases c))
    (hseen : task.isPublic → SeenOk w o) : Enters w c (resume c task o) := by
  rw [hphase] at hok
  have hown : ∀ r, task.retire? = some r → r.back = .released → (w.phases c).owning := by
    intro r hr hback
    rw [hphase]
    cases task with
    | current r' | final r' =>
        obtain rfl := Option.some.inj hr
        exact decide_eq_true hback
    | _ => cases hr
  cases task with
  | existing attempt =>
      dsimp only [resume]
      split
      · exact enters_nextAttempt attempt
      · split
        · exact ⟨trivial, nofun⟩
        · exact ⟨nofun, nofun⟩
  | published attempt acquired =>
      dsimp only [resume]
      split
      · next h =>
          obtain ⟨hpath, howner⟩ := (hseen rfl).owner acquired h.1
          exact ⟨trivial, fun _ => .inr ⟨acquired, hpath, howner c h.2⟩⟩
      · exact enters_failAttempt attempt acquired
  | cleanup attempt acquired again =>
      dsimp only [resume]
      split
      · exact enters_cleaned attempt again
      · split
        · next h => exact ⟨fun _ d hd => Option.some.inj (hd.symm.trans h), nofun⟩
        · split
          · exact enters_cleaned attempt again
          · next h =>
              refine ⟨fun _ d hd => absurd (Or.inr ?_) h, nofun⟩
              rw [show o.owner = some d from hd]
              rfl
  | release =>
      dsimp only [resume]
      split
      · exact ⟨trivial, nofun⟩
      · split
        · next h =>
            refine ⟨fun _ d hd => Option.some.inj (hd.symm.trans h), fun _ => .inl ?_⟩
            rw [hphase]
            rfl
        · exact ⟨trivial, nofun⟩
  | current r =>
      dsimp only [resume]
      split
      · exact ⟨⟨hok.1, fun _ => trivial⟩, fun h => .inl (hown r rfl (of_decide_eq_true h))⟩
      · exact ⟨trivial, nofun⟩
  | final r =>
      dsimp only [resume]
      split
      · next hvalid =>
          refine ⟨⟨hok.1 r rfl, fun hstale d hd => ?_⟩, fun h => .inl (hown r rfl (of_decide_eq_true h))⟩
          simp only [Retire.valid, hstale, Bool.true_and, Bool.and_eq_true, decide_eq_true_eq,
            Bool.not_eq_true'] at hvalid
          exact (hseen rfl).inactive hvalid.1.2 d (hvalid.1.1.2.trans hd)
      · exact ⟨trivial, nofun⟩
  | moved r =>
      dsimp only [resume]
      split <;> exact ⟨trivial, nofun⟩
  | restoreBusy | restored => exact ⟨trivial, nofun⟩

/-! ## What a step does -/

/-- The effects of a call on the file system. -/
inductive Effect (w : World C) (c : C) : World C → Prop
  | none : Effect w c w
  | make : w.path = none → Effect w c w.makeDirectory
  | file {g : Nat} {files : Directory C} : w.path = some g →
      (∀ d, (w.directories g).owner = some d → files.owner = some d) →
      Effect w c (w.setDirectory g files)
  | claim (claim : Claim C) (v : Option Destination) : Effect w c (w.setClaim claim v)
  | rename {r : Retire C} {g : Nat} : w.phases c = .rename r → w.path = some g →
      Effect w c ({ w with path := .none }.setClaim r.claim (some (.retired g)))

/-- A step of a contender: an effect, none where it only reads, and the phase
it comes to. -/
def Allowed (w : World C) (c : C) (w' : World C) : Prop :=
  ∃ u p, w' = u.goto c p ∧ Effect w c u ∧ ((w.phases c).writes = false → u = w) ∧ Enters w c p

theorem allowed_goto {p : Phase C} (h : Enters w c p) : Allowed w c (w.goto c p) :=
  ⟨w, p, rfl, .none, fun _ => rfl, h⟩

theorem allowed_write {u : World C} {p : Phase C} (hwrites : (w.phases c).writes = true)
    (heffect : Effect w c u) (h : Enters w c p) : Allowed w c (u.goto c p) :=
  ⟨u, p, rfl, heffect, fun hf => absurd (hwrites.symm.trans hf) nofun, h⟩

/-- An owner record is published where there is none. -/
theorem add_owner {target source : Directory C} {entry : Entry C}
    (hfree : target.has entry = false) (h : target.owner = some d) :
    (target.add source entry).owner = some d := by
  cases entry with
  | owner =>
      rw [Directory.has, h] at hfree
      cases hfree
  | pending | heartbeat => exact h

/-- Publishing a file adds no other. -/
theorem add_has {target source : Directory C} {entry other : Entry C} (hne : other ≠ entry)
    (howner : entry ≠ .owner) (h : target.has other = false) :
    (target.add source entry).has other = false := by
  cases entry with
  | owner => exact absurd rfl howner
  | pending c =>
      cases other with
      | owner | heartbeat => exact h
      | pending x =>
          have hx : x ≠ c := fun heq => hne (heq ▸ rfl)
          simpa [Directory.add, Directory.has, hx] using h
  | heartbeat c =>
      cases other with
      | owner | pending => exact h
      | heartbeat x =>
          have hx : x ≠ c := fun heq => hne (heq ▸ rfl)
          simpa [Directory.add, Directory.has, hx] using h

theorem publish_eq_some {target source files : Directory C} {entry : Entry C}
    (h : target.publish source entry = some files) :
    target.has entry = false ∧ files = target.add source entry := by
  unfold Directory.publish at h
  split at h
  · cases h
  · next hfree => exact ⟨Bool.eq_false_iff.mpr hfree, (Option.some.inj h).symm⟩

theorem act_allowed_look {task : Task C} {tries : Nat} {look : Look C}
    (hphase : w.phases c = .look task tries look) (hok : PhaseOk w c (w.phases c))
    (hpath : ∀ g, w.path = some g → g < w.next) (h : act w c e = .ok w') : Allowed w c w' := by
  have hlook := hphase ▸ hok
  have hagain : ∀ tries look', (task.isPublic → LookOk w look') →
      Enters w c (.look task tries look') := by
    refine fun tries look' hl => ⟨⟨hlook.1, hl⟩, fun ho => .inl ?_⟩
    rw [hphase]
    exact (owning_look _).trans ho
  cases look with
  | before =>
      rw [act, hphase] at h
      dsimp only at h
      split at h
      · cases h
        exact allowed_goto (resume_enters hphase hok fun _ => seenOk_missing false)
      · next g hg =>
          cases h
          exact allowed_goto (hagain _ _ fun hp => hpath g (lookup_of_isPublic hp ▸ hg))
  | owner before =>
      rw [act, hphase] at h
      cases h
      refine allowed_goto (hagain _ _ fun hp => ⟨hlook.2 hp, fun hbefore d hd => ?_⟩)
      rw [lookup_of_isPublic hp, hbefore] at hd
      exact hd
  | after before owner =>
      rw [act, hphase] at h
      dsimp only at h
      split at h
      · next hg =>
          cases h
          exact allowed_goto (resume_enters hphase hok fun hp =>
            seenOk_after (lookup_of_isPublic hp ▸ hg) (hlook.2 hp))
      · split at h
        · cases h
          exact allowed_goto (hagain _ _ fun _ => trivial)
        · cases h
          exact allowed_goto (resume_enters hphase hok fun _ => seenOk_missing true)

/-- The phases of a retirement to its rename. -/
theorem act_allowed_retire (hpath : ∀ g, w.path = some g → g < w.next)
    (hretire : (w.phases c).retire? = some r) (hok : PhaseOk w c (w.phases c))
    (h : act w c e = .ok w') : Allowed w c w' := by
  cases hp : w.phases c with
  | look => exact act_allowed_look hp hok hpath h
  | rename r' =>
      rw [act, hp] at h
      dsimp only at h
      split at h
      · next g hg _ =>
          cases h
          exact allowed_write (by rw [hp]; rfl) (.rename hp hg) ⟨⟨nofun, nofun⟩, nofun⟩
      · cases h
        exact allowed_goto ⟨trivial, nofun⟩
  | claim r' =>
      rw [hp] at hretire hok
      obtain rfl := Option.some.inj hretire
      have hthis : Enters w c (.claimFile r') := ⟨hok, fun ho => .inl (hp ▸ ho)⟩
      rw [act, hp] at h
      dsimp only at h
      split at h <;> cases h
      · exact allowed_write (by rw [hp]; rfl) (.claim _ _) hthis
      · exact allowed_goto ⟨hok, fun ho => .inl (hp ▸ ho)⟩
  | claimInfo r' =>
      rw [hp] at hretire hok
      obtain rfl := Option.some.inj hretire
      rw [act, hp] at h
      dsimp only at h
      split at h <;> cases h
      · exact allowed_goto (enters_advance hok fun hback => hp ▸ decide_eq_true hback)
      · exact allowed_goto ⟨hok, fun ho => .inl (hp ▸ ho)⟩
  | claimDestination r' =>
      rw [hp] at hretire hok
      obtain rfl := Option.some.inj hretire
      have hadvance : Enters w c r'.advance :=
        enters_advance hok fun hback => hp ▸ decide_eq_true hback
      rw [act, hp] at h
      dsimp only at h
      split at h
      · cases h
        exact allowed_goto (enters_return r' false false)
      · cases h
        exact allowed_goto hadvance
      all_goals
        split at h <;> cases h
        · exact allowed_goto ⟨hok, fun ho => .inl (hp ▸ ho)⟩
        · exact allowed_goto (enters_return r' false false)
  | fence r' =>
      rw [hp] at hretire hok
      obtain rfl := Option.some.inj hretire
      rw [act, hp] at h
      dsimp only at h
      split at h <;> cases h
      · exact allowed_goto (enters_return r' false true)
      · exact allowed_write (by rw [hp]; rfl) (.claim _ _)
          (enters_advance hok fun hback => hp ▸ decide_eq_true hback)
      · exact allowed_goto ⟨hok, fun ho => .inl (hp ▸ ho)⟩
  | fenceInfo r' =>
      rw [hp] at hretire hok
      obtain rfl := Option.some.inj hretire
      rw [act, hp] at h
      dsimp only at h
      split at h <;> cases h
      · exact allowed_goto (enters_advance hok fun hback => hp ▸ decide_eq_true hback)
      · exact allowed_goto (enters_return r' false false)
  | claimFile r' =>
      rw [hp] at hretire hok
      obtain rfl := Option.some.inj hretire
      rw [act, hp] at h
      cases h
      refine allowed_goto ⟨⟨?_, fun _ => trivial⟩, fun ho => .inl (hp ▸ ho)⟩
      intro r hr
      obtain rfl := Option.some.inj hr
      exact hok
  | _ =>
      rw [hp] at hretire
      cases hretire

/-- What a step of a contender does. -/
theorem act_allowed (hpath : ∀ g, w.path = some g → g < w.next) (hok : PhaseOk w c (w.phases c))
    (h : act w c e = .ok w') : Allowed w c w' := by
  cases hp : w.phases c with
  | look => exact act_allowed_look hp hok hpath h
  | create attempt =>
      rw [act, hp] at h
      dsimp only at h
      split at h
      · next hnone =>
          cases h
          exact allowed_write (by rw [hp]; rfl) (.make hnone) ⟨trivial, nofun⟩
      · cases h
        exact allowed_goto ⟨⟨nofun, fun _ => trivial⟩, nofun⟩
  | inspect attempt =>
      rw [act, hp] at h
      dsimp only at h
      split at h <;> cases h
      · exact allowed_goto (enters_nextAttempt attempt)
      · exact allowed_goto ⟨trivial, nofun⟩
  | writePending attempt acquired =>
      rw [act, hp] at h
      dsimp only at h
      split at h
      · cases h
        exact allowed_goto (enters_failAttempt attempt acquired)
      · next g hg =>
          split at h <;> cases h
          · exact allowed_goto (enters_failAttempt attempt acquired)
          · exact allowed_write (by rw [hp]; rfl) (.file hg fun _ h => h) ⟨trivial, nofun⟩
  | writeHeartbeat attempt acquired =>
      rw [act, hp] at h
      dsimp only at h
      split at h
      · cases h
        exact allowed_goto (enters_failAttempt attempt acquired)
      · next g hg =>
          split at h <;> cases h
          · exact allowed_goto (enters_failAttempt attempt acquired)
          · exact allowed_write (by rw [hp]; rfl) (.file hg fun _ h => h) ⟨trivial, nofun⟩
  | beforePublish attempt acquired =>
      rw [act, hp] at h
      dsimp only at h
      split at h <;> cases h
      · exact allowed_goto ⟨trivial, nofun⟩
      · exact allowed_goto (enters_failAttempt attempt acquired)
  | link attempt acquired =>
      rw [act, hp] at h
      dsimp only at h
      split at h
      · cases h
        exact allowed_goto ⟨trivial, nofun⟩
      · split at h
        · cases h
          exact allowed_goto (enters_failAttempt attempt acquired)
        · next g hg =>
            split at h
            · cases h
              exact allowed_goto (enters_failAttempt attempt acquired)
            · next hfree =>
                cases h
                refine allowed_write (by rw [hp]; rfl) (.file hg fun d hd => ?_) ⟨trivial, nofun⟩
                rw [hd] at hfree
                exact absurd (Or.inr rfl) hfree
  | exclusiveWrite attempt acquired =>
      rw [act, hp] at h
      dsimp only at h
      split at h
      · cases h
        exact allowed_goto (enters_failAttempt attempt acquired)
      · next g hg =>
          split at h
          · cases h
            exact allowed_goto (enters_failAttempt attempt acquired)
          · next hfree =>
              cases h
              refine allowed_write (by rw [hp]; rfl) (.file hg fun d hd => ?_) ⟨trivial, nofun⟩
              rw [hd] at hfree
              exact absurd rfl hfree
  | removePending attempt acquired =>
      rw [act, hp] at h
      dsimp only at h
      split at h
      · cases h
        exact allowed_goto ⟨⟨nofun, fun _ => trivial⟩, nofun⟩
      · next g hg =>
          cases h
          exact allowed_write (by rw [hp]; rfl) (.file hg fun _ h => h)
            ⟨⟨nofun, fun _ => trivial⟩, nofun⟩
  | afterAcquire attempt acquired =>
      have howning : (w.phases c).owning := by
        rw [hp]
        rfl
      rw [act, hp] at h
      dsimp only at h
      split at h <;> cases h
      · exact allowed_goto ⟨trivial, fun _ => .inl howning⟩
      · exact allowed_goto ⟨⟨nofun, fun _ => trivial⟩, nofun⟩
  | held =>
      have howning : (w.phases c).owning := by
        rw [hp]
        rfl
      rw [act, hp] at h
      cases h
      exact allowed_goto ⟨⟨nofun, fun _ => trivial⟩, fun _ => .inl howning⟩
  | claim r | claimInfo r | claimDestination r | fence r | fenceInfo r | claimFile r | rename r =>
      exact act_allowed_retire hpath (by rw [hp]; rfl) hok h
  | restoreCreate r moved =>
      rw [act, hp] at h
      dsimp only at h
      split at h
      · next hnone =>
          cases h
          exact allowed_write (by rw [hp]; rfl) (.make hnone) ⟨trivial, nofun⟩
      · cases h
        exact allowed_goto ⟨⟨nofun, fun _ => trivial⟩, nofun⟩
  | restoreList r moved =>
      rw [act, hp] at h
      dsimp only at h
      split at h
      · split at h <;> cases h
        exact allowed_goto ⟨trivial, nofun⟩
      · cases h
        exact allowed_goto ⟨trivial, nofun⟩
  | restoreEntry r moved entries =>
      cases entries with
      | nil =>
          rw [act, hp] at h
          cases h
          exact allowed_goto ⟨⟨nofun, fun _ => trivial⟩, nofun⟩
      | cons entry rest =>
          rw [act, hp] at h
          dsimp only at h
          split at h
          · next g source hg hsource =>
              split at h
              · next files hfiles =>
                  cases h
                  refine allowed_write (by rw [hp]; rfl) (.file hg fun d hd => ?_) ⟨trivial, nofun⟩
                  obtain ⟨hfree, hadd⟩ := publish_eq_some hfiles
                  exact hadd ▸ add_owner hfree hd
              · cases h
                exact allowed_goto ⟨trivial, nofun⟩
          · cases h
            exact allowed_goto ⟨trivial, nofun⟩
  | destinationInfo r thrown =>
      rw [act, hp] at h
      dsimp only at h
      split at h <;> cases h
      · exact allowed_goto ⟨trivial, nofun⟩
      · exact allowed_goto ⟨trivial, nofun⟩
      · exact allowed_goto (enters_return r false thrown)
  | removeClaim r result thrown =>
      rw [act, hp] at h
      cases h
      exact allowed_write (by rw [hp]; rfl) (.claim r.claim none) (enters_return r result thrown)
  | failed | released | crashed =>
      rw [act, hp] at h
      cases h

/-! ## What stays -/

/-- Directories do not come back, owner records stay, and so do crashes. -/
structure Evolves (w w' : World C) : Prop where
  next_le : w.next ≤ w'.next
  owner : ∀ g d, g < w.next → (w.directories g).owner = some d → (w'.directories g).owner = some d
  path : ∀ g, g < w.next → w'.path = some g → w.path = some g
  crashed : ∀ c, (w.phases c).isCrashed → (w'.phases c).isCrashed

theorem Evolves.goto {u : World C} {p : Phase C} (h : Evolves w u)
    (hp : (w.phases c).isCrashed → p.isCrashed) : Evolves w (u.goto c p) where
  next_le := h.next_le
  owner := h.owner
  path := h.path
  crashed x hx := by
    by_cases hxc : x = c
    · subst hxc
      rw [goto_phases_self]
      exact hp hx
    · rw [goto_phases_of_ne _ _ hxc]
      exact h.crashed x hx

theorem Effect.evolves {u : World C} (h : Effect w c u) : Evolves w u := by
  cases h with
  | none => exact ⟨Nat.le_refl _, fun _ _ _ h => h, fun _ _ h => h, fun _ h => h⟩
  | make hnone =>
      refine ⟨Nat.le_succ _, fun g d hg h => ?_, fun g hg h => ?_, fun _ h => h⟩
      · rw [makeDirectory_directories_of_ne _ (Nat.ne_of_lt hg)]
        exact h
      · exact absurd (Option.some.inj h) (Nat.ne_of_gt hg)
  | @file g files hpath howner =>
      refine ⟨Nat.le_refl _, fun g' d _ h => ?_, fun _ _ h => h, fun _ h => h⟩
      by_cases hg' : g' = g
      · subst hg'
        rw [setDirectory_directories_self]
        exact howner d h
      · rw [setDirectory_directories_of_ne _ _ hg']
        exact h
  | claim => exact ⟨Nat.le_refl _, fun _ _ _ h => h, fun _ _ h => h, fun _ h => h⟩
  | rename => exact ⟨Nat.le_refl _, fun _ _ _ h => h, nofun, fun _ h => h⟩

theorem Effect.phases {u : World C} (h : Effect w c u) : u.phases = w.phases := by
  cases h <;> rfl

omit [DecidableEq C] in
theorem PhaseOk.evolves {p : Phase C} (hw : Evolves w w') (h : PhaseOk w c p) : PhaseOk w' c p := by
  cases p with
  | look task tries look =>
      refine ⟨h.1, fun hp => ?_⟩
      have hl := h.2 hp
      cases look with
      | before => trivial
      | owner before => exact Nat.lt_of_lt_of_le hl hw.next_le
      | after before owner =>
          refine ⟨Nat.lt_of_lt_of_le hl.1 hw.next_le, fun hpath d hd => ?_⟩
          exact hw.owner before d hl.1 (hl.2 (hw.path before hl.1 hpath) d hd)
  | rename r => exact ⟨h.1, fun hs d hd => hw.crashed d (h.2 hs d hd)⟩
  | _ => exact h

/-- What holds of every state whatever the steps. -/
structure Basic (w : World C) : Prop where
  path_lt : ∀ g, w.path = some g → g < w.next
  phases : ∀ c, PhaseOk w c (w.phases c)

theorem Basic.goto {u : World C} {p : Phase C} (h : Basic w) (hw : Evolves w (u.goto c p))
    (hphases : u.phases = w.phases) (hpath : ∀ g, u.path = some g → g < u.next)
    (hp : PhaseOk w c p) : Basic (u.goto c p) where
  path_lt := hpath
  phases x := by
    refine PhaseOk.evolves hw ?_
    by_cases hx : x = c
    · subst hx
      rw [goto_phases_self]
      exact hp
    · rw [goto_phases_of_ne _ _ hx, hphases]
      exact h.phases x

theorem not_crashed_of_act (h : act w c e = .ok w') : ¬ (w.phases c).isCrashed := by
  intro hcrashed
  cases hp : w.phases c with
  | crashed =>
      rw [act, hp] at h
      cases h
  | _ =>
      rw [hp] at hcrashed
      cases hcrashed

theorem basic_act (hw : Basic w) (h : act w c e = .ok w') : Basic w' := by
  have hcrashed := not_crashed_of_act h
  obtain ⟨u, p, rfl, heffect, -, henters⟩ := act_allowed hw.path_lt (hw.phases c) h
  refine hw.goto (heffect.evolves.goto fun hx => absurd hx hcrashed) heffect.phases ?_ henters.1
  intro g hg
  cases heffect with
  | none => exact hw.path_lt g hg
  | make =>
      obtain rfl := Option.some.inj hg
      exact Nat.lt_succ_self _
  | file | claim => exact hw.path_lt g hg
  | rename => cases hg

theorem basic_crash (hw : Basic w) : Basic (w.goto c .crashed) :=
  hw.goto (Evolves.goto (Effect.evolves (c := c) .none) fun _ => rfl) rfl hw.path_lt trivial

end Steps

end Locks

end SingularityFlow
