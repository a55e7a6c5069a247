/-
# At most one contender has a file lease

Every contender that has created the file, and has neither given it up nor
crashed, has it at the pathname (`Inv.owns`); for the file of a live contender is
moved by nobody: a reclaim whose claim is not fenced is about the file at the
pathname, and that one's owner has crashed.

A registry lease is read by its name after `lstat`, so that the two may be of
different files.  A reclaimer that saw a file before its record was written, in a
time too short to show, can read the empty file of a successor on its second look
and take both for what it saw first.  `lease_two_held` is such a run: the reclaimer
moves a successor, which lets another one move the lease of a live owner.
-/
import SingularityFlow.Leases.ContentionSteps

namespace SingularityFlow

open Ecma

namespace Contention

section Exclusion

variable {C : Type} {kind : Kind} {w w' u : World C} {c d : C}
variable {e : Surroundings} {r : Reclaim C} {id : FileId}

/-! ## What an effect leaves -/

theorem own_alive (hown : (w.phases c).own? = some id) : w.phases c ≠ .crashed := by
  intro hcrashed
  rw [hcrashed] at hown
  cases hown

/-- A step that changes no file and no claim, and brings nothing to the pathname. -/
theorem Evolves.of_same {a : Option C} (hfiles : w'.files = w.files) (hclaims : w'.claims = w.claims)
    (hcrashed : ∀ c, w.phases c = .crashed → w'.phases c = .crashed)
    (harrives : ∀ id, w'.path = some id → w.path = some id)
    (hleaves : ∀ id, w.path = some id → w'.path = some id ∨ ¬ Abandoned w id) :
    Evolves kind a w w' where
  crashed := hcrashed
  files _ f hf := ⟨f, hfiles ▸ hf, rfl, fun _ => rfl, fun _ => ⟨Nat.le_refl _, fun _ => rfl⟩⟩
  arrives id hid := .inl (harrives id hid)
  leaves id hid := (hleaves id hid).imp (fun h => h) .inl
  claims _ claim hclaim :=
    ⟨claim, hclaims ▸ hclaim, rfl, fun h => h, fun h => h, fun _ hd => .inl hd⟩

variable [DecidableEq C]

theorem Effect.phases (h : Effect kind w c u) : u.phases = w.phases := by
  cases h <;> rfl

/-- A contender that is alive goes on. -/
theorem evolves_goto {a : Option C} {p : Phase C} (halive : u.phases c ≠ .crashed ∨ p = .crashed) :
    Evolves kind a u (u.goto c p) := by
  refine .of_same rfl rfl (fun d hd => ?_) (fun _ h => h) (fun _ h => .inl h)
  by_cases hdc : d = c
  · subst hdc
    rcases halive with halive | rfl
    · exact absurd hd halive
    · exact goto_self u d _
  · rw [goto_of_ne _ _ hdc]
    exact hd

/-- **What the others know outlives an effect.** -/
theorem Effect.evolves (hinv : Inv kind w) (h : Effect kind w c u) :
    Evolves kind (some c) w u := by
  cases h with
  | none => exact .of_same rfl rfl (fun _ h => h) (fun _ h => h) (fun _ h => .inl h)
  | @create id f hnone hfresh hcreator =>
      refine ⟨fun _ h => h, fun id' f' hf' => ?_, fun id' hid' => .inr ?_, fun id' hid' => ?_, ?_⟩
      · have hne : id' ≠ id := fun heq => nomatch (heq ▸ hf').symm.trans hfresh
        exact ⟨f', (setFile_of_ne _ _ hne).trans hf', rfl, fun _ => rfl,
          fun _ => ⟨Nat.le_refl _, fun _ => rfl⟩⟩
      · rw [← Option.some.inj hid']
        exact hfresh
      · cases hnone.symm.trans hid'
      · exact fun _ claim hclaim => ⟨claim, hclaim, rfl, fun h => h, fun h => h, fun _ hd => .inl hd⟩
  | @write id f f' hown hf hcreator htime =>
      refine ⟨fun _ h => h, fun id' g hg => ?_, fun _ h => .inl h, fun _ h => .inl h, ?_⟩
      · by_cases hid : id' = id
        · subst hid
          obtain rfl := Option.some.inj (hf.symm.trans hg)
          obtain ⟨-, g, hg', howner⟩ := hinv.owns c id' hown
          obtain rfl := Option.some.inj (hf.symm.trans hg')
          exact ⟨f', setFile_self _ _ _, hcreator,
            fun hcrashed => absurd (howner ▸ hcrashed) (own_alive hown), htime⟩
        · exact ⟨g, (setFile_of_ne _ _ hid).trans hg, rfl, fun _ => rfl,
            fun _ => ⟨Nat.le_refl _, fun _ => rfl⟩⟩
      · exact fun _ claim hclaim => ⟨claim, hclaim, rfl, fun h => h, fun h => h, fun _ hd => .inl hd⟩
  | @remove id hown =>
      refine .of_same rfl rfl (fun _ h => h) (fun _ h => nomatch h) fun id' hid' => .inr ?_
      rintro ⟨f, hf, hcrashed⟩
      obtain ⟨hpath, f', hf', howner⟩ := hinv.owns c id hown
      obtain rfl := Option.some.inj (hpath.symm.trans hid')
      obtain rfl := Option.some.inj (hf.symm.trans hf')
      exact own_alive hown (howner ▸ hcrashed)
  | @claim r hnone hfenced =>
      refine ⟨fun _ h => h, fun _ f hf => ⟨f, hf, rfl, fun _ => rfl, fun _ => ⟨Nat.le_refl _, fun _ => rfl⟩⟩,
        fun _ h => .inl h, fun _ h => .inl h, fun r' claim hclaim => ?_⟩
      have hne : r' ≠ r := fun heq => nomatch (heq ▸ hclaim).symm.trans hnone
      exact ⟨claim, (setClaim_of_ne _ _ hne).trans hclaim, rfl, fun h => h, fun h => h,
        fun _ hd => .inl hd⟩
  | @fence r creator hmissing =>
      refine ⟨fun _ h => h, fun _ f hf => ⟨f, hf, rfl, fun _ => rfl, fun _ => ⟨Nat.le_refl _, fun _ => rfl⟩⟩,
        fun _ h => .inl h, fun _ h => .inl h, fun r' claim hclaim => ?_⟩
      by_cases hr : r' = r
      · subst hr
        obtain rfl := Option.some.inj (hmissing.symm.trans hclaim)
        exact ⟨_, setClaim_self _ _ _, rfl, fun _ => rfl, nofun, fun _ _ => .inr rfl⟩
      · exact ⟨claim, (setClaim_of_ne _ _ hr).trans hclaim, rfl, fun h => h, fun h => h,
          fun _ hd => .inl hd⟩
  | @retire r id hready hmissing hpath =>
      refine ⟨fun _ h => h, fun _ f hf => ⟨f, hf, rfl, fun _ => rfl, fun _ => ⟨Nat.le_refl _, fun _ => rfl⟩⟩,
        nofun, fun id' hid' => .inr (.inr ⟨r, c, rfl, ?_, hready.genuine, hmissing⟩),
        fun r' claim hclaim => ?_⟩
      · exact Option.some.inj ((hready.path c hmissing).symm.trans hid')
      · by_cases hr : r' = r
        · subst hr
          obtain rfl := Option.some.inj (hmissing.symm.trans hclaim)
          exact ⟨_, setClaim_self _ _ _, rfl, nofun, nofun, fun hne => absurd rfl hne⟩
        · exact ⟨claim, (setClaim_of_ne _ _ hr).trans hclaim, rfl, fun h => h, fun h => h,
            fun _ hd => .inl hd⟩

/-- Another contender that has its file keeps it. -/
theorem Effect.owns (hinv : Inv kind w) (h : Effect kind w c u) (hne : d ≠ c)
    (hown : (w.phases d).own? = some id) : Owns u d id := by
  have howns := hinv.owns d id hown
  obtain ⟨hpath, f, hf, howner⟩ := hinv.owns d id hown
  cases h with
  | none => exact ⟨hpath, f, hf, howner⟩
  | create hnone => cases hnone.symm.trans hpath
  | write hown' => exact absurd (howns.unique (hinv.owns c _ hown')) hne
  | remove hown' => exact absurd (howns.unique (hinv.owns c _ hown')) hne
  | claim => exact ⟨hpath, f, hf, howner⟩
  | fence => exact ⟨hpath, f, hf, howner⟩
  | retire hready hmissing hpath' =>
      obtain ⟨f', hf', -, -, hcrashed⟩ := hready.genuine
      obtain rfl := Option.some.inj ((hready.path c hmissing).symm.trans hpath)
      obtain rfl := Option.some.inj (hf.symm.trans hf')
      exact absurd (howner ▸ hcrashed) (own_alive hown)

theorem Effect.path (hinv : Inv kind w) (h : Effect kind w c u) (hid : u.path = some id) :
    ∃ f, u.files id = some f := by
  cases h with
  | none | claim | fence => exact hinv.path id hid
  | create =>
      obtain rfl := Option.some.inj hid
      exact ⟨_, setFile_self _ _ _⟩
  | @write id' =>
      by_cases hne : id = id'
      · subst hne
        exact ⟨_, setFile_self _ _ _⟩
      · obtain ⟨f, hf⟩ := hinv.path id hid
        exact ⟨f, (setFile_of_ne _ _ hne).trans hf⟩
  | remove => cases hid
  | retire => cases hid

/-- Only a claim behind fenced ones is new. -/
theorem Effect.chain (hinv : Inv kind w) (h : Effect kind w c u) (hr : Standing u r) : Fenced u r := by
  have hkept : Standing w r → Fenced u r := fun hold => (hinv.chain r hold).evolves (h.evolves hinv)
  have hset : ∀ {r' claim}, (∃ old, w.claims r' = some old) → (u.claims = (w.setClaim r' claim).claims) →
      Fenced u r := by
    intro r' claim hold hclaims
    refine hkept ?_
    by_cases hne : r = r'
    · exact hne ▸ hold
    · obtain ⟨new, hnew⟩ := hr
      rw [hclaims, setClaim_of_ne _ _ hne] at hnew
      exact ⟨new, hnew⟩
  cases h with
  | none | create | write | remove => exact hkept hr
  | @claim r' hnone hfenced =>
      by_cases hne : r = r'
      · subst hne
        exact hfenced.evolves ((Effect.claim hnone hfenced).evolves hinv)
      · obtain ⟨new, hnew⟩ := hr
        rw [setClaim_of_ne _ _ hne] at hnew
        exact hkept ⟨new, hnew⟩
  | fence hmissing => exact hset ⟨_, hmissing⟩ rfl
  | retire _ hmissing => exact hset ⟨_, hmissing⟩ rfl

/-- **One step of a contender.** -/
theorem inv_allowed (hinv : Inv kind w) (halive : w.phases c ≠ .crashed)
    (h : Allowed kind w c w') : Inv kind w' := by
  obtain ⟨u, p, rfl, heffect, henters⟩ := h
  have hphases := heffect.phases
  have halive' : u.phases c ≠ .crashed ∨ p = .crashed := .inl (hphases ▸ halive)
  have hgoto : ∀ {a : Option C}, Evolves kind a u (u.goto c p) := evolves_goto halive'
  have hchain : ∀ r, Standing u r → Fenced u r := fun _ hr => heffect.chain hinv hr
  have hpath : ∀ id, u.path = some id → ∃ f, u.files id = some f := fun _ => heffect.path hinv
  refine ⟨fun d id hown => ?_, hpath, hchain, fun d => ?_⟩
  · by_cases hdc : d = c
    · subst hdc
      rw [goto_self] at hown
      exact henters.own id hown
    · rw [goto_of_ne _ _ hdc, hphases] at hown
      have howns : Owns u d id := heffect.owns hinv hdc hown
      exact howns
  · by_cases hdc : d = c
    · subst hdc
      rw [goto_self]
      exact henters.ok.evolves (a := none) hgoto hchain nofun
    · rw [goto_of_ne _ _ hdc, hphases]
      have hne : some c ≠ some d := fun heq => hdc (Option.some.inj heq).symm
      exact ((hinv.phases d).evolves (heffect.evolves hinv) hinv.chain hne).evolves
        (a := none) hgoto hchain nofun

omit [DecidableEq C] in
theorem phaseOk_of_own {p : Phase C} (h : p.own? = some id) : PhaseOk kind u c p := by
  cases p with
  | look task look =>
      cases task with
      | release => trivial
      | _ => cases h
  | stat | write | sync | held | candidate | remove => trivial
  | _ => cases h

/-- A change of its own file by a contender that has it. -/
theorem touch_allowed {p : Phase C} {change : File C → File C} (h : w.touch id change = .ok u)
    (hinv : Inv kind w) (hown : (w.phases c).own? = some id) (hp : p.own? = some id)
    (hcreator : ∀ f, (change f).creator = f.creator)
    (htime : ∀ f, w.files id = some f → kind = .registry →
      f.mtime ≤ (change f).mtime ∧ ((change f).mtime = f.mtime → (change f).content = f.content)) :
    Allowed kind w c (u.goto c p) := by
  unfold World.touch at h
  split at h
  · cases h
  · next f hf =>
      cases h
      exact allowed_write hinv (fun _ => phaseOk_of_own hp) hown hp hf (hcreator f) (htime f hf)

theorem touch_goto {change : File C → File C} (h : w.touch id change = .ok u) :
    u.goto c (w.phases c) = u := by
  unfold World.touch at h
  split at h
  · cases h
  · cases h
    exact congrArg (fun phases => { w.setFile id _ with phases }) (Function.update_eq_self c w.phases)

omit [DecidableEq C] in
/-- What is asked of a step. -/
def Admissible (kind : Kind) (w : World C) (action : Action C) : Prop :=
  Fair w action ∧ Timely kind w action

/-- A crash keeps nothing but the files. -/
theorem inv_crash (hinv : Inv kind w) : Inv kind (w.goto c .crashed) := by
  have hgoto : Evolves kind none w (w.goto c .crashed) := evolves_goto (.inr rfl)
  refine ⟨fun d id hown => ?_, hinv.path, hinv.chain, fun d => ?_⟩
  · by_cases hdc : d = c
    · subst hdc
      rw [goto_self] at hown
      cases hown
    · rw [goto_of_ne _ _ hdc] at hown
      have howns : Owns w d id := hinv.owns d id hown
      exact howns
  · by_cases hdc : d = c
    · subst hdc
      rw [goto_self]
      trivial
    · rw [goto_of_ne _ _ hdc]
      exact (hinv.phases d).evolves hgoto hinv.chain nofun

theorem inv_step {action : Action C} (hinv : Inv kind w) (hguard : Admissible kind w action)
    (h : step kind w action = .ok w') : Inv kind w' := by
  obtain ⟨hfair, htimely⟩ := hguard
  cases action with
  | act c e =>
      have hact : w.phases c ≠ .crashed ∧ Allowed kind w c w' := by
        unfold step at h
        dsimp only at h
        split at h
        · cases h
        · cases h
        · next hfinished hcrashed =>
            refine ⟨hcrashed, ?_⟩
            split at h
            · exact call_allowed hinv hfair htimely h
            · cases h
              exact failed_allowed hinv
      exact inv_allowed hinv hact.1 hact.2
  | beat c mtime =>
      cases kind with
      | cache => cases h
      | registry =>
          cases hown : (w.phases c).own? with
          | none =>
              simp only [step, hown] at h
              cases h
          | some id =>
              simp only [step, hown] at h
              have hallowed := touch_allowed h hinv hown hown (fun _ => rfl)
                fun f hf _ => ⟨htimely id f hown hf, fun _ => rfl⟩
              rw [touch_goto h] at hallowed
              exact inv_allowed hinv (own_alive hown) hallowed
  | truncate c mtime =>
      cases kind with
      | registry => cases h
      | cache =>
          cases hheld : w.phases c with
          | held own =>
              have hown : (w.phases c).own? = some own.id := by rw [hheld]; rfl
              simp only [step, hheld] at h
              have hallowed := touch_allowed h hinv hown hown (fun _ => rfl)
                fun _ _ hkind => by cases hkind
              rw [touch_goto h] at hallowed
              exact inv_allowed hinv (own_alive hown) hallowed
          | _ =>
              simp only [step, hheld] at h
              cases h
  | rewrite c mtime =>
      cases kind with
      | registry => cases h
      | cache =>
          cases hheld : w.phases c with
          | held own =>
              have hown : (w.phases c).own? = some own.id := by rw [hheld]; rfl
              simp only [step, hheld] at h
              split at h
              · next u htouch =>
                  cases h
                  exact inv_allowed hinv (own_alive hown)
                    (touch_allowed htouch hinv hown rfl (fun _ => rfl) fun _ _ hkind => by cases hkind)
              · cases h
          | _ =>
              simp only [step, hheld] at h
              cases h
  | crash c =>
      cases h
      exact inv_crash hinv

omit [DecidableEq C] in
theorem inv_start : Inv kind (start C) where
  owns _ _ hown := nomatch hown
  path _ hid := nomatch hid
  chain _ hr := by
    obtain ⟨_, hclaim⟩ := hr
    cases hclaim
  phases _ := trivial

/-! ## Every run -/

/-- A rename into the claim moves a file of the pathname, and it is the one that
was judged stale. -/
def MovesOnlyAbandoned (w : World C) (r : Reclaim C) : Prop :=
  ∀ id, w.moves r = some id → id = r.identity.info.id ∧ Abandoned w id

/-- **Mutual exclusion.**  Where no lease of a live owner is judged stale, and
names and times tell files and changes apart, at most one contender has the
lease in any state of a run, and a delayed reclaimer moves no other file than the
abandoned one that it observed. -/
theorem lease_exclusive {past : List (World C × Action C)}
    (h : GuardedRun (step kind) (start C) (Admissible kind) past w) :
    (∀ c d, (w.phases c).own?.isSome → (w.phases d).own?.isSome → c = d)
      ∧ ∀ c r, w.phases c = .rename r → MovesOnlyAbandoned w r := by
  have hinv : Inv kind w := h.run.invariant (fun _ w => Inv kind w) (Admissible kind) h.guarded
    inv_start fun hinv hguard hstep => inv_step hinv hguard hstep
  constructor
  · intro c d hc hd
    obtain ⟨id, hid⟩ := Option.isSome_iff_exists.mp hc
    obtain ⟨id', hid'⟩ := Option.isSome_iff_exists.mp hd
    exact (hinv.owns c id hid).unique (hinv.owns d id' hid')
  · intro c r hp id hmoves
    obtain ⟨hclaimed, hready⟩ := hp ▸ hinv.phases c
    rcases hclaimed with hclaim | hclaim
    · simp only [World.moves, hclaim] at hmoves
      obtain rfl := Option.some.inj ((hready.path c hclaim).symm.trans hmoves)
      obtain ⟨f, hf, -, -, hcrashed⟩ := hready.genuine
      exact ⟨rfl, f, hf, hcrashed⟩
    · simp only [World.moves, hclaim] at hmoves
      cases hmoves

omit [DecidableEq C] in
/-- Nor is a lease judged stale while that of a live owner is at the pathname. -/
def FairThere (w : World C) : Action C → Prop
  | .act c e => ∀ task info content, w.phases c = .look task (.judge info content) →
      e.stale = true → ∀ id, w.path = some id → Abandoned w id
  | _ => True

end Exclusion

/-! ## Two runs -/

section Samples

variable {n : Nat} {w : World (Fin n)} {c : Fin n} {e : Surroundings}

def abandoned (w : World (Fin n)) (id : FileId) : Bool :=
  (w.files id).any fun f =>
    match w.phases f.creator with
    | .crashed => true
    | _ => false

theorem abandoned_of_check {id : FileId} (h : abandoned w id = true) : Abandoned w id := by
  obtain ⟨f, hf, hcrashed⟩ := (Option.any_eq_true _ _).mp h
  refine ⟨f, hf, ?_⟩
  split at hcrashed
  · assumption
  · cases hcrashed

/-- A call judges nothing stale but what is abandoned, here and there. -/
def fairCall (w : World (Fin n)) (c : Fin n) (e : Surroundings) : Bool :=
  match w.phases c with
  | .look _ (.judge info _) =>
      !e.stale || (abandoned w info.id && w.path.all fun id => abandoned w id)
  | _ => true

theorem fair_of_fairCall (h : fairCall w c e = true) :
    Fair w (.act c e) ∧ FairThere w (.act c e) := by
  have hboth : ∀ task info content, w.phases c = .look task (.judge info content) → e.stale = true →
      abandoned w info.id = true ∧ (w.path.all fun id => abandoned w id) = true := by
    intro task info content hp hstale
    simp only [fairCall, hp, hstale, Bool.not_true, Bool.false_or, Bool.and_eq_true] at h
    exact h
  refine ⟨fun task info content hp hstale => ?_, fun task info content hp hstale id hpath => ?_⟩
  · exact abandoned_of_check (hboth task info content hp hstale).1
  · have hall := (hboth task info content hp hstale).2
    rw [hpath] at hall
    exact abandoned_of_check hall

/-- A call creates a new file, and writes at a later time. -/
def timelyCall (w : World (Fin n)) (c : Fin n) (e : Surroundings) : Bool :=
  match w.phases c with
  | .opening => (w.files e.id).isNone || w.path.isSome
  | .write id => (w.files id).all fun f => f.mtime < e.mtime
  | _ => true

theorem timely_of_timelyCall {kind : Kind} (h : timelyCall w c e = true) :
    Timely kind w (.act c e) := by
  refine ⟨fun hp hpath => ?_, fun id f hp _ hf => ?_⟩
  · simp only [timelyCall, hp, hpath, Option.isSome_none, Bool.or_false] at h
    exact Option.isNone_iff_eq_none.mp h
  · simp only [timelyCall, hp, hf, Option.all_some, decide_eq_true_eq] at h
    exact h

/-- A crash or a call with the properties. -/
def checked (check : World (Fin n) → Fin n → Surroundings → Bool)
    (entry : World (Fin n) × Action (Fin n)) : Bool :=
  match entry.2 with
  | .act c e => check entry.1 c e
  | .crash _ => true
  | _ => false

end Samples

/-- Some calls of a contender; it creates the file with the number, and writes at
the time. -/
def calls {n : Nat} (count : Nat) (c : Fin n) (file mtime : Nat) : List (Action (Fin n)) :=
  List.replicate count (.act c ⟨true, true, true, ⟨file, file⟩, mtime⟩)

/-- The owner crashes when it has the lease; the second contender reclaims it,
and has it then. -/
def reclaiming : List (Action (Fin 2)) :=
  calls 2 0 0 0 ++ calls 2 0 0 1 ++ [.crash 0] ++ calls 10 1 1 2 ++ calls 2 1 1 3 ++ calls 2 1 1 4

/-- At most one has the lease after a reclaim. -/
theorem lease_exclusive_reclaimed : ∃ past w,
    GuardedRun (step .registry) (start (Fin 2)) (Admissible .registry) past w
      ∧ (w.phases 1).own?.isSome ∧ ∀ d, (w.phases d).own?.isSome → d = 1 := by
  have hrun : ∃ run, runFrom (step .registry) ([], start (Fin 2)) reclaiming = .ok run
      ∧ run.1.all (checked fun w c e => fairCall w c e && timelyCall w c e)
      ∧ (run.2.phases 1).own?.isSome := ⟨_, rfl, rfl, rfl⟩
  obtain ⟨run, hrun, hguard, hown⟩ := hrun
  have hguarded : GuardedRun (step .registry) (start (Fin 2)) (Admissible .registry) run.1 run.2 := by
    refine ⟨Run.of_runFrom .start hrun, fun entry hentry => ?_⟩
    have hchecked := List.all_eq_true.mp hguard entry hentry
    obtain ⟨w, action⟩ := entry
    cases action with
    | act c e =>
        obtain ⟨hfair, htimely⟩ := Bool.and_eq_true_iff.mp hchecked
        exact ⟨(fair_of_fairCall hfair).1, timely_of_timelyCall htimely⟩
    | crash => exact ⟨trivial, trivial⟩
    | _ => cases hchecked
  exact ⟨run.1, run.2, hguarded, hown, fun d hd => (lease_exclusive hguarded).1 d 1 hd hown⟩

/-- The first contender writes its record within the time of its creation, while
the second one has read the empty file, and crashes.  The third one reclaims the
file while the second one is at its second look.  The fourth one creates a file
and crashes, which the fifth one is about to reclaim, and which the second one
takes for the first file.  After it has moved that one, the fifth one moves the
lease of the sixth. -/
def mixingFiles : List (Action (Fin 7)) :=
  calls 2 0 0 0 ++ calls 3 1 0 0 ++ calls 1 0 0 0 ++ [.crash 0] ++ calls 4 1 0 0 ++ calls 10 2 0 0
    ++ calls 1 3 1 0 ++ [.crash 3] ++ calls 9 4 0 0 ++ calls 3 1 0 0 ++ calls 4 5 2 0
    ++ calls 1 4 0 0 ++ calls 4 6 3 0

/-- **Two contenders have the lease**, though nothing was judged stale while its
owner was alive. -/
theorem lease_two_held : ∃ past w own own',
    GuardedRun (step .registry) (start (Fin 7)) (fun w action => Fair w action ∧ FairThere w action)
        past w
      ∧ w.phases 5 = .held own ∧ w.phases 6 = .held own' := by
  have hrun : ∃ run own own', runFrom (step .registry) ([], start (Fin 7)) mixingFiles = .ok run
      ∧ run.1.all (checked fairCall) ∧ run.2.phases 5 = .held own ∧ run.2.phases 6 = .held own' :=
    ⟨_, _, _, rfl, rfl, rfl, rfl⟩
  obtain ⟨run, own, own', hrun, hguard, hfirst, hsecond⟩ := hrun
  refine ⟨run.1, run.2, own, own', ⟨Run.of_runFrom .start hrun, fun entry hentry => ?_⟩,
    hfirst, hsecond⟩
  have hchecked := List.all_eq_true.mp hguard entry hentry
  obtain ⟨w, action⟩ := entry
  cases action with
  | act c e => exact fair_of_fairCall hchecked
  | crash => exact ⟨trivial, trivial⟩
  | _ => cases hchecked

end Contention

end SingularityFlow
