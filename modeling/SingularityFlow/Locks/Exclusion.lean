/-
# At most one contender has the lock

While a contender has the lock, its owner record stands in the directory at the
pathname, unless a delayed retirement has moved that directory aside: between
its last look and its rename the directory at the pathname may have become
another one.  `restoreRetiredSuccessor` then makes a new directory and publishes
the files there again.

Nothing keeps the pathname free until it has done so.  A contender that makes a
directory in that time gets the lock, and has it together with the contender
whose directory was moved.  `Undisturbed` names the steps in which that does not
happen, and over runs of such steps the lock is exclusive.

The invariant has two forms: every contender that has the lock is at the
pathname, or one retirement is on the way to put the only one back.
-/
import SingularityFlow.Locks.Steps

namespace SingularityFlow

open Ecma

namespace Locks

section Exclusion

variable {C : Type} [DecidableEq C] {w w' : World C} {a c d : C} {e : Surroundings C}
variable {r : Retire C} {g : Nat}

/-! ## The condition -/

/-- The retirement whose restore has not published the owner record yet. -/
def Phase.restoring? : Phase C → Option (Retire C)
  | .look (.moved r) _ _ | .restoreCreate r _ | .restoreList r _ => some r
  | .restoreEntry r _ rest => if .owner ∈ rest then some r else none
  | _ => none

/-- `a` has moved aside the directory of `d`, which has the lock. -/
def Aside (w : World C) (a d : C) : Prop :=
  (w.phases d).owning ∧ ∃ r g, (w.phases a).restoring? = some r
    ∧ w.claims r.claim = some (.retired g) ∧ (w.directories g).owner = some d

/-- While a directory of a contender that has the lock is aside, the contender
that moved it does not crash, and the others only read. -/
def Undisturbed (w : World C) : Action C → Prop
  | .act c _ => ∀ a d, Aside w a d → c = a ∨ (w.phases c).writes = false
  | .crash c => ∀ a d, Aside w a d → c ≠ a

/-! ## The restore -/

/-- What a look at the moved directory has found. -/
def MovedLook (g : Nat) (d : C) : Look C → Prop
  | .before => True
  | .owner before => before = g
  | .after before owner => before = g ∧ owner = some d

/-- How far the restore is: the pathname is free, or the directory there has
none of the files that are still to be published. -/
def Stage (w : World C) (r : Retire C) (g : Nat) (d : C) : Phase C → Prop
  | .look (.moved r') _ look => r' = r ∧ w.path = none ∧ MovedLook g d look
  | .restoreCreate r' _ => r' = r ∧ w.path = none
  | .restoreList r' _ =>
      r' = r ∧ ∃ p, w.path = some p ∧ ∀ entry, (w.directories p).has entry = false
  | .restoreEntry r' _ rest =>
      r' = r ∧ .owner ∈ rest ∧ rest.Nodup
        ∧ ∃ p, w.path = some p ∧ ∀ entry ∈ rest, (w.directories p).has entry = false
  | _ => False

/-- `a` has moved aside the directory `g` of `d`, by the retirement `r` of
another one, and is about to put it back. -/
structure Window (w : World C) (a : C) (r : Retire C) (g : Nat) (d : C) : Prop where
  claim : w.claims r.claim = some (.retired g)
  lt : g < w.next
  owner : (w.directories g).owner = some d
  other : ¬ (g = r.observed ∧ r.owner = some d)
  stage : Stage w r g d (w.phases a)

theorem Window.aside (h : Window w a r g d) (hd : (w.phases d).owning) : Aside w a d := by
  refine ⟨hd, r, g, ?_, h.claim, h.owner⟩
  have hstage := h.stage
  unfold Stage at hstage
  split at hstage
  · next heq => rw [heq, Phase.restoring?, hstage.1]
  · next heq => rw [heq, Phase.restoring?, hstage.1]
  · next heq => rw [heq, Phase.restoring?, hstage.1]
  · next heq => rw [heq, Phase.restoring?, if_pos hstage.2.1, hstage.1]
  · cases hstage

/-- Nobody is at the pathname. -/
theorem Window.not_owns (h : Window w a r g d) : ¬ Owns w c := by
  rintro ⟨p, hp, howner⟩
  have hempty : ∀ p', w.path = some p' → (w.directories p').has .owner = false → False := by
    intro p' hp' hfree
    obtain rfl := Option.some.inj (hp.symm.trans hp')
    rw [Directory.has, howner] at hfree
    cases hfree
  have hstage := h.stage
  unfold Stage at hstage
  split at hstage
  · cases hp.symm.trans hstage.2.1
  · cases hp.symm.trans hstage.2
  · obtain ⟨-, p', hp', hfree⟩ := hstage
    exact hempty p' hp' (hfree .owner)
  · obtain ⟨-, hmem, -, p', hp', hfree⟩ := hstage
    exact hempty p' hp' (hfree .owner hmem)
  · exact hstage

theorem Window.goto {p : Phase C} (h : Window w a r g d) (hne : a ≠ c) :
    Window (w.goto c p) a r g d where
  claim := h.claim
  lt := h.lt
  owner := h.owner
  other := h.other
  stage := by
    rw [goto_phases_of_ne _ _ hne]
    exact h.stage

/-- The step of the contender that is about to put the directory back. -/
theorem Window.step (h : Window w a r g d) (hact : act w a e = .ok w') :
    Window w' a r g d ∨ Owns w' d := by
  have hstage := h.stage
  have hgoto : ∀ p, Stage w r g d p → Window (w.goto a p) a r g d := by
    refine fun p hp => ⟨h.claim, h.lt, h.owner, h.other, ?_⟩
    rw [goto_phases_self]
    exact hp
  cases hphase : w.phases a with
  | look task tries look =>
      cases task with
      | moved r' =>
          rw [hphase] at hstage
          obtain ⟨rfl, hpath, hlook⟩ := hstage
          have hlookup : w.lookup (.moved r') = some g := by rw [World.lookup, h.claim]
          refine .inl ?_
          cases look with
          | before =>
              rw [act, hphase] at hact
              simp only [hlookup] at hact
              cases hact
              exact hgoto _ ⟨rfl, hpath, rfl⟩
          | owner before =>
              rw [act, hphase] at hact
              simp only [hlookup] at hact
              cases hact
              exact hgoto _ ⟨rfl, hpath, hlook, h.owner⟩
          | after before owner =>
              obtain ⟨rfl, rfl⟩ := hlook
              rw [act, hphase] at hact
              simp only [hlookup, if_pos] at hact
              cases hact
              refine hgoto _ ?_
              have hother : ¬ (some before = some r'.observed ∧ some d = r'.owner) :=
                fun hsame => h.other ⟨Option.some.inj hsame.1, hsame.2.symm⟩
              rw [resume, if_neg hother]
              exact ⟨rfl, hpath⟩
      | _ =>
          rw [hphase] at hstage
          cases hstage
  | restoreCreate r' moved =>
      rw [hphase] at hstage
      obtain ⟨rfl, hpath⟩ := hstage
      rw [act, hphase, hpath] at hact
      cases hact
      refine .inl ⟨h.claim, Nat.lt_succ_of_lt h.lt, ?_, h.other, ?_⟩
      · show (w.makeDirectory.directories g).owner = some d
        rw [makeDirectory_directories_of_ne _ (Nat.ne_of_lt h.lt)]
        exact h.owner
      · rw [goto_phases_self]
        refine ⟨rfl, w.next, rfl, fun entry => ?_⟩
        show (w.makeDirectory.directories w.next).has entry = false
        rw [makeDirectory_directories_self]
        cases entry <;> rfl
  | restoreList r' moved =>
      rw [hphase] at hstage
      obtain ⟨rfl, p, hpath, hfree⟩ := hstage
      rw [act, hphase] at hact
      simp only [h.claim] at hact
      split at hact <;> cases hact
      next hlists =>
        refine .inl (hgoto _ ⟨rfl, hlists.2.2.1 ?_, hlists.1, p, hpath, fun entry _ => hfree entry⟩)
        rw [h.owner]
        rfl
  | restoreEntry r' moved entries =>
      rw [hphase] at hstage
      obtain ⟨rfl, hmem, hnodup, p, hpath, hfree⟩ := hstage
      cases entries with
      | nil => cases hmem
      | cons entry rest =>
          have hne : g ≠ p := by
            rintro rfl
            have := hfree .owner hmem
            rw [Directory.has, h.owner] at this
            cases this
          rw [act, hphase] at hact
          simp only [hpath, h.claim, Directory.publish, hfree entry List.mem_cons_self,
            Bool.false_eq_true, if_false] at hact
          cases hact
          obtain ⟨hentry, hrest⟩ := List.nodup_cons.mp hnodup
          by_cases howner : entry = .owner
          · refine .inr ⟨p, hpath, ?_⟩
            show ((w.setDirectory p _).directories p).owner = some d
            rw [setDirectory_directories_self, howner]
            exact h.owner
          · refine .inl ⟨h.claim, h.lt, ?_, h.other, ?_⟩
            · show ((w.setDirectory p _).directories g).owner = some d
              rw [setDirectory_directories_of_ne _ _ hne]
              exact h.owner
            · rw [goto_phases_self]
              refine ⟨rfl, (List.mem_cons.mp hmem).resolve_left (Ne.symm howner), hrest, p, hpath, ?_⟩
              intro other hother
              show ((w.setDirectory p _).directories p).has other = false
              rw [setDirectory_directories_self]
              have hold := hfree other (List.mem_cons_of_mem entry hother)
              exact add_has (fun heq => hentry (heq ▸ hother)) howner hold
  | _ =>
      rw [hphase] at hstage
      cases hstage

/-! ## The invariant -/

/-- Every contender that has the lock is at the pathname. -/
def Seated (w : World C) : Prop := ∀ c, (w.phases c).owning → Owns w c

structure Inv (w : World C) : Prop where
  basic : Basic w
  seats : Seated w ∨ ∃ a r g d, Window w a r g d ∧ ∀ c, (w.phases c).owning → c = d

theorem Inv.exclusive (h : Inv w) (hc : (w.phases c).owning) (hd : (w.phases d).owning) : c = d := by
  rcases h.seats with hseated | ⟨a, r, g, d', -, honly⟩
  · exact (hseated c hc).unique (hseated d hd)
  · exact (honly c hc).trans (honly d hd).symm

/-- A step that keeps the pathname leaves everybody there. -/
theorem seated_goto {u : World C} {p : Phase C} (h : Seated w) (hphases : u.phases = w.phases)
    (hkeeps : ∀ x, Owns w x → Owns u x) (hp : p.owning → (w.phases c).owning ∨ Owns w c) :
    Seated (u.goto c p) := by
  intro x hx
  by_cases hxc : x = c
  · subst hxc
    rw [goto_phases_self] at hx
    exact hkeeps x ((hp hx).elim (h x) id)
  · rw [goto_phases_of_ne _ _ hxc, hphases] at hx
    exact hkeeps x (h x hx)

/-- Only a rename takes a directory away from the pathname. -/
theorem Effect.keeps {u : World C} (h : Effect w c u) (hrename : ∀ r, w.phases c ≠ .rename r)
    {x : C} (howns : Owns w x) : Owns u x := by
  obtain ⟨g, hg, howner⟩ := howns
  cases h with
  | none | claim => exact ⟨g, hg, howner⟩
  | make hnone => cases hnone.symm.trans hg
  | file hpath hkeeps =>
      obtain rfl := Option.some.inj (hpath.symm.trans hg)
      exact ⟨_, hg, by rw [setDirectory_directories_self]; exact hkeeps x howner⟩
  | rename hphase => exact absurd hphase (hrename _)

/-- A rename takes away a directory that nobody has, its own contender's, or
another one than was looked at: then the restore begins. -/
theorem seats_rename (hw : Basic w) (h : Seated w) (hphase : w.phases c = .rename r)
    (hact : act w c e = .ok w') :
    Seated w' ∨ ∃ a r g d, Window w' a r g d ∧ ∀ x, (w'.phases x).owning → x = d := by
  rw [act, hphase] at hact
  dsimp only at hact
  split at hact
  · next g hg _ =>
      cases hact
      have hothers : ∀ x, (w.phases x).owning → (w.directories g).owner = some x := by
        intro x hx
        obtain ⟨g', hg', howner⟩ := h x hx
        obtain rfl := Option.some.inj (hg.symm.trans hg')
        exact howner
      have howning : ∀ {u : World C} x, u.phases = w.phases →
          ((u.goto c (observe (.moved r))).phases x).owning → x ≠ c ∧ (w.phases x).owning := by
        intro u x hu hx
        by_cases hxc : x = c
        · subst hxc
          rw [goto_phases_self] at hx
          cases hx
        · rw [goto_phases_of_ne _ _ hxc, hu] at hx
          exact ⟨hxc, hx⟩
      by_cases hsome : ∃ d, d ≠ c ∧ (w.phases d).owning
      · obtain ⟨d, hne, hd⟩ := hsome
        have howner := hothers d hd
        refine .inr ⟨c, r, g, d, ⟨?_, hw.path_lt g hg, howner, ?_, ?_⟩, ?_⟩
        · show (Function.update w.claims r.claim (some (.retired g))) r.claim = some (.retired g)
          rw [Function.update_self]
        · rintro ⟨-, hsame⟩
          have hok := hphase ▸ hw.phases c
          by_cases hstale : r.requireStale = true
          · have hcrashed := hok.2 hstale d hsame
            cases hp : w.phases d with
            | crashed =>
                rw [hp] at hd
                cases hd
            | _ =>
                rw [hp] at hcrashed
                cases hcrashed
          · exact hne (hok.1 (Bool.eq_false_iff.mpr hstale) d hsame)
        · rw [goto_phases_self]
          exact ⟨rfl, rfl, trivial⟩
        · intro x hx
          exact Option.some.inj ((hothers x (howning x rfl hx).2).symm.trans howner)
      · refine .inl fun x hx => absurd ⟨x, howning x rfl hx⟩ hsome
  · cases hact
    exact .inl (seated_goto h rfl (fun _ hx => hx) fun howns => by cases howns)

theorem inv_act (h : Inv w) (hguard : Undisturbed w (.act c e)) (hact : act w c e = .ok w') :
    Inv w' := by
  refine ⟨basic_act h.basic hact, ?_⟩
  obtain ⟨u, p, hw', heffect, hreads, -, howning⟩ := act_allowed h.basic.path_lt (h.basic.phases c) hact
  have hseated : Seated w →
      Seated w' ∨ ∃ a r g d, Window w' a r g d ∧ ∀ x, (w'.phases x).owning → x = d := by
    intro hs
    by_cases hrename : ∃ r, w.phases c = .rename r
    · obtain ⟨r, hr⟩ := hrename
      exact seats_rename h.basic hs hr hact
    · subst hw'
      exact .inl (seated_goto hs heffect.phases
        (fun _ => heffect.keeps fun r hr => hrename ⟨r, hr⟩) howning)
  rcases h.seats with hs | ⟨a, r, g, d, hwindow, honly⟩
  · exact hseated hs
  · by_cases hd : (w.phases d).owning
    · have honly' : ∀ x, (w'.phases x).owning → x = d := by
        intro x hx
        subst hw'
        by_cases hxc : x = c
        · subst hxc
          rw [goto_phases_self] at hx
          exact (howning hx).elim (honly x) fun ho => absurd ho hwindow.not_owns
        · rw [goto_phases_of_ne _ _ hxc, heffect.phases] at hx
          exact honly x hx
      by_cases hca : a = c
      · subst hca
        rcases hwindow.step hact with hnext | howns
        · exact .inr ⟨a, r, g, d, hnext, honly'⟩
        · refine .inl fun x hx => ?_
          rw [honly' x hx]
          exact howns
      · have hreading := (hguard a d (hwindow.aside hd)).resolve_left (Ne.symm hca)
        obtain rfl := hreads hreading
        subst hw'
        exact .inr ⟨a, r, g, d, hwindow.goto hca, honly'⟩
    · refine hseated fun x hx => absurd hx ?_
      rw [honly x hx]
      exact hd

theorem inv_crash (h : Inv w) (hguard : Undisturbed w (.crash c)) : Inv (w.goto c .crashed) := by
  refine ⟨basic_crash h.basic, ?_⟩
  have howning : ∀ x, ((w.goto c .crashed).phases x).owning → (w.phases x).owning := by
    intro x hx
    by_cases hxc : x = c
    · subst hxc
      rw [goto_phases_self] at hx
      cases hx
    · rw [goto_phases_of_ne _ _ hxc] at hx
      exact hx
  rcases h.seats with hs | ⟨a, r, g, d, hwindow, honly⟩
  · exact .inl fun x hx => hs x (howning x hx)
  · by_cases hd : (w.phases d).owning
    · exact .inr ⟨a, r, g, d, hwindow.goto (Ne.symm (hguard a d (hwindow.aside hd))),
        fun x hx => honly x (howning x hx)⟩
    · refine .inl fun x hx => absurd (howning x hx) ?_
      rw [honly x (howning x hx)]
      exact hd

theorem inv_step {action : Action C} (h : Inv w) (hguard : Undisturbed w action)
    (hstep : step w action = .ok w') : Inv w' := by
  cases action with
  | act c e => exact inv_act h hguard hstep
  | crash c =>
      cases hstep
      exact inv_crash h hguard

theorem inv_start : Inv (start C) :=
  ⟨⟨nofun, fun _ => trivial⟩, .inl nofun⟩

/-- **Mutual exclusion.**  In every run whose steps leave the restores
undisturbed, at most one contender has the lock in any state. -/
theorem run_exclusive {past : List (World C × Action C)}
    (h : GuardedRun step (start C) Undisturbed past w) {c d : C}
    (hc : (w.phases c).owning) (hd : (w.phases d).owning) : c = d :=
  (h.run.invariant (fun _ w => Inv w) Undisturbed h.guarded inv_start
    fun hinv hguard hstep => inv_step hinv hguard hstep).exclusive hc hd

end Exclusion

/-! ## Two runs -/

/-- A directory without an owner is old, and all else is as it should be. -/
def oldDirectory : Surroundings (Fin 3) := ⟨true, true, true, [.heartbeat 0, .owner]⟩

/-- The first contender makes a directory and stalls.  The second one judges the
directory stale and stalls before its rename, while the first one is given the
lock. -/
def delayedRename : List (Action (Fin 3)) :=
  .act 0 oldDirectory :: List.replicate 12 (.act 1 oldDirectory)
    ++ List.replicate 10 (.act 0 oldDirectory)

/-- Whoever acts is the only one that may be restoring. -/
def solelyRestores {n : Nat} (entry : World (Fin n) × Action (Fin n)) : Bool :=
  match entry.2 with
  | .act c _ => (List.finRange n).all fun a => a = c || (entry.1.phases a).restoring?.isNone
  | .crash _ => false

theorem undisturbed_of_solelyRestores {n : Nat} {entry : World (Fin n) × Action (Fin n)}
    (h : solelyRestores entry = true) : Undisturbed entry.1 entry.2 := by
  obtain ⟨w, action⟩ := entry
  cases action with
  | crash => cases h
  | act c e =>
      rintro a d ⟨-, r, g, hr, -⟩
      have ha := List.all_eq_true.mp h a (List.mem_finRange a)
      rw [hr, Bool.or_eq_true, decide_eq_true_eq] at ha
      exact .inl (ha.resolve_right nofun).symm

/-- The delayed rename moves the directory of the first contender aside, and the
second one restores it; the third one finds the lock held. -/
theorem run_exclusive_restored : ∃ past w, GuardedRun step (start (Fin 3)) Undisturbed past w
    ∧ (w.phases 0).owning ∧ ∀ d, (w.phases d).owning → d = 0 := by
  have hrun : ∃ run, runFrom step ([], start (Fin 3))
        (delayedRename ++ List.replicate 13 (.act 1 oldDirectory)
          ++ List.replicate 4 (.act 2 oldDirectory)) = .ok run
      ∧ run.1.all solelyRestores ∧ (run.2.phases 0).owning := ⟨_, rfl, rfl, rfl⟩
  obtain ⟨run, hrun, hguard, howning⟩ := hrun
  have hguarded : GuardedRun step (start (Fin 3)) Undisturbed run.1 run.2 :=
    ⟨Run.of_runFrom .start hrun, fun entry hentry =>
      undisturbed_of_solelyRestores (List.all_eq_true.mp hguard entry hentry)⟩
  exact ⟨run.1, run.2, hguarded, howning, fun d hd => run_exclusive hguarded hd howning⟩

/-- After the delayed rename the third contender makes a directory before the
second one does, and two have the lock. -/
theorem run_two_held : ∃ past w, Run step (start (Fin 3)) past w
    ∧ w.phases 0 = .held ∧ w.phases 2 = .held := by
  have hrun : ∃ run, runFrom step ([], start (Fin 3))
        (delayedRename ++ .act 1 oldDirectory :: List.replicate 11 (.act 2 oldDirectory)) = .ok run
      ∧ run.2.phases 0 = .held ∧ run.2.phases 2 = .held := ⟨_, rfl, rfl, rfl⟩
  obtain ⟨run, hrun, hfirst, hthird⟩ := hrun
  exact ⟨run.1, run.2, Run.of_runFrom .start hrun, hfirst, hthird⟩

end Locks

end SingularityFlow
