/-
# What a join says of its predecessors

`sgosJoinReadiness` looks at the states of the predecessors as they are now,
and some of them are still pending.  Its two flags are about the future all
the same: `impossible` means that the join cannot become ready however the
pending predecessors end, and neither flag is ever taken back.
-/
import SingularityFlow.Sgos.Scheduler
import Mathlib.Data.List.Forall2

namespace SingularityFlow

open Ecma

namespace Sgos

/-! ## Predecessors over time -/

/-- The pending predecessors have ended, each in some terminal state. -/
def Ends (states ended : List (Option TaskState)) : Prop :=
  List.Forall₂ (fun s e => terminal e = true ∧ (terminal s = true → e = s)) states ended

/-- Some pending predecessors have moved on; what was terminal has stayed. -/
def Moves (states later : List (Option TaskState)) : Prop :=
  List.Forall₂ (fun s l => terminal s = true → l = s) states later

theorem terminal_of_succeeded {state : Option TaskState} (h : succeeded state = true) :
    terminal state = true := by
  obtain rfl : state = some .succeeded := by simpa [succeeded] using h
  rfl

/-- A predecessor that has succeeded, or can still. -/
def hopeful (state : Option TaskState) : Bool := succeeded state || !terminal state

/-- The possible successes that a quorum counts are the hopeful predecessors. -/
theorem countP_hopeful (states : List (Option TaskState)) :
    states.countP succeeded + states.countP (!terminal ·) = states.countP hopeful := by
  induction states with
  | nil => rfl
  | cons s states ih =>
      have hs : succeeded s = true → terminal s = true := terminal_of_succeeded
      cases h : succeeded s <;> cases h' : terminal s <;> simp_all [hopeful] <;> omega

section Forall2

variable {α β : Type} {R : α → β → Prop} {p : α → Bool} {q : β → Bool} {l : List α} {l' : List β}

theorem countP_le_of_forall₂ (h : List.Forall₂ R l l')
    (hpq : ∀ a b, R a b → p a = true → q b = true) : l.countP p ≤ l'.countP q := by
  induction h with
  | nil => exact le_rfl
  | cons hab _ ih =>
      rw [List.countP_cons, List.countP_cons]
      split
      · next hp => rw [if_pos (hpq _ _ hab hp)]; omega
      · omega

theorem all_of_forall₂ (h : List.Forall₂ R l l')
    (hpq : ∀ a b, R a b → p a = true → q b = true) (hall : l.all p = true) : l'.all q = true := by
  induction h with
  | nil => rfl
  | cons hab _ ih =>
      rw [List.all_cons, Bool.and_eq_true] at hall ⊢
      exact ⟨hpq _ _ hab hall.1, ih hall.2⟩

theorem any_of_forall₂ (h : List.Forall₂ R l l')
    (hpq : ∀ a b, R a b → p a = true → q b = true) (hany : l.any p = true) : l'.any q = true := by
  induction h with
  | nil => exact hany
  | cons hab _ ih =>
      rw [List.any_cons, Bool.or_eq_true] at hany ⊢
      exact hany.imp (hpq _ _ hab) ih

end Forall2

/-! ## The verdict -/

/-- The flags of a join, when it is asked about as many states as it has
predecessors. -/
def verdict (join : Join) (states : List (Option TaskState)) : Readiness :=
  match join.policy with
  | .allSuccess | .deterministicReduce =>
      ⟨states.all succeeded, states.any fun state => terminal state && !succeeded state⟩
  | .quorum =>
      ⟨join.requiredSuccesses ≤ states.countP succeeded,
        (states.countP hopeful : Int) < join.requiredSuccesses⟩
  | .allTerminal | .manualReconcile => ⟨states.all terminal, false⟩

theorem sgosJoinReadiness_eq {join : Join} {states : List (Option TaskState)}
    (h : states.length = join.predecessorTaskTemplateIds.length) :
    sgosJoinReadiness join states = .ok (verdict join states) := by
  have hcount := countP_hopeful states
  unfold sgosJoinReadiness verdict failIf
  rw [if_neg (not_not.mpr h)]
  rcases join.policy <;> simp [bind, Except.bind, ← hcount]

variable {join : Join} {states later ended : List (Option TaskState)}

/-- One flag at most is set. -/
theorem not_ready_of_impossible (h : (verdict join states).impossible = true) :
    (verdict join states).ready = false := by
  have hle : states.countP succeeded ≤ states.countP hopeful := by
    have := countP_hopeful states
    omega
  have hall : (states.any fun state => terminal state && !succeeded state) = true →
      states.all succeeded = false := by
    intro hany
    obtain ⟨state, hmem, hstate⟩ := List.any_eq_true.mp hany
    rw [List.all_eq_false]
    exact ⟨state, hmem, by simp_all⟩
  unfold verdict at h ⊢
  rcases hpolicy : join.policy <;> simp only [hpolicy] at h ⊢
  case allSuccess | deterministicReduce => exact hall h
  case quorum => simp only [decide_eq_true_eq, decide_eq_false_iff_not] at h ⊢; omega
  case allTerminal | manualReconcile => cases h

/-- A ready join stays ready. -/
theorem ready_of_moves (hmoves : Moves states later) (h : (verdict join states).ready = true) :
    (verdict join later).ready = true := by
  have hsucceeded : ∀ s l, (terminal s = true → l = s) → succeeded s = true → succeeded l = true :=
    fun s l hsl hs => by rw [hsl (terminal_of_succeeded hs)]; exact hs
  unfold verdict at h ⊢
  rcases hpolicy : join.policy <;> simp only [hpolicy] at h ⊢
  case allSuccess | deterministicReduce => exact all_of_forall₂ hmoves hsucceeded h
  case quorum =>
      have := countP_le_of_forall₂ hmoves hsucceeded
      simp only [decide_eq_true_eq] at h ⊢
      omega
  case allTerminal | manualReconcile =>
      exact all_of_forall₂ hmoves (fun s l hsl hs => by rw [hsl hs]; exact hs) h

/-- An impossible join stays impossible. -/
theorem impossible_of_moves (hmoves : Moves states later)
    (h : (verdict join states).impossible = true) : (verdict join later).impossible = true := by
  unfold verdict at h ⊢
  rcases hpolicy : join.policy <;> simp only [hpolicy] at h ⊢
  case allSuccess | deterministicReduce =>
      refine any_of_forall₂ hmoves (fun s l hsl hs => ?_) h
      rw [hsl (Bool.and_eq_true _ _ ▸ hs).1]
      exact hs
  case quorum =>
      -- a predecessor that is hopeful later was hopeful before
      have := countP_le_of_forall₂ (p := hopeful) (q := hopeful) hmoves.flip fun l s hsl hl => by
        by_cases hs : terminal s = true
        · rw [hsl hs] at hl; exact hl
        · simp [hopeful, hs]
      simp only [decide_eq_true_eq] at h ⊢
      omega
  case allTerminal | manualReconcile => cases h

theorem Ends.moves (h : Ends states ended) : Moves states ended := h.imp fun _ _ h => h.2

/-- The end in which every pending predecessor succeeds. -/
def bestEnd (states : List (Option TaskState)) : List (Option TaskState) :=
  states.map fun state => if terminal state then state else some .succeeded

theorem ends_bestEnd (states : List (Option TaskState)) : Ends states (bestEnd states) := by
  rw [Ends, bestEnd, List.forall₂_map_right_iff, List.forall₂_same]
  intro state _
  by_cases h : terminal state = true
  · simp [h]
  · simp [h]; rfl

theorem countP_bestEnd (states : List (Option TaskState)) :
    (bestEnd states).countP succeeded = states.countP hopeful := by
  rw [bestEnd, List.countP_map]
  refine List.countP_congr fun state _ => ?_
  by_cases h : terminal state = true <;> simp [h, hopeful, succeeded]

/-- A join that is not impossible becomes ready when all goes well. -/
theorem ready_bestEnd (h : (verdict join states).impossible = false) :
    (verdict join (bestEnd states)).ready = true := by
  unfold verdict at h ⊢
  rcases hpolicy : join.policy <;> simp only [hpolicy] at h ⊢
  case allSuccess | deterministicReduce =>
      refine List.all_eq_true.mpr fun state hstate => ?_
      obtain ⟨before, hmem, rfl⟩ := List.mem_map.mp hstate
      have := List.any_eq_false.mp h before hmem
      by_cases hterminal : terminal before = true
      · simpa [hterminal] using this
      · simp [hterminal, succeeded]
  case quorum =>
      rw [countP_bestEnd]
      simpa using h
  case allTerminal | manualReconcile =>
      exact all_of_forall₂ (ends_bestEnd states) (p := fun _ => true) (fun _ _ h _ => h.1) (by simp)

/-! ## Exactness -/

/-- What the flags of a join say, now and later.  The later states are those
of any number of moves. -/
structure ExactVerdict (join : Join) (states : List (Option TaskState)) (readiness : Readiness) :
    Prop where
  impossible : readiness.impossible = true ↔ ∀ ended, Ends states ended →
    ∃ final, sgosJoinReadiness join ended = .ok final ∧ final.ready = false
  exclusive : ¬ (readiness.ready = true ∧ readiness.impossible = true)
  stable : ∀ later, Relation.ReflTransGen Moves states later →
    ∃ next, sgosJoinReadiness join later = .ok next
      ∧ (readiness.ready = true → next.ready = true)
      ∧ (readiness.impossible = true → next.impossible = true)

theorem Moves.length_eq (h : Moves states later) : later.length = states.length :=
  (List.Forall₂.length_eq h).symm

/-- **The flags of a join** are exact and final. -/
theorem sgosJoinReadiness_exact (join : Join) {states : List (Option TaskState)}
    (h : states.length = join.predecessorTaskTemplateIds.length) :
    ∃ readiness, sgosJoinReadiness join states = .ok readiness
      ∧ ExactVerdict join states readiness := by
  refine ⟨_, sgosJoinReadiness_eq h, ⟨⟨fun himpossible ended hends => ?_, fun hnever => ?_⟩,
    fun ⟨hready, himpossible⟩ => ?_, fun later hrun => ?_⟩⟩
  · have hlength := hends.moves.length_eq.trans h
    exact ⟨_, sgosJoinReadiness_eq hlength,
      not_ready_of_impossible (impossible_of_moves hends.moves himpossible)⟩
  · by_contra hpossible
    obtain ⟨final, hfinal, hnot⟩ := hnever _ (ends_bestEnd states)
    have hlength := (ends_bestEnd states).moves.length_eq.trans h
    obtain rfl := Except.ok.inj ((sgosJoinReadiness_eq hlength).symm.trans hfinal)
    rw [ready_bestEnd (by simpa using hpossible)] at hnot
    cases hnot
  · rw [not_ready_of_impossible himpossible] at hready
    cases hready
  · -- by induction on the run, with the number of states that the join asks for
    suffices hall : later.length = states.length
        ∧ ((verdict join states).ready = true → (verdict join later).ready = true)
        ∧ ((verdict join states).impossible = true → (verdict join later).impossible = true) from
      ⟨_, sgosJoinReadiness_eq (hall.1.trans h), hall.2⟩
    induction hrun with
    | refl => exact ⟨rfl, id, id⟩
    | tail _ hmoves ih =>
        exact ⟨hmoves.length_eq.trans ih.1, ready_of_moves hmoves ∘ ih.2.1,
          impossible_of_moves hmoves ∘ ih.2.2⟩

/-- A quorum of two among three, of which one has failed. -/
def sampleJoin : Join := ⟨js "merge", js "merge", .quorum, 2, [js "a", js "b", js "c"]⟩

theorem sgosJoinReadiness_exact_quorum :
    ∃ readiness, sgosJoinReadiness sampleJoin [some .failed, some .running, none] = .ok readiness
      ∧ ExactVerdict sampleJoin [some .failed, some .running, none] readiness :=
  sgosJoinReadiness_exact sampleJoin rfl

end Sgos

end SingularityFlow
