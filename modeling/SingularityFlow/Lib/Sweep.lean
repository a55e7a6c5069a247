/-
# Sweeps

A sweep visits places one after another and gives each open place the value
that a rule finds for it, which may depend on all values as they are by then.
So the outcome can depend on the order of the visits, and a second sweep can
change it again.

Where values that are final stay, and the rule keeps to that (`Settles`), both
come down to one test (`sweep_iff`): it must make no difference to any open
place whether the others have their new values already.
-/
import Mathlib.Data.List.Perm.Basic
import Mathlib.Logic.Function.Basic

namespace Ecma

/-- Which values a sweep replaces, which ones stay for good, and what the rule
finds for a place. -/
structure Sweep (ι S : Type) where
  opened : S → Bool
  final : S → Prop
  next : (ι → S) → ι → S

namespace Sweep

variable {ι S : Type} [DecidableEq ι] (w : Sweep ι S)

def visit (σ : ι → S) (i : ι) : ι → S :=
  if w.opened (σ i) then Function.update σ i (w.next σ i) else σ

def run : List ι → (ι → S) → ι → S
  | [], σ => σ
  | i :: order, σ => run order (w.visit σ i)

/-- All places at once, each by the values before. -/
def together (places : List ι) (σ : ι → S) : ι → S :=
  fun i => if i ∈ places ∧ w.opened (σ i) = true then w.next σ i else σ i

/-- Values that some course of events can lead to: what was final has stayed. -/
def Later (σ τ : ι → S) : Prop := ∀ i, w.final (σ i) → τ i = σ i

/-- A rule that keeps to what is final. -/
structure Settles : Prop where
  open_not_final : ∀ {s}, w.opened s = true → ¬ w.final s
  next_open_or_final : ∀ σ i, w.opened (w.next σ i) = true ∨ w.final (w.next σ i)
  keeps_final : ∀ {σ τ i}, w.Later σ τ → w.final (w.next σ i) → w.next τ i = w.next σ i
  between : ∀ {σ τ υ i}, w.Later σ τ → w.Later τ υ → w.next υ i = w.next σ i →
    w.next τ i = w.next σ i

variable {w} {σ τ : ι → S} {i : ι}

omit [DecidableEq ι] in
theorem Later.refl (σ : ι → S) : w.Later σ σ := fun _ _ => rfl

theorem run_append : ∀ (order order' : List ι) (σ : ι → S),
    w.run (order ++ order') σ = w.run order' (w.run order σ)
  | [], _, _ => rfl
  | i :: order, order', σ => run_append order order' (w.visit σ i)

theorem visit_open (h : w.opened (σ i) = true) :
    w.visit σ i = Function.update σ i (w.next σ i) := by
  rw [visit, if_pos h]

theorem visit_closed (h : w.opened (σ i) = false) : w.visit σ i = σ := by
  rw [visit, h, if_neg Bool.false_ne_true]

theorem visit_of_ne {j : ι} (h : j ≠ i) : w.visit σ i j = σ j := by
  unfold visit
  split
  · exact Function.update_of_ne h ..
  · rfl

theorem together_nil : w.together [] σ = σ := by
  funext i
  simp [together]

/-! ## What a sweep keeps -/

theorem later_visit (hw : w.Settles) (h : w.Later σ τ) (i : ι) : w.Later σ (w.visit τ i) := by
  intro j hj
  by_cases hji : j = i
  · subst hji
    have hclosed : w.opened (τ j) = false := by
      rw [h j hj]
      exact Bool.eq_false_iff.mpr fun hopen => hw.open_not_final hopen hj
    rw [visit_closed hclosed, h j hj]
  · rw [visit_of_ne hji, h j hj]

theorem later_run (hw : w.Settles) : ∀ (order : List ι) {τ : ι → S}, w.Later σ τ →
    w.Later σ (w.run order τ)
  | [], _, h => h
  | i :: order, _, h => later_run hw order (later_visit hw h i)

theorem later_together (hw : w.Settles) (places : List ι) : w.Later σ (w.together places σ) := by
  intro i hi
  rw [together, if_neg]
  exact fun h => hw.open_not_final h.2 hi

theorem run_of_not_mem : ∀ {order : List ι} {σ : ι → S}, i ∉ order → w.run order σ i = σ i
  | [], _, _ => rfl
  | j :: order, σ, h => by
      rw [List.mem_cons, not_or] at h
      exact (run_of_not_mem (σ := w.visit σ j) h.2).trans (visit_of_ne h.1)

/-- A closed place keeps its value. -/
theorem run_of_closed : ∀ {order : List ι} {σ : ι → S}, w.opened (σ i) = false →
    w.run order σ i = σ i
  | [], _, _ => rfl
  | j :: order, σ, h => by
      have hvisit : w.visit σ j i = σ i := by
        by_cases hij : i = j
        · subst hij
          rw [visit_closed h]
        · exact visit_of_ne hij
      rw [run, run_of_closed (hvisit ▸ h), hvisit]

/-- A place that becomes final by the values at the start becomes so in every
sweep over it. -/
theorem run_of_final (hw : w.Settles) (hopen : w.opened (σ i) = true)
    (hfinal : w.final (w.next σ i)) : ∀ {order : List ι} {τ : ι → S}, order.Nodup → i ∈ order →
    w.Later σ τ → τ i = σ i → w.run order τ i = w.next σ i
  | j :: order, τ, hnodup, hmem, hlater, hsame => by
      rw [List.nodup_cons] at hnodup
      by_cases hij : i = j
      · subst hij
        have hvisit : w.visit τ i i = w.next σ i := by
          rw [visit_open (hsame ▸ hopen), Function.update_self, hw.keeps_final hlater hfinal]
        exact (run_of_not_mem hnodup.1).trans hvisit
      · rw [run]
        exact run_of_final hw hopen hfinal hnodup.2 ((List.mem_cons.mp hmem).resolve_left hij)
          (later_visit hw hlater j) ((visit_of_ne hij).trans hsame)

/-! ## The test -/

/-- It makes no difference to any open place whether the others have their new
values already. -/
def Unaffected (w : Sweep ι S) (places : List ι) (σ : ι → S) : Prop :=
  ∀ i ∈ places, w.opened (σ i) = true → w.next (w.together places σ) i = w.next σ i

variable {places : List ι}

/-- One more visit, where those before did what they do together. -/
theorem visit_together (hw : w.Settles) (h : w.Unaffected places σ) {visited : List ι}
    (hsub : visited ⊆ places) (hi : i ∈ places) (hnew : i ∉ visited) :
    w.visit (w.together visited σ) i = w.together (visited ++ [i]) σ := by
  have hself : w.together visited σ i = σ i := by rw [together, if_neg fun h => hnew h.1]
  have hlater : w.Later (w.together visited σ) (w.together places σ) := by
    intro j hj
    unfold together at hj ⊢
    by_cases hv : j ∈ visited ∧ w.opened (σ j) = true
    · rw [if_pos hv, if_pos ⟨hsub hv.1, hv.2⟩]
    · rw [if_neg hv] at hj ⊢
      rw [if_neg fun hp => hw.open_not_final hp.2 hj]
  funext j
  by_cases hji : j = i
  · subst hji
    cases hopen : w.opened (σ j) with
    | true =>
        rw [visit_open (hself ▸ hopen), Function.update_self,
          hw.between (later_together hw visited) hlater (h j hi hopen), together,
          if_pos ⟨by simp, hopen⟩]
    | false =>
        rw [visit_closed (hself ▸ hopen), hself, together, if_neg (by simp [hopen])]
  · rw [visit_of_ne hji, together, together]
    simp [hji]

theorem run_together (hw : w.Settles) (h : w.Unaffected places σ) :
    ∀ {rest visited : List ι}, (visited ++ rest).Nodup → visited ++ rest ⊆ places →
    w.run rest (w.together visited σ) = w.together (visited ++ rest) σ
  | [], visited, _, _ => by rw [List.append_nil]; rfl
  | i :: rest, visited, hnodup, hsub => by
      have hstep := visit_together hw h (List.append_subset.mp hsub).1
        (hsub (by simp)) (fun hv => (List.nodup_append.mp hnodup).2.2 i hv i (by simp) rfl)
      rw [List.append_cons] at hnodup hsub ⊢
      rw [← run_together hw h hnodup hsub, ← hstep, run]

/-- A sweep in any order does what all places do together. -/
theorem run_eq_together (hw : w.Settles) (h : w.Unaffected places σ) (hnodup : places.Nodup)
    {order : List ι} (hperm : order.Perm places) : w.run order σ = w.together places σ := by
  have hrun : w.run order (w.together [] σ) = w.together ([] ++ order) σ :=
    run_together hw h (hperm.nodup_iff.mpr hnodup) hperm.subset
  rw [together_nil, List.nil_append] at hrun
  rw [hrun]
  funext i
  rw [together, together]
  simp only [hperm.mem_iff]

/-- And a second sweep finds nothing to change. -/
theorem run_together_self (h : w.Unaffected places σ) : ∀ {order : List ι}, order ⊆ places →
    w.run order (w.together places σ) = w.together places σ
  | [], _ => rfl
  | i :: order, hsub => by
      obtain ⟨hi, hsub⟩ := List.cons_subset.mp hsub
      have hvisit : w.visit (w.together places σ) i = w.together places σ := by
        cases hopen : w.opened (w.together places σ i) with
        | false => exact visit_closed hopen
        | true =>
            have hbefore : w.opened (σ i) = true := by
              by_contra hclosed
              rw [together, if_neg fun h => hclosed h.2] at hopen
              exact hclosed hopen
            rw [visit_open hopen, h i hi hbefore, Function.update_eq_self_iff, together,
              if_pos ⟨hi, hbefore⟩]
      rw [run, hvisit]
      exact run_together_self h hsub

/-- Where the order makes no difference, the test holds: the place is visited
first once, and last once. -/
theorem unaffected_of_perm (hw : w.Settles) (hnodup : places.Nodup)
    (h : ∀ order : List ι, order.Perm places → w.run order σ = w.run places σ) :
    w.Unaffected places σ := by
  intro i hi hopen
  rcases hw.next_open_or_final σ i with hnext | hfinal
  swap
  · exact hw.keeps_final (later_together hw places) hfinal
  have hnotMem : i ∉ places.erase i := fun hmem => (hnodup.mem_erase_iff.mp hmem).1 rfl
  have hfirst : w.run (i :: places.erase i) σ i = w.next σ i := by
    rw [run, run_of_not_mem hnotMem, visit_open hopen, Function.update_self]
  have hsame : w.run (places.erase i) σ i = σ i := run_of_not_mem hnotMem
  have hlast : w.run (places.erase i ++ [i]) σ i = w.next (w.run (places.erase i) σ) i := by
    rw [run_append, run, run, visit_open (hsame ▸ hopen), Function.update_self]
  have heq : w.next (w.run (places.erase i) σ) i = w.next σ i := by
    rw [← hlast, ← hfirst, h _ (List.perm_cons_erase hi).symm,
      h _ ((List.perm_append_singleton ..).trans (List.perm_cons_erase hi).symm)]
  -- the new values lie between the values at the start and those before the last visit
  refine hw.between (later_together hw places) (fun j hj => ?_) heq
  by_cases hj' : j ∈ places ∧ w.opened (σ j) = true
  · rw [together, if_pos hj'] at hj ⊢
    have hji : j ≠ i := by
      rintro rfl
      exact hw.open_not_final hnext hj
    exact run_of_final hw hj'.2 hj (hnodup.erase i) ((List.mem_erase_of_ne hji).mpr hj'.1)
      (Later.refl σ) rfl
  · rw [together, if_neg hj'] at hj ⊢
    exact later_run hw _ (Later.refl σ) j hj

/-- **The outcome of a sweep** is the same in every order, and for good,
exactly if no open place is affected by the new values of the others. -/
theorem sweep_iff (hw : w.Settles) (hnodup : places.Nodup) :
    ((∀ order : List ι, order.Perm places → w.run order σ = w.run places σ)
        ∧ w.run places (w.run places σ) = w.run places σ)
      ↔ w.Unaffected places σ := by
  constructor
  · rintro ⟨h, -⟩
    exact unaffected_of_perm hw hnodup h
  · intro h
    have hrun : w.run places σ = w.together places σ := run_eq_together hw h hnodup (.refl _)
    refine ⟨fun order hperm => (run_eq_together hw h hnodup hperm).trans hrun.symm, ?_⟩
    rw [hrun]
    exact run_together_self h (List.Subset.refl _)

end Sweep

end Ecma
