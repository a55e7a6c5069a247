/-
# Topological sorting by counting

Kahn's algorithm takes nodes without open edges into them, one at a time, and counts
down the edges that lead on from each.  How the nodes that are ready are arranged is
free.

At each time (`Sorted`) a count is that of the edges from nodes not taken yet, and
the nodes with a count of zero are those taken or ready.  So a node is taken behind
all that lead to it, and there are as many turns as nodes, at most.
-/
import Mathlib.Data.List.Perm.Subperm
import Mathlib.Data.List.Count
import Mathlib.Data.List.Nodup
import Mathlib.Algebra.BigOperators.Group.List.Basic
import Mathlib.Algebra.GroupWithZero.Nat
import Mathlib.Algebra.Order.Group.Nat
import Mathlib.Tactic.Common

namespace Kahn

variable {ι : Type} [DecidableEq ι] (next : ι → List ι) (arrange : List ι → List ι)

/-- The counts, and the nodes that are ready. -/
structure Work (ι : Type) where
  indegree : ι → Nat
  ready : List ι

/-- An edge into a node is counted down. -/
def arrive (work : Work ι) (node : ι) : Work ι where
  indegree := Function.update work.indegree node (work.indegree node - 1)
  ready := if work.indegree node - 1 = 0 then arrange (work.ready ++ [node]) else work.ready

/-- The turns, with fuel for them. -/
def turns : Nat → (ι → Nat) → List ι → List ι → Option (List ι)
  | _, _, [], order => some order
  | 0, _, _ :: _, _ => none
  | fuel + 1, indegree, current :: ready, order =>
      let work := (next current).foldl (arrive arrange) ⟨indegree, ready⟩
      turns fuel work.indegree work.ready (order ++ [current])

variable {next arrange}

/-! ## One turn -/

/-- What some edges into nodes do to the counts. -/
theorem foldl_arrive (harrange : ∀ l, (arrange l).Perm l) (targets : List ι) : ∀ work : Work ι,
    (∀ v, targets.count v ≤ work.indegree v) → work.ready.Nodup → (∀ v ∈ work.ready, targets.count v = 0) →
      (∀ v, (targets.foldl (arrive arrange) work).indegree v = work.indegree v - targets.count v) ∧
      (targets.foldl (arrive arrange) work).ready.Nodup ∧
      ∀ v, v ∈ (targets.foldl (arrive arrange) work).ready ↔
        v ∈ work.ready ∨ (0 < targets.count v ∧ targets.count v = work.indegree v) := by
  induction targets with
  | nil => exact fun _ _ hnodup _ => ⟨fun _ => rfl, hnodup, fun _ => by simp⟩
  | cons target targets ih =>
      intro work hcount hnodup hready
      have hself : (target :: targets).count target = targets.count target + 1 := List.count_cons_self
      have hother : ∀ v, v ≠ target → (target :: targets).count v = targets.count v :=
        fun v hne => List.count_cons_of_ne hne.symm
      have hopen := hcount target
      have hnot : target ∉ work.ready := fun hmem => by
        have := hready target hmem
        omega
      have hindegree : ∀ v, (arrive arrange work target).indegree v
          = if v = target then work.indegree target - 1 else work.indegree v := fun v =>
        Function.update_apply ..
      have hmem : ∀ v, v ∈ (arrive arrange work target).ready ↔
          v ∈ work.ready ∨ (v = target ∧ work.indegree target = 1) := by
        intro v
        unfold arrive
        dsimp only
        split
        · next hzero =>
            rw [(harrange _).mem_iff, List.mem_append, List.mem_singleton,
              and_iff_left (show work.indegree target = 1 by omega)]
        · next hsome =>
            rw [or_iff_left]
            exact fun h => hsome (by omega)
      have hless : ∀ v, targets.count v ≤ (arrive arrange work target).indegree v := by
        intro v
        rw [hindegree]
        split
        · next heq =>
            subst heq
            omega
        · next hne => exact hother v hne ▸ hcount v
      have hdistinct : (arrive arrange work target).ready.Nodup := by
        unfold arrive
        dsimp only
        split
        · refine (harrange _).nodup_iff.mpr (List.nodup_append.mpr ⟨hnodup, List.nodup_singleton _, ?_⟩)
          intro a ha b hb heq
          rw [List.mem_singleton] at hb
          exact hnot (hb ▸ heq ▸ ha)
        · exact hnodup
      have hclosed : ∀ v ∈ (arrive arrange work target).ready, targets.count v = 0 := by
        intro v hv
        rcases (hmem v).mp hv with hv | ⟨rfl, hone⟩
        · have := hready v hv
          by_cases heq : v = target
          · subst heq
            omega
          · rwa [hother v heq] at this
        · omega
      obtain ⟨hcounts, hnodup', hready'⟩ := ih _ hless hdistinct hclosed
      refine ⟨fun v => ?_, hnodup', fun v => ?_⟩
      · rw [List.foldl_cons, hcounts, hindegree]
        split
        · next heq =>
            subst heq
            omega
        · next hne => rw [hother v hne]
      · rw [List.foldl_cons, hready', hmem, hindegree]
        by_cases hv : v = target
        · subst hv
          rw [if_pos rfl, hself]
          simp only [true_and, hnot, false_or]
          omega
        · rw [if_neg hv, hother v hv]
          simp [hv]

/-! ## All turns -/

/-- What holds between turns. -/
structure Sorted (nodes : List ι) (next : ι → List ι) (indegree : ι → Nat) (ready order : List ι) : Prop where
  nodup : (order ++ ready).Nodup
  mem : ∀ v ∈ order ++ ready, v ∈ nodes
  counts : ∀ v ∈ nodes, indegree v = ((nodes.filter (· ∉ order)).map fun u => (next u).count v).sum
  taken : ∀ v ∈ nodes, (v ∈ order ++ ready ↔ indegree v = 0)
  behind : ∀ before v after, order = before ++ v :: after → ∀ u ∈ nodes, v ∈ next u → u ∈ before

section Turns

variable {nodes : List ι}

theorem sum_take_out (hnodes : nodes.Nodup) {order : List ι} {current : ι} (hcurrent : current ∈ nodes)
    (hnot : current ∉ order) (f : ι → Nat) :
    ((nodes.filter (· ∉ order)).map f).sum = f current + ((nodes.filter (· ∉ order ++ [current])).map f).sum := by
  have hperm : (nodes.filter (· ∉ order)).Perm (current :: nodes.filter (· ∉ order ++ [current])) := by
    refine (List.perm_ext_iff_of_nodup (hnodes.filter _) ?_).mpr fun v => ?_
    · exact List.nodup_cons.mpr ⟨by simp, hnodes.filter _⟩
    · by_cases hv : v = current
      · subst hv
        simp [hcurrent, hnot]
      · simp [hv]
  rw [(hperm.map f).sum_eq, List.map_cons, List.sum_cons]

/-- One turn keeps what holds between turns. -/
theorem Sorted.turn (harrange : ∀ l, (arrange l).Perm l) (hnodes : nodes.Nodup)
    (hclosed : ∀ u ∈ nodes, next u ⊆ nodes) {indegree : ι → Nat} {current : ι} {ready order : List ι}
    (h : Sorted nodes next indegree (current :: ready) order) :
    Sorted nodes next ((next current).foldl (arrive arrange) ⟨indegree, ready⟩).indegree
      ((next current).foldl (arrive arrange) ⟨indegree, ready⟩).ready (order ++ [current]) := by
  have hcurrent : current ∈ nodes := h.mem current (List.mem_append_right _ List.mem_cons_self)
  obtain ⟨horder, hcons, hdisjoint⟩ := List.nodup_append.mp h.nodup
  obtain ⟨hfirst, hready⟩ := List.nodup_cons.mp hcons
  have hnot : current ∉ order := fun hmem => hdisjoint current hmem current List.mem_cons_self rfl
  have hsum : ∀ v ∈ nodes, indegree v = (next current).count v
      + ((nodes.filter (· ∉ order ++ [current])).map fun u => (next u).count v).sum := fun v hv =>
    (h.counts v hv).trans (sum_take_out hnodes hcurrent hnot _)
  have hcount : ∀ v, (next current).count v ≤ indegree v := by
    intro v
    by_cases hv : v ∈ nodes
    · have := hsum v hv
      omega
    · rw [List.count_eq_zero.mpr fun hmem => hv (hclosed current hcurrent hmem)]
      exact Nat.zero_le _
  have hzero : ∀ v ∈ order ++ current :: ready, indegree v = 0 := fun v hv =>
    (h.taken v (h.mem v hv)).mp hv
  obtain ⟨hcounts, hnodup, hmem⟩ := foldl_arrive harrange (next current) ⟨indegree, ready⟩ hcount hready
    fun v hv => by
      have := hzero v (List.mem_append_right _ (List.mem_cons_of_mem _ hv))
      have := hcount v
      omega
  have hnew : ∀ v, v ∈ ((next current).foldl (arrive arrange) ⟨indegree, ready⟩).ready → v ∉ order ++ [current] := by
    intro v hv htaken
    rcases (hmem v).mp hv with hv | ⟨hpositive, hall⟩
    · rcases List.mem_append.mp htaken with htaken | htaken
      · exact hdisjoint v htaken v (List.mem_cons_of_mem _ hv) rfl
      · exact hfirst (List.mem_singleton.mp htaken ▸ hv)
    · have hmember : v ∈ order ++ current :: ready := by
        rcases List.mem_append.mp htaken with htaken | htaken
        · exact List.mem_append_left _ htaken
        · exact List.mem_append_right _ (List.mem_singleton.mp htaken ▸ List.mem_cons_self)
      have := hzero v hmember
      dsimp only at hall
      omega
  refine ⟨?_, ?_, ?_, ?_, ?_⟩
  · refine List.nodup_append.mpr ⟨?_, hnodup, fun a ha b hb heq => hnew b hb (heq ▸ ha)⟩
    exact List.nodup_append.mpr ⟨horder, List.nodup_singleton _, fun a ha b hb heq =>
      hnot (List.mem_singleton.mp hb ▸ heq ▸ ha)⟩
  · intro v hv
    rcases List.mem_append.mp hv with hv | hv
    · rcases List.mem_append.mp hv with hv | hv
      · exact h.mem v (List.mem_append_left _ hv)
      · exact List.mem_singleton.mp hv ▸ hcurrent
    · rcases (hmem v).mp hv with hv | ⟨hpositive, -⟩
      · exact h.mem v (List.mem_append_right _ (List.mem_cons_of_mem _ hv))
      · exact hclosed current hcurrent (List.count_pos_iff.mp hpositive)
  · intro v hv
    rw [hcounts]
    have := hsum v hv
    dsimp only
    omega
  · intro v hv
    have htaken := h.taken v hv
    have := hcount v
    rw [hcounts, List.mem_append, hmem, List.mem_append, List.mem_singleton]
    rw [List.mem_append, List.mem_cons] at htaken
    dsimp only
    by_cases hv : v ∈ order ∨ v = current ∨ v ∈ ready
    · rw [htaken.mp hv]
      refine iff_of_true ?_ (Nat.zero_sub _)
      rcases hv with hv | hv | hv
      · exact .inl (.inl hv)
      · exact .inl (.inr hv)
      · exact .inr (.inl hv)
    · have hopen : indegree v ≠ 0 := fun hzero => hv (htaken.mpr hzero)
      simp only [not_or] at hv
      simp only [hv.1, hv.2.1, hv.2.2, false_or]
      omega
  · intro before v after heq u hu hv
    rcases List.eq_nil_or_concat after with rfl | ⟨after, last, rfl⟩
    · obtain ⟨rfl, hlast⟩ := List.append_inj' heq rfl
      cases hlast
      -- no edge from a node that is not taken is left
      by_contra hopen
      have hterm := sum_take_out hnodes hu hopen fun u => (next u).count current
      have hpositive := List.count_pos_iff.mpr hv
      have hcurrent := h.counts current hcurrent
      have := hzero current (List.mem_append_right _ List.mem_cons_self)
      omega
    · rw [List.concat_eq_append, ← List.cons_append, ← List.append_assoc] at heq
      obtain ⟨rfl, -⟩ := List.append_inj' heq rfl
      exact h.behind before v after rfl u hu hv

/-- **The turns end, with an order in which all edges lead on.** -/
theorem turns_sorted (harrange : ∀ l, (arrange l).Perm l) (hnodes : nodes.Nodup)
    (hclosed : ∀ u ∈ nodes, next u ⊆ nodes) : ∀ (fuel : Nat) {indegree : ι → Nat} {ready order : List ι},
      Sorted nodes next indegree ready order → nodes.length ≤ fuel + order.length →
        ∃ indegree' order', turns next arrange fuel indegree ready order = some order' ∧
          Sorted nodes next indegree' [] order' := by
  intro fuel
  induction fuel with
  | zero =>
      intro indegree ready order h hfuel
      cases ready with
      | nil => exact ⟨indegree, order, rfl, h⟩
      | cons current ready =>
          have hle := (h.nodup.subperm h.mem).length_le
          rw [List.length_append, List.length_cons] at hle
          omega
  | succ fuel ih =>
      intro indegree ready order h hfuel
      cases ready with
      | nil => exact ⟨indegree, order, rfl, h⟩
      | cons current ready =>
          refine ih (h.turn harrange hnodes hclosed) ?_
          rw [List.length_append, List.length_singleton]
          omega

/-- An order that has all nodes is one of them in which edges lead on. -/
theorem Sorted.perm {indegree : ι → Nat} {order : List ι} (h : Sorted nodes next indegree [] order)
    (hlength : order.length = nodes.length) : order.Perm nodes := by
  have hnodup := h.nodup
  have hmem := h.mem
  rw [List.append_nil] at hnodup hmem
  exact (hnodup.subperm hmem).perm_of_length_le hlength.ge

theorem Sorted.idxOf_lt [BEq ι] [LawfulBEq ι] {indegree : ι → Nat} {order : List ι}
    (h : Sorted nodes next indegree [] order) {u v : ι} (hu : u ∈ nodes) (hv : v ∈ next u) (hmem : v ∈ order) : order.idxOf u < order.idxOf v := by
  obtain ⟨before, after, rfl⟩ := List.append_of_mem hmem
  have hbefore : u ∈ before := h.behind before v after rfl u hu hv
  have hnot : v ∉ before := fun hv => by
    have hnodup := h.nodup
    rw [List.append_nil] at hnodup
    exact (List.nodup_append.mp hnodup).2.2 v hv v List.mem_cons_self rfl
  rw [List.idxOf_append_of_mem hbefore, List.idxOf_append_of_notMem hnot]
  exact Nat.lt_add_right _ (List.idxOf_lt_length_of_mem hbefore)

end Turns

end Kahn
