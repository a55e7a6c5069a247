/-
# Search of a graph with a queue

`search` takes nodes off a queue, passes over those it has visited, and queues
the successors of the others.  Some searches queue every successor and some
only those not visited yet; `keep` says which.  Each turn takes a node off the
queue, and each edge queues its target at most once, so that there are as many
turns as nodes to start from and edges, at most (`mem_search_iff`).
-/
import Mathlib.Data.List.Basic
import Mathlib.Logic.Relation

namespace Ecma

section Search

variable {α : Type} [DecidableEq α]

/-- The targets of the edges of a node, in the order of the edges. -/
def successors (edges : List (α × α)) (node : α) : List α :=
  (edges.filter (·.1 = node)).map Prod.snd

theorem mem_successors {edges : List (α × α)} {node next : α} :
    next ∈ successors edges node ↔ (node, next) ∈ edges := by
  simp only [successors, List.mem_map, List.mem_filter, decide_eq_true_eq]
  constructor
  · rintro ⟨⟨_, _⟩, ⟨hmem, rfl⟩, rfl⟩
    exact hmem
  · exact fun hmem => ⟨_, ⟨hmem, rfl⟩, rfl⟩

variable (edges : List (α × α)) (keep : List α → α → Bool)

/-- The loop over the queue, with what was visited. -/
def searchLoop : Nat → List α → List α → List α
  | 0, _, visited => visited
  | _ + 1, [], visited => visited
  | fuel + 1, current :: pending, visited =>
      if current ∈ visited then searchLoop fuel pending visited
      else
        searchLoop fuel
          (pending ++ (successors edges current).filter (keep (current :: visited)))
          (current :: visited)

/-- What is visited from some nodes. -/
def search (starts : List α) : List α :=
  searchLoop edges keep (starts.length + edges.length) starts []

/-- There is a path along edges, maybe an empty one. -/
def Reaches : α → α → Prop := Relation.ReflTransGen fun a b => (a, b) ∈ edges

variable {edges keep}

/-- The edges that are still to be followed. -/
def unfollowed (edges : List (α × α)) (visited : List α) : Nat :=
  edges.countP (·.1 ∉ visited)

theorem unfollowed_cons {current : α} {visited : List α} (h : current ∉ visited) :
    unfollowed edges (current :: visited) + (successors edges current).length
      = unfollowed edges visited := by
  unfold unfollowed successors
  induction edges with
  | nil => rfl
  | cons e edges ih =>
      simp only [List.length_map, List.mem_cons] at ih
      by_cases he : e.1 = current
      · simp only [List.countP_cons, List.filter_cons, List.length_map, List.mem_cons, he, h,
          decide_true, if_true, List.length_cons, true_or, not_true, not_false_eq_true, decide_false,
          Bool.false_eq_true, if_false]
        omega
      · simp only [List.countP_cons, List.filter_cons, List.length_map, List.mem_cons, he,
          decide_false, Bool.false_eq_true, if_false, false_or]
        omega

/-- Whatever is kept along edges holds of all that is visited. -/
theorem searchLoop_forall {P : α → Prop} (hP : ∀ e ∈ edges, P e.1 → P e.2) {fuel : Nat} :
    ∀ {pending visited : List α}, (∀ a ∈ pending, P a) → (∀ a ∈ visited, P a) →
      ∀ a ∈ searchLoop edges keep fuel pending visited, P a := by
  induction fuel with
  | zero => exact fun _ hvisited => hvisited
  | succ fuel ih =>
      intro pending visited hpending hvisited
      cases pending with
      | nil => exact hvisited
      | cons current pending =>
          obtain ⟨hcurrent, hrest⟩ := List.forall_mem_cons.mp hpending
          rw [searchLoop]
          split
          · exact ih hrest hvisited
          · refine ih (fun a ha => ?_) (List.forall_mem_cons.mpr ⟨hcurrent, hvisited⟩)
            rcases List.mem_append.mp ha with ha | ha
            · exact hrest a ha
            · exact hP _ (mem_successors.mp (List.mem_filter.mp ha).1) hcurrent

/-- With enough turns the queue is emptied: what is visited is closed under
the edges, and has all that was queued. -/
theorem searchLoop_closed (hkeep : ∀ visited a, keep visited a = false → a ∈ visited) {fuel : Nat} :
    ∀ {pending visited : List α}, pending.length + unfollowed edges visited ≤ fuel →
      (∀ e ∈ edges, e.1 ∈ visited → e.2 ∈ visited ∨ e.2 ∈ pending) →
      pending ⊆ searchLoop edges keep fuel pending visited
        ∧ visited ⊆ searchLoop edges keep fuel pending visited
        ∧ ∀ e ∈ edges, e.1 ∈ searchLoop edges keep fuel pending visited →
          e.2 ∈ searchLoop edges keep fuel pending visited := by
  induction fuel with
  | zero =>
      intro pending visited hfuel hinv
      obtain rfl : pending = [] := List.eq_nil_of_length_eq_zero (by omega)
      exact ⟨List.nil_subset _, List.Subset.refl _, fun e he h =>
        (hinv e he h).resolve_right List.not_mem_nil⟩
  | succ fuel ih =>
      intro pending visited hfuel hinv
      cases pending with
      | nil =>
          exact ⟨List.nil_subset _, List.Subset.refl _, fun e he h =>
            (hinv e he h).resolve_right List.not_mem_nil⟩
      | cons current pending =>
          rw [List.length_cons] at hfuel
          rw [searchLoop]
          split
          · next hseen =>
              obtain ⟨hpending, hvisited, hclosed⟩ := @ih pending visited (by omega) fun e he h => by
                  rcases hinv e he h with hmem | hmem
                  · exact .inl hmem
                  · rcases List.mem_cons.mp hmem with heq | hmem
                    · exact .inl (heq ▸ hseen)
                    · exact .inr hmem
              exact ⟨List.cons_subset.mpr ⟨hvisited hseen, hpending⟩, hvisited, hclosed⟩
          · next hnew =>
              have hcount : unfollowed edges (current :: visited) + _ = _ := unfollowed_cons hnew
              have hle := List.length_filter_le (keep (current :: visited)) (successors edges current)
              obtain ⟨hpending, hvisited, hclosed⟩ := @ih
                (pending ++ (successors edges current).filter (keep (current :: visited)))
                (current :: visited) (by rw [List.length_append]; omega) fun e he h => by
                  rcases List.mem_cons.mp h with heq | h
                  · cases hkept : keep (current :: visited) e.2 with
                    | false => exact .inl (hkeep _ _ hkept)
                    | true =>
                        refine .inr (List.mem_append_right _ (List.mem_filter.mpr ⟨?_, hkept⟩))
                        exact mem_successors.mpr (heq ▸ he)
                  · rcases hinv e he h with hmem | hmem
                    · exact .inl (List.mem_cons_of_mem _ hmem)
                    · rcases List.mem_cons.mp hmem with heq | hmem
                      · exact .inl (heq ▸ List.mem_cons_self)
                      · exact .inr (List.mem_append_left _ hmem)
              exact ⟨List.cons_subset.mpr ⟨hvisited List.mem_cons_self,
                fun a ha => hpending (List.mem_append_left _ ha)⟩,
                fun a ha => hvisited (List.mem_cons_of_mem _ ha), hclosed⟩

/-- **What is visited is what can be reached.** -/
theorem mem_search_iff (hkeep : ∀ visited a, keep visited a = false → a ∈ visited) {starts : List α}
    {a : α} : a ∈ search edges keep starts ↔ ∃ s ∈ starts, Reaches edges s a := by
  have hfuel : starts.length + unfollowed edges [] ≤ starts.length + edges.length :=
    Nat.add_le_add_left List.countP_le_length _
  obtain ⟨hstarts, -, hclosed⟩ := searchLoop_closed hkeep hfuel fun _ _ h =>
    absurd h List.not_mem_nil
  constructor
  · refine searchLoop_forall (P := fun a => ∃ s ∈ starts, Reaches edges s a) ?_
      (fun s hs => ⟨s, hs, .refl⟩) (fun _ h => absurd h List.not_mem_nil) a
    rintro ⟨x, y⟩ he ⟨s, hs, hpath⟩
    exact ⟨s, hs, hpath.tail he⟩
  · rintro ⟨s, hs, hpath⟩
    induction hpath with
    | refl => exact hstarts hs
    | tail _ he ih => exact hclosed _ he ih

end Search

end Ecma
