/-
# Lists with distinct keys, split at one element

A list whose elements have distinct keys is taken apart at the element that
has a given key, in one way only.  So finding that element, its index, and
writing it, are what they are on the parts.
-/
import Mathlib.Data.List.Nodup
import Mathlib.Data.List.Lemmas

namespace Ecma

section Cursor

variable {α κ : Type} {key : α → κ} {before after : List α} {x : α}

theorem not_mem_before (h : ((before ++ x :: after).map key).Nodup) :
    ∀ y ∈ before, key y ≠ key x := by
  intro y hy heq
  rw [List.map_append, List.map_cons] at h
  exact (List.nodup_append.mp h).2.2 _ (List.mem_map_of_mem hy) _ (List.mem_cons_self ..) heq

theorem not_mem_after (h : ((before ++ x :: after).map key).Nodup) :
    ∀ y ∈ after, key y ≠ key x := by
  intro y hy heq
  rw [List.map_append, List.map_cons] at h
  have := (List.nodup_cons.mp (List.nodup_append.mp h).2.1).1
  exact this (heq ▸ List.mem_map_of_mem hy)

/-- The key of the element is found where the element is. -/
theorem idxOf_split [BEq κ] [LawfulBEq κ] (h : ((before ++ x :: after).map key).Nodup) :
    ((before ++ x :: after).map key).idxOf (key x) = before.length := by
  have hnot : key x ∉ before.map key := by
    rintro hmem
    obtain ⟨y, hy, heq⟩ := List.mem_map.mp hmem
    exact not_mem_before h y hy heq
  rw [List.map_append, List.idxOf_append_of_notMem hnot, List.map_cons, List.idxOf_cons_self,
    List.length_map, Nat.add_zero]

theorem find?_split [DecidableEq κ] (h : ((before ++ x :: after).map key).Nodup) :
    (before ++ x :: after).find? (fun y => key y = key x) = some x := by
  rw [List.find?_append, List.find?_eq_none.mpr (by simpa using not_mem_before h),
    List.find?_cons_of_pos (by simp)]
  rfl

/-- Writing the element with the key of `x` leaves the others alone. -/
theorem map_split [DecidableEq κ] (h : ((before ++ x :: after).map key).Nodup) (f : α → α) :
    (before ++ x :: after).map (fun y => if key y = key x then f y else y)
      = before ++ f x :: after := by
  have hbefore : before.map (fun y => if key y = key x then f y else y) = before := by
    conv_rhs => rw [← List.map_id before]
    exact List.map_congr_left fun y hy => if_neg (not_mem_before h y hy)
  have hafter : after.map (fun y => if key y = key x then f y else y) = after := by
    conv_rhs => rw [← List.map_id after]
    exact List.map_congr_left fun y hy => if_neg (not_mem_after h y hy)
  rw [List.map_append, List.map_cons, hbefore, hafter, if_pos rfl]

theorem exists_split {l : List α} {k : κ} (h : k ∈ l.map key) :
    ∃ before x after, l = before ++ x :: after ∧ key x = k := by
  obtain ⟨x, hx, hkey⟩ := List.mem_map.mp h
  obtain ⟨before, after, rfl⟩ := List.append_of_mem hx
  exact ⟨before, x, after, rfl, hkey⟩

/-- A split that comes no later than another is a split of its first part. -/
theorem split_le {before' after' : List α} {y : α}
    (h : before ++ x :: after = before' ++ y :: after') (hle : before.length ≤ before'.length) :
    ∃ mid, before' ++ [y] = before ++ x :: mid ∧ after = mid ++ after' := by
  have hlen := congrArg List.length h
  simp only [List.length_append, List.length_cons] at hlen
  have hfirst : before ++ [x] <+: before ++ x :: after := ⟨after, by simp⟩
  have hprefix : before ++ [x] <+: before' ++ [y] := by
    refine List.prefix_of_prefix_length_le hfirst ⟨after', by rw [h]; simp⟩ ?_
    simp only [List.length_append, List.length_singleton]
    omega
  obtain ⟨mid, hmid⟩ := hprefix
  refine ⟨mid, by rw [← hmid]; simp, ?_⟩
  have : before ++ x :: after = before ++ x :: (mid ++ after') := by
    rw [h, show before' ++ y :: after' = (before' ++ [y]) ++ after' by simp, ← hmid]
    simp
  exact (List.cons.inj (List.append_cancel_left this)).2

/-- What comes before an element of a list comes before its end. -/
theorem subset_of_split {earlier mid : List α} {y : α}
    (h : before ++ [x] = earlier ++ y :: mid) : earlier ⊆ before := by
  intro z hz
  rcases List.eq_nil_or_concat mid with rfl | ⟨mid, last, rfl⟩
  · rw [(List.append_inj' h rfl).1]
    exact hz
  · have h : before ++ [x] = (earlier ++ y :: mid) ++ [last] := by rw [h]; simp
    rw [(List.append_inj' h rfl).1]
    exact List.mem_append_left _ hz

end Cursor

end Ecma
