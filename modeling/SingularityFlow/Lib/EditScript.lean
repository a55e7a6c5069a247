/-
# Edit scripts between two lists

A script turns one list into another by keeping, dropping and adding elements,
in order.  `Edits` is its grammar: one constructor for each operation, with the
positions that have been reached in both lists as indices.  What a reader asks
of a script (`EditScript`) follows from the grammar, and the grammar is closed
under what a differ does with scripts: it writes them one after another, and
shifts those of a part into the whole.

The number of kept elements is the length of a common subsequence.  The greatest
such length (`IsLongestCommon`) is given by the usual recurrence.
-/
import Mathlib.Data.List.Infix
import Mathlib.Data.List.Forall2

namespace EditScript

variable {α : Type}

/-- An element, by what is left from it on. -/
theorem of_drop {whole rest : List α} {x : α} {i : Nat} (h : whole.drop i = x :: rest) :
    whole[i]? = some x ∧ whole.drop (i + 1) = rest := by
  constructor
  · have hzero : (whole.drop i)[0]? = whole[i + 0]? := List.getElem?_drop
    rw [h] at hzero
    exact hzero.symm
  · rw [← List.drop_drop, h, List.drop_one, List.tail_cons]

/-! ## Operations -/

/-- Keep an element of the first list, drop one, or add one of the second. -/
inductive Op where
  | keep (i : Nat)
  | drop (i : Nat)
  | add (j : Nat)
deriving DecidableEq

namespace Op

/-- The operation of a part that begins at these positions, in the whole. -/
def shift (fromA fromB : Nat) : Op → Op
  | keep i => keep (i + fromA)
  | drop i => drop (i + fromA)
  | add j => add (j + fromB)

/-- The position in the first list that the operation uses. -/
def left? : Op → Option Nat
  | keep i => some i
  | drop i => some i
  | add _ => none

/-- The operation produces an element. -/
def produces : Op → Bool
  | keep _ => true
  | drop _ => false
  | add _ => true

def isKeep : Op → Bool
  | keep _ => true
  | drop _ => false
  | add _ => false

/-- The position in the second list, of the operation that produces the element
with the number `p`. -/
def place (p : Nat) : Op → Nat
  | keep _ => p
  | drop _ => p
  | add j => j

/-- The element that the operation produces. -/
def value? (a b : List α) : Op → Option (Option α)
  | keep i => some a[i]?
  | drop _ => none
  | add j => some b[j]?

end Op

/-- The list that a script produces. -/
def replay (a b : List α) (ops : List Op) : List (Option α) := ops.filterMap (Op.value? a b)

/-! ## The grammar -/

/-- A script from `a` to `b`, whose first elements have the positions `i` and `j`. -/
inductive Edits : List α → List α → Nat → Nat → List Op → Prop
  | nil {i j : Nat} : Edits [] [] i j []
  | keep {x : α} {a b : List α} {i j : Nat} {ops : List Op} :
      Edits a b (i + 1) (j + 1) ops → Edits (x :: a) (x :: b) i j (.keep i :: ops)
  | drop {x : α} {a b : List α} {i j : Nat} {ops : List Op} :
      Edits a b (i + 1) j ops → Edits (x :: a) b i j (.drop i :: ops)
  | add {y : α} {a b : List α} {i j : Nat} {ops : List Op} :
      Edits a b i (j + 1) ops → Edits a (y :: b) i j (.add j :: ops)

namespace Edits

variable {a b a' b' : List α} {i j : Nat} {ops ops' : List Op}

/-- Scripts one after another. -/
theorem append (h : Edits a b i j ops) (h' : Edits a' b' (i + a.length) (j + b.length) ops') :
    Edits (a ++ a') (b ++ b') i j (ops ++ ops') := by
  induction h with
  | nil => exact h'
  | keep _ ih => exact .keep (ih (by simpa [Nat.add_assoc, Nat.add_comm 1] using h'))
  | drop _ ih => exact .drop (ih (by simpa [Nat.add_assoc, Nat.add_comm 1] using h'))
  | add _ ih => exact .add (ih (by simpa [Nat.add_assoc, Nat.add_comm 1] using h'))

/-- The script of a part, in the whole. -/
theorem shift (h : Edits a b i j ops) (fromA fromB : Nat) :
    Edits a b (i + fromA) (j + fromB) (ops.map (Op.shift fromA fromB)) := by
  induction h with
  | nil => exact .nil
  | keep _ ih => exact .keep (by rwa [Nat.add_right_comm _ 1, Nat.add_right_comm _ 1] at ih)
  | drop _ ih => exact .drop (by rwa [Nat.add_right_comm _ 1] at ih)
  | add _ ih => exact .add (by rwa [Nat.add_right_comm _ 1] at ih)

/-- What two lists have in common is kept. -/
theorem common (l : List α) (i j : Nat) :
    Edits l l i j ((List.range' i l.length).map Op.keep) := by
  induction l generalizing i j with
  | nil => exact .nil
  | cons x l ih => exact .keep (ih (i + 1) (j + 1))

theorem drops (l : List α) (i j : Nat) :
    Edits l [] i j ((List.range' i l.length).map Op.drop) := by
  induction l generalizing i with
  | nil => exact .nil
  | cons x l ih => exact .drop (ih (i + 1))

theorem adds (l : List α) (i j : Nat) :
    Edits [] l i j ((List.range' j l.length).map Op.add) := by
  induction l generalizing j with
  | nil => exact .nil
  | cons y l ih => exact .add (ih (j + 1))

/-- All of one list is dropped, and all of the other added. -/
theorem replace (a b : List α) (i j : Nat) : Edits a b i j
    ((List.range' i a.length).map Op.drop ++ (List.range' j b.length).map Op.add) := by
  have h := (drops a i j).append (adds b (i + a.length) j)
  rwa [List.append_nil, List.nil_append] at h

/-! ## What follows of a script -/

variable {wholeA wholeB : List α}

theorem replay_eq (h : Edits a b i j ops) (hA : wholeA.drop i = a) (hB : wholeB.drop j = b) :
    replay wholeA wholeB ops = b.map some := by
  induction h with
  | nil => rfl
  | @keep x _ _ i _ ops _ ih =>
      obtain ⟨hx, hA⟩ := of_drop hA
      have hhead : replay wholeA wholeB (.keep i :: ops) = wholeA[i]? :: replay wholeA wholeB ops :=
        rfl
      rw [hhead, hx, ih hA (of_drop hB).2, List.map_cons]
  | drop _ ih =>
      rw [replay, List.filterMap_cons_none rfl]
      exact ih (of_drop hA).2 hB
  | @add y _ _ _ j ops _ ih =>
      obtain ⟨hy, hB⟩ := of_drop hB
      have hhead : replay wholeA wholeB (.add j :: ops) = wholeB[j]? :: replay wholeA wholeB ops :=
        rfl
      rw [hhead, hy, ih hA hB, List.map_cons]

/-- Every position of the first list is kept or dropped, in order. -/
theorem left_eq (h : Edits a b i j ops) : ops.filterMap Op.left? = List.range' i a.length := by
  induction h with
  | nil => rfl
  | @keep _ _ _ i _ _ _ ih => exact congrArg (i :: ·) ih
  | @drop _ _ _ i _ _ _ ih => exact congrArg (i :: ·) ih
  | add _ ih =>
      rw [List.filterMap_cons_none rfl, ih]

/-- Every position of the second list is added or matched, in order. -/
theorem right_eq (h : Edits a b i j ops) :
    (ops.filter Op.produces).mapIdx (fun p op => op.place (p + j)) = List.range' j b.length := by
  induction h with
  | nil => rfl
  | keep _ ih =>
      rw [List.filter_cons_of_pos rfl, List.mapIdx_cons, List.length_cons, List.range'_succ, ← ih]
      simp [Op.place, Nat.add_right_comm, Nat.add_assoc]
  | drop _ ih =>
      rw [List.filter_cons_of_neg (by simp [Op.produces]), ih]
  | add _ ih =>
      rw [List.filter_cons_of_pos rfl, List.mapIdx_cons, List.length_cons, List.range'_succ, ← ih]
      simp [Op.place, Nat.add_right_comm, Nat.add_assoc]

/-- What is kept is what stands there. -/
theorem kept_eq (h : Edits a b i j ops) (hA : wholeA.drop i = a) (hB : wholeB.drop j = b) :
    ∀ p k, (ops.filter Op.produces)[p]? = some (.keep k) → wholeA[k]? = wholeB[p + j]? := by
  induction h with
  | nil => exact fun p k hk => by cases hk
  | keep _ ih =>
      intro p k hk
      rw [List.filter_cons_of_pos rfl] at hk
      obtain ⟨hx, hA⟩ := of_drop hA
      obtain ⟨hy, hB⟩ := of_drop hB
      cases p with
      | zero =>
          obtain rfl := Op.keep.inj (Option.some.inj hk)
          rw [hx, Nat.zero_add, hy]
      | succ p =>
          rw [ih hA hB p k hk, Nat.add_right_comm, Nat.add_assoc]
  | drop _ ih =>
      rw [List.filter_cons_of_neg (by simp [Op.produces])]
      exact ih (of_drop hA).2 hB
  | add _ ih =>
      intro p k hk
      rw [List.filter_cons_of_pos rfl] at hk
      cases p with
      | zero => cases hk
      | succ p =>
          rw [ih hA (of_drop hB).2 p k hk, Nat.add_right_comm, Nat.add_assoc]

end Edits

/-- A correct script from `a` to `b`. -/
structure Correct (a b : List α) (ops : List Op) : Prop where
  /-- It produces the second list. -/
  replayed : replay a b ops = b.map some
  /-- What it keeps and drops is the first list, in order. -/
  left : ops.filterMap Op.left? = List.range a.length
  /-- What it adds, with the places of what it keeps, is the second list, in order. -/
  right : (ops.filter Op.produces).mapIdx Op.place = List.range b.length
  /-- What it keeps stands at its place in the second list. -/
  kept : ∀ p i : Nat, (ops.filter Op.produces)[p]? = some (.keep i) → a[i]? = b[p]?

theorem Edits.correct {a b : List α} {ops : List Op} (h : Edits a b 0 0 ops) : Correct a b ops where
  replayed := h.replay_eq rfl rfl
  left := by rw [h.left_eq, List.range_eq_range']
  right := by rw [List.range_eq_range', ← h.right_eq]; rfl
  kept p i hk := h.kept_eq rfl rfl p i hk

/-! ## Longest common subsequences -/

/-- The greatest length of a common subsequence. -/
structure IsLongestCommon (a b : List α) (n : Nat) : Prop where
  exists_common : ∃ c : List α, c.Sublist a ∧ c.Sublist b ∧ c.length = n
  le : ∀ c : List α, c.Sublist a → c.Sublist b → c.length ≤ n

namespace IsLongestCommon

variable {a b : List α} {x y : α} {n m : Nat}

theorem unique (h : IsLongestCommon a b n) (h' : IsLongestCommon a b m) : n = m := by
  obtain ⟨c, ha, hb, rfl⟩ := h.exists_common
  obtain ⟨c', ha', hb', rfl⟩ := h'.exists_common
  exact Nat.le_antisymm (h'.le c ha hb) (h.le c' ha' hb')

theorem nil_left (b : List α) : IsLongestCommon [] b 0 where
  exists_common := ⟨[], List.nil_sublist _, List.nil_sublist _, rfl⟩
  le c hc _ := by rw [List.sublist_nil.mp hc, List.length_nil]

theorem nil_right (a : List α) : IsLongestCommon a [] 0 where
  exists_common := ⟨[], List.nil_sublist _, List.nil_sublist _, rfl⟩
  le c _ hc := by rw [List.sublist_nil.mp hc, List.length_nil]

/-- An element that both lists begin with. -/
theorem cons_self (h : IsLongestCommon a b n) : IsLongestCommon (x :: a) (x :: b) (n + 1) where
  exists_common := by
    obtain ⟨c, ha, hb, rfl⟩ := h.exists_common
    exact ⟨x :: c, ha.cons_cons x, hb.cons_cons x, rfl⟩
  le c ha hb := by
    cases c with
    | nil => exact Nat.zero_le _
    | cons z c => exact Nat.succ_le_succ (h.le c ha.of_cons_cons hb.of_cons_cons)

/-- Of two different elements, one is left out. -/
theorem cons_of_ne (hne : x ≠ y) (hleft : IsLongestCommon a (y :: b) n)
    (hright : IsLongestCommon (x :: a) b m) : IsLongestCommon (x :: a) (y :: b) (max n m) where
  exists_common := by
    rcases Nat.le_total n m with hle | hle
    · obtain ⟨c, ha, hb, rfl⟩ := hright.exists_common
      exact ⟨c, ha, hb.cons y, (Nat.max_eq_right hle).symm⟩
    · obtain ⟨c, ha, hb, rfl⟩ := hleft.exists_common
      exact ⟨c, ha.cons x, hb, (Nat.max_eq_left hle).symm⟩
  le c ha hb := by
    rcases List.sublist_cons_iff.mp ha with ha' | ⟨c', rfl, -⟩
    · exact (hleft.le c ha' hb).trans (Nat.le_max_left ..)
    · rcases List.sublist_cons_iff.mp hb with hb' | ⟨c'', hc, -⟩
      · exact (hright.le _ ha hb').trans (Nat.le_max_right ..)
      · exact absurd (List.cons.inj hc).1 hne

theorem reverse (h : IsLongestCommon a b n) : IsLongestCommon a.reverse b.reverse n where
  exists_common := by
    obtain ⟨c, ha, hb, rfl⟩ := h.exists_common
    exact ⟨c.reverse, ha.reverse, hb.reverse, List.length_reverse⟩
  le c ha hb := by
    rw [← List.length_reverse]
    exact h.le c.reverse (List.reverse_sublist.mp (by rwa [List.reverse_reverse]))
      (List.reverse_sublist.mp (by rwa [List.reverse_reverse]))

/-- What both lists begin with is common. -/
theorem append_left (h : IsLongestCommon a b n) (front : List α) :
    IsLongestCommon (front ++ a) (front ++ b) (front.length + n) := by
  induction front with
  | nil => simpa using h
  | cons x front ih => simpa [Nat.add_right_comm] using ih.cons_self

/-- And what both lists end with. -/
theorem append_right (h : IsLongestCommon a b n) (back : List α) :
    IsLongestCommon (a ++ back) (b ++ back) (n + back.length) := by
  have hreverse := (h.reverse.append_left back.reverse).reverse
  simpa [Nat.add_comm] using hreverse

end IsLongestCommon

end EditScript
