/-
# Line operations

`lineOperations` keeps the common head and tail of two lists of lines.  What is
left is compared by a table where that is small enough, and otherwise cut at
anchors into parts, each of them compared in the same way.

Every way of comparing yields a script in the grammar of `Edits`, so that the
correctness of the whole is that of its parts, one after another and shifted.
The table holds the lengths of longest common subsequences, and the walk through
it keeps as many lines as the table says.

The recursion has a bound on its depth, and is `none` where that runs out.  It
does not run out when the bound exceeds the number of lines: a part is shorter
than the whole, since an anchor is in no part.
-/
import SingularityFlow.Lib.EditScript
import SingularityFlow.Yaml.Anchors
import Mathlib.Data.List.Infix

namespace SingularityFlow

open EditScript

namespace Yaml

variable {α : Type} [DecidableEq α]

/-! ## The common head and tail -/

/-- The loop from the front, while the lines are equal. -/
def commonLength : List α → List α → Nat
  | x :: a, y :: b => if x = y then commonLength a b + 1 else 0
  | _, _ => 0

/-- `list.slice(from, to)` -/
def slice (list : List α) (start stop : Nat) : List α := (list.take stop).drop start

/-! ## The table -/

/-- A row of the table, from the row below it and from the right. -/
def rowAbove (x : α) : List α → List Nat → List Nat
  | [], _ => [0]
  | y :: b, below =>
      let right := rowAbove x b below.tail
      (if x = y then below.tail.headD 0 + 1 else max (below.headD 0) (right.headD 0)) :: right

/-- The rows of the table, the last of them filled first. -/
def table : List α → List α → List (List Nat)
  | [], b => [List.replicate (b.length + 1) 0]
  | x :: a, b =>
      let below := table a b
      rowAbove x b (below.headD []) :: below

/-- `table[i * cols + j]` -/
def cell (rows : List (List Nat)) (i j : Nat) : Nat := (rows.getD i []).getD j 0

/-- The walk through the table. -/
def walk (rows : List (List Nat)) (start : Nat) : List α → List α → Nat → Nat → List Op
  | [], [], _, _ => []
  | [], _ :: b, i, j => .add (start + j) :: walk rows start [] b i (j + 1)
  | _ :: a, [], i, j => .drop (start + i) :: walk rows start a [] (i + 1) j
  | x :: a, y :: b, i, j =>
      if x = y then .keep (start + i) :: walk rows start a b (i + 1) (j + 1)
      else if cell rows (i + 1) j ≤ cell rows i (j + 1) then
        .add (start + j) :: walk rows start (x :: a) b i (j + 1)
      else .drop (start + i) :: walk rows start a (y :: b) (i + 1) j
termination_by a b => a.length + b.length

/-! ## The operations -/

/-- The loop over the anchors, from what is behind the last one. -/
def betweenAnchors (compare : List α → List α → Option (List Op)) (a b : List α) (endA : Nat) :
    Nat → Nat → List (Nat × Nat) → Option (List Op)
  | _, _, [] => some []
  | fromA, fromB, (i, j) :: rest => do
      let part ← compare (slice a fromA i) (slice b fromB j)
      let kept := if i < endA then [Op.keep i] else []
      let others ← betweenAnchors compare a b endA (i + 1) (j + 1) rest
      some (part.map (Op.shift fromA fromB) ++ kept ++ others)

/-- The operations for the region between the common head and tail. -/
def regionOperations (compare : List α → List α → Option (List Op)) (a b : List α)
    (start endA endB : Nat) : Option (List Op) :=
  let lengthA := endA - start
  let lengthB := endB - start
  if (lengthA + 1) * (lengthB + 1) ≤ 4000000 then
    some (walk (table (slice a start endA) (slice b start endB)) start
      (slice a start endA) (slice b start endB) 0 0)
  else do
    let anchors ← uniqueLineAnchors (slice a start endA) (slice b start endB)
    if anchors = [] then
      some ((List.range' start lengthA).map Op.drop ++ (List.range' start lengthB).map Op.add)
    else
      betweenAnchors compare a b endA start start
        (anchors.map (fun p => (start + p.1, start + p.2)) ++ [(endA, endB)])

def startOf (a b : List α) : Nat := commonLength a b

/-- How many lines the tails have in common, behind the head. -/
def tailOf (a b : List α) : Nat :=
  commonLength (a.drop (startOf a b)).reverse (b.drop (startOf a b)).reverse

/-- `lineOperations`, with a bound on its depth. -/
def lineOperations : Nat → List α → List α → Option (List Op)
  | 0, _, _ => none
  | depth + 1, a, b => do
      let start := startOf a b
      let endA := a.length - tailOf a b
      let endB := b.length - tailOf a b
      let region ← regionOperations (lineOperations depth) a b start endA endB
      some ((List.range start).map Op.keep ++ region
        ++ (List.range' endA (a.length - endA)).map Op.keep)

/-! ## Slices and common parts -/

omit [DecidableEq α] in
theorem length_slice {l : List α} {start stop : Nat} (h : stop ≤ l.length) :
    (slice l start stop).length = stop - start := by
  rw [slice, List.length_drop, List.length_take, Nat.min_eq_left h]

omit [DecidableEq α] in
/-- A slice, by a line of it. -/
theorem slice_split {l : List α} {start i stop : Nat} {x : α} (hstart : start ≤ i) (hi : i < stop)
    (hx : l[i]? = some x) : slice l start stop = slice l start i ++ x :: slice l (i + 1) stop := by
  have htake : (l.take stop).take i = l.take i := by rw [List.take_take, Nat.min_eq_left hi.le]
  have hrest : (l.take stop).drop i = x :: (l.take stop).drop (i + 1) := by
    obtain ⟨hlen, hline⟩ := List.getElem?_eq_some_iff.mp ((List.getElem?_take_of_lt hi).trans hx)
    rw [List.drop_eq_getElem_cons hlen, hline]
  have hlen : start ≤ ((l.take stop).take i).length := by
    obtain ⟨hlen, -⟩ := List.getElem?_eq_some_iff.mp hx
    rw [htake, List.length_take]
    omega
  rw [slice, slice, slice, ← hrest, ← htake, ← List.drop_append_of_le_length hlen,
    List.take_append_drop]

theorem take_commonLength (a b : List α) :
    a.take (commonLength a b) = b.take (commonLength a b) ∧ commonLength a b ≤ a.length
      ∧ commonLength a b ≤ b.length := by
  fun_induction commonLength a b with
  | case1 a y b ih =>
      obtain ⟨htake, ha, hb⟩ := ih
      exact ⟨congrArg (y :: ·) htake, Nat.succ_le_succ ha, Nat.succ_le_succ hb⟩
  | case2 x a y b hne => exact ⟨rfl, Nat.zero_le _, Nat.zero_le _⟩
  | case3 a b h => exact ⟨rfl, Nat.zero_le _, Nat.zero_le _⟩

/-- Two lists by their common head and tail. -/
theorem exists_split (a b : List α) : ∃ head left right tail,
    a = head ++ (left ++ tail) ∧ b = head ++ (right ++ tail) ∧ startOf a b = head.length
      ∧ tailOf a b = tail.length := by
  obtain ⟨htake, ha, hb⟩ := take_commonLength a b
  obtain ⟨hback, hlen, -⟩ :=
    take_commonLength (a.drop (startOf a b)).reverse (b.drop (startOf a b)).reverse
  have hparts : ∀ l : List α, l = l.take (startOf a b)
      ++ (((l.drop (startOf a b)).reverse.drop (tailOf a b)).reverse
        ++ ((l.drop (startOf a b)).reverse.take (tailOf a b)).reverse) := by
    intro l
    rw [← List.reverse_append, List.take_append_drop, List.reverse_reverse, List.take_append_drop]
  have hhead : a.take (startOf a b) = b.take (startOf a b) := htake
  have htail : (a.drop (startOf a b)).reverse.take (tailOf a b)
      = (b.drop (startOf a b)).reverse.take (tailOf a b) := hback
  refine ⟨_, _, ((b.drop (startOf a b)).reverse.drop (tailOf a b)).reverse, _, hparts a, ?_, ?_, ?_⟩
  · rw [hhead, htail]
    exact hparts b
  · exact (List.length_take_of_le ha).symm
  · rw [List.length_reverse]
    exact (List.length_take_of_le hlen).symm

/-! ## The walk through the table -/

/-- Whatever the table holds, the walk is a script. -/
theorem edits_walk (rows : List (List Nat)) (start : Nat) (a b : List α) (i j : Nat) :
    Edits a b (start + i) (start + j) (walk rows start a b i j) := by
  fun_induction walk rows start a b i j with
  | case1 => exact .nil
  | case2 y b i j ih => exact .add ih
  | case3 x a i j ih => exact .drop ih
  | case4 a y b i j ih => exact .keep ih
  | case5 x a y b i j hne hle ih => exact .add ih
  | case6 x a y b i j hne hle ih => exact .drop ih

omit [DecidableEq α] in
theorem exists_tails_cons (b : List α) : ∃ rest, b.tails = b :: rest := by
  cases b with
  | nil => exact ⟨[], rfl⟩
  | cons y b => exact ⟨b.tails, List.tails_cons y b⟩

/-- A row has an entry for each end of the second list. -/
theorem rowAbove_spec {x : α} {a b : List α} {below : List Nat}
    (h : List.Forall₂ (IsLongestCommon a) b.tails below) :
    List.Forall₂ (IsLongestCommon (x :: a)) b.tails (rowAbove x b below) := by
  induction b generalizing below with
  | nil => exact .cons (IsLongestCommon.nil_right _) .nil
  | cons y b ih =>
      rw [List.tails_cons] at h ⊢
      obtain ⟨n, below, hn, hbelow, rfl⟩ := List.forall₂_cons_left_iff.mp h
      have hright := ih hbelow
      rw [rowAbove]
      obtain ⟨rest, hrest⟩ := exists_tails_cons b
      rw [hrest] at hbelow
      obtain ⟨m, below, hm, -, rfl⟩ := List.forall₂_cons_left_iff.mp hbelow
      refine .cons ?_ hright
      rw [hrest] at hright
      obtain ⟨k, right, hk, -, hright⟩ := List.forall₂_cons_left_iff.mp hright
      rw [List.tail_cons, hright, List.headD_cons, List.headD_cons, List.headD_cons]
      split
      · next heq => exact heq ▸ hm.cons_self
      · next hne => exact IsLongestCommon.cons_of_ne hne hn hk

/-- **The table** holds the lengths of longest common subsequences. -/
theorem table_spec (a b : List α) : List.Forall₂
    (fun rest row => List.Forall₂ (IsLongestCommon rest) b.tails row) a.tails (table a b) := by
  induction a with
  | nil =>
      refine .cons ?_ .nil
      induction b with
      | nil => exact .cons (IsLongestCommon.nil_left _) .nil
      | cons y b ih =>
          rw [List.tails_cons]
          exact .cons (IsLongestCommon.nil_left _) ih
  | cons x a ih =>
      obtain ⟨rest, hrest⟩ := exists_tails_cons a
      rw [List.tails_cons, table]
      refine .cons ?_ ih
      rw [hrest] at ih
      obtain ⟨row, rows, hrow, -, hrows⟩ := List.forall₂_cons_left_iff.mp ih
      rw [hrows, List.headD_cons]
      exact rowAbove_spec hrow

theorem cell_spec {a b : List α} {i j : Nat} (hi : i ≤ a.length) (hj : j ≤ b.length) :
    IsLongestCommon (a.drop i) (b.drop j) (cell (table a b) i j) := by
  have hrows := List.forall₂_iff_get.mp (table_spec a b)
  have hi' : i < a.tails.length := by rw [List.length_tails]; omega
  have hj' : j < b.tails.length := by rw [List.length_tails]; omega
  have hrow := hrows.2 i hi' (hrows.1 ▸ hi')
  rw [List.get_tails] at hrow
  have hcells := List.forall₂_iff_get.mp hrow
  have hcell := hcells.2 j hj' (hcells.1 ▸ hj')
  rw [List.get_tails] at hcell
  have hrowAt : (table a b).getD i [] = (table a b).get ⟨i, hrows.1 ▸ hi'⟩ := by
    rw [List.getD_eq_getElem?_getD, List.getElem?_eq_getElem (hrows.1 ▸ hi')]
    rfl
  have hlength : j < ((table a b).get ⟨i, hrows.1 ▸ hi'⟩).length := hcells.1 ▸ hj'
  rw [cell, hrowAt, List.getD_eq_getElem?_getD, List.getElem?_eq_getElem hlength]
  exact hcell

/-- The walk keeps as many lines as a longest common subsequence has. -/
theorem walk_spec {wholeA wholeB : List α} (start : Nat) (a b : List α) (i j : Nat)
    (hA : wholeA.drop i = a) (hB : wholeB.drop j = b) :
    IsLongestCommon a b ((walk (table wholeA wholeB) start a b i j).countP Op.isKeep) := by
  have hlen : ∀ {whole rest : List α} {x : α} {i : Nat}, whole.drop i = x :: rest →
      i + 1 ≤ whole.length := by
    intro whole rest x i h
    have := congrArg List.length h
    rw [List.length_drop, List.length_cons] at this
    omega
  fun_induction walk (table wholeA wholeB) start a b i j with
  | case1 i j => exact IsLongestCommon.nil_left []
  | case2 y b i j ih =>
      rw [List.countP_cons_of_neg (by simp [Op.isKeep])]
      rw [(ih hA (of_drop hB).2).unique (IsLongestCommon.nil_left b)]
      exact IsLongestCommon.nil_left _
  | case3 x a i j ih =>
      rw [List.countP_cons_of_neg (by simp [Op.isKeep])]
      rw [(ih (of_drop hA).2 hB).unique (IsLongestCommon.nil_right a)]
      exact IsLongestCommon.nil_right _
  | case4 a y b i j ih =>
      rw [List.countP_cons_of_pos rfl]
      exact (ih (of_drop hA).2 (of_drop hB).2).cons_self
  | case5 x a y b i j hne hle ih =>
      rw [List.countP_cons_of_neg (by simp [Op.isKeep])]
      have hcell := cell_spec (hlen hA) (Nat.le_of_succ_le (hlen hB))
      have hcell' := cell_spec (Nat.le_of_succ_le (hlen hA)) (hlen hB)
      rw [(of_drop hA).2, hB] at hcell
      rw [hA, (of_drop hB).2] at hcell'
      rw [(ih hA (of_drop hB).2).unique hcell']
      have hmax := IsLongestCommon.cons_of_ne hne hcell hcell'
      rwa [Nat.max_eq_right hle] at hmax
  | case6 x a y b i j hne hle ih =>
      rw [List.countP_cons_of_neg (by simp [Op.isKeep])]
      have hcell := cell_spec (hlen hA) (Nat.le_of_succ_le (hlen hB))
      have hcell' := cell_spec (Nat.le_of_succ_le (hlen hA)) (hlen hB)
      rw [(of_drop hA).2, hB] at hcell
      rw [hA, (of_drop hB).2] at hcell'
      rw [(ih (of_drop hA).2 hB).unique hcell]
      have hmax := IsLongestCommon.cons_of_ne hne hcell hcell'
      rwa [Nat.max_eq_left (Nat.le_of_not_le hle)] at hmax

/-! ## Between the anchors -/

/-- A comparison that yields scripts for the lists with fewer lines. -/
def Compares (compare : List α → List α → Option (List Op)) (lines : Nat) : Prop :=
  ∀ a b : List α, a.length < lines → ∃ ops, compare a b = some ops ∧ Edits a b 0 0 ops

/-- Anchors of a region from `fromA`, `fromB` to `endA`, `endB`. -/
structure Between (a b : List α) (fromA fromB endA endB : Nat) (anchors : List (Nat × Nat)) :
    Prop where
  leftStart : fromA ≤ endA
  rightStart : fromB ≤ endB
  inside : ∀ p ∈ anchors, fromA ≤ p.1 ∧ fromB ≤ p.2 ∧ p.1 < endA ∧ p.2 < endB
  common : ∀ p ∈ anchors, ∃ line, a[p.1]? = some line ∧ b[p.2]? = some line
  increasing : anchors.Pairwise fun p q => p.1 < q.1 ∧ p.2 < q.2

omit [DecidableEq α] in
theorem Between.next {a b : List α} {fromA fromB endA endB i j : Nat} {anchors : List (Nat × Nat)}
    (h : Between a b fromA fromB endA endB ((i, j) :: anchors)) :
    Between a b (i + 1) (j + 1) endA endB anchors where
  leftStart := (h.inside _ (List.mem_cons_self ..)).2.2.1
  rightStart := (h.inside _ (List.mem_cons_self ..)).2.2.2
  inside p hmem := by
    obtain ⟨hi, hj⟩ := (List.pairwise_cons.mp h.increasing).1 p hmem
    exact ⟨hi, hj, (h.inside p (List.mem_cons_of_mem _ hmem)).2.2⟩
  common p hmem := h.common p (List.mem_cons_of_mem _ hmem)
  increasing := (List.pairwise_cons.mp h.increasing).2

omit [DecidableEq α] in
/-- The parts are compared, and their scripts make one of the region. -/
theorem betweenAnchors_spec {compare : List α → List α → Option (List Op)} {a b : List α}
    {endA endB : Nat} (hcompare : Compares compare a.length) (hA : endA ≤ a.length)
    (hB : endB ≤ b.length) {anchors : List (Nat × Nat)} {fromA fromB : Nat}
    (h : Between a b fromA fromB endA endB anchors) (hshort : anchors ≠ [] ∨ 0 < fromA) :
    ∃ ops, betweenAnchors compare a b endA fromA fromB (anchors ++ [(endA, endB)]) = some ops
      ∧ Edits (slice a fromA endA) (slice b fromB endB) fromA fromB ops := by
  induction anchors generalizing fromA fromB with
  | nil =>
      have hless := hshort.resolve_left fun hne => hne rfl
      have hstart := h.leftStart
      obtain ⟨part, hpart, hedits⟩ := hcompare (slice a fromA endA) (slice b fromB endB)
        (by rw [length_slice hA]; omega)
      refine ⟨part.map (Op.shift fromA fromB), ?_, ?_⟩
      · simp [betweenAnchors, hpart]
      · simpa using hedits.shift fromA fromB
  | cons anchor anchors ih =>
      obtain ⟨i, j⟩ := anchor
      obtain ⟨hi, hj, hiEnd, hjEnd⟩ := h.inside _ (List.mem_cons_self ..)
      obtain ⟨line, hlineA, hlineB⟩ := h.common _ (List.mem_cons_self ..)
      dsimp only at hi hj hiEnd hjEnd hlineA hlineB
      have hlenA : (slice a fromA i).length = i - fromA := length_slice (by omega)
      have hlenB : (slice b fromB j).length = j - fromB := length_slice (by omega)
      obtain ⟨part, hpart, hedits⟩ := hcompare (slice a fromA i) (slice b fromB j) (by omega)
      obtain ⟨others, hothers, hrest⟩ := ih h.next (.inr (Nat.succ_pos i))
      refine ⟨part.map (Op.shift fromA fromB) ++ [Op.keep i] ++ others, ?_, ?_⟩
      · simp [betweenAnchors, hpart, hothers, hiEnd]
      · rw [slice_split hi hiEnd hlineA, slice_split hj hjEnd hlineB, List.append_assoc]
        have hshift := hedits.shift fromA fromB
        rw [Nat.zero_add, Nat.zero_add] at hshift
        refine hshift.append ?_
        rw [hlenA, hlenB, Nat.add_sub_cancel' hi, Nat.add_sub_cancel' hj]
        exact .keep hrest

omit [DecidableEq α] in
theorem getElem?_slice {l : List α} {start stop i : Nat} {x : α}
    (h : (slice l start stop)[i]? = some x) : start + i < stop ∧ l[start + i]? = some x := by
  rw [slice, List.getElem?_drop, List.getElem?_take] at h
  split at h
  · next hless => exact ⟨hless, h⟩
  · cases h

/-- The region is compared, by the table or between its anchors. -/
theorem regionOperations_spec {compare : List α → List α → Option (List Op)} {a b : List α}
    {start endA endB : Nat} (hcompare : Compares compare a.length) (hA : endA ≤ a.length)
    (hB : endB ≤ b.length) (hstartA : start ≤ endA) (hstartB : start ≤ endB) :
    ∃ ops, regionOperations compare a b start endA endB = some ops
      ∧ Edits (slice a start endA) (slice b start endB) start start ops := by
  unfold regionOperations
  dsimp only
  split
  · refine ⟨_, rfl, ?_⟩
    exact edits_walk _ start _ _ 0 0
  · obtain ⟨anchors, hanchors, hincreasing, hcommon⟩ :=
      uniqueLineAnchors_spec (slice a start endA) (slice b start endB)
    rw [hanchors, Option.bind_eq_bind, Option.bind_some]
    split
    · refine ⟨_, rfl, ?_⟩
      have hreplace := Edits.replace (slice a start endA) (slice b start endB) start start
      rwa [length_slice hA, length_slice hB] at hreplace
    · next hne =>
        refine betweenAnchors_spec hcompare hA hB ⟨hstartA, hstartB, ?_, ?_, ?_⟩ (.inl (by simpa using hne))
        · intro p hmem
          obtain ⟨q, hq, rfl⟩ := List.mem_map.mp hmem
          obtain ⟨line, hleft, hright⟩ := hcommon q hq
          exact ⟨Nat.le_add_right .., Nat.le_add_right .., (getElem?_slice hleft).1,
            (getElem?_slice hright).1⟩
        · intro p hmem
          obtain ⟨q, hq, rfl⟩ := List.mem_map.mp hmem
          obtain ⟨line, hleft, hright⟩ := hcommon q hq
          exact ⟨line, (getElem?_slice hleft).2, (getElem?_slice hright).2⟩
        · refine List.pairwise_map.mpr (hincreasing.imp fun hless => ?_)
          exact ⟨Nat.add_lt_add_left hless.1 _, Nat.add_lt_add_left hless.2 _⟩

/-! ## The whole -/

omit [DecidableEq α] in
theorem slice_middle (head middle tail : List α) :
    slice (head ++ (middle ++ tail)) head.length (head.length + middle.length) = middle := by
  rw [slice, List.take_append, List.take_of_length_le (Nat.le_add_right ..), Nat.add_sub_cancel_left,
    List.take_left', List.drop_left']
  · rfl
  · rfl

omit [DecidableEq α] in
/-- The script of a region, with the common head and tail. -/
theorem edits_around {head left right tail : List α} {region : List Op}
    (h : Edits left right head.length head.length region) :
    Edits (head ++ (left ++ tail)) (head ++ (right ++ tail)) 0 0
      ((List.range head.length).map Op.keep ++ region
        ++ (List.range' (head.length + left.length) tail.length).map Op.keep) := by
  rw [List.append_assoc, List.range_eq_range']
  refine (Edits.common head 0 0).append ?_
  rw [Nat.zero_add]
  exact h.append (Edits.common tail _ _)

/-- One call, on two lists that are split. -/
theorem lineOperations_split {depth : Nat} {a b head left right tail : List α}
    (ha : a = head ++ (left ++ tail)) (hb : b = head ++ (right ++ tail))
    (hstart : startOf a b = head.length) (htail : tailOf a b = tail.length) :
    lineOperations (depth + 1) a b
      = (regionOperations (lineOperations depth) a b head.length (head.length + left.length)
          (head.length + right.length)).map fun region =>
        (List.range head.length).map Op.keep ++ region
          ++ (List.range' (head.length + left.length) tail.length).map Op.keep := by
  have hendA : a.length - tail.length = head.length + left.length := by
    rw [ha, List.length_append, List.length_append]
    omega
  have hendB : b.length - tail.length = head.length + right.length := by
    rw [hb, List.length_append, List.length_append]
    omega
  have hback : a.length - (head.length + left.length) = tail.length := by
    rw [ha, List.length_append, List.length_append]
    omega
  rw [lineOperations, hstart, htail, hendA, hendB, hback]
  cases regionOperations (lineOperations depth) a b head.length (head.length + left.length)
    (head.length + right.length) <;> rfl

/-- Where the depth exceeds the number of lines, it does not run out. -/
theorem compares_lineOperations (depth : Nat) :
    Compares (lineOperations (α := α) depth) depth := by
  induction depth with
  | zero => exact fun a b hless => absurd hless (Nat.not_lt_zero _)
  | succ depth ih =>
      intro a b hless
      obtain ⟨head, left, right, tail, ha, hb, hstart, htail⟩ := exists_split a b
      have hcompare : Compares (lineOperations depth) a.length :=
        fun p q hshort => ih p q (by omega)
      obtain ⟨region, hregion, hedits⟩ := @regionOperations_spec _ _ _ a b head.length
        (head.length + left.length) (head.length + right.length) hcompare (by simp [ha])
        (by simp [hb]) (by omega) (by omega)
      rw [lineOperations_split ha hb hstart htail, hregion]
      refine ⟨_, rfl, ?_⟩
      have hleft : slice a head.length (head.length + left.length) = left := by
        rw [ha, slice_middle]
      have hright : slice b head.length (head.length + right.length) = right := by
        rw [hb, slice_middle]
      rw [hleft, hright] at hedits
      rw [ha, hb]
      exact edits_around hedits

/-! ## The bound on the depth -/

omit [DecidableEq α] in
theorem betweenAnchors_mono {compare compare' : List α → List α → Option (List Op)}
    (h : ∀ p q ops, compare p q = some ops → compare' p q = some ops) {a b : List α} {endA : Nat}
    {stops : List (Nat × Nat)} {fromA fromB : Nat} {ops : List Op}
    (hops : betweenAnchors compare a b endA fromA fromB stops = some ops) :
    betweenAnchors compare' a b endA fromA fromB stops = some ops := by
  induction stops generalizing fromA fromB ops with
  | nil => exact hops
  | cons stop stops ih =>
      simp only [betweenAnchors, Option.bind_eq_bind, Option.bind_eq_some_iff] at hops ⊢
      obtain ⟨part, hpart, others, hothers, hops⟩ := hops
      exact ⟨part, h _ _ _ hpart, others, ih hothers, hops⟩

theorem regionOperations_mono {compare compare' : List α → List α → Option (List Op)}
    (h : ∀ p q ops, compare p q = some ops → compare' p q = some ops) {a b : List α}
    {start endA endB : Nat} {ops : List Op}
    (hops : regionOperations compare a b start endA endB = some ops) :
    regionOperations compare' a b start endA endB = some ops := by
  unfold regionOperations at hops ⊢
  dsimp only at hops ⊢
  split
  · next hfits => rwa [if_pos hfits] at hops
  · next hfits =>
      rw [if_neg hfits, Option.bind_eq_bind, Option.bind_eq_some_iff] at hops
      obtain ⟨anchors, hanchors, hops⟩ := hops
      rw [hanchors, Option.bind_eq_bind, Option.bind_some]
      split at hops
      · next hnil => rwa [if_pos hnil]
      · next hnil =>
          rw [if_neg hnil]
          exact betweenAnchors_mono h hops

/-- What is returned does not depend on the bound. -/
theorem lineOperations_mono {depth : Nat} {a b : List α} {ops : List Op}
    (h : lineOperations depth a b = some ops) : lineOperations (depth + 1) a b = some ops := by
  induction depth generalizing a b ops with
  | zero => cases h
  | succ depth ih =>
      rw [lineOperations] at h ⊢
      simp only [Option.bind_eq_bind, Option.bind_eq_some_iff] at h ⊢
      obtain ⟨region, hregion, hops⟩ := h
      exact ⟨region, regionOperations_mono (fun p q ops => ih) hregion, hops⟩

/-! ## Correctness -/

/-- The edited region fits the table. -/
def FitsTable (a b : List α) : Prop :=
  (a.length - tailOf a b - startOf a b + 1) * (b.length - tailOf a b - startOf a b + 1) ≤ 4000000

/-- On the table path, a longest common subsequence is kept. -/
theorem longest_of_fits {a b : List α} (hfits : FitsTable a b) {depth : Nat} {ops : List Op}
    (h : lineOperations (depth + 1) a b = some ops) :
    IsLongestCommon a b (ops.countP Op.isKeep) := by
  obtain ⟨head, left, right, tail, ha, hb, hstart, htail⟩ := exists_split a b
  have hlenA : a.length - tail.length - head.length = left.length := by
    rw [ha, List.length_append, List.length_append]
    omega
  have hlenB : b.length - tail.length - head.length = right.length := by
    rw [hb, List.length_append, List.length_append]
    omega
  have hleft : slice a head.length (head.length + left.length) = left := by rw [ha, slice_middle]
  have hright : slice b head.length (head.length + right.length) = right := by
    rw [hb, slice_middle]
  rw [FitsTable, hstart, htail, hlenA, hlenB] at hfits
  rw [lineOperations_split ha hb hstart htail] at h
  unfold regionOperations at h
  dsimp only at h
  rw [Nat.add_sub_cancel_left, Nat.add_sub_cancel_left, if_pos hfits, hleft, hright] at h
  obtain rfl := Option.some.inj h
  have hall : ∀ l : List Nat, (l.map Op.keep).countP Op.isKeep = l.length := by
    intro l
    rw [List.countP_map]
    exact List.countP_eq_length.mpr fun i _ => rfl
  have hregion := walk_spec head.length left right 0 0
    (List.drop_zero : left.drop 0 = left) (List.drop_zero : right.drop 0 = right)
  have hwhole := (hregion.append_right tail).append_left head
  rw [← ha, ← hb] at hwhole
  rw [List.countP_append, List.countP_append, hall, hall, List.length_range, List.length_range',
    Nat.add_assoc]
  exact hwhole

/-- **Line operations.**  Whatever the lists of lines, the recursion ends with a
correct edit script, and keeps a longest common subsequence where the edited
region fits the table. -/
theorem lineOperations_correct (a b : List α) : ∃ ops,
    (∀ depth, a.length < depth → lineOperations depth a b = some ops)
      ∧ Correct a b ops ∧ (FitsTable a b → IsLongestCommon a b (ops.countP Op.isKeep)) := by
  obtain ⟨ops, hops, hedits⟩ := compares_lineOperations (a.length + 1) a b (Nat.lt_succ_self _)
  refine ⟨ops, fun depth hdepth => ?_, hedits.correct, fun hfits => longest_of_fits hfits hops⟩
  induction depth, hdepth using Nat.le_induction with
  | base => exact hops
  | succ depth _ ih => exact lineOperations_mono ih

end Yaml

end SingularityFlow
