/-
# Patience anchors

Lines that occur once in each of two texts are candidates for anchors.  Of the
candidates, in the order of the first text, an increasing sequence is taken: the
candidates are dealt onto piles, each remembers the top of the pile before its
own, and the anchors are what is remembered, from the last pile on.

That the anchors increase does not rest on the binary search being right about
all of the piles.  It returns a pile of which the one before it has a smaller
top, and what is remembered was dealt before: `Piles.Valid` says no more than
that, and gives both that the walk back ends and that it descends.
-/
import SingularityFlow.Lib.Collections
import SingularityFlow.Lib.EditScript

namespace SingularityFlow

open Ecma EditScript

namespace Yaml

variable {α : Type} [DecidableEq α]

/-! ## Lines that occur once -/

/-- `found.set(line, found.has(line) ? -1 : index)`; a line that occurs again has
no index, and keeps its place. -/
def note (found : List (α × Option Nat)) (line : α) (index : Nat) : List (α × Option Nat) :=
  if line ∈ found.map Prod.fst then
    found.map fun entry => if entry.1 = line then (line, none) else entry
  else found ++ [(line, some index)]

def positionsFrom (found : List (α × Option Nat)) (index : Nat) : List α → List (α × Option Nat)
  | [] => found
  | line :: rest => positionsFrom (note found line index) (index + 1) rest

def positions (lines : List α) : List (α × Option Nat) := positionsFrom [] 0 lines

/-- The positions of the lines that occur once in both. -/
def uniquePairs (a b : List α) : List (Nat × Nat) :=
  let right := positions b
  (positions a).filterMap fun entry =>
    match entry.2, (mapGet right entry.1).join with
    | some x, some y => some (x, y)
    | _, _ => none

/-- What is found of the lines before `index`. -/
structure Found (lines : List α) (index : Nat) (found : List (α × Option Nat)) : Prop where
  placed : ∀ entry ∈ found, ∀ x, entry.2 = some x → x < index ∧ lines[x]? = some entry.1
  increasing : found.Pairwise fun entry entry' =>
    ∀ x x', entry.2 = some x → entry'.2 = some x' → x < x'

theorem Found.note {lines : List α} {index : Nat} {found : List (α × Option Nat)} {line : α}
    (h : Found lines index found) (hline : lines[index]? = some line) :
    Found lines (index + 1) (note found line index) := by
  unfold Yaml.note
  split
  · -- only positions that were found before are left
    have hkept : ∀ entry : α × Option Nat, ∀ x,
        (if entry.1 = line then (line, none) else entry).2 = some x →
          entry.2 = some x ∧ (if entry.1 = line then (line, none) else entry).1 = entry.1 := by
      intro entry x hx
      split at hx
      · cases hx
      · next hne => exact ⟨hx, by rw [if_neg hne]⟩
    constructor
    · intro entry hmem x hx
      obtain ⟨entry', hmem', rfl⟩ := List.mem_map.mp hmem
      obtain ⟨hx', hsame⟩ := hkept entry' x hx
      obtain ⟨hless, hat⟩ := h.placed entry' hmem' x hx'
      exact ⟨Nat.lt_succ_of_lt hless, by rw [hsame, hat]⟩
    · refine List.pairwise_map.mpr (h.increasing.imp fun hless x x' hx hx' => ?_)
      exact hless x x' (hkept _ x hx).1 (hkept _ x' hx').1
  · constructor
    · intro entry hmem x hx
      rcases List.mem_append.mp hmem with hmem | hmem
      · obtain ⟨hless, hat⟩ := h.placed entry hmem x hx
        exact ⟨Nat.lt_succ_of_lt hless, hat⟩
      · obtain rfl := List.mem_singleton.mp hmem
        obtain rfl := Option.some.inj hx
        exact ⟨Nat.lt_succ_self _, hline⟩
    · refine List.pairwise_append.mpr ⟨h.increasing, List.pairwise_singleton .., ?_⟩
      intro entry hmem entry' hmem' x x' hx hx'
      obtain rfl := List.mem_singleton.mp hmem'
      obtain rfl := Option.some.inj hx'
      exact (h.placed entry hmem x hx).1

theorem Found.positionsFrom {lines rest : List α} {index : Nat} {found : List (α × Option Nat)}
    (h : Found lines index found) (hrest : lines.drop index = rest) :
    ∃ n, Found lines n (positionsFrom found index rest) := by
  induction rest generalizing index found with
  | nil => exact ⟨index, h⟩
  | cons line rest ih =>
      obtain ⟨hline, hrest⟩ := of_drop hrest
      exact ih (h.note hline) hrest

theorem found_positions (lines : List α) : ∃ n, Found lines n (positions lines) := by
  have hnone : Found lines 0 [] :=
    ⟨fun entry hmem => absurd hmem List.not_mem_nil, List.Pairwise.nil⟩
  exact hnone.positionsFrom List.drop_zero

/-- The pairs are in the order of the first text, and each is of one line. -/
structure Candidates (a b : List α) (pairs : List (Nat × Nat)) : Prop where
  increasing : pairs.Pairwise fun p q => p.1 < q.1
  common : ∀ p ∈ pairs, ∃ line, a[p.1]? = some line ∧ b[p.2]? = some line

theorem candidates_uniquePairs (a b : List α) : Candidates a b (uniquePairs a b) := by
  obtain ⟨n, hleft⟩ := found_positions a
  obtain ⟨m, hright⟩ := found_positions b
  have hentry : ∀ (entry : α × Option Nat) (p : Nat × Nat),
      (match entry.2, (mapGet (positions b) entry.1).join with
        | some x, some y => some (x, y)
        | _, _ => none) = some p →
      entry.2 = some p.1 ∧ (entry.1, some p.2) ∈ positions b := by
    intro entry p hp
    split at hp
    · next x y hx hy =>
        obtain rfl := Option.some.inj hp
        exact ⟨hx, mem_of_mapGet (Option.join_eq_some_iff.mp hy)⟩
    · cases hp
  constructor
  · refine List.pairwise_filterMap.mpr (hleft.increasing.imp fun hless p hp q hq => ?_)
    exact hless p.1 q.1 (hentry _ p hp).1 (hentry _ q hq).1
  · intro p hmem
    obtain ⟨entry, hfound, hp⟩ := List.mem_filterMap.mp hmem
    obtain ⟨hx, hy⟩ := hentry entry p hp
    exact ⟨entry.1, (hleft.placed entry hfound p.1 hx).2, (hright.placed _ hy p.2 rfl).2⟩

/-! ## Piles -/

/-- The pair with this number. -/
def pairAt (pairs : List (Nat × Nat)) (index : Nat) : Nat × Nat := pairs.getD index (0, 0)

structure Piles where
  tails : List Nat
  previous : List (Option Nat)

/-- The binary search: the first pile whose top is not smaller. -/
def search (smaller : Nat → Bool) (low high : Nat) : Nat :=
  if low < high then
    let mid := (low + high) / 2
    if smaller mid then search smaller (mid + 1) high else search smaller low mid
  else low
termination_by high - low

/-- `pairs[tails[mid]][1] < y` -/
def smallerTop (pairs : List (Nat × Nat)) (tails : List Nat) (y mid : Nat) : Bool :=
  tails[mid]?.any fun index => (pairAt pairs index).2 < y

/-- One pair is dealt. -/
def Piles.deal (pairs : List (Nat × Nat)) (piles : Piles) (index : Nat) : Piles :=
  let low := search (smallerTop pairs piles.tails (pairAt pairs index).2) 0 piles.tails.length
  ⟨if low < piles.tails.length then piles.tails.set low index else piles.tails ++ [index],
    piles.previous ++ [if low = 0 then none else piles.tails[low - 1]?]⟩

/-- The first `n` pairs are dealt. -/
def dealt (pairs : List (Nat × Nat)) : Nat → Piles
  | 0 => ⟨[], []⟩
  | n + 1 => (dealt pairs n).deal pairs n

/-- The walk back from a pair, with a bound on its steps; `none` when they run out. -/
def walkBack (previous : List (Option Nat)) : Nat → Option Nat → Option (List Nat)
  | _, none => some []
  | 0, some _ => none
  | steps + 1, some index => (walkBack previous steps previous[index]?.join).map (index :: ·)

/-- Patience anchors: unique in both inputs, with increasing positions in both. -/
def uniqueLineAnchors (a b : List α) : Option (List (Nat × Nat)) :=
  let pairs := uniquePairs a b
  let piles := dealt pairs pairs.length
  (walkBack piles.previous pairs.length piles.tails.getLast?).map fun chain =>
    (chain.map (pairAt pairs)).reverse

/-- The search returns the first place, or one after a smaller top. -/
theorem search_spec (smaller : Nat → Bool) (low high : Nat)
    (h : low = 0 ∨ smaller (low - 1) = true) :
    search smaller low high = 0 ∨ smaller (search smaller low high - 1) = true := by
  fun_induction search smaller low high with
  | case1 low high hless mid hmid ih => exact ih (.inr hmid)
  | case2 low high hless mid hmid ih => exact ih h
  | case3 low high hless => exact h

/-- What was dealt is on the piles, and remembers an earlier pair that is smaller. -/
structure Piles.Valid (pairs : List (Nat × Nat)) (n : Nat) (piles : Piles) : Prop where
  tails : ∀ index ∈ piles.tails, index < n
  length : piles.previous.length = n
  previous : ∀ index p, piles.previous[index]?.join = some p →
    p < index ∧ (pairAt pairs p).2 < (pairAt pairs index).2

theorem Piles.Valid.deal {pairs : List (Nat × Nat)} {n : Nat} {piles : Piles}
    (h : piles.Valid pairs n) : (piles.deal pairs n).Valid pairs (n + 1) where
  tails index hmem := by
    rw [Piles.deal] at hmem
    dsimp only at hmem
    split at hmem
    · rcases List.mem_or_eq_of_mem_set hmem with hmem | rfl
      · exact Nat.lt_succ_of_lt (h.tails index hmem)
      · exact Nat.lt_succ_self _
    · rcases List.mem_append.mp hmem with hmem | hmem
      · exact Nat.lt_succ_of_lt (h.tails index hmem)
      · rw [List.mem_singleton.mp hmem]
        exact Nat.lt_succ_self _
  length := by rw [Piles.deal, List.length_append, h.length, List.length_singleton]
  previous index p hp := by
    rw [Piles.deal] at hp
    dsimp only at hp
    rcases Nat.lt_trichotomy index n with hless | rfl | hgreater
    · rw [List.getElem?_append_left (by rw [h.length]; exact hless)] at hp
      exact h.previous index p hp
    · rw [List.getElem?_append_right (Nat.le_of_eq h.length), h.length, Nat.sub_self] at hp
      have hspec := search_spec (smallerTop pairs piles.tails (pairAt pairs index).2) 0
        piles.tails.length (.inl rfl)
      generalize search (smallerTop pairs piles.tails (pairAt pairs index).2) 0
        piles.tails.length = low at hp hspec
      rw [List.getElem?_cons_zero, Option.join_some] at hp
      split at hp
      · cases hp
      · next hlow =>
          have htop := hspec.resolve_left hlow
          rw [smallerTop, hp, Option.any_some, decide_eq_true_eq] at htop
          exact ⟨h.tails p (List.mem_of_getElem? hp), htop⟩
    · rw [List.getElem?_eq_none (by rw [List.length_append, h.length, List.length_singleton]; omega)]
        at hp
      cases hp

theorem valid_dealt (pairs : List (Nat × Nat)) (n : Nat) : (dealt pairs n).Valid pairs n := by
  induction n with
  | zero => exact ⟨fun _ hmem => absurd hmem List.not_mem_nil, rfl, fun _ _ h => by cases h⟩
  | succ n ih => exact ih.deal

/-! ## The walk back -/

theorem walkBack_none (previous : List (Option Nat)) (steps : Nat) :
    walkBack previous steps none = some [] := by
  cases steps <;> rfl

/-- The steps suffice, and the walk descends. -/
theorem walkBack_spec {pairs : List (Nat × Nat)} {n : Nat} {piles : Piles}
    (h : piles.Valid pairs n) : ∀ steps index, index < steps →
      ∃ chain, walkBack piles.previous steps (some index) = some (index :: chain)
        ∧ (index :: chain).Pairwise fun later earlier =>
          earlier < later ∧ (pairAt pairs earlier).2 < (pairAt pairs later).2 := by
  intro steps
  induction steps with
  | zero => exact fun index hless => absurd hless (Nat.not_lt_zero _)
  | succ steps ih =>
      intro index hless
      rw [walkBack]
      cases hprevious : piles.previous[index]?.join with
      | none => exact ⟨[], by rw [walkBack_none]; rfl, List.pairwise_singleton ..⟩
      | some p =>
          obtain ⟨hp, hsmaller⟩ := h.previous index p hprevious
          obtain ⟨chain, hchain, hdescends⟩ := ih p (by omega)
          refine ⟨p :: chain, by rw [hchain]; rfl, List.pairwise_cons.mpr ⟨?_, hdescends⟩⟩
          intro earlier hmem
          rcases List.mem_cons.mp hmem with rfl | hmem
          · exact ⟨hp, hsmaller⟩
          · obtain ⟨hless', hsmaller'⟩ := (List.pairwise_cons.mp hdescends).1 earlier hmem
            exact ⟨hless'.trans hp, hsmaller'.trans hsmaller⟩

/-- Pairs that increase in both positions, each of one line. -/
structure Anchored (a b : List α) (anchors : List (Nat × Nat)) : Prop where
  increasing : anchors.Pairwise fun p q => p.1 < q.1 ∧ p.2 < q.2
  common : ∀ p ∈ anchors, ∃ line, a[p.1]? = some line ∧ b[p.2]? = some line

theorem pairAt_eq {pairs : List (Nat × Nat)} {index : Nat} (h : index < pairs.length) :
    pairAt pairs index = pairs[index] := by
  rw [pairAt, List.getD_eq_getElem?_getD, List.getElem?_eq_getElem h, Option.getD_some]

/-- **Anchors.**  The walk back ends, and the anchors increase in both texts. -/
theorem uniqueLineAnchors_spec (a b : List α) :
    ∃ anchors, uniqueLineAnchors a b = some anchors ∧ Anchored a b anchors := by
  have hcandidates := candidates_uniquePairs a b
  unfold uniqueLineAnchors
  generalize uniquePairs a b = pairs at hcandidates
  have hvalid := valid_dealt pairs pairs.length
  cases hlast : (dealt pairs pairs.length).tails.getLast? with
  | none =>
      refine ⟨[], by dsimp only; rw [hlast, walkBack_none]; rfl, List.Pairwise.nil, ?_⟩
      exact fun p hmem => absurd hmem List.not_mem_nil
  | some last =>
      have hlen := hvalid.tails last (List.mem_of_getLast? hlast)
      obtain ⟨chain, hchain, hdescends⟩ := walkBack_spec hvalid pairs.length last hlen
      have hrange : ∀ index ∈ last :: chain, index < pairs.length := by
        refine List.forall_mem_cons.mpr ⟨hlen, fun index hmem => ?_⟩
        exact ((List.pairwise_cons.mp hdescends).1 index hmem).1.trans hlen
      refine ⟨_, by dsimp only; rw [hlast, hchain]; rfl, ?_, ?_⟩
      · refine List.pairwise_reverse.mpr (List.pairwise_map.mpr ?_)
        refine hdescends.imp_of_mem fun {later earlier} hlater hearlier hless => ⟨?_, hless.2⟩
        have hl := hrange later hlater
        have he := hrange earlier hearlier
        rw [pairAt_eq hl, pairAt_eq he]
        exact List.pairwise_iff_getElem.mp hcandidates.increasing _ _ he hl hless.1
      · intro p hmem
        obtain ⟨index, hindex, rfl⟩ := List.mem_map.mp (List.mem_reverse.mp hmem)
        rw [pairAt_eq (hrange index hindex)]
        exact hcandidates.common _ (List.getElem_mem _)

end Yaml

end SingularityFlow
