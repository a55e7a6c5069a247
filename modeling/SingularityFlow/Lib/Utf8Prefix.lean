/-
# Cutting a text to a size

A text is cut behind the last scalar whose octets all fit: from the limit, one
goes back over continuation octets.  What is left is a prefix of the scalars
(`take_boundary`), so reading it back replaces nothing, and the cut text, less
the white space at its end, stays within the limit (`byteLength_utf8Prefix_le`).
-/
import SingularityFlow.Lib.ByteLength

namespace Ecma

/-- `while (end > 0 && (source[end] & 0xc0) === 0x80) end -= 1`. -/
def boundary (source : Bytes) : Nat → Nat
  | 0 => 0
  | n + 1 => if source[n + 1]?.any isTail then boundary source n else n + 1

/-- `utf8Prefix`. -/
def utf8Prefix (value : Text) (maximumBytes : Nat) : Text :=
  let source := textEncode value
  if source.length ≤ maximumBytes then value
  else trimEnd (utf8Text (source.take (boundary source maximumBytes)))

theorem boundary_le (source : Bytes) : ∀ n, boundary source n ≤ n
  | 0 => le_rfl
  | n + 1 => by
      rw [boundary]
      split
      · exact (boundary_le source n).trans (Nat.le_succ n)
      · exact le_rfl

/-- The cut is at the front, or not before a continuation octet. -/
theorem boundary_spec (source : Bytes) : ∀ n,
    boundary source n = 0 ∨ source[boundary source n]?.any isTail = false
  | 0 => .inl rfl
  | n + 1 => by
      rw [boundary]
      split
      · exact boundary_spec source n
      · next h => exact .inr (by simpa using h)

/-- Behind its lead octet a scalar has continuation octets only. -/
theorem isTail_of_mem_tail (c : Char) : ∀ b ∈ (String.utf8EncodeChar c).tail, isTail b = true := by
  have htail : ∀ {b : UInt8} {n : Nat}, b.toNat = 0x80 + n % 0x40 → isTail b = true := by
    intro b n h
    simp only [isTail, inRange, Bool.and_eq_true, decide_eq_true_eq]
    omega
  intro b hb
  have h := encodesAs_utf8EncodeChar c
  revert hb
  generalize String.utf8EncodeChar c = bs at h
  cases h with
  | one => simp
  | two _ _ _ h₁ => simpa using fun hb => hb ▸ htail h₁
  | three _ _ _ h₁ h₂ =>
      simp only [List.tail_cons, List.mem_cons, List.not_mem_nil, or_false]
      rintro (rfl | rfl)
      exacts [htail h₁, htail h₂]
  | four _ _ _ h₁ h₂ h₃ =>
      simp only [List.tail_cons, List.mem_cons, List.not_mem_nil, or_false]
      rintro (rfl | rfl | rfl)
      exacts [htail h₁, htail h₂, htail h₃]

/-- A cut that is not before a continuation octet is between scalars. -/
theorem take_utf8Encode : ∀ {cs : List Char} {n : Nat},
    n = 0 ∨ (utf8Encode cs)[n]?.any isTail = false →
      ∃ front, front <+: cs ∧ (utf8Encode cs).take n = utf8Encode front
  | [], n, _ => ⟨[], List.nil_prefix, by simp⟩
  | c :: cs, n, h => by
      rcases Nat.eq_zero_or_pos n with rfl | hpos
      · exact ⟨[], List.nil_prefix, rfl⟩
      have hn := h.resolve_left (by omega)
      rw [utf8Encode_cons] at hn ⊢
      rcases Nat.lt_or_ge n (String.utf8EncodeChar c).length with hlt | hge
      · -- the octets of one scalar behind its lead octet
        obtain ⟨m, rfl⟩ := Nat.exists_eq_succ_of_ne_zero (by omega : n ≠ 0)
        rw [List.getElem?_append_left hlt, List.getElem?_eq_getElem hlt, Option.any_some] at hn
        have hmem : (String.utf8EncodeChar c)[m + 1] ∈ (String.utf8EncodeChar c).tail := by
          rw [← List.getElem_tail (i := m) (by rw [List.length_tail]; omega)]
          exact List.getElem_mem _
        rw [isTail_of_mem_tail c _ hmem] at hn
        cases hn
      · rw [List.getElem?_append_right hge] at hn
        obtain ⟨front, hfront, htake⟩ := take_utf8Encode (.inr hn)
        refine ⟨c :: front, List.cons_prefix_cons.mpr ⟨rfl, hfront⟩, ?_⟩
        rw [utf8Encode_cons, ← htake, List.take_append, List.take_of_length_le hge]

/-- In front of a unit that is no low surrogate, sizes add. -/
theorem scalars_append_of_head {b : Text} (hb : ∀ v ∈ b.head?, isLowSurrogate v = false) :
    ∀ a : Text, scalars (a ++ b) = scalars a ++ scalars b
  | [] => rfl
  | [u] => by
      cases b with
      | nil => simp [scalars]
      | cons v b =>
          have hv : isLowSurrogate v = false := hb v rfl
          cases hhigh : isHighSurrogate u <;> cases hlow : isLowSurrogate u <;>
            simp [scalars, hv, hhigh, hlow]
  | u :: v :: a => by
      have ih₁ := scalars_append_of_head hb (v :: a)
      have ih₂ := scalars_append_of_head hb a
      rw [List.cons_append] at ih₁
      rw [List.cons_append, List.cons_append, scalars, scalars]
      split_ifs <;> simp [ih₁, ih₂]

theorem isLowSurrogate_of_isTrimmed {u : UInt16} (h : isTrimmed u = true) :
    isLowSurrogate u = false := by
  by_contra hlow
  rw [Bool.not_eq_false, isLowSurrogate, Bool.and_eq_true, decide_eq_true_eq,
    decide_eq_true_eq] at hlow
  simp only [isTrimmed, Bool.or_eq_true, Bool.and_eq_true, decide_eq_true_eq, List.mem_cons,
    List.not_mem_nil, or_false] at h
  rcases h with (h | h) | h
  · omega
  · rcases h with rfl | rfl | rfl | rfl | rfl | rfl | rfl | rfl | rfl <;> revert hlow <;> decide
  · omega

/-- Trimming takes octets away. -/
theorem byteLength_trimEnd_le (t : Text) : byteLength (trimEnd t) ≤ byteLength t := by
  have hsplit : t = trimEnd t ++ (t.reverse.takeWhile isTrimmed).reverse := by
    rw [trimEnd, ← List.reverse_append, List.takeWhile_append_dropWhile, List.reverse_reverse]
  have hrest : ∀ v ∈ (t.reverse.takeWhile isTrimmed).reverse.head?, isLowSurrogate v = false :=
    fun v hv => isLowSurrogate_of_isTrimmed
      (List.all_eq_true.mp List.all_takeWhile v (List.mem_reverse.mp (List.mem_of_mem_head? hv)))
  calc byteLength (trimEnd t)
      ≤ byteLength (trimEnd t ++ (t.reverse.takeWhile isTrimmed).reverse) := by
        simp only [byteLength, textEncode, scalars_append_of_head hrest, utf8Encode,
          List.flatMap_append, List.length_append]
        exact Nat.le_add_right _ _
    _ = byteLength t := by rw [← hsplit]

/-- **A cut text is within its limit.** -/
theorem byteLength_utf8Prefix_le (value : Text) (maximumBytes : Nat) :
    byteLength (utf8Prefix value maximumBytes) ≤ maximumBytes := by
  unfold utf8Prefix
  dsimp only
  split
  · next h => exact h
  · next h =>
      obtain ⟨front, -, hfront⟩ := take_utf8Encode
        (boundary_spec (utf8Encode (scalars value)) maximumBytes)
      have hread : utf8Text (utf8Encode front) = ofScalars front := by
        have := utf8Text_textEncode (wellFormed_ofScalars front)
        rwa [textEncode, scalars_ofScalars] at this
      refine (byteLength_trimEnd_le _).trans ?_
      rw [textEncode, hfront, hread, byteLength, textEncode, scalars_ofScalars, ← hfront,
        List.length_take]
      exact (min_le_left _ _).trans (boundary_le _ _)

/-- A text within the limit is not cut. -/
theorem utf8Prefix_of_le {value : Text} {maximumBytes : Nat}
    (h : byteLength value ≤ maximumBytes) : utf8Prefix value maximumBytes = value := if_pos h

end Ecma
