/-
# How Git prints the name of a file

Without `-z`, Git prints a name on a line of its own.  A name that holds a
control character, a quote, a backslash or an octet past ASCII is printed
between quotes, with those octets escaped; every other name is printed as it
is, blanks at its ends included.  So a line of a listing never holds a line
feed of a name, and it is the name itself exactly when the name is plain.
-/
import SingularityFlow.Lib.Utf8
import SingularityFlow.Lib.Json

namespace SingularityFlow

open Ecma

namespace Git

/-! ## Quoting -/

/-- `QUOTED_PATH_BYTE`: an octet for which a name is quoted. -/
def isQuotedByte (b : UInt8) : Bool :=
  b.toNat < 0x20 || b.toNat = 0x22 || b.toNat = 0x5C || 0x7F ≤ b.toNat

/-- A name that is printed as it is. -/
def IsPlain (name : Bytes) : Prop := ∀ b ∈ name, isQuotedByte b = false

instance (name : Bytes) : Decidable (IsPlain name) := inferInstanceAs (Decidable (∀ _ ∈ _, _))

/-- The unit with the number of an octet. -/
def unitOf (b : UInt8) : UInt16 := b.toNat.toUInt16

/-- The letter that escapes a control character. -/
def escapeLetter? (b : UInt8) : Option UInt16 :=
  match b.toNat with
  | 0x07 => some 0x61
  | 0x08 => some 0x62
  | 0x09 => some 0x74
  | 0x0A => some 0x6E
  | 0x0B => some 0x76
  | 0x0C => some 0x66
  | 0x0D => some 0x72
  | 0x22 => some 0x22
  | 0x5C => some 0x5C
  | _ => none

/-- An octal digit. -/
def octalUnit (d : Nat) : UInt16 := (0x30 + d % 8).toUInt16

/-- One octet of a name between quotes. -/
def quoteByte (b : UInt8) : Text :=
  if isQuotedByte b then
    match escapeLetter? b with
    | some letter => [0x5C, letter]
    | none => [0x5C, octalUnit (b.toNat / 64), octalUnit (b.toNat / 8), octalUnit b.toNat]
  else [unitOf b]

/-- The line that stands for a name. -/
def printedName (name : Bytes) : Text :=
  if IsPlain name then name.map unitOf
  else 0x22 :: name.flatMap quoteByte ++ [0x22]

example : printedName [0x61, 0x20, 0x0A, 0xC3, 0xA9] = js "\"a \\n\\303\\251\"" := by decide

/-! ## What a printed name is -/

theorem toNat_unitOf (b : UInt8) : (unitOf b).toNat = b.toNat :=
  toNat_toUInt16 (b.toNat_lt.trans (by decide))

theorem toNat_octalUnit (d : Nat) : (octalUnit d).toNat = 0x30 + d % 8 :=
  toNat_toUInt16 (by omega)

theorem printedName_plain {name : Bytes} (h : IsPlain name) : printedName name = name.map unitOf :=
  if_pos h

theorem printedName_quoted {name : Bytes} (h : ¬ IsPlain name) :
    printedName name = 0x22 :: (name.flatMap quoteByte ++ [0x22]) := by
  rw [printedName, if_neg h]
  rfl

/-- A plain name is ASCII, and its line stands for it. -/
theorem textEncode_printedName {name : Bytes} (h : IsPlain name) :
    textEncode (printedName name) = name := by
  rw [printedName_plain h]
  refine textEncode_ascii fun b hb => ?_
  have hplain := h b hb
  simp only [isQuotedByte, Bool.or_eq_false_iff, decide_eq_false_iff_not] at hplain
  omega

theorem escapeLetter?_printable {b : UInt8} {letter : UInt16} (h : escapeLetter? b = some letter) :
    0x20 ≤ letter.toNat ∧ letter.toNat < 0x7F := by
  unfold escapeLetter? at h
  split at h <;> cases h <;> decide

/-- Every unit of a printed octet is printable. -/
theorem quoteByte_printable (b : UInt8) : ∀ u ∈ quoteByte b, 0x20 ≤ u.toNat ∧ u.toNat < 0x7F := by
  intro u hu
  unfold quoteByte at hu
  split at hu
  · split at hu
    · next letter hletter =>
      rcases List.mem_cons.mp hu with rfl | hu
      · decide
      · obtain rfl := List.mem_singleton.mp hu
        exact escapeLetter?_printable hletter
    · rcases List.mem_cons.mp hu with rfl | hu
      · decide
      · obtain ⟨d, rfl⟩ : ∃ d, u = octalUnit d := by
          simp only [List.mem_cons, List.not_mem_nil, or_false] at hu
          rcases hu with rfl | rfl | rfl <;> exact ⟨_, rfl⟩
        rw [toNat_octalUnit]
        omega
  · next hplain =>
    obtain rfl := List.mem_singleton.mp hu
    rw [toNat_unitOf]
    simp only [isQuotedByte, Bool.or_eq_true, decide_eq_true_eq] at hplain
    omega

/-- A name is printed in printable characters, so on one line. -/
theorem printedName_printable (name : Bytes) :
    ∀ u ∈ printedName name, 0x20 ≤ u.toNat ∧ u.toNat < 0x7F := by
  intro u hu
  by_cases h : IsPlain name
  · rw [printedName_plain h] at hu
    obtain ⟨b, hb, rfl⟩ := List.mem_map.mp hu
    have hplain := h b hb
    rw [toNat_unitOf]
    simp only [isQuotedByte, Bool.or_eq_false_iff, decide_eq_false_iff_not] at hplain
    omega
  · rw [printedName_quoted h, List.mem_cons, List.mem_append, List.mem_flatMap,
      List.mem_singleton] at hu
    rcases hu with rfl | ⟨b, -, hb⟩ | rfl
    · decide
    · exact quoteByte_printable b u hb
    · decide

theorem lineFeed_notMem_printedName (name : Bytes) : (0x0A : UInt16) ∉ printedName name :=
  fun h => absurd (printedName_printable name _ h).1 (by decide)

/-! ## Printable texts -/

/-- The octet of a printable character. -/
def octetOf (u : UInt16) : UInt8 := UInt8.ofNat u.toNat

theorem unitOf_octetOf {u : UInt16} (h : u.toNat < 0x7F) : unitOf (octetOf u) = u := by
  refine UInt16.toNat_inj.mp ?_
  rw [toNat_unitOf, octetOf, toNat_ofNat_uint8 (by omega)]

/-- A printable text is encoded unit by unit. -/
theorem textEncode_printable {t : Text} (h : ∀ u ∈ t, u.toNat < 0x7F) :
    textEncode t = t.map octetOf := by
  have hunits : (t.map octetOf).map unitOf = t := by
    rw [List.map_map]
    exact (List.map_congr_left fun u hu => unitOf_octetOf (h u hu)).trans (List.map_id t)
  have hencode : textEncode ((t.map octetOf).map unitOf) = t.map octetOf :=
    textEncode_ascii fun b hb => by
      obtain ⟨u, hu, rfl⟩ := List.mem_map.mp hb
      have := h u hu
      rw [octetOf, toNat_ofNat_uint8 (by omega)]
      omega
  rwa [hunits] at hencode

/-- Printable units that no blank is among are read back from their octets. -/
theorem utf8Text_printable {t : Text} (h : ∀ u ∈ t, u.toNat < 0x7F) :
    utf8Text (textEncode t) = t :=
  utf8Text_textEncode (wellFormed_of_ascii fun u hu => (h u hu).trans (by decide))

/-! ## Names that are decoded

A name is decoded with U+FFFD in the place of what cannot be, and encoded again
to see whether Git would have quoted it. -/

/-- No octet of a character past ASCII is printed as it is. -/
theorem isQuotedByte_of_high {b : UInt8} (h : 0x80 ≤ b.toNat) : isQuotedByte b = true := by
  simp only [isQuotedByte, Bool.or_eq_true, decide_eq_true_eq]
  omega

theorem isPlain_append {a b : Bytes} : IsPlain (a ++ b) ↔ IsPlain a ∧ IsPlain b :=
  List.forall_mem_append

/-- What is decoded, with replacement or not, is plain where the octets are. -/
theorem isPlain_utf8Scalars : ∀ (n : Nat) (bs : Bytes), bs.length ≤ n →
    (IsPlain (utf8Encode (utf8ScalarsFuel n bs)) ↔ IsPlain bs)
  | n, [], _ => by cases n <;> exact Iff.rfl
  | 0, b :: bs, h => absurd h (by simp)
  | n + 1, b :: bs, h => by
      rw [utf8ScalarsFuel]
      cases hd : decodeScalar (b :: bs) with
      | some p =>
          obtain ⟨c, rest⟩ := p
          have hbytes := utf8EncodeChar_of_decodeScalar hd
          have hlength : rest.length ≤ n := by
            have hne := List.length_pos_of_ne_nil (utf8EncodeChar_ne_nil c)
            have := congrArg List.length hbytes
            rw [List.length_append, List.length_cons] at this
            simp only [List.length_cons] at h
            omega
          dsimp only
          rw [utf8Encode_cons, isPlain_append, isPlain_utf8Scalars n rest hlength, ← isPlain_append]
          rw [hbytes]
      | none =>
          have hhigh : 0x80 ≤ b.toNat := by
            by_contra hlow
            rw [decodeScalar, if_pos (by omega)] at hd
            cases hd
          refine iff_of_false (fun hp => ?_) fun hp => ?_
          · have := hp 0xEF (List.mem_append_left _ (by decide))
            exact absurd this (by decide)
          · exact Bool.noConfusion ((isQuotedByte_of_high hhigh).symm.trans (hp b (List.mem_cons_self ..)))

/-- **A name is plain when what it is decoded to is.** -/
theorem isPlain_utf8Text (name : Bytes) : IsPlain (textEncode (utf8Text name)) ↔ IsPlain name := by
  rw [textEncode, utf8Text, scalars_ofScalars]
  exact isPlain_utf8Scalars _ _ le_rfl

end Git

end SingularityFlow
