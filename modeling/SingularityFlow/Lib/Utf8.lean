/-
# UTF-8, and what a fatal decoder does with it

Encoding is the core library's `String.utf8EncodeChar`.  Decoding follows
the WHATWG decoder: a lead octet fixes how many tails are owed and, for
`E0`, `ED`, `F0` and `F4`, narrows the range of the first of them, which is
what rules out overlong forms, surrogates and values past U+10FFFF.

Decoding and encoding are inverse bijections between the valid octet
sequences and the scalar sequences (`utf8Decode_utf8Encode`,
`utf8Encode_of_utf8Decode`).  `TextDecoder` is not: before it decodes, it
removes one leading byte order mark, so `decodeFatal` sends a text and the
same text behind `EF BB BF` to one string (`decodeFatal_bom_append`).  On
octets that carry no mark it is injective again.
-/
import SingularityFlow.Lib.Text

namespace Ecma

/-- A sequence of octets. -/
abbrev Bytes := List UInt8

/-- The UTF-8 form of a sequence of scalar values. -/
def utf8Encode (cs : List Char) : Bytes := cs.flatMap String.utf8EncodeChar

/-- An octet from `lower` to `upper`. -/
def inRange (lower upper : Nat) (b : UInt8) : Bool := lower ≤ b.toNat && b.toNat ≤ upper

/-- A continuation octet. -/
def isTail (b : UInt8) : Bool := inRange 0x80 0xBF b

/-- The rest of a scalar whose lead octet `a` owes one tail. -/
def decodeTwo (a : UInt8) : Bytes → Option (Char × Bytes)
  | b :: t =>
      if isTail b then some (Char.ofNat ((a.toNat - 0xC0) * 0x40 + (b.toNat - 0x80)), t)
      else none
  | [] => none

/-- The rest of a scalar whose lead octet `a` owes two tails. -/
def decodeThree (a : UInt8) : Bytes → Option (Char × Bytes)
  | b :: c :: t =>
      if inRange (if a.toNat = 0xE0 then 0xA0 else 0x80)
          (if a.toNat = 0xED then 0x9F else 0xBF) b && isTail c then
        some (Char.ofNat ((a.toNat - 0xE0) * 0x1000 + (b.toNat - 0x80) * 0x40
          + (c.toNat - 0x80)), t)
      else none
  | _ => none

/-- The rest of a scalar whose lead octet `a` owes three tails. -/
def decodeFour (a : UInt8) : Bytes → Option (Char × Bytes)
  | b :: c :: d :: t =>
      if inRange (if a.toNat = 0xF0 then 0x90 else 0x80)
          (if a.toNat = 0xF4 then 0x8F else 0xBF) b && isTail c && isTail d then
        some (Char.ofNat ((a.toNat - 0xF0) * 0x40000 + (b.toNat - 0x80) * 0x1000
          + (c.toNat - 0x80) * 0x40 + (d.toNat - 0x80)), t)
      else none
  | _ => none

/-- One scalar value off the front of an octet sequence. -/
def decodeScalar : Bytes → Option (Char × Bytes)
  | [] => none
  | a :: t =>
      if a.toNat ≤ 0x7F then some (Char.ofNat a.toNat, t)
      else if inRange 0xC2 0xDF a then decodeTwo a t
      else if inRange 0xE0 0xEF a then decodeThree a t
      else if inRange 0xF0 0xF4 a then decodeFour a t
      else none

/-- Decoding with `n` scalars of fuel. -/
def utf8DecodeFuel : Nat → Bytes → Option (List Char)
  | _, [] => some []
  | 0, _ :: _ => none
  | n + 1, b :: bs =>
      match decodeScalar (b :: bs) with
      | none => none
      | some (c, rest) => (utf8DecodeFuel n rest).map (c :: ·)

/-- The scalars of a valid octet sequence; every scalar takes an octet, so
the length is fuel enough. -/
def utf8Decode (bs : Bytes) : Option (List Char) := utf8DecodeFuel bs.length bs

/-! ## One scalar -/

theorem toNat_ofNat_uint8 {n : Nat} (h : n < 256) : (UInt8.ofNat n).toNat = n := by
  simp only [UInt8.toNat_ofNat']
  omega

theorem toNat_injective {a b : UInt8} (h : a.toNat = b.toNat) : a = b := UInt8.toNat_inj.mp h

/-- The octets of a scalar, by the number of them. -/
inductive EncodesAs (n : Nat) : Bytes → Prop
  | one {a : UInt8} : n ≤ 0x7F → a.toNat = n → EncodesAs n [a]
  | two {a b : UInt8} : 0x80 ≤ n → n ≤ 0x7FF → a.toNat = 0xC0 + n / 0x40 →
      b.toNat = 0x80 + n % 0x40 → EncodesAs n [a, b]
  | three {a b c : UInt8} : 0x800 ≤ n → n ≤ 0xFFFF → a.toNat = 0xE0 + n / 0x1000 →
      b.toNat = 0x80 + n / 0x40 % 0x40 → c.toNat = 0x80 + n % 0x40 → EncodesAs n [a, b, c]
  | four {a b c d : UInt8} : 0x10000 ≤ n → n < 0x110000 → a.toNat = 0xF0 + n / 0x40000 →
      b.toNat = 0x80 + n / 0x1000 % 0x40 → c.toNat = 0x80 + n / 0x40 % 0x40 →
      d.toNat = 0x80 + n % 0x40 → EncodesAs n [a, b, c, d]

/-- What the core encoder emits, as octet values. -/
theorem encodesAs_utf8EncodeChar (c : Char) :
    EncodesAs c.toNat (String.utf8EncodeChar c) := by
  have hc := toNat_scalar c
  have hv : c.val.toNat = c.toNat := rfl
  unfold String.utf8EncodeChar
  simp only [hv]
  split
  · exact .one (by omega) (toNat_ofNat_uint8 (by omega))
  · split
    · refine .two (by omega) (by omega) ?_ ?_ <;> rw [toNat_ofNat_uint8 (by omega)] <;> omega
    · split
      · refine .three (by omega) (by omega) ?_ ?_ ?_ <;>
          rw [toNat_ofNat_uint8 (by omega)] <;> omega
      · refine .four (by omega) (by omega) ?_ ?_ ?_ ?_ <;>
          rw [toNat_ofNat_uint8 (by omega)] <;> omega

/-- The octets of a scalar value are determined by it. -/
theorem EncodesAs.unique {n : Nat} {bs bs' : Bytes} (h : EncodesAs n bs)
    (h' : EncodesAs n bs') : bs = bs' := by
  cases h <;> cases h' <;> first
    | omega
    | (congr 1 <;> (try congr 1) <;> (try congr 1) <;> (try congr 1) <;>
        first | rfl | (apply toNat_injective; omega))

theorem EncodesAs.eq_utf8EncodeChar {n : Nat} (bs : Bytes)
    (hn : n < 0xD800 ∨ (0xDFFF < n ∧ n < 0x110000)) (h : EncodesAs n bs) :
    bs = String.utf8EncodeChar (Char.ofNat n) := by
  have h' := encodesAs_utf8EncodeChar (Char.ofNat n)
  rw [toNat_ofNat hn] at h'
  exact h.unique h'

/-- A scalar is decoded from its octets, whatever follows them. -/
theorem decodeScalar_utf8EncodeChar_append (c : Char) (t : Bytes) :
    decodeScalar (String.utf8EncodeChar c ++ t) = some (c, t) := by
  have hc := toNat_scalar c
  have hs := encodesAs_utf8EncodeChar c
  generalize String.utf8EncodeChar c = bs at hs
  cases hs with
  | one h ha => simp [decodeScalar, ha, h]
  | @two a b h₁ h₂ ha hb =>
      have h7 : ¬ a.toNat ≤ 0x7F := by omega
      have hl : inRange 0xC2 0xDF a = true := by simp [inRange]; omega
      have ht : isTail b = true := by simp [isTail, inRange]; omega
      simp only [List.cons_append, List.nil_append, decodeScalar, decodeTwo, if_neg h7,
        if_pos hl, if_pos ht]
      rw [ofNat_toNat_eq (c := c) (by omega)]
  | @three a b d h₁ h₂ ha hb hd =>
      have h7 : ¬ a.toNat ≤ 0x7F := by omega
      have hl : ¬ inRange 0xC2 0xDF a = true := by simp [inRange]; omega
      have hl' : inRange 0xE0 0xEF a = true := by simp [inRange]; omega
      have hr : (inRange (if a.toNat = 0xE0 then 0xA0 else 0x80)
          (if a.toNat = 0xED then 0x9F else 0xBF) b && isTail d) = true := by
        simp only [isTail, inRange, Bool.and_eq_true, decide_eq_true_eq]
        split <;> split <;> omega
      simp only [List.cons_append, List.nil_append, decodeScalar, decodeThree, if_neg h7,
        if_neg hl, if_pos hl', if_pos hr]
      rw [ofNat_toNat_eq (c := c) (by omega)]
  | @four a b d e h₁ h₂ ha hb hd he =>
      have h7 : ¬ a.toNat ≤ 0x7F := by omega
      have hl : ¬ inRange 0xC2 0xDF a = true := by simp [inRange]; omega
      have hl' : ¬ inRange 0xE0 0xEF a = true := by simp [inRange]; omega
      have hl'' : inRange 0xF0 0xF4 a = true := by simp [inRange]; omega
      have hr : (inRange (if a.toNat = 0xF0 then 0x90 else 0x80)
          (if a.toNat = 0xF4 then 0x8F else 0xBF) b && isTail d && isTail e) = true := by
        simp only [isTail, inRange, Bool.and_eq_true, decide_eq_true_eq]
        split <;> split <;> omega
      simp only [List.cons_append, List.nil_append, decodeScalar, decodeFour, if_neg h7,
        if_neg hl, if_neg hl', if_pos hl'', if_pos hr]
      rw [ofNat_toNat_eq (c := c) (by omega)]

theorem decodeTwo_eq_some {a : UInt8} (hl : inRange 0xC2 0xDF a = true) {t rest : Bytes}
    {c : Char} (h : decodeTwo a t = some (c, rest)) :
    a :: t = String.utf8EncodeChar c ++ rest := by
  match t, h with
  | b :: t, h =>
    simp only [decodeTwo, Option.ite_none_right_eq_some, Option.some.injEq,
      Prod.mk.injEq] at h
    obtain ⟨ht, rfl, rfl⟩ := h
    simp only [isTail, inRange, Bool.and_eq_true, decide_eq_true_eq] at hl ht
    rw [← EncodesAs.eq_utf8EncodeChar [a, b] (by omega)
      (.two (by omega) (by omega) (by omega) (by omega))]
    rfl

theorem decodeThree_eq_some {a : UInt8} (hl : inRange 0xE0 0xEF a = true) {t rest : Bytes}
    {c : Char} (h : decodeThree a t = some (c, rest)) :
    a :: t = String.utf8EncodeChar c ++ rest := by
  match t, h with
  | b :: d :: t, h =>
    simp only [decodeThree, Option.ite_none_right_eq_some, Option.some.injEq,
      Prod.mk.injEq] at h
    obtain ⟨hr, rfl, rfl⟩ := h
    simp only [isTail, inRange, Bool.and_eq_true, decide_eq_true_eq] at hl hr
    obtain ⟨⟨hb, hb'⟩, hd⟩ := hr
    -- the narrowed range is what keeps the value off the surrogates and not overlong
    have hb₁ : 0x80 ≤ b.toNat ∧ (a.toNat = 0xE0 → 0xA0 ≤ b.toNat) := by
      split at hb <;> omega
    have hb₂ : b.toNat ≤ 0xBF ∧ (a.toNat = 0xED → b.toNat ≤ 0x9F) := by
      split at hb' <;> omega
    rw [← EncodesAs.eq_utf8EncodeChar [a, b, d] (by omega)
      (.three (by omega) (by omega) (by omega) (by omega) (by omega))]
    rfl

theorem decodeFour_eq_some {a : UInt8} (hl : inRange 0xF0 0xF4 a = true) {t rest : Bytes}
    {c : Char} (h : decodeFour a t = some (c, rest)) :
    a :: t = String.utf8EncodeChar c ++ rest := by
  match t, h with
  | b :: d :: e :: t, h =>
    simp only [decodeFour, Option.ite_none_right_eq_some, Option.some.injEq,
      Prod.mk.injEq] at h
    obtain ⟨hr, rfl, rfl⟩ := h
    simp only [isTail, inRange, Bool.and_eq_true, decide_eq_true_eq] at hl hr
    obtain ⟨⟨⟨hb, hb'⟩, hd⟩, he⟩ := hr
    have hb₁ : 0x80 ≤ b.toNat ∧ (a.toNat = 0xF0 → 0x90 ≤ b.toNat) := by
      split at hb <;> omega
    have hb₂ : b.toNat ≤ 0xBF ∧ (a.toNat = 0xF4 → b.toNat ≤ 0x8F) := by
      split at hb' <;> omega
    rw [← EncodesAs.eq_utf8EncodeChar [a, b, d, e] (by omega)
      (.four (by omega) (by omega) (by omega) (by omega) (by omega) (by omega))]
    rfl

/-- What a decoded scalar was decoded from. -/
theorem utf8EncodeChar_of_decodeScalar {bs rest : Bytes} {c : Char}
    (h : decodeScalar bs = some (c, rest)) : bs = String.utf8EncodeChar c ++ rest := by
  match bs, h with
  | a :: t, h =>
    simp only [decodeScalar] at h
    split_ifs at h with h7 hl hl' hl''
    · simp only [Option.some.injEq, Prod.mk.injEq] at h
      obtain ⟨rfl, rfl⟩ := h
      rw [← EncodesAs.eq_utf8EncodeChar [a] (by omega) (.one h7 rfl)]
      rfl
    · exact decodeTwo_eq_some hl h
    · exact decodeThree_eq_some hl' h
    · exact decodeFour_eq_some hl'' h

/-! ## Sequences -/

@[simp] theorem utf8Encode_nil : utf8Encode [] = [] := rfl

@[simp] theorem utf8Encode_cons (c : Char) (cs : List Char) :
    utf8Encode (c :: cs) = String.utf8EncodeChar c ++ utf8Encode cs := by
  simp [utf8Encode]

theorem utf8EncodeChar_ne_nil (c : Char) : String.utf8EncodeChar c ≠ [] := by
  have h := encodesAs_utf8EncodeChar c
  intro hn
  rw [hn] at h
  cases h

theorem utf8DecodeFuel_utf8Encode : ∀ (cs : List Char) (n : Nat), cs.length ≤ n →
    utf8DecodeFuel n (utf8Encode cs) = some cs
  | [], n, _ => by cases n <;> rfl
  | c :: cs, 0, h => absurd h (by simp)
  | c :: cs, n + 1, h => by
      obtain ⟨b, bs, hb⟩ := List.exists_cons_of_ne_nil (utf8EncodeChar_ne_nil c)
      have hd := decodeScalar_utf8EncodeChar_append c (utf8Encode cs)
      rw [utf8Encode_cons, hb, List.cons_append] at *
      have ih := utf8DecodeFuel_utf8Encode cs n (by simpa using h)
      simp [utf8DecodeFuel, hd, ih]

theorem length_le_utf8Encode (cs : List Char) : cs.length ≤ (utf8Encode cs).length := by
  induction cs with
  | nil => simp
  | cons c cs ih =>
      have := List.length_pos_of_ne_nil (utf8EncodeChar_ne_nil c)
      simp only [utf8Encode_cons, List.length_append, List.length_cons]
      omega

/-- Every scalar sequence is decoded from its UTF-8 form. -/
@[simp] theorem utf8Decode_utf8Encode (cs : List Char) : utf8Decode (utf8Encode cs) = some cs :=
  utf8DecodeFuel_utf8Encode cs _ (length_le_utf8Encode cs)

theorem utf8Encode_of_utf8DecodeFuel : ∀ {n : Nat} {bs : Bytes} {cs : List Char},
    utf8DecodeFuel n bs = some cs → utf8Encode cs = bs
  | n, [], cs, h => by
      have : cs = [] := by cases n <;> simpa [utf8DecodeFuel] using h.symm
      simp [this]
  | 0, _ :: _, _, h => absurd h (by simp [utf8DecodeFuel])
  | n + 1, b :: bs, cs, h => by
      simp only [utf8DecodeFuel] at h
      split at h
      · cases h
      · next c rest hd =>
        obtain ⟨cs', hcs', rfl⟩ := Option.map_eq_some_iff.mp h
        rw [utf8Encode_cons, utf8Encode_of_utf8DecodeFuel hcs',
          ← utf8EncodeChar_of_decodeScalar hd]

/-- What decodes begins with the scalars that its octets begin with. -/
theorem utf8DecodeFuel_append : ∀ (cs : List Char) {n : Nat} {bs : Bytes} {out : List Char},
    utf8DecodeFuel n (utf8Encode cs ++ bs) = some out → ∃ rest, out = cs ++ rest
  | [], _, _, out, _ => ⟨out, rfl⟩
  | c :: cs, n, bs, out, h => by
      obtain ⟨b, bs', hb⟩ := List.exists_cons_of_ne_nil (utf8EncodeChar_ne_nil c)
      have hd := decodeScalar_utf8EncodeChar_append c (utf8Encode cs ++ bs)
      rw [utf8Encode_cons, List.append_assoc, hb, List.cons_append] at h
      rw [hb, List.cons_append] at hd
      cases n with
      | zero => cases h
      | succ n =>
          rw [utf8DecodeFuel, hd] at h
          obtain ⟨out', hout, rfl⟩ := Option.map_eq_some_iff.mp h
          obtain ⟨rest, rfl⟩ := utf8DecodeFuel_append cs hout
          exact ⟨rest, rfl⟩

/-- What decodes is the UTF-8 form of what it decodes to. -/
theorem utf8Encode_of_utf8Decode {bs : Bytes} {cs : List Char} (h : utf8Decode bs = some cs) :
    utf8Encode cs = bs :=
  utf8Encode_of_utf8DecodeFuel h

/-! ## `TextEncoder` and a fatal `TextDecoder` -/

/-- The octets of a string; an unpaired surrogate is written as U+FFFD. -/
def textEncode (t : Text) : Bytes := utf8Encode (scalars t)

/-- The octets of the ASCII range stand for the units with their numbers. -/
theorem textEncode_ascii {bs : Bytes} (h : ∀ b ∈ bs, b.toNat < 0x80) :
    textEncode (bs.map fun b => b.toNat.toUInt16) = bs := by
  induction bs with
  | nil => rfl
  | cons b bs ih =>
      obtain ⟨hb, hbs⟩ := List.forall_mem_cons.mp h
      have hunit : b.toNat.toUInt16.toNat = b.toNat := toNat_toUInt16 (by omega)
      have hunits : unitsOfScalar (Char.ofNat b.toNat) = [b.toNat.toUInt16] := by
        have hnone : isHighSurrogate b.toNat.toUInt16 = false
            ∧ isLowSurrogate b.toNat.toUInt16 = false := by
          simp only [isHighSurrogate, isLowSurrogate, hunit, Bool.and_eq_false_iff,
            decide_eq_false_iff_not]
          omega
        have hself := unitsOfScalar_ofNat hnone.1 hnone.2
        rwa [hunit] at hself
      have hoctet := EncodesAs.eq_utf8EncodeChar [b] (by omega) (.one (by omega) rfl)
      rw [textEncode] at ih
      rw [textEncode, List.map_cons, ← List.singleton_append, ← hunits,
        scalars_unitsOfScalar_append, utf8Encode_cons, ih hbs, ← hoctet]
      rfl

theorem textEncode_eq_nil_iff {t : Text} (h : WellFormed t) : textEncode t = [] ↔ t = [] := by
  constructor
  · intro hnil
    cases hs : scalars t with
    | nil => rw [← ofScalars_scalars h, hs, ofScalars_nil]
    | cons c cs =>
        rw [textEncode, hs, utf8Encode_cons, List.append_eq_nil_iff] at hnil
        exact absurd hnil.1 (utf8EncodeChar_ne_nil c)
  · rintro rfl
    rfl

/-- A zero octet stands for the null character, and for no part of another one. -/
theorem zero_mem_utf8EncodeChar_iff {c : Char} :
    0 ∈ String.utf8EncodeChar c ↔ 0 ∈ unitsOfScalar c := by
  have hoctets : 0 ∈ String.utf8EncodeChar c ↔ c.toNat = 0 := by
    have hne : ∀ b : UInt8, 0 < b.toNat → 0 ≠ b := fun b hb h => by subst h; cases hb
    generalize hbs : String.utf8EncodeChar c = bs
    have henc := encodesAs_utf8EncodeChar c
    rw [hbs] at henc
    cases henc with
    | @one a _ ha =>
        rw [List.mem_singleton, ← ha]
        exact ⟨fun h => h ▸ rfl, fun h => (toNat_injective h).symm⟩
    | two _ _ ha hb =>
        simp [hne _ (show 0 < _ by rw [ha]; omega), hne _ (show 0 < _ by rw [hb]; omega)]
        omega
    | three _ _ ha hb hc =>
        simp [hne _ (show 0 < _ by rw [ha]; omega), hne _ (show 0 < _ by rw [hb]; omega),
          hne _ (show 0 < _ by rw [hc]; omega)]
        omega
    | four _ _ ha hb hc hd =>
        simp [hne _ (show 0 < _ by rw [ha]; omega), hne _ (show 0 < _ by rw [hb]; omega),
          hne _ (show 0 < _ by rw [hc]; omega), hne _ (show 0 < _ by rw [hd]; omega)]
        omega
  have hscalar := toNat_scalar c
  have hunits : ∀ n : Nat, n < 0x10000 → (0 = n.toUInt16 ↔ n = 0) := fun n hn => by
    rw [← UInt16.toNat_inj, toNat_toUInt16 hn]
    exact eq_comm
  rw [hoctets, unitsOfScalar]
  split
  · next hbasic => rw [List.mem_singleton, hunits _ hbasic]
  · rw [List.mem_cons, List.mem_singleton, hunits _ (by omega), hunits _ (by omega)]
    omega

theorem zero_mem_textEncode_iff {t : Text} (h : WellFormed t) : 0 ∈ textEncode t ↔ 0 ∈ t := by
  rw [textEncode, utf8Encode, List.mem_flatMap, ← ofScalars_scalars h, scalars_ofScalars,
    ofScalars, List.mem_flatMap]
  exact exists_congr fun c => and_congr_right fun _ => zero_mem_utf8EncodeChar_iff

/-- Well-formed strings are told apart by their octets. -/
theorem textEncode_inj {a b : Text} (ha : WellFormed a) (hb : WellFormed b) :
    textEncode a = textEncode b ↔ a = b := by
  refine ⟨fun h => ?_, fun h => h ▸ rfl⟩
  have hd := congrArg utf8Decode h
  rw [textEncode, textEncode, utf8Decode_utf8Encode, utf8Decode_utf8Encode] at hd
  rw [← ofScalars_scalars ha, ← ofScalars_scalars hb, Option.some.inj hd]

/-- The UTF-8 byte order mark. -/
def bom : Bytes := [0xEF, 0xBB, 0xBF]

/-- The octets without one leading byte order mark. -/
def stripBom : Bytes → Bytes
  | 0xEF :: 0xBB :: 0xBF :: bs => bs
  | bs => bs

/-- The octets begin with a byte order mark. -/
def hasBom (bs : Bytes) : Bool := bom.isPrefixOf bs

/-- `new TextDecoder('utf-8', { fatal: true }).decode`. -/
def decodeFatal (bs : Bytes) : Option Text := (utf8Decode (stripBom bs)).map ofScalars

theorem stripBom_bom_append (bs : Bytes) : stripBom (bom ++ bs) = bs := rfl

theorem hasBom_bom_append (bs : Bytes) : hasBom (bom ++ bs) = true := by
  simp [hasBom, bom, List.isPrefixOf]

theorem exists_of_hasBom {bs : Bytes} (h : hasBom bs = true) : ∃ rest, bs = bom ++ rest := by
  obtain ⟨rest, h⟩ := List.isPrefixOf_iff_prefix.mp h
  exact ⟨rest, h.symm⟩

theorem stripBom_of_not_hasBom {bs : Bytes} (h : hasBom bs = false) : stripBom bs = bs := by
  unfold stripBom
  split
  · next bs => rw [show 0xEF :: 0xBB :: 0xBF :: bs = bom ++ bs from rfl,
      hasBom_bom_append] at h; cases h
  · rfl

/-- A mark in front of a text is not seen in what the text decodes to. -/
theorem decodeFatal_bom_append {bs : Bytes} (h : hasBom bs = false) :
    decodeFatal (bom ++ bs) = decodeFatal bs := by
  rw [decodeFatal, stripBom_bom_append, decodeFatal, stripBom_of_not_hasBom h]

/-- What is decoded is well formed, and its octets are the ones decoded, less the mark. -/
theorem textEncode_of_decodeFatal {bs : Bytes} {t : Text} (h : decodeFatal bs = some t) :
    WellFormed t ∧ textEncode t = stripBom bs := by
  obtain ⟨cs, hcs, rfl⟩ := Option.map_eq_some_iff.mp h
  exact ⟨wellFormed_ofScalars cs, by
    rw [textEncode, scalars_ofScalars, utf8Encode_of_utf8Decode hcs]⟩

theorem decodeFatal_append {t : Text} {bs : Bytes} {out : Text} (ht : WellFormed t)
    (hbom : hasBom (textEncode t ++ bs) = false) (h : decodeFatal (textEncode t ++ bs) = some out) :
    ∃ rest, out = t ++ rest := by
  rw [decodeFatal, stripBom_of_not_hasBom hbom] at h
  obtain ⟨cs, hcs, rfl⟩ := Option.map_eq_some_iff.mp h
  obtain ⟨rest, rfl⟩ := utf8DecodeFuel_append (scalars t) hcs
  refine ⟨ofScalars rest, ?_⟩
  rw [ofScalars, List.flatMap_append, ← ofScalars, ← ofScalars, ofScalars_scalars ht]

/-- Decoding the octets of a string gives the string exactly when it is well
formed and its octets do not begin with a mark. -/
theorem decodeFatal_textEncode_iff {t : Text} :
    decodeFatal (textEncode t) = some t ↔ WellFormed t ∧ hasBom (textEncode t) = false := by
  constructor
  · intro h
    obtain ⟨hw, he⟩ := textEncode_of_decodeFatal h
    refine ⟨hw, ?_⟩
    by_contra hb
    obtain ⟨rest, hrest⟩ := exists_of_hasBom (by simpa using hb)
    rw [hrest, stripBom_bom_append] at he
    have := congrArg List.length he
    simp only [bom, List.length_append, List.length_cons, List.length_nil] at this
    omega
  · rintro ⟨hw, hb⟩
    rw [decodeFatal, stripBom_of_not_hasBom hb, textEncode, utf8Decode_utf8Encode,
      Option.map_some, ofScalars_scalars hw]

/-- U+FEFF as a code unit. -/
def byteOrderMark : UInt16 := 0xFEFF

theorem scalars_eq_bom_iff {t : Text} :
    (∃ cs, scalars t = '\uFEFF' :: cs) ↔ ∃ rest, t = byteOrderMark :: rest := by
  have hne : ∀ u : UInt16, Char.ofNat u.toNat = '\uFEFF' → isHighSurrogate u = false →
      isLowSurrogate u = false → u = byteOrderMark := by
    intro u hu hhi hlo
    simp only [isHighSurrogate, isLowSurrogate, Bool.and_eq_false_iff,
      decide_eq_false_iff_not] at hhi hlo
    have hlt := u.toNat_lt
    have := toNat_ofNat (n := u.toNat) (by omega)
    rw [hu] at this
    exact UInt16.toNat_inj.mp this.symm
  have hpair : ∀ u v : UInt16, isHighSurrogate u = true → isLowSurrogate v = true →
      pairScalar u v ≠ '\uFEFF' := by
    intro u v hu hv h
    have := unitsOfScalar_pairScalar hu hv
    rw [h] at this
    have hlen := congrArg List.length this
    rw [show (unitsOfScalar '\uFEFF').length = 1 from by decide] at hlen
    exact absurd hlen (by simp)
  have hb : isHighSurrogate byteOrderMark = false ∧ isLowSurrogate byteOrderMark = false ∧
      Char.ofNat byteOrderMark.toNat = '\uFEFF' := by decide
  constructor
  · rintro ⟨cs, h⟩
    rcases t with _ | ⟨u, _ | ⟨v, rest⟩⟩
    · cases h
    · simp only [scalars, List.cons.injEq] at h
      split at h
      · exact absurd h.1 (by decide)
      · next hs =>
        simp only [Bool.or_eq_true, not_or, Bool.not_eq_true] at hs
        exact ⟨[], by rw [hne u h.1 hs.1 hs.2]⟩
    · simp only [scalars] at h
      split_ifs at h with h₁ h₂ h₃
      · exact absurd (List.cons.inj h).1 (hpair u v h₁ h₂)
      · exact absurd (List.cons.inj h).1 (by decide)
      · exact absurd (List.cons.inj h).1 (by decide)
      · exact ⟨v :: rest, by
          rw [hne u (List.cons.inj h).1 (by simpa using h₁) (by simpa using h₃)]⟩
  · rintro ⟨rest, rfl⟩
    cases rest with
    | nil => exact ⟨[], by simp [scalars, hb]⟩
    | cons v rest => exact ⟨scalars (v :: rest), by simp [scalars, hb]⟩

/-- The octets of a string begin with a mark when the string does. -/
theorem hasBom_textEncode_iff {t : Text} :
    hasBom (textEncode t) = true ↔ ∃ rest, t = byteOrderMark :: rest := by
  rw [← scalars_eq_bom_iff]
  constructor
  · intro h
    obtain ⟨rest, hrest⟩ := exists_of_hasBom h
    have hd : decodeScalar (textEncode t) = some ('\uFEFF', rest) := by
      rw [hrest, show bom = String.utf8EncodeChar '\uFEFF' from by decide,
        decodeScalar_utf8EncodeChar_append]
    cases hs : scalars t with
    | nil => rw [textEncode, hs] at hd; cases hd
    | cons c cs =>
        rw [textEncode, hs, utf8Encode_cons, decodeScalar_utf8EncodeChar_append] at hd
        simp only [Option.some.injEq, Prod.mk.injEq] at hd
        exact ⟨cs, by rw [hd.1]⟩
  · rintro ⟨cs, h⟩
    rw [textEncode, h, utf8Encode_cons,
      show String.utf8EncodeChar '\uFEFF' = bom from by decide]
    exact hasBom_bom_append _

/-! ## `Buffer.toString`, which replaces what it cannot decode -/

/-- How many octets one U+FFFD stands for, where no scalar can be decoded: the
longest beginning of a scalar, or one octet. -/
def maximalSubpart : Bytes → Nat
  | a :: b :: t =>
      if inRange 0xE0 0xEF a && inRange (if a.toNat = 0xE0 then 0xA0 else 0x80)
          (if a.toNat = 0xED then 0x9F else 0xBF) b then 2
      else if inRange 0xF0 0xF4 a && inRange (if a.toNat = 0xF0 then 0x90 else 0x80)
          (if a.toNat = 0xF4 then 0x8F else 0xBF) b then
        if (t.head?.map isTail).getD false then 3 else 2
      else 1
  | _ => 1

/-- Decoding with replacement, with `n` scalars of fuel. -/
def utf8ScalarsFuel : Nat → Bytes → List Char
  | _, [] => []
  | 0, _ :: _ => []
  | n + 1, b :: bs =>
      match decodeScalar (b :: bs) with
      | some (c, rest) => c :: utf8ScalarsFuel n rest
      | none => '\uFFFD' :: utf8ScalarsFuel n ((b :: bs).drop (maximalSubpart (b :: bs)))

/-- `buffer.toString('utf8')`; a byte order mark is kept. -/
def utf8Text (bs : Bytes) : Text := ofScalars (utf8ScalarsFuel bs.length bs)

theorem utf8ScalarsFuel_of_utf8DecodeFuel : ∀ {n : Nat} {bs : Bytes} {cs : List Char},
    utf8DecodeFuel n bs = some cs → utf8ScalarsFuel n bs = cs
  | n, [], cs, h => by
      have : cs = [] := by cases n <;> simpa [utf8DecodeFuel] using h.symm
      rw [this, utf8ScalarsFuel]
  | 0, _ :: _, _, h => absurd h (by simp [utf8DecodeFuel])
  | n + 1, b :: bs, cs, h => by
      simp only [utf8DecodeFuel] at h
      split at h
      · cases h
      · next c rest hd =>
        obtain ⟨cs', hcs', rfl⟩ := Option.map_eq_some_iff.mp h
        rw [utf8ScalarsFuel, hd]
        exact congrArg (c :: ·) (utf8ScalarsFuel_of_utf8DecodeFuel hcs')

/-- A well-formed string is read back from its octets. -/
theorem utf8Text_textEncode {t : Text} (h : WellFormed t) : utf8Text (textEncode t) = t := by
  have hd := utf8Decode_utf8Encode (scalars t)
  rw [utf8Text, textEncode, utf8ScalarsFuel_of_utf8DecodeFuel hd, ofScalars_scalars h]

-- an overlong form, a surrogate, and a scalar that is cut off
example : utf8Text [0x61, 0xC0, 0xAF, 0xED, 0xA0, 0x80, 0xF0, 0x9F, 0x92]
    = js "a" ++ List.replicate 6 0xFFFD := by decide

/-! ## An ASCII octet is a boundary -/

theorem inRange_ascii {lower upper : Nat} {b : UInt8} (hb : b.toNat < 0x80) (hl : 0x80 ≤ lower) :
    inRange lower upper b = false := by
  simp only [inRange, Bool.and_eq_false_iff, decide_eq_false_iff_not]
  omega

theorem decodeScalar_append {b : UInt8} (hb : b.toNat < 0x80) (t : Bytes) : ∀ {a : Bytes}, a ≠ [] →
    decodeScalar (a ++ b :: t) = (decodeScalar a).map fun p => (p.1, p.2 ++ b :: t) := by
  have htail : isTail b = false := inRange_ascii hb le_rfl
  have hthree : ∀ x : UInt8, inRange (if x.toNat = 0xE0 then 0xA0 else 0x80)
      (if x.toNat = 0xED then 0x9F else 0xBF) b = false := fun x =>
    inRange_ascii hb (by split <;> omega)
  have hfour : ∀ x : UInt8, inRange (if x.toNat = 0xF0 then 0x90 else 0x80)
      (if x.toNat = 0xF4 then 0x8F else 0xBF) b = false := fun x =>
    inRange_ascii hb (by split <;> omega)
  have hdecodeTwo : ∀ (x : UInt8) (s : Bytes),
      decodeTwo x (s ++ b :: t) = (decodeTwo x s).map fun p => (p.1, p.2 ++ b :: t) := by
    rintro x (_ | ⟨y, s⟩)
    · simp [decodeTwo, htail]
    · rw [List.cons_append, decodeTwo, decodeTwo, apply_ite (Option.map _), Option.map_some, Option.map_none]
  have hdecodeThree : ∀ (x : UInt8) (s : Bytes),
      decodeThree x (s ++ b :: t) = (decodeThree x s).map fun p => (p.1, p.2 ++ b :: t) := by
    rintro x (_ | ⟨y, _ | ⟨z, s⟩⟩)
    · cases t <;> simp [decodeThree, hthree]
    · simp [decodeThree, htail]
    · rw [List.cons_append, List.cons_append, decodeThree, decodeThree, apply_ite (Option.map _), Option.map_some, Option.map_none]
  have hdecodeFour : ∀ (x : UInt8) (s : Bytes),
      decodeFour x (s ++ b :: t) = (decodeFour x s).map fun p => (p.1, p.2 ++ b :: t) := by
    rintro x (_ | ⟨y, _ | ⟨z, _ | ⟨w, s⟩⟩⟩)
    · rcases t with _ | ⟨t₁, _ | ⟨t₂, t⟩⟩ <;> simp [decodeFour, hfour]
    · cases t <;> simp [decodeFour, htail]
    · simp [decodeFour, htail]
    · rw [List.cons_append, List.cons_append, List.cons_append, decodeFour, decodeFour, apply_ite (Option.map _), Option.map_some, Option.map_none]
  rintro (_ | ⟨x, s⟩) hne
  · exact absurd rfl hne
  · simp only [List.cons_append, decodeScalar]
    split
    · rfl
    · split
      · exact hdecodeTwo x s
      · split
        · exact hdecodeThree x s
        · split
          · exact hdecodeFour x s
          · rfl

theorem maximalSubpart_append {b : UInt8} (hb : b.toNat < 0x80) (t : Bytes) : ∀ {a : Bytes}, a ≠ [] →
    maximalSubpart (a ++ b :: t) = maximalSubpart a := by
  have htail : isTail b = false := inRange_ascii hb le_rfl
  have hthree : ∀ x : UInt8, inRange (if x.toNat = 0xE0 then 0xA0 else 0x80)
      (if x.toNat = 0xED then 0x9F else 0xBF) b = false := fun x =>
    inRange_ascii hb (by split <;> omega)
  have hfour : ∀ x : UInt8, inRange (if x.toNat = 0xF0 then 0x90 else 0x80)
      (if x.toNat = 0xF4 then 0x8F else 0xBF) b = false := fun x =>
    inRange_ascii hb (by split <;> omega)
  rintro (_ | ⟨x, _ | ⟨y, _ | ⟨z, s⟩⟩⟩) hne
  · exact absurd rfl hne
  · simp [maximalSubpart, hthree, hfour]
  · simp [maximalSubpart, htail]
  · rfl

/-- One octet at least is replaced, and none behind the end. -/
theorem maximalSubpart_bounds : ∀ bs : Bytes, bs ≠ [] →
    0 < maximalSubpart bs ∧ maximalSubpart bs ≤ bs.length := by
  have htwo : ∀ p q : Bool, 0 < (if p then 2 else if q then 2 else 1)
      ∧ (if p then 2 else if q then 2 else 1) ≤ 2 := by decide
  have hthree : ∀ p q r : Bool, 0 < (if p then 2 else if q then if r then 3 else 2 else 1)
      ∧ (if p then 2 else if q then if r then 3 else 2 else 1) ≤ 3 := by decide
  rintro (_ | ⟨x, _ | ⟨y, _ | ⟨z, t⟩⟩⟩) hne
  · exact absurd rfl hne
  · exact ⟨Nat.one_pos, le_rfl⟩
  · exact htwo _ _
  · exact (hthree _ _ _).imp_right fun h => h.trans (Nat.le_add_left 3 t.length)

theorem length_decodeScalar {bs rest : Bytes} {c : Char} (h : decodeScalar bs = some (c, rest)) :
    rest.length < bs.length := by
  have hne := List.length_pos_of_ne_nil (utf8EncodeChar_ne_nil c)
  have hlength := congrArg List.length (utf8EncodeChar_of_decodeScalar h)
  rw [List.length_append] at hlength
  omega

/-- More fuel than octets changes nothing. -/
theorem utf8ScalarsFuel_eq : ∀ {n m : Nat} {bs : Bytes}, bs.length ≤ n → bs.length ≤ m →
    utf8ScalarsFuel n bs = utf8ScalarsFuel m bs
  | n, m, [], _, _ => by cases n <;> cases m <;> rfl
  | 0, _, _ :: _, hn, _ => absurd hn (by simp)
  | _, 0, _ :: _, _, hm => absurd hm (by simp)
  | n + 1, m + 1, b :: bs, hn, hm => by
      rw [utf8ScalarsFuel, utf8ScalarsFuel]
      cases hd : decodeScalar (b :: bs) with
      | some p =>
          obtain ⟨c, rest⟩ := p
          have hlt := length_decodeScalar hd
          rw [List.length_cons] at hn hm hlt
          exact congrArg (c :: ·) (utf8ScalarsFuel_eq (by omega) (by omega))
      | none =>
          have hpos := (maximalSubpart_bounds (b :: bs) (List.cons_ne_nil b bs)).1
          have hle : ((b :: bs).drop (maximalSubpart (b :: bs))).length ≤ bs.length := by
            rw [List.length_drop, List.length_cons]
            omega
          rw [List.length_cons] at hn hm
          exact congrArg ('\uFFFD' :: ·) (utf8ScalarsFuel_eq (by omega) (by omega))

theorem utf8ScalarsFuel_append {b : UInt8} (hb : b.toNat < 0x80) (t : Bytes) :
    ∀ {n : Nat} {a : Bytes}, a.length + (t.length + 1) ≤ n →
      utf8ScalarsFuel n (a ++ b :: t) = utf8ScalarsFuel n a ++ utf8ScalarsFuel n (b :: t)
  | n, [], _ => by cases n <;> rfl
  | 0, _ :: _, h => absurd h (by simp)
  | n + 1, x :: a, h => by
      have hne : x :: a ≠ [] := List.cons_ne_nil x a
      have hcut : utf8ScalarsFuel (n + 1) (b :: t) = utf8ScalarsFuel n (b :: t) := by
        refine utf8ScalarsFuel_eq ?_ ?_ <;> simp only [List.length_cons] at h ⊢ <;> omega
      rw [List.cons_append, utf8ScalarsFuel, utf8ScalarsFuel, ← List.cons_append,
        decodeScalar_append hb t hne, maximalSubpart_append hb t hne, hcut]
      cases hd : decodeScalar (x :: a) with
      | some p =>
          obtain ⟨c, rest⟩ := p
          have hlt := length_decodeScalar hd
          have hshort : rest.length + (t.length + 1) ≤ n := by
            simp only [List.length_cons] at h hlt
            omega
          exact congrArg (c :: ·) (utf8ScalarsFuel_append hb t hshort)
      | none =>
          obtain ⟨hpos, hle⟩ := maximalSubpart_bounds (x :: a) hne
          have hshort : ((x :: a).drop (maximalSubpart (x :: a))).length + (t.length + 1) ≤ n := by
            rw [List.length_drop]
            simp only [List.length_cons] at h hle ⊢
            omega
          rw [Option.map_none]
          dsimp only
          rw [List.drop_append_of_le_length hle, utf8ScalarsFuel_append hb t hshort, List.cons_append]

/-- **No scalar is decoded across an ASCII octet.** -/
theorem utf8Text_append {b : UInt8} (hb : b.toNat < 0x80) (a t : Bytes) :
    utf8Text (a ++ b :: t) = utf8Text a ++ b.toNat.toUInt16 :: utf8Text t := by
  have hhead : ∀ n, t.length ≤ n →
      utf8ScalarsFuel (n + 1) (b :: t) = Char.ofNat b.toNat :: utf8ScalarsFuel n t := by
    intro n hn
    rw [utf8ScalarsFuel, decodeScalar, if_pos (by omega)]
  have hunits : unitsOfScalar (Char.ofNat b.toNat) = [b.toNat.toUInt16] := by
    have hnat : (Char.ofNat b.toNat).toNat = b.toNat := toNat_ofNat (Or.inl (by omega))
    rw [unitsOfScalar, hnat, if_pos (by omega)]
  have hfront : utf8ScalarsFuel (a.length + t.length + 1) a = utf8ScalarsFuel a.length a :=
    utf8ScalarsFuel_eq (by omega) le_rfl
  have hback : utf8ScalarsFuel (a.length + t.length) t = utf8ScalarsFuel t.length t :=
    utf8ScalarsFuel_eq (by omega) le_rfl
  have hlength : (a ++ b :: t).length = (a.length + t.length) + 1 := by
    rw [List.length_append, List.length_cons]
    omega
  rw [utf8Text, hlength, utf8ScalarsFuel_append hb t (by omega), hhead _ (by omega),
    hfront, hback, ofScalars,
    List.flatMap_append, List.flatMap_cons, hunits]
  rfl

end Ecma
