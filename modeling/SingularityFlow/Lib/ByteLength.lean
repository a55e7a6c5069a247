/-
# The size of a printed value

`Buffer.byteLength` of a JSON text, without printing it.  What is printed is
well formed, and behind a well-formed string nothing joins its last surrogate,
so sizes add: the members of an object cost their own sizes and a frame that
only their number decides (`byteLength_bracket`), in whatever order they stand
(`byteLength_obj_perm`).

A counter costs as many octets as it has digits (`length_text_ofNat`): the
shortest decimal of a whole number below `2 ^ 53` has its point behind the
last digit.
-/
import SingularityFlow.Lib.JsonRoundTrip
import SingularityFlow.Lib.SafeInteger
import SingularityFlow.Lib.Sha256

namespace Ecma

/-- `Buffer.byteLength`. -/
def byteLength (t : Text) : Nat := (textEncode t).length

@[simp] theorem byteLength_nil : byteLength [] = 0 := rfl

theorem scalars_append {a : Text} (ha : WellFormed a) (b : Text) :
    scalars (a ++ b) = scalars a ++ scalars b := by
  have hread : ∀ cs : List Char, scalars (ofScalars cs ++ b) = cs ++ scalars b := by
    intro cs
    induction cs with
    | nil => rfl
    | cons c cs ih =>
        rw [ofScalars_cons, List.append_assoc, scalars_unitsOfScalar_append, ih, List.cons_append]
  have h := hread (scalars a)
  rwa [ofScalars_scalars ha] at h

/-- Behind a well-formed string, sizes add. -/
theorem byteLength_append {a : Text} (ha : WellFormed a) (b : Text) :
    byteLength (a ++ b) = byteLength a + byteLength b := by
  rw [byteLength, textEncode, scalars_append ha, utf8Encode, List.flatMap_append,
    List.length_append]
  rfl

/-- A text of the ASCII range has an octet for each unit. -/
theorem byteLength_ascii {t : Text} (h : ∀ u ∈ t, u.toNat < 0x80) : byteLength t = t.length := by
  have hoctet : ∀ u ∈ t, (UInt8.ofNat u.toNat).toNat = u.toNat := fun u hu =>
    toNat_ofNat_uint8 (by have := h u hu; omega)
  have hbytes : (t.map fun u => UInt8.ofNat u.toNat).map (fun b => b.toNat.toUInt16) = t := by
    rw [List.map_map]
    refine (List.map_congr_left fun u hu => ?_).trans (List.map_id t)
    rw [Function.comp_apply, hoctet u hu]
    exact UInt16.toNat_inj.mp (toNat_toUInt16 u.toNat_lt)
  have hascii : ∀ b ∈ t.map fun u => UInt8.ofNat u.toNat, b.toNat < 0x80 := by
    intro b hb
    obtain ⟨u, hu, rfl⟩ := List.mem_map.mp hb
    rw [hoctet u hu]
    exact h u hu
  have hencode := textEncode_ascii hascii
  rw [hbytes] at hencode
  rw [byteLength, hencode, List.length_map]

/-! ## Printed values -/

/-- The parts cost their sizes, and a separator between each two. -/
theorem byteLength_joinWith {sep : Text} (hsep : WellFormed sep) : ∀ {parts : List Text},
    (∀ t ∈ parts, WellFormed t) →
      byteLength (joinWith sep parts)
        = (parts.map byteLength).sum + (parts.length - 1) * byteLength sep
  | [], _ => by simp [joinWith]
  | [t], _ => by simp [joinWith]
  | t :: t' :: rest, h => by
      have ih : byteLength (joinWith sep (t' :: rest)) = _ :=
        byteLength_joinWith hsep fun x hx => h x (List.mem_cons_of_mem _ hx)
      have ht := h t (List.mem_cons_self ..)
      show byteLength (t ++ sep ++ joinWith sep (t' :: rest)) = _
      rw [byteLength_append (ht.append hsep), byteLength_append ht, ih]
      simp only [List.map_cons, List.sum_cons, List.length_cons, Nat.add_sub_cancel]
      ring

/-- What the brackets, the commas and the line breaks around `k` parts cost. -/
def frameLength (gap indent : Text) (k : Nat) : Nat :=
  if k = 0 then 2
  else 2 + byteLength (newline gap (indent ++ gap)) + byteLength (newline gap indent)
    + (k - 1) * byteLength (0x2C :: newline gap (indent ++ gap))

theorem newline_wellFormed {gap indent : Text} (hi : ∀ u ∈ indent, u.toNat < 0x80) :
    WellFormed (newline gap indent) := by
  unfold newline
  split
  · rfl
  · exact wellFormed_of_ascii (List.forall_mem_cons.mpr ⟨by decide, hi⟩)

section Printed

variable {gap indent : Text} (hg : ∀ u ∈ gap, u.toNat < 0x80) (hi : ∀ u ∈ indent, u.toNat < 0x80)
include hg hi

/-- **A bracketed list costs its parts and its frame.** -/
theorem byteLength_bracket {left right : UInt16} (hl : left.toNat < 0x80)
    (hr : right.toNat < 0x80) {parts : List Text} (hp : ∀ t ∈ parts, WellFormed t) :
    byteLength (bracket left right gap indent parts)
      = (parts.map byteLength).sum + frameLength gap indent parts.length := by
  have hunit : ∀ {u : UInt16}, u.toNat < 0x80 → WellFormed [u] ∧ byteLength [u] = 1 := by
    intro u hu
    have hascii : ∀ v ∈ [u], v.toNat < 0x80 := by simpa using hu
    exact ⟨wellFormed_of_ascii hascii, byteLength_ascii hascii⟩
  have hline : WellFormed (newline gap (indent ++ gap)) :=
    newline_wellFormed (List.forall_mem_append.mpr ⟨hi, hg⟩)
  have hsep : WellFormed (0x2C :: newline gap (indent ++ gap)) :=
    (show WellFormed [0x2C] by decide).append hline
  have hjoin := joinWith_wellFormed hsep hp
  unfold bracket frameLength
  split
  · next h =>
      subst h
      show byteLength ([left] ++ [right]) = _
      rw [byteLength_append (hunit hl).1, (hunit hl).2, (hunit hr).2]
      rfl
  · next h =>
      rw [if_neg (by simpa using h)]
      show byteLength ([left] ++ (newline gap (indent ++ gap)
        ++ joinWith (0x2C :: newline gap (indent ++ gap)) parts ++ newline gap indent ++ [right]))
        = _
      rw [byteLength_append (hunit hl).1,
        byteLength_append ((hline.append hjoin).append (newline_wellFormed hi)),
        byteLength_append (hline.append hjoin), byteLength_append hline,
        byteLength_joinWith hsep hp, (hunit hl).2, (hunit hr).2]
      omega

/-- What a member of an object costs, apart from the frame. -/
def memberLength (gap indent : Text) (p : Text × Value) : Nat :=
  byteLength (quote p.1) + 1 + (if gap = [] then 0 else 1) + byteLength (render gap indent p.2)

/-- **An object costs its members and its frame.** -/
theorem byteLength_obj (members : List (Text × Value)) :
    byteLength (render gap indent (.obj members))
      = (members.map (memberLength gap (indent ++ gap))).sum
        + frameLength gap indent members.length := by
  have hcolon : WellFormed [0x3A] ∧ byteLength [0x3A] = 1 := by decide
  have hspace : WellFormed [0x20] ∧ byteLength [0x20] = 1 := by decide
  have hpart : ∀ p : Text × Value,
      WellFormed (quote p.1 ++ 0x3A :: ((if gap = [] then [] else [0x20])
        ++ render gap (indent ++ gap) p.2))
      ∧ byteLength (quote p.1 ++ 0x3A :: ((if gap = [] then [] else [0x20])
        ++ render gap (indent ++ gap) p.2)) = memberLength gap (indent ++ gap) p := by
    intro p
    have hval := render_wellFormed hg (List.forall_mem_append.mpr ⟨hi, hg⟩) p.2
    have hgap : WellFormed (if gap = [] then [] else [0x20])
        ∧ byteLength (if gap = [] then [] else [0x20]) = if gap = [] then 0 else 1 := by
      split
      · exact ⟨rfl, rfl⟩
      · exact hspace
    constructor
    · exact (quote_wellFormed p.1).append (hcolon.1.append (hgap.1.append hval))
    · show byteLength (quote p.1 ++ ([0x3A] ++ ((if gap = [] then [] else [0x20])
        ++ render gap (indent ++ gap) p.2))) = _
      rw [byteLength_append (quote_wellFormed p.1), byteLength_append hcolon.1,
        byteLength_append hgap.1, hcolon.2, hgap.2, memberLength]
      omega
  have hparts : ∀ t ∈ renderMembers gap (indent ++ gap) members, WellFormed t := by
    intro t ht
    rw [renderMembers_eq] at ht
    obtain ⟨p, -, rfl⟩ := List.mem_map.mp ht
    exact (hpart p).1
  rw [render, byteLength_bracket hg hi (by decide) (by decide) hparts, renderMembers_eq,
    List.map_map, List.length_map]
  congr 2
  exact List.map_congr_left fun p _ => (hpart p).2

/-- The order of the members does not matter. -/
theorem byteLength_obj_perm {members members' : List (Text × Value)} (h : members.Perm members') :
    byteLength (render gap indent (.obj members)) = byteLength (render gap indent (.obj members')) := by
  rw [byteLength_obj hg hi, byteLength_obj hg hi, h.length_eq, (h.map _).sum_eq]

end Printed

/-! ## Plain strings and counters -/

/-- A printable unit of the ASCII range that needs no escape. -/
def isPlainUnit (u : UInt16) : Bool :=
  0x20 ≤ u.toNat && u.toNat < 0x80 && u != 0x22 && u != 0x5C

theorem quoteBody_plain : ∀ {t : Text}, (∀ u ∈ t, isPlainUnit u = true) → quoteBody t = t
  | [], _ => rfl
  | u :: t, h => by
      obtain ⟨hu, ht⟩ := List.forall_mem_cons.mp h
      have ih := quoteBody_plain ht
      simp only [isPlainUnit, Bool.and_eq_true, decide_eq_true_eq, bne_iff_ne] at hu
      obtain ⟨⟨⟨hlow, hhigh⟩, hquote⟩, hback⟩ := hu
      have hsurrogate : isHighSurrogate u = false ∧ isLowSurrogate u = false := by
        simp only [isHighSurrogate, isLowSurrogate, Bool.and_eq_false_iff,
          decide_eq_false_iff_not]
        omega
      have hself : quoteUnit u = [u] := by
        unfold quoteUnit
        have hne : ∀ v : UInt16, v.toNat < 0x20 → u ≠ v := fun v hv huv => by
          rw [huv] at hlow; omega
        rw [if_neg (hne _ (by decide)), if_neg (hne _ (by decide)), if_neg (hne _ (by decide)),
          if_neg (hne _ (by decide)), if_neg (hne _ (by decide)), if_neg hquote, if_neg hback,
          if_neg (by omega)]
      cases t with
      | nil => simp [quoteBody, hsurrogate, hself]
      | cons v t => rw [quoteBody]; simp [hsurrogate, hself, ih]

/-- A plain string costs its units and its quotes. -/
theorem byteLength_quote_plain {t : Text} (h : ∀ u ∈ t, isPlainUnit u = true) :
    byteLength (quote t) = t.length + 2 := by
  have hascii : ∀ u ∈ quote t, u.toNat < 0x80 := by
    intro u hu
    rw [quote, quoteBody_plain h] at hu
    rcases List.mem_cons.mp hu with rfl | hu
    · decide
    · rcases List.mem_append.mp hu with hu | hu
      · have := h u hu
        simp only [isPlainUnit, Bool.and_eq_true, decide_eq_true_eq] at this
        omega
      · rw [List.mem_singleton.mp hu]; decide
  rw [byteLength_ascii hascii, quote, quoteBody_plain h]
  simp

/-! ## Counters -/

/-- A decimal of `k` digits has its point where the number has it, or behind
a one followed by zeros. -/
theorem decimalAt_shape {x : Number} {num den k : Nat} {d : Decimal}
    (h : decimalAt x num den k = some d) :
    d.length = k ∧ (d.point = decimalPoint num den
      ∨ d.point = decimalPoint num den + 1 ∧ d.digits = 10 ^ (k - 1)) := by
  unfold decimalAt at h
  dsimp only at h
  split_ifs at h <;> simp only [Option.some.injEq] at h <;> subst h <;> simp

/-- The search stops at the first length that has a decimal. -/
theorem shortestFrom_shape {x : Number} {num den K : Nat} (hK : (decimalAt x num den K).isSome) :
    ∀ {fuel k : Nat} {d : Decimal}, k ≤ K → shortestFrom x num den fuel k = some d →
      d.length ≤ K ∧ (d.point = decimalPoint num den
        ∨ d.point = decimalPoint num den + 1 ∧ d.digits = 10 ^ (d.length - 1))
  | 0, _, _, _, h => absurd h (by simp [shortestFrom])
  | fuel + 1, k, d, hk, h => by
      rcases Option.or_eq_some_iff.mp h with h | ⟨hnone, h⟩
      · obtain ⟨hlength, hpoint⟩ := decimalAt_shape h
        exact ⟨by omega, by rwa [hlength]⟩
      · refine shortestFrom_shape hK ?_ h
        have hne : k ≠ K := by
          rintro rfl
          rw [hnone] at hK
          cases hK
        omega

/-- A whole number below `2 ^ 53`, as a fraction. -/
theorem fraction_shift {n : Nat} :
    ∃ den, 0 < den ∧ fraction (n * 2 ^ (52 - Nat.log 2 n)) (-((52 - Nat.log 2 n : Nat) : Int))
      = (n * den, den) := by
  refine ⟨2 ^ (52 - Nat.log 2 n), by positivity, ?_⟩
  unfold fraction
  split
  · next h =>
      have hzero : 52 - Nat.log 2 n = 0 := by omega
      simp [hzero]
  · simp

/-- No power of ten above a safe number is read as it. -/
theorem ofNat_pow_ne {n p : Nat} (h : n < 2 ^ 53) (hn : n < 10 ^ p) (hp : p ≤ 16) :
    Number.ofNat (10 ^ p) ≠ Number.ofNat n := by
  intro heq
  have hsafe := congrArg Number.safeSize? heq
  rw [safeSize?_ofNat h] at hsafe
  by_cases hpow : 10 ^ p < 2 ^ 53
  · rw [safeSize?_ofNat hpow, Option.some.injEq] at hsafe
    omega
  · have hlast : p = 16 := by
      by_contra hne
      exact hpow (lt_of_le_of_lt (Nat.pow_le_pow_right (by decide) (show p ≤ 15 by omega))
        (by decide))
    subst hlast
    have hnone : (Number.ofNat (10 ^ 16)).safeSize? = none := by decide +kernel
    rw [hnone] at hsafe
    cases hsafe

/-- **A safe counter is printed with its digits alone.** -/
theorem length_text_ofNat {n : Nat} (h : n < 2 ^ 53) :
    (Number.ofNat n).text.length = Nat.log 10 n + 1 := by
  rcases Nat.eq_zero_or_pos n with rfl | hpos
  · decide +kernel
  have hlog : Nat.log 10 n + 1 ≤ 16 := by
    have := Nat.log_lt_of_lt_pow (b := 10) (x := 16) (by omega)
      (lt_trans h (show 2 ^ 53 < 10 ^ 16 by decide))
    omega
  obtain ⟨den, hden, hfraction⟩ := fraction_shift (n := n)
  have hvalue : n * den / den = n := Nat.mul_div_cancel n hden
  have hpoint : decimalPoint (n * den) den = (Nat.log 10 n + 1 : Nat) := by
    rw [decimalPoint, if_pos (Nat.le_mul_of_pos_left den hpos), hvalue]
    rfl
  have hx := ofNat_eq hpos h
  -- all the digits are read back, so the search ends at their number
  have hall : (decimalAt (Number.ofNat n) (n * den) den (Nat.log 10 n + 1)).isSome := by
    have hreads : Decimal.Reads ⟨n, Nat.log 10 n + 1, (Nat.log 10 n + 1 : Nat)⟩
        (Number.ofNat n) := by
      refine ⟨Nat.succ_pos _, Nat.pow_log_le_self 10 (by omega),
        Nat.lt_pow_succ_log_self (by decide) n, ?_⟩
      rw [sub_self]
      rfl
    unfold decimalAt
    simp only [hpoint, sub_self, shift, le_refl, if_true, Int.toNat_zero, pow_zero, mul_one,
      hvalue, if_pos hreads]
    split_ifs <;> rfl
  obtain ⟨d, hd⟩ := Option.isSome_iff_exists.mp
    (shortestFrom_isSome hall (n := maximumDigits) (k := 1) (by omega)
      (by unfold maximumDigits; omega))
  obtain ⟨hlength, hshape⟩ := shortestFrom_shape hall (by omega) hd
  obtain ⟨hone, -, -, hreads⟩ := shortestFrom_reads hd
  rw [hpoint] at hshape
  have hlast : d.point = (Nat.log 10 n + 1 : Nat) := by
    refine hshape.resolve_right fun hcarry => ?_
    have hexponent : d.point - d.length = ((Nat.log 10 n + 2 - d.length : Nat) : Int) := by
      rw [hcarry.1]; omega
    have hten : d.digits * 10 ^ (Nat.log 10 n + 2 - d.length) = 10 ^ (Nat.log 10 n + 1) := by
      rw [hcarry.2, ← pow_add]
      congr 1
      omega
    refine ofNat_pow_ne h (Nat.lt_pow_succ_log_self (by decide) n) hlog ?_
    rw [← hreads, hexponent, Number.ofNat, ← hten]
    have hdigits : d.digits ≠ 0 := by rw [hcarry.2]; positivity
    simp [ofDecimal, hdigits]
  have htext : (Number.ofNat n).text = d.text := by
    rw [hx, Number.text, if_neg (by positivity)]
    simp only [Bool.false_eq_true, if_false, List.nil_append, shortest, hfraction]
    rw [← hx, hd]
    rfl
  rw [htext, Decimal.text, if_pos (by omega), List.length_append, lastDigits_length, zeros,
    List.length_replicate]
  omega

/-- A safe counter costs its digits. -/
theorem byteLength_counter {n : Nat} (h : n < 2 ^ 53) (gap indent : Text) :
    byteLength (render gap indent (.num (Number.ofNat n))) = Nat.log 10 n + 1 := by
  have hfinite : (Number.ofNat n).isFinite = true := by
    rcases Nat.eq_zero_or_pos n with rfl | hpos
    · rfl
    · rw [ofNat_eq hpos h]; rfl
  rw [render, if_pos hfinite, byteLength_ascii (Number.text_ascii _), length_text_ofNat h]

/-! ## Digests -/

theorem length_digest (message : Bytes) : (Sha256.digest message).length = 32 := rfl

theorem length_hexText (bs : Bytes) : (hexText bs).length = 2 * bs.length := by
  induction bs with
  | nil => rfl
  | cons b bs ih =>
      rw [hexText] at ih ⊢
      rw [List.flatMap_cons, List.length_append, ih, List.length_cons]
      simp only [List.length_cons, List.length_nil]
      omega

theorem isPlainUnit_hexText (bs : Bytes) : ∀ u ∈ hexText bs, isPlainUnit u = true := by
  have hunit : ∀ d < 16, isPlainUnit (hexUnit d) = true := by decide
  intro u hu
  obtain ⟨b, -, hu⟩ := List.mem_flatMap.mp hu
  have hb := b.toNat_lt
  simp only [List.mem_cons, List.not_mem_nil, or_false] at hu
  rcases hu with rfl | rfl
  · exact hunit _ (by omega)
  · exact hunit _ (by omega)

end Ecma
