/-
# Numbers as text

`Number.text` is `Number::toString` in base ten: the digits of the shortest
decimal, laid out plainly, with a point, or with an exponent, according to
where the point falls.  `scanNumber` is the number production of the JSON
grammar, which takes as many characters as it can.

The two meet in `scanNumber_text`: whatever text follows a number, as long as
it cannot continue it (`NumberEnd`), the scanner reads the number back, with
`-0` read as `0`.
-/
import SingularityFlow.Lib.Number
import SingularityFlow.Lib.Text

namespace Ecma

/-! ## Runs of digits -/

/-- The code unit of a decimal digit. -/
def digitUnit (d : Nat) : UInt16 := (0x30 + d).toUInt16

def isDigit (u : UInt16) : Bool := 0x30 ≤ u.toNat && u.toNat ≤ 0x39

/-- The `k` last decimal digits of `s`. -/
def lastDigits : Nat → Nat → Text
  | 0, _ => []
  | k + 1, s => lastDigits k (s / 10) ++ [digitUnit (s % 10)]

/-- The value of a run of digits. -/
def digitsValue (t : Text) : Nat := t.foldl (fun n u => 10 * n + (u.toNat - 0x30)) 0

/-- The decimal digits of a natural number, with no leading zero. -/
def natText (n : Nat) : Text := lastDigits (Nat.log 10 n + 1) n

theorem digitUnit_toNat {d : Nat} (h : d < 10) : (digitUnit d).toNat = 0x30 + d :=
  toNat_toUInt16 (by omega)

theorem isDigit_digitUnit {d : Nat} (h : d < 10) : isDigit (digitUnit d) = true := by
  simp only [isDigit, digitUnit_toNat h, Bool.and_eq_true, decide_eq_true_eq]
  omega

@[simp] theorem lastDigits_length (k s : Nat) : (lastDigits k s).length = k := by
  induction k generalizing s with
  | zero => rfl
  | succ k ih => simp [lastDigits, ih]

theorem lastDigits_isDigit (k s : Nat) : ∀ u ∈ lastDigits k s, isDigit u = true := by
  induction k generalizing s with
  | zero => simp [lastDigits]
  | succ k ih =>
      intro u hu
      rcases List.mem_append.mp hu with hu | hu
      · exact ih _ u hu
      · rw [List.mem_singleton.mp hu]
        exact isDigit_digitUnit (Nat.mod_lt _ (by omega))

theorem digitsValue_append (a b : Text) :
    digitsValue (a ++ b) = digitsValue a * 10 ^ b.length + digitsValue b := by
  induction b using List.reverseRecOn with
  | nil => simp [digitsValue]
  | append_singleton b u ih =>
      have h : ∀ t : Text, digitsValue (t ++ [u]) = 10 * digitsValue t + (u.toNat - 0x30) := by
        simp [digitsValue]
      rw [← List.append_assoc, h, h, ih, List.length_append, List.length_singleton, pow_succ]
      ring

theorem digitsValue_lastDigits (k s : Nat) : digitsValue (lastDigits k s) = s % 10 ^ k := by
  induction k generalizing s with
  | zero => simp [lastDigits, digitsValue, Nat.mod_one]
  | succ k ih =>
      have hd : digitsValue [digitUnit (s % 10)] = s % 10 := by
        simp [digitsValue, digitUnit_toNat (Nat.mod_lt s (by omega : 0 < 10))]
      rw [lastDigits, digitsValue_append, ih, hd, List.length_singleton, pow_one, Nat.pow_succ',
        Nat.mod_mul]
      ring

theorem digitsValue_natText (n : Nat) : digitsValue (natText n) = n := by
  rw [natText, digitsValue_lastDigits]
  exact Nat.mod_eq_of_lt (Nat.lt_pow_succ_log_self (by norm_num) n)

theorem natText_ne_nil (n : Nat) : natText n ≠ [] :=
  List.ne_nil_of_length_pos (by simp [natText])

/-- The first digit is the leading one. -/
theorem lastDigits_head {k s : Nat} (h₁ : 10 ^ k ≤ s) (h₂ : s < 10 ^ (k + 1)) :
    ∃ d t, 1 ≤ d ∧ d < 10 ∧ lastDigits (k + 1) s = digitUnit d :: t := by
  induction k generalizing s with
  | zero =>
      refine ⟨s, [], by simpa using h₁, by simpa using h₂, ?_⟩
      simp [lastDigits, Nat.mod_eq_of_lt (show s < 10 by simpa using h₂)]
  | succ k ih =>
      obtain ⟨d, t, hd₁, hd₂, ht⟩ := ih (s := s / 10)
        ((Nat.le_div_iff_mul_le (by norm_num)).mpr (by rw [← Nat.pow_succ]; exact h₁))
        (Nat.div_lt_of_lt_mul (by rw [← Nat.pow_succ']; exact h₂))
      exact ⟨d, t ++ [digitUnit (s % 10)], hd₁, hd₂, by rw [lastDigits, ht]; rfl⟩

/-! ## Printing -/

/-- The code unit `0`, `length` times. -/
def zeros (length : Nat) : Text := List.replicate length 0x30

/-- The sign and the digits of an exponent. -/
def exponentText (e : Int) : Text :=
  [0x65, if e < 0 then 0x2D else 0x2B] ++ natText e.natAbs

/-- The layout of a decimal, by where its point falls. -/
def Decimal.text (d : Decimal) : Text :=
  let ds := lastDigits d.length d.digits
  if d.length ≤ d.point ∧ d.point ≤ 21 then ds ++ zeros (d.point - d.length).toNat
  else if 0 < d.point ∧ d.point ≤ 21 then
    ds.take d.point.toNat ++ 0x2E :: ds.drop d.point.toNat
  else if -6 < d.point ∧ d.point ≤ 0 then
    0x30 :: 0x2E :: (zeros (-d.point).toNat ++ ds)
  else if d.length = 1 then ds ++ exponentText (d.point - 1)
  else ds.take 1 ++ 0x2E :: (ds.drop 1 ++ exponentText (d.point - 1))

/-- `Number::toString`, in base ten. -/
def Number.text : Number → Text
  | .nan => js "NaN"
  | .infinity negative => if negative then js "-Infinity" else js "Infinity"
  | .finite negative m e h =>
      if m = 0 then [0x30]
      else (if negative then [0x2D] else []) ++ (shortest m e h).text

theorem lastDigits_ascii (k s : Nat) : ∀ u ∈ lastDigits k s, u.toNat < 0x80 := by
  intro u hu
  have := lastDigits_isDigit k s u hu
  simp only [isDigit, Bool.and_eq_true, decide_eq_true_eq] at this
  omega

theorem exponentText_ascii (e : Int) : ∀ u ∈ exponentText e, u.toNat < 0x80 := by
  intro u hu
  rcases List.mem_append.mp hu with hu | hu
  · rcases List.mem_cons.mp hu with rfl | hu
    · decide
    · rw [List.mem_singleton.mp hu]
      split <;> decide
  · exact lastDigits_ascii _ _ u hu

theorem Decimal.text_ascii (d : Decimal) : ∀ u ∈ d.text, u.toNat < 0x80 := by
  have hds := lastDigits_ascii d.length d.digits
  have he := exponentText_ascii (d.point - 1)
  have hz : ∀ k, ∀ u ∈ zeros k, u.toNat < 0x80 := fun k u hu => by
    rw [List.eq_of_mem_replicate hu]; decide
  have hpoint : (0x2E : UInt16).toNat < 0x80 ∧ (0x30 : UInt16).toNat < 0x80 := by decide
  intro u hu
  unfold Decimal.text at hu
  dsimp only at hu
  split_ifs at hu <;> simp only [List.mem_append, List.mem_cons] at hu
  · exact hu.elim (hds u) (hz _ u)
  · rcases hu with hu | rfl | hu
    · exact hds u (List.mem_of_mem_take hu)
    · exact hpoint.1
    · exact hds u (List.mem_of_mem_drop hu)
  · rcases hu with rfl | rfl | hu | hu
    · exact hpoint.2
    · exact hpoint.1
    · exact hz _ u hu
    · exact hds u hu
  · exact hu.elim (hds u) (he u)
  · rcases hu with hu | rfl | hu | hu
    · exact hds u (List.mem_of_mem_take hu)
    · exact hpoint.1
    · exact hds u (List.mem_of_mem_drop hu)
    · exact he u hu

theorem ascii_of_all {t : Text} (h : t.all (fun u => u.toNat < 0x80) = true) :
    ∀ u ∈ t, u.toNat < 0x80 := fun u hu => of_decide_eq_true (List.all_eq_true.mp h u hu)

/-- The text of a number is ASCII. -/
theorem Number.text_ascii (x : Number) : ∀ u ∈ x.text, u.toNat < 0x80 := by
  cases x with
  | nan => exact ascii_of_all (by decide)
  | infinity negative => cases negative <;> exact ascii_of_all (by decide)
  | finite negative m e h =>
      intro u hu
      rw [Number.text] at hu
      split at hu
      · rw [List.mem_singleton.mp hu]; decide
      · rcases List.mem_append.mp hu with hu | hu
        · split at hu
          · rw [List.mem_singleton.mp hu]; decide
          · cases hu
        · exact Decimal.text_ascii _ u hu

/-! ## Scanning -/

/-- The exponent part of a number, after its digits `int` and `frac`. -/
def scanExponent (negative : Bool) (int frac : Text) (t : Text) : Option (Number × Text) :=
  match t with
  | [] => some (ofDecimal negative (digitsValue (int ++ frac)) (-frac.length), [])
  | u :: rest =>
      if u = 0x65 ∨ u = 0x45 then
        let signed : Bool × Text :=
          match rest with
          | [] => (false, [])
          | v :: rest' =>
              if v = 0x2D then (true, rest') else if v = 0x2B then (false, rest') else (false, rest)
        let p := signed.2.span isDigit
        if p.1 = [] then none
        else
          let e : Int := if signed.1 then -(digitsValue p.1 : Int) else digitsValue p.1
          some (ofDecimal negative (digitsValue (int ++ frac)) (e - frac.length), p.2)
      else some (ofDecimal negative (digitsValue (int ++ frac)) (-frac.length), t)

/-- The fraction and exponent parts of a number. -/
def scanFraction (negative : Bool) (int : Text) (t : Text) : Option (Number × Text) :=
  match t with
  | [] => scanExponent negative int [] []
  | u :: rest =>
      if u = 0x2E then
        let p := rest.span isDigit
        if p.1 = [] then none else scanExponent negative int p.1 p.2
      else scanExponent negative int [] t

/-- A number after its sign: a lone zero, or digits with no leading zero. -/
def scanUnsigned (negative : Bool) (t : Text) : Option (Number × Text) :=
  match t with
  | [] => none
  | u :: rest =>
      if u = 0x30 then scanFraction negative [u] rest
      else if isDigit u then
        let p := t.span isDigit
        scanFraction negative p.1 p.2
      else none

/-- A number of the JSON grammar at the front of a text. -/
def scanNumber (t : Text) : Option (Number × Text) :=
  match t with
  | [] => none
  | u :: rest => if u = 0x2D then scanUnsigned true rest else scanUnsigned false t

/-- A text that cannot continue a number. -/
def NumberEnd : Text → Prop
  | [] => True
  | u :: _ => isDigit u = false ∧ u ≠ 0x2E ∧ u ≠ 0x65 ∧ u ≠ 0x45

/-- A text that cannot continue a run of digits. -/
def DigitsEnd (t : Text) : Prop := ∀ u ∈ t.head?, isDigit u = false

theorem NumberEnd.digitsEnd : ∀ {t : Text}, NumberEnd t → DigitsEnd t
  | [], _ => by simp [DigitsEnd]
  | _ :: _, h => by simpa [DigitsEnd] using h.1

theorem takeWhile_digits {ds rest : Text} (hd : ∀ u ∈ ds, isDigit u = true)
    (hr : DigitsEnd rest) : (ds ++ rest).takeWhile isDigit = ds := by
  rw [List.takeWhile_append_of_pos hd]
  cases rest with
  | nil => simp
  | cons u rest =>
      have hu : isDigit u = false := hr u (by simp)
      simp [hu]

theorem dropWhile_digits {ds rest : Text} (hd : ∀ u ∈ ds, isDigit u = true)
    (hr : DigitsEnd rest) : (ds ++ rest).dropWhile isDigit = rest := by
  rw [List.dropWhile_append_of_pos hd]
  cases rest with
  | nil => simp
  | cons u rest =>
      have hu : isDigit u = false := hr u (by simp)
      simp [hu]

/-- A number read with no exponent. -/
theorem scanExponent_end (negative : Bool) (int frac : Text) {rest : Text} (h : NumberEnd rest) :
    scanExponent negative int frac rest
      = some (ofDecimal negative (digitsValue (int ++ frac)) (-frac.length), rest) := by
  cases rest with
  | nil => rfl
  | cons u rest =>
      obtain ⟨-, -, h₁, h₂⟩ := h
      simp [scanExponent, h₁, h₂]

/-- A number read with the exponent that was printed. -/
theorem scanExponent_exponentText (negative : Bool) (int frac : Text) (e : Int) {rest : Text}
    (h : NumberEnd rest) :
    scanExponent negative int frac (exponentText e ++ rest)
      = some (ofDecimal negative (digitsValue (int ++ frac)) (e - frac.length), rest) := by
  have hd : ∀ u ∈ natText e.natAbs, isDigit u = true := lastDigits_isDigit _ _
  have ht := takeWhile_digits hd h.digitsEnd
  have hw := dropWhile_digits hd h.digitsEnd
  simp only [exponentText, List.cons_append, List.nil_append, scanExponent, true_or, if_true]
  by_cases he : e < 0
  · have habs : -|e| = e := by rw [abs_of_neg he, neg_neg]
    simp [he, ht, hw, natText_ne_nil, digitsValue_natText, habs]
  · have habs : |e| = e := abs_of_nonneg (by omega)
    simp [he, ht, hw, natText_ne_nil, digitsValue_natText, habs]

/-- An integer with nothing after it. -/
theorem scanFraction_end (negative : Bool) (int : Text) {rest : Text} (h : NumberEnd rest) :
    scanFraction negative int rest = some (ofDecimal negative (digitsValue int) 0, rest) := by
  have he := scanExponent_end negative int [] h
  rw [List.append_nil] at he
  cases rest with
  | nil => exact he
  | cons u rest =>
      rw [scanFraction, if_neg h.2.1]
      exact he

/-- The digits after a point are taken up to what follows them. -/
theorem scanFraction_point (negative : Bool) (int : Text) {frac tail : Text}
    (hd : ∀ u ∈ frac, isDigit u = true) (hne : frac ≠ []) (ht : DigitsEnd tail) :
    scanFraction negative int (0x2E :: (frac ++ tail)) = scanExponent negative int frac tail := by
  simp [scanFraction, takeWhile_digits hd ht, dropWhile_digits hd ht, hne]

/-- Digits that do not start with a zero are taken up to what follows them. -/
theorem scanUnsigned_digits (negative : Bool) {d : Nat} (ds tail : Text) (h₁ : 1 ≤ d) (h₂ : d < 10)
    (hd : ∀ u ∈ ds, isDigit u = true) (ht : DigitsEnd tail) :
    scanUnsigned negative (digitUnit d :: (ds ++ tail))
      = scanFraction negative (digitUnit d :: ds) tail := by
  have hne : digitUnit d ≠ 0x30 := by
    intro h
    have := congrArg UInt16.toNat h
    rw [digitUnit_toNat h₂] at this
    have h30 : (0x30 : UInt16).toNat = 0x30 := rfl
    omega
  simp [scanUnsigned, hne, isDigit_digitUnit h₂, takeWhile_digits hd ht, dropWhile_digits hd ht]

theorem digitsEnd_exponentText (e : Int) (rest : Text) : DigitsEnd (exponentText e ++ rest) := by
  intro u hu
  obtain rfl : 0x65 = u := by simpa [exponentText] using hu
  rfl

theorem zeros_isDigit (k : Nat) : ∀ u ∈ zeros k, isDigit u = true := by
  intro u hu
  rw [List.eq_of_mem_replicate hu]
  rfl

theorem digitsValue_zeros (k : Nat) : digitsValue (zeros k) = 0 := by
  induction k with
  | zero => rfl
  | succ k ih =>
      rw [zeros, List.replicate_succ', digitsValue_append, ← zeros, ih]
      rfl

/-- Digits moved across the point. -/
theorem ofDecimal_shift (negative : Bool) {s : Nat} (hs : 0 < s) (z : Nat) :
    ofDecimal negative (s * 10 ^ z) 0 = ofDecimal negative s z := by
  have h : s * 10 ^ z ≠ 0 := by positivity
  simp [ofDecimal, h, hs.ne']

/-- **The text of a decimal is scanned back to its value.** -/
theorem scanUnsigned_text (negative : Bool) {d : Decimal} {x : Number} (hx : d.Reads x)
    {rest : Text} (h : NumberEnd rest) :
    scanUnsigned negative (d.text ++ rest)
      = some (ofDecimal negative d.digits (d.point - d.length), rest) := by
  obtain ⟨s, k, n⟩ := d
  obtain ⟨hk, hlow, hhigh, -⟩ := hx
  dsimp only at hk hlow hhigh ⊢
  obtain ⟨k, rfl⟩ : ∃ j, k = j + 1 := ⟨k - 1, by omega⟩
  rw [Nat.add_sub_cancel] at hlow
  have hs : 0 < s := lt_of_lt_of_le (by positivity) hlow
  have hdigit := lastDigits_isDigit (k + 1) s
  have hvalue : digitsValue (lastDigits (k + 1) s) = s := by
    rw [digitsValue_lastDigits, Nat.mod_eq_of_lt hhigh]
  have hlength := lastDigits_length (k + 1) s
  obtain ⟨d, t, hd₁, hd₂, hds⟩ := lastDigits_head hlow hhigh
  rw [hds] at hdigit hvalue hlength
  have htl : t.length = k := by simpa using hlength
  have hdigit' : ∀ u ∈ t, isDigit u = true := fun u hu => hdigit u (List.mem_cons_of_mem _ hu)
  unfold Decimal.text
  simp only [hds]
  split_ifs with hA hB hC hD
  · -- an integer, padded with zeros
    obtain ⟨z, hz⟩ := Int.eq_ofNat_of_zero_le (a := n - (k + 1 : Nat)) (by omega)
    rw [hz, Int.toNat_natCast, List.append_assoc, List.cons_append, ← List.append_assoc,
      scanUnsigned_digits negative _ _ hd₁ hd₂ _ h.digitsEnd, ← List.cons_append,
      scanFraction_end negative _ h, digitsValue_append, hvalue, digitsValue_zeros, add_zero, zeros,
      List.length_replicate, ofDecimal_shift negative hs]
    intro u hu
    rcases List.mem_append.mp hu with hu | hu
    · exact hdigit' u hu
    · exact zeros_isDigit _ u hu
  · -- the point falls inside the digits
    obtain ⟨p, hp⟩ := Int.eq_ofNat_of_zero_le (a := n - 1) (by omega)
    have hn : n.toNat = p + 1 := by omega
    have hpk : p < k := by omega
    have hne : t.drop p ≠ [] := by
      rw [ne_eq, List.drop_eq_nil_iff]; omega
    rw [hn, List.take_succ_cons, List.drop_succ_cons, List.append_assoc, List.cons_append,
      List.cons_append,
      scanUnsigned_digits negative _ _ hd₁ hd₂ (fun u hu => hdigit' u (List.mem_of_mem_take hu))
        (by intro u hu; obtain rfl : 0x2E = u := by simpa using hu
            rfl),
      scanFraction_point negative _ (fun u hu => hdigit' u (List.mem_of_mem_drop hu)) hne
        h.digitsEnd,
      scanExponent_end negative _ _ h, List.cons_append, List.take_append_drop, hvalue]
    congr 3
    simp only [List.length_drop]
    omega
  · -- the point falls before the digits
    obtain ⟨z, hz⟩ := Int.eq_ofNat_of_zero_le (a := -n) (by omega)
    rw [hz, Int.toNat_natCast]
    have hfrac : ∀ u ∈ zeros z ++ digitUnit d :: t, isDigit u = true := by
      intro u hu
      rcases List.mem_append.mp hu with hu | hu
      · exact zeros_isDigit _ u hu
      · exact hdigit u hu
    have hval : digitsValue ([0x30] ++ (zeros z ++ digitUnit d :: t)) = s := by
      rw [digitsValue_append, digitsValue_append, hvalue, digitsValue_zeros]
      simp [digitsValue]
    rw [List.cons_append, List.cons_append, scanUnsigned, if_pos rfl,
      scanFraction_point negative _ hfrac (by simp) h.digitsEnd,
      scanExponent_end negative _ _ h, hval]
    congr 3
    simp only [zeros, List.length_append, List.length_replicate, List.length_cons, htl]
    omega
  · -- one digit and an exponent
    have ht : t = [] := List.eq_nil_of_length_eq_zero (by omega)
    subst ht
    have hk0 : k = 0 := by simpa using htl.symm
    subst hk0
    have hval : digitsValue ([digitUnit d] ++ []) = s := by simpa using hvalue
    have hexp : scanFraction negative [digitUnit d] (exponentText (n - 1) ++ rest)
        = scanExponent negative [digitUnit d] [] (exponentText (n - 1) ++ rest) := by
      simp [exponentText, scanFraction]
    rw [List.append_assoc, List.cons_append,
      scanUnsigned_digits negative _ _ hd₁ hd₂ hdigit' (digitsEnd_exponentText _ _), hexp,
      scanExponent_exponentText negative _ _ _ h, hval]
    congr 3
    simp
  · -- several digits and an exponent
    have hne : t ≠ [] := by
      rintro rfl
      exact hD (by simpa using htl.symm)
    rw [List.take_succ_cons, List.drop_succ_cons, List.take_zero, List.drop_zero]
    have hlead := scanUnsigned_digits negative []
      (0x2E :: (t ++ (exponentText (n - 1) ++ rest))) hd₁ hd₂ (by simp)
      (by intro u hu; obtain rfl : 0x2E = u := by simpa using hu
          rfl)
    simp only [List.append_assoc, List.cons_append, List.nil_append] at hlead ⊢
    rw [hlead, scanFraction_point negative _ hdigit' hne (digitsEnd_exponentText _ _),
      scanExponent_exponentText negative _ _ _ h, List.cons_append, List.nil_append, hvalue]
    congr 3
    rw [htl]
    omega

/-- What starts with a digit starts with no sign. -/
theorem scanNumber_of_scanUnsigned {t : Text} {r : Number × Text}
    (h : scanUnsigned false t = some r) : scanNumber t = some r := by
  cases t with
  | nil => cases h
  | cons u rest =>
      have hu : u ≠ 0x2D := by
        rintro rfl
        simp [scanUnsigned, isDigit] at h
      rw [scanNumber, if_neg hu, h]

/-- **A finite number is scanned back from its text**, with `-0` read as `0`. -/
theorem scanNumber_text {x : Number} (hx : x.isFinite = true) (rest : Text)
    (h : NumberEnd rest) :
    scanNumber (x.text ++ rest) = some (x.unsignedZero, rest) := by
  cases x with
  | nan => cases hx
  | infinity negative => cases hx
  | finite negative m e hc =>
      by_cases hm : m = 0
      · subst hm
        have he : e = -1074 := by
          obtain ⟨-, -, -, h | h⟩ := hc
          · exact absurd h (by norm_num)
          · exact h
        subst he
        simp only [Number.text, if_true, List.cons_append, List.nil_append, scanNumber,
          scanUnsigned]
        rw [if_neg (by decide), scanFraction_end false _ h]
        simp [digitsValue, ofDecimal, Number.unsignedZero]
      · have hd := shortest_reads (Nat.pos_of_ne_zero hm) hc
        have hscan := scanUnsigned_text negative hd h
        rw [ofDecimal_withSign, hd.2.2.2] at hscan
        have hsign : (Number.finite negative m e hc).unsignedZero = .finite negative m e hc := by
          simp [Number.unsignedZero, hm]
        rw [hsign, Number.text, if_neg hm]
        cases negative with
        | true => simpa [scanNumber, Number.withSign] using hscan
        | false => exact scanNumber_of_scanUnsigned hscan

end Ecma
