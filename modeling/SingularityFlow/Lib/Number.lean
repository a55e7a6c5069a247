/-
# Binary64 numbers and their decimal forms

A finite number is a sign, a significand and an exponent, in the one
canonical form IEEE 754 gives each value (`Canonical`), so equality of the
data is equality of the numbers.  Two operations of the ECMAScript
specification are computed on it:

* `ofDecimal s t`, the number closest to `s · 10 ^ t`, ties to the even
  significand, which is how a numeric literal gets its value;
* `shortest m e`, the shortest `s · 10 ^ (n - k)` that is read back as
  `m · 2 ^ e`, the closest one where two are equally short, which is what
  `Number::toString` prints.

That printing loses nothing is then how `shortest` is found: the search only
stops at a decimal that `ofDecimal` reads back (`shortestFrom_reads`), and it
stops because every finite number has an exact decimal (`exists_decimalAt`).
-/
import Mathlib.Tactic
import Mathlib.Data.Nat.Log
import Mathlib.Algebra.Order.Field.Power

namespace Ecma

/-- The canonical significand and exponent of a binary64 value: the leading
bit is present unless the exponent is the least one. -/
def Canonical (m : Nat) (e : Int) : Prop :=
  m < 2 ^ 53 ∧ -1074 ≤ e ∧ e ≤ 971 ∧ (2 ^ 52 ≤ m ∨ e = -1074)

instance (m : Nat) (e : Int) : Decidable (Canonical m e) := by
  unfold Canonical; infer_instance

/-- A Number value. -/
inductive Number where
  | nan
  | infinity (negative : Bool)
  | finite (negative : Bool) (significand : Nat) (exponent : Int)
      (canonical : Canonical significand exponent)
deriving DecidableEq

/-! ## Rounding a fraction to a binary64 magnitude -/

/-- `2 ^ k ≤ num / den`. -/
def twoPowLe (k : Int) (num den : Nat) : Bool :=
  if 0 ≤ k then den * 2 ^ k.toNat ≤ num else den ≤ num * 2 ^ (-k).toNat

/-- The exponent of the leading bit of `num / den`. -/
def leadingBit (num den : Nat) : Int :=
  let k : Int := (Nat.log2 num : Int) - Nat.log2 den
  if twoPowLe k num den then k else k - 1

/-- `num / den / 2 ^ k`, as a fraction. -/
def scale (num den : Nat) (k : Int) : Nat × Nat :=
  if 0 ≤ k then (num, den * 2 ^ k.toNat) else (num * 2 ^ (-k).toNat, den)

/-- The integer closest to `num / den`, the even one where two are. -/
def roundHalfEven (num den : Nat) : Nat :=
  let q := num / den
  let r := num % den
  if 2 * r < den then q
  else if den < 2 * r then q + 1
  else if q % 2 = 0 then q else q + 1

/-- The number of the given sign closest to `num / den`. -/
def roundFraction (negative : Bool) (num den : Nat) : Number :=
  let k := max (-1074) (leadingBit num den - 52)
  let m := roundHalfEven (scale num den k).1 (scale num den k).2
  -- rounding up may carry into a further bit
  if h : Canonical m k then .finite negative m k h
  else if h : Canonical (m / 2) (k + 1) then .finite negative (m / 2) (k + 1) h
  else .infinity negative

theorem canonical_zero : Canonical 0 (-1074) := by decide

namespace Number

/-- `Number.isFinite`. -/
def isFinite : Number → Bool
  | .finite .. => true
  | _ => false

/-- The number `-0`. -/
def negativeZero : Number := .finite true 0 (-1074) canonical_zero

/-- The number with `-0` read as `0`. -/
def unsignedZero : Number → Number
  | .finite negative m e h => .finite (negative && m != 0) m e h
  | x => x

/-- The number of the given sign and the same magnitude. -/
def withSign (negative : Bool) : Number → Number
  | .finite _ m e h => .finite negative m e h
  | .infinity _ => .infinity negative
  | .nan => .nan

@[simp] theorem unsignedZero_unsignedZero (x : Number) :
    x.unsignedZero.unsignedZero = x.unsignedZero := by
  cases x <;> simp [unsignedZero, Bool.and_assoc]

@[simp] theorem isFinite_unsignedZero (x : Number) : x.unsignedZero.isFinite = x.isFinite := by
  cases x <;> rfl

end Number

/-- The value of the literal `s · 10 ^ t`, with the given sign. -/
def ofDecimal (negative : Bool) (s : Nat) (t : Int) : Number :=
  if s = 0 then .finite negative 0 (-1074) canonical_zero
  else if 0 ≤ t then roundFraction negative (s * 10 ^ t.toNat) 1
  else roundFraction negative s (10 ^ (-t).toNat)

/-- The number with the value of a natural number. -/
def Number.ofNat (n : Nat) : Number := ofDecimal false n 0

/-- The number with the value of an integer. -/
def Number.ofInt (n : Int) : Number := ofDecimal (n < 0) n.natAbs 0

/-- The value of a number that is an integer. -/
def Number.integer? : Number → Option Int
  | .finite negative m e _ =>
      let sign : Int := if negative then -1 else 1
      if 0 ≤ e then some (sign * (m * 2 ^ e.toNat : Nat))
      else if m % 2 ^ (-e).toNat = 0 then some (sign * (m / 2 ^ (-e).toNat : Nat))
      else none
  | _ => none

/-- The value of a finite number, in units of the least positive one. -/
def Number.units : Number → Int
  | .finite negative m e _ => (if negative then -1 else 1) * (m * 2 ^ (e + 1074).toNat : Nat)
  | _ => 0

/-- `x === y`. -/
def Number.same (x y : Number) : Bool := x ≠ .nan && x.unsignedZero = y.unsignedZero

/-- `x < y`. -/
def Number.less : Number → Number → Bool
  | .nan, _ => false
  | _, .nan => false
  | .infinity negative, y => negative && y ≠ .infinity true
  | .finite .., .infinity negative => !negative
  | x, y => x.units < y.units

theorem roundFraction_withSign (negative : Bool) (num den : Nat) :
    roundFraction negative num den = (roundFraction false num den).withSign negative := by
  unfold roundFraction
  dsimp only
  split_ifs <;> rfl

theorem ofDecimal_withSign (negative : Bool) (s : Nat) (t : Int) :
    ofDecimal negative s t = (ofDecimal false s t).withSign negative := by
  unfold ofDecimal
  split_ifs
  · rfl
  · exact roundFraction_withSign _ _ _
  · exact roundFraction_withSign _ _ _

/-! ## The rounding depends on the value only -/

theorem twoPowLe_iff {k : Int} {num den : Nat} (hd : 0 < den) :
    twoPowLe k num den = true ↔ (2 : ℚ) ^ k ≤ (num : ℚ) / den := by
  have hd' : (0 : ℚ) < den := by exact_mod_cast hd
  unfold twoPowLe
  split
  · next hk =>
    obtain ⟨n, rfl⟩ := Int.eq_ofNat_of_zero_le hk
    rw [decide_eq_true_eq, le_div_iff₀ hd', zpow_natCast, mul_comm]
    exact ⟨fun h => by exact_mod_cast h, fun h => by exact_mod_cast h⟩
  · next hk =>
    obtain ⟨n, hn⟩ := Int.eq_ofNat_of_zero_le (a := -k) (by omega)
    have hk' : k = -(n : Int) := by omega
    subst hk'
    have hp : (0 : ℚ) < 2 ^ n := by positivity
    rw [decide_eq_true_eq, zpow_neg, zpow_natCast, le_div_iff₀ hd', inv_mul_le_iff₀ hp, mul_comm]
    simp only [neg_neg, Int.toNat_natCast]
    exact ⟨fun h => by exact_mod_cast h, fun h => by exact_mod_cast h⟩

/-- The leading bit of a positive fraction. -/
theorem leadingBit_spec {num den : Nat} (hn : 0 < num) (hd : 0 < den) :
    (2 : ℚ) ^ leadingBit num den ≤ (num : ℚ) / den ∧
      (num : ℚ) / den < 2 ^ (leadingBit num den + 1) := by
  have hd' : (0 : ℚ) < den := by exact_mod_cast hd
  have hn₁ : (2 : ℚ) ^ (Nat.log2 num) ≤ num := by exact_mod_cast Nat.log2_self_le hn.ne'
  have hn₂ : (num : ℚ) < 2 ^ (Nat.log2 num + 1) := by exact_mod_cast Nat.lt_log2_self
  have hd₁ : (2 : ℚ) ^ (Nat.log2 den) ≤ den := by exact_mod_cast Nat.log2_self_le hd.ne'
  have hd₂ : (den : ℚ) < 2 ^ (Nat.log2 den + 1) := by exact_mod_cast Nat.lt_log2_self
  have two : (2 : ℚ) ≠ 0 := by norm_num
  -- the quotient of the leading bits is off by at most one
  have hlow : (2 : ℚ) ^ ((Nat.log2 num : Int) - Nat.log2 den - 1) ≤ (num : ℚ) / den := by
    rw [le_div_iff₀ hd']
    calc (2 : ℚ) ^ ((Nat.log2 num : Int) - Nat.log2 den - 1) * den
        ≤ 2 ^ ((Nat.log2 num : Int) - Nat.log2 den - 1) * 2 ^ (Nat.log2 den + 1) := by gcongr
      _ = 2 ^ (Nat.log2 num) := by
          rw [← zpow_natCast, ← zpow_add₀ two, ← zpow_natCast]; congr 1; push_cast; ring
      _ ≤ num := hn₁
  have hhigh : (num : ℚ) / den < 2 ^ ((Nat.log2 num : Int) - Nat.log2 den + 1) := by
    rw [div_lt_iff₀ hd']
    calc (num : ℚ) < 2 ^ (Nat.log2 num + 1) := hn₂
      _ = 2 ^ ((Nat.log2 num : Int) - Nat.log2 den + 1) * 2 ^ (Nat.log2 den) := by
          rw [← zpow_natCast, ← zpow_natCast, ← zpow_add₀ two]; congr 1; push_cast; ring
      _ ≤ 2 ^ ((Nat.log2 num : Int) - Nat.log2 den + 1) * den := by gcongr
  unfold leadingBit
  dsimp only
  split
  · next h => exact ⟨(twoPowLe_iff hd).mp h, hhigh⟩
  · next h =>
    refine ⟨hlow, ?_⟩
    rw [sub_add_cancel]
    exact lt_of_not_ge fun hc => h ((twoPowLe_iff hd).mpr hc)

/-- The exponent of the leading bit is determined by the two bounds. -/
theorem leadingBit_eq {num den : Nat} (hn : 0 < num) (hd : 0 < den) {k : Int}
    (h₁ : (2 : ℚ) ^ k ≤ (num : ℚ) / den) (h₂ : (num : ℚ) / den < 2 ^ (k + 1)) :
    leadingBit num den = k := by
  obtain ⟨h₃, h₄⟩ := leadingBit_spec hn hd
  have one_lt : (1 : ℚ) < 2 := by norm_num
  have ha : k < leadingBit num den + 1 :=
    (zpow_lt_zpow_iff_right₀ one_lt).mp (h₁.trans_lt h₄)
  have hb : leadingBit num den < k + 1 :=
    (zpow_lt_zpow_iff_right₀ one_lt).mp (h₃.trans_lt h₂)
  omega

theorem leadingBit_mul {num den c : Nat} (hn : 0 < num) (hd : 0 < den) (hc : 0 < c) :
    leadingBit (c * num) (c * den) = leadingBit num den := by
  obtain ⟨h₁, h₂⟩ := leadingBit_spec hn hd
  have hq : ((c * num : Nat) : ℚ) / ((c * den : Nat) : ℚ) = (num : ℚ) / den := by
    have : (c : ℚ) ≠ 0 := by exact_mod_cast hc.ne'
    push_cast
    exact mul_div_mul_left _ _ this
  exact leadingBit_eq (by positivity) (by positivity) (hq ▸ h₁) (hq ▸ h₂)

theorem scale_mul (num den c : Nat) (k : Int) :
    scale (c * num) (c * den) k = (c * (scale num den k).1, c * (scale num den k).2) := by
  unfold scale
  split <;> simp [mul_assoc]

theorem roundHalfEven_mul {num den c : Nat} (hc : 0 < c) :
    roundHalfEven (c * num) (c * den) = roundHalfEven num den := by
  unfold roundHalfEven
  have h₁ : (2 * (c * (num % den)) < c * den) ↔ 2 * (num % den) < den := by
    rw [show 2 * (c * (num % den)) = c * (2 * (num % den)) by ring]
    exact Nat.mul_lt_mul_left hc
  have h₂ : (c * den < 2 * (c * (num % den))) ↔ den < 2 * (num % den) := by
    rw [show 2 * (c * (num % den)) = c * (2 * (num % den)) by ring]
    exact Nat.mul_lt_mul_left hc
  simp only [Nat.mul_div_mul_left _ _ hc, Nat.mul_mod_mul_left, h₁, h₂]

/-- Rounding does not see a common factor. -/
theorem roundFraction_mul {negative : Bool} {num den c : Nat} (hn : 0 < num) (hd : 0 < den)
    (hc : 0 < c) :
    roundFraction negative (c * num) (c * den) = roundFraction negative num den := by
  simp only [roundFraction, leadingBit_mul hn hd hc, scale_mul, roundHalfEven_mul hc]

/-- Equal fractions are rounded alike. -/
theorem roundFraction_congr {negative : Bool} {num den num' den' : Nat} (hn : 0 < num)
    (hd : 0 < den) (hn' : 0 < num') (hd' : 0 < den') (h : num * den' = num' * den) :
    roundFraction negative num den = roundFraction negative num' den' := by
  rw [← roundFraction_mul hn hd hd', ← roundFraction_mul hn' hd' hd, Nat.mul_comm den' num, h,
    Nat.mul_comm num' den, Nat.mul_comm den' den]

/-! ## Representable values are kept -/

/-- The magnitude of a significand and an exponent, as a fraction. -/
def fraction (m : Nat) (e : Int) : Nat × Nat :=
  if 0 ≤ e then (m * 2 ^ e.toNat, 1) else (m, 2 ^ (-e).toNat)

theorem fraction_den_pos (m : Nat) (e : Int) : 0 < (fraction m e).2 := by
  unfold fraction; split <;> positivity

theorem fraction_num_pos {m : Nat} (hm : 0 < m) (e : Int) : 0 < (fraction m e).1 := by
  unfold fraction; split <;> positivity

theorem fraction_eq (m : Nat) (e : Int) :
    ((fraction m e).1 : ℚ) / (fraction m e).2 = m * 2 ^ e := by
  unfold fraction
  split
  · next h =>
    obtain ⟨n, rfl⟩ := Int.eq_ofNat_of_zero_le h
    simp
  · next h =>
    obtain ⟨n, hn⟩ := Int.eq_ofNat_of_zero_le (a := -e) (by omega)
    have : e = -(n : Int) := by omega
    subst this
    simp [div_eq_mul_inv]

/-- Dividing `m · 2 ^ e` by `2 ^ e` leaves `m`, with nothing to round. -/
theorem roundHalfEven_scale_fraction (m : Nat) (e : Int) :
    roundHalfEven (scale (fraction m e).1 (fraction m e).2 e).1
      (scale (fraction m e).1 (fraction m e).2 e).2 = m := by
  have key : ∀ d : Nat, 0 < d → roundHalfEven (m * d) d = m := by
    intro d hd
    simp [roundHalfEven, Nat.mul_div_cancel _ hd, hd]
  unfold scale fraction
  split
  · simpa using key (2 ^ e.toNat) (by positivity)
  · simpa using key (2 ^ (-e).toNat) (by positivity)

/-- A canonical value is the number closest to itself. -/
theorem roundFraction_fraction (negative : Bool) {m : Nat} {e : Int} (hm : 0 < m)
    (h : Canonical m e) :
    roundFraction negative (fraction m e).1 (fraction m e).2 = .finite negative m e h := by
  obtain ⟨hlt, hlow, hhigh, hlead⟩ := h
  have hlog : leadingBit (fraction m e).1 (fraction m e).2 = Nat.log2 m + e := by
    have hp : (0 : ℚ) < 2 ^ e := by positivity
    refine leadingBit_eq (fraction_num_pos hm e) (fraction_den_pos m e) ?_ ?_
    · rw [fraction_eq, zpow_add₀ (by norm_num), zpow_natCast]
      gcongr
      exact_mod_cast Nat.log2_self_le hm.ne'
    · rw [fraction_eq, show (Nat.log2 m : Int) + e + 1 = ((Nat.log2 m + 1 : Nat) : Int) + e by
        push_cast; ring, zpow_add₀ (by norm_num), zpow_natCast]
      gcongr
      exact_mod_cast Nat.lt_log2_self
  have hl : Nat.log2 m ≤ 52 := by
    have := (Nat.log2_lt hm.ne' (k := 53)).mpr hlt
    omega
  -- the exponent chosen is the one the value already has
  have hk : max (-1074) (leadingBit (fraction m e).1 (fraction m e).2 - 52) = e := by
    rw [hlog]
    rcases hlead with h52 | he
    · have : 52 ≤ Nat.log2 m := (Nat.le_log2 hm.ne').mpr h52
      omega
    · omega
  simp only [roundFraction, hk, roundHalfEven_scale_fraction]
  rw [dif_pos ⟨hlt, hlow, hhigh, hlead⟩]

/-! ## The shortest decimal -/

/-- The decimal `digits · 10 ^ (point - length)`: `length` digits, the point
after the first `point` of them. -/
structure Decimal where
  digits : Nat
  length : Nat
  point : Int
deriving DecidableEq, Repr

/-- The decimal is written with exactly its number of digits and is read
back as the number of the given sign, significand and exponent. -/
def Decimal.Reads (d : Decimal) (x : Number) : Prop :=
  1 ≤ d.length ∧ 10 ^ (d.length - 1) ≤ d.digits ∧ d.digits < 10 ^ d.length ∧
    ofDecimal false d.digits (d.point - d.length) = x

instance (d : Decimal) (x : Number) : Decidable (d.Reads x) := by
  unfold Decimal.Reads; infer_instance

/-- The `n` with `10 ^ (n - 1) ≤ num / den < 10 ^ n`. -/
def decimalPoint (num den : Nat) : Int :=
  if den ≤ num then Nat.log 10 (num / den) + 1 else -Nat.log 10 ((den - 1) / num)

/-- `num / den · 10 ^ j`, as a fraction. -/
def shift (num den : Nat) (j : Int) : Nat × Nat :=
  if 0 ≤ j then (num * 10 ^ j.toNat, den) else (num, den * 10 ^ (-j).toNat)

/-- The decimal of `k` digits closest to `num / den` that is read as `x`. -/
def decimalAt (x : Number) (num den k : Nat) : Option Decimal :=
  let n := decimalPoint num den
  let f := shift num den (k - n)
  let lo : Decimal := ⟨f.1 / f.2, k, n⟩
  let hi : Decimal :=
    if f.1 / f.2 + 1 = 10 ^ k then ⟨10 ^ (k - 1), k, n + 1⟩ else ⟨f.1 / f.2 + 1, k, n⟩
  let r := f.1 % f.2
  if lo.Reads x then
    if hi.Reads x ∧ (f.2 < 2 * r ∨ (f.2 = 2 * r ∧ lo.digits % 2 = 1)) then some hi else some lo
  else if hi.Reads x then some hi else none

/-- The first of the lengths from `k` on at which a decimal is read as `x`. -/
def shortestFrom (x : Number) (num den : Nat) : Nat → Nat → Option Decimal
  | 0, _ => none
  | fuel + 1, k => (decimalAt x num den k).or (shortestFrom x num den fuel (k + 1))

/-- Enough digits for every finite number to be written exactly. -/
def maximumDigits : Nat := 1100

/-- The decimal that `Number::toString` writes for a positive finite number. -/
def shortest (m : Nat) (e : Int) (h : Canonical m e) : Decimal :=
  (shortestFrom (.finite false m e h) (fraction m e).1 (fraction m e).2 maximumDigits 1).getD
    ⟨0, 1, 1⟩

theorem decimalAt_reads {x : Number} {num den k : Nat} {d : Decimal}
    (h : decimalAt x num den k = some d) : d.Reads x := by
  unfold decimalAt at h
  dsimp only at h
  split_ifs at h <;> simp_all only [Option.some.injEq]

theorem shortestFrom_reads {x : Number} {num den : Nat} : ∀ {fuel k : Nat} {d : Decimal},
    shortestFrom x num den fuel k = some d → d.Reads x
  | 0, _, _, h => absurd h (by simp [shortestFrom])
  | fuel + 1, k, d, h => by
      rcases Option.or_eq_some_iff.mp h with h | ⟨-, h⟩
      · exact decimalAt_reads h
      · exact shortestFrom_reads h

/-- The search finds a decimal when some length within its fuel has one. -/
theorem shortestFrom_isSome {x : Number} {num den K : Nat}
    (hK : (decimalAt x num den K).isSome) : ∀ {n k : Nat}, k ≤ K → K < k + n →
      (shortestFrom x num den n k).isSome
  | 0, k, h₁, h₂ => absurd h₂ (by omega)
  | fuel + 1, k, h₁, h₂ => by
      rw [shortestFrom, Option.isSome_or]
      by_cases hk : k = K
      · subst hk; simp [hK]
      · simp [shortestFrom_isSome hK (n := fuel) (k := k + 1) (by omega) (by omega)]

theorem decimalPoint_spec {num den : Nat} (hn : 0 < num) (hd : 0 < den) :
    (10 : ℚ) ^ (decimalPoint num den - 1) ≤ (num : ℚ) / den ∧
      (num : ℚ) / den < 10 ^ decimalPoint num den := by
  have hn' : (0 : ℚ) < num := by exact_mod_cast hn
  have hd' : (0 : ℚ) < den := by exact_mod_cast hd
  unfold decimalPoint
  split
  · next h =>
    have hq : num / den ≠ 0 := (Nat.div_pos h hd).ne'
    constructor
    · rw [add_sub_cancel_right, zpow_natCast, le_div_iff₀ hd']
      have := Nat.pow_log_le_self 10 hq
      have h₁ : 10 ^ Nat.log 10 (num / den) * den ≤ num :=
        (Nat.mul_le_mul_right den this).trans (Nat.div_mul_le_self num den)
      exact_mod_cast h₁
    · have := Nat.lt_pow_succ_log_self (b := 10) (by norm_num) (num / den)
      have h₁ : num < 10 ^ (Nat.log 10 (num / den) + 1) * den := (Nat.div_lt_iff_lt_mul hd).mp this
      rw [show (Nat.log 10 (num / den) : Int) + 1 = ((Nat.log 10 (num / den) + 1 : Nat) : Int) by
        push_cast; ring, zpow_natCast, div_lt_iff₀ hd']
      exact_mod_cast h₁
  · next h =>
    have hlt : num < den := by omega
    have hq : (den - 1) / num ≠ 0 := (Nat.div_pos (by omega) hn).ne'
    constructor
    · have := Nat.lt_pow_succ_log_self (b := 10) (by norm_num) ((den - 1) / num)
      have h₁ : den - 1 < 10 ^ (Nat.log 10 ((den - 1) / num) + 1) * num :=
        (Nat.div_lt_iff_lt_mul hn).mp this
      have h₂ : den ≤ 10 ^ (Nat.log 10 ((den - 1) / num) + 1) * num := by omega
      rw [show -(Nat.log 10 ((den - 1) / num) : Int) - 1
          = -((Nat.log 10 ((den - 1) / num) + 1 : Nat) : Int) by push_cast; ring,
        zpow_neg, zpow_natCast, le_div_iff₀ hd', inv_mul_le_iff₀ (by positivity)]
      exact_mod_cast h₂
    · have := Nat.pow_log_le_self 10 hq
      have h₁ : 10 ^ Nat.log 10 ((den - 1) / num) * num ≤ den - 1 :=
        (Nat.mul_le_mul_right num this).trans (Nat.div_mul_le_self _ num)
      have h₂ : num * 10 ^ Nat.log 10 ((den - 1) / num) < den := by
        rw [Nat.mul_comm]; omega
      rw [zpow_neg, zpow_natCast, div_lt_iff₀ hd', ← div_eq_inv_mul, lt_div_iff₀ (by positivity)]
      exact_mod_cast h₂

/-- With enough digits the decimal is exact, and so it is read back. -/
theorem decimalAt_isSome {num den k : Nat} (hn : 0 < num) (hd : 0 < den) (hk : 1 ≤ k) {j : Nat}
    (hj : (k : Int) = decimalPoint num den + j) (hdvd : den ∣ num * 10 ^ j) :
    (decimalAt (roundFraction false num den) num den k).isSome := by
  obtain ⟨s, hs⟩ := hdvd
  obtain ⟨hlow, hhigh⟩ := decimalPoint_spec hn hd
  set n := decimalPoint num den with hndef
  have hshift : shift num den (k - n) = (num * 10 ^ j, den) := by
    rw [show (k : Int) - n = j by omega]
    simp [shift]
  have hd' : (0 : ℚ) < den := by exact_mod_cast hd
  have hdiv : num * 10 ^ j / den = s := by rw [hs]; exact Nat.mul_div_cancel_left s hd
  have hval : (s : ℚ) = (num : ℚ) / den * 10 ^ j := by
    rw [div_mul_eq_mul_div, eq_div_iff hd'.ne']
    exact_mod_cast (by rw [hs, Nat.mul_comm] : s * den = num * 10 ^ j)
  have hs₁ : 10 ^ (k - 1) ≤ s := by
    have : (10 : ℚ) ^ (k - 1) ≤ s := by
      calc (10 : ℚ) ^ (k - 1) = 10 ^ (n - 1) * 10 ^ j := by
            rw [← zpow_natCast, ← zpow_natCast, ← zpow_add₀ (by norm_num)]; congr 1; omega
        _ ≤ (num : ℚ) / den * 10 ^ j := by gcongr
        _ = s := hval.symm
    exact_mod_cast this
  have hs₂ : s < 10 ^ k := by
    have : (s : ℚ) < 10 ^ k := by
      calc (s : ℚ) = (num : ℚ) / den * 10 ^ j := hval
        _ < 10 ^ n * 10 ^ j := by gcongr
        _ = 10 ^ k := by
            rw [← zpow_natCast, ← zpow_natCast, ← zpow_add₀ (by norm_num)]; congr 1; omega
    exact_mod_cast this
  have hspos : 0 < s := lt_of_lt_of_le (by positivity) hs₁
  have hread : (⟨s, k, n⟩ : Decimal).Reads (roundFraction false num den) := by
    refine ⟨hk, hs₁, hs₂, ?_⟩
    simp only [ofDecimal, if_neg hspos.ne', show n - (k : Int) = -(j : Int) by omega]
    split
    · next h0 =>
      have : j = 0 := by omega
      subst this
      simp only [Nat.cast_zero, neg_zero, Int.toNat_zero, pow_zero, Nat.mul_one] at hs ⊢
      exact roundFraction_congr (by omega) (by omega) hn hd (by rw [hs, Nat.mul_comm]; ring)
    · simp only [neg_neg, Int.toNat_natCast]
      exact roundFraction_congr hspos (by positivity) hn hd (by rw [hs, Nat.mul_comm])
  simp only [decimalAt, ← hndef, hshift, hdiv]
  rw [if_pos hread]
  split_ifs <;> rfl

/-- A length at which a number has an exact decimal. -/
theorem exists_decimalAt {m : Nat} {e : Int} (hm : 0 < m) (h : Canonical m e) :
    ∃ K, 1 ≤ K ∧ K < 1 + maximumDigits ∧
      (decimalAt (.finite false m e h) (fraction m e).1 (fraction m e).2 K).isSome := by
  have hn := fraction_num_pos hm e
  have hd := fraction_den_pos m e
  obtain ⟨hlow, hhigh⟩ := decimalPoint_spec hn hd
  rw [← roundFraction_fraction false hm h]
  obtain ⟨hlt, he₁, he₂, -⟩ := h
  have hval := fraction_eq m e
  have hm' : (m : ℚ) < 2 ^ 53 := by exact_mod_cast hlt
  set n := decimalPoint (fraction m e).1 (fraction m e).2 with hndef
  -- digits enough to clear the denominator, and at least one
  let J := (-e).toNat + (1 - (n + (-e).toNat)).toNat
  have hdvd : ∀ i, (fraction m e).2 ∣ (fraction m e).1 * 10 ^ ((-e).toNat + i) := by
    intro i
    unfold fraction
    split
    · simp
    · rw [pow_add, show (10 : Nat) ^ (-e).toNat = 2 ^ (-e).toNat * 5 ^ (-e).toNat by
        rw [← Nat.mul_pow]]
      exact ⟨m * 5 ^ (-e).toNat * 10 ^ i, by ring⟩
  have hnup : n ≤ 342 ∧ (e < 0 → n ≤ 16) := by
    have key : ∀ b : Nat, (m : ℚ) * 2 ^ e < 10 ^ b → n ≤ b := by
      intro b hb
      have h₁ : (10 : ℚ) ^ (n - 1) < 10 ^ (b : Int) := by
        rw [zpow_natCast]; exact (hlow.trans_eq hval).trans_lt hb
      have := (zpow_lt_zpow_iff_right₀ (by norm_num : (1 : ℚ) < 10)).mp h₁
      omega
    constructor
    · refine key 342 ?_
      calc (m : ℚ) * 2 ^ e < 2 ^ 53 * 2 ^ (971 : Int) :=
            mul_lt_mul hm' (zpow_le_zpow_right₀ (by norm_num) he₂) (by positivity) (by positivity)
        _ ≤ 2 ^ (3 * 342) := by
            rw [← zpow_natCast, ← zpow_natCast, ← zpow_add₀ (by norm_num)]
            exact zpow_le_zpow_right₀ (by norm_num) (by norm_num)
        _ = 8 ^ 342 := by rw [pow_mul, show (2 : ℚ) ^ 3 = 8 by norm_num]
        _ < 10 ^ 342 := by gcongr; norm_num
    · intro hneg
      refine key 16 ?_
      calc (m : ℚ) * 2 ^ e ≤ m * 1 := by
            gcongr; exact zpow_le_one_of_nonpos₀ (by norm_num) hneg.le
        _ < 10 ^ 16 := by rw [mul_one]; exact hm'.trans (by norm_num)
  have hJ : 1 ≤ n + (J : Int) := by simp only [J]; omega
  have hJ' : n + (J : Int) ≤ 1100 := by
    have := hnup.1; have := hnup.2
    simp only [J]; omega
  refine ⟨(n + J).toNat, by omega, by rw [maximumDigits]; omega, ?_⟩
  exact decimalAt_isSome hn hd (by omega) (j := J) (by omega) (hdvd _)

/-- **The decimal written for a number is read back as that number.** -/
theorem shortest_reads {m : Nat} {e : Int} (hm : 0 < m) (h : Canonical m e) :
    (shortest m e h).Reads (.finite false m e h) := by
  obtain ⟨K, h₁, h₂, hK⟩ := exists_decimalAt hm h
  have hs := shortestFrom_isSome hK (n := maximumDigits) (k := 1) h₁ h₂
  obtain ⟨d, hd⟩ := Option.isSome_iff_exists.mp hs
  rw [shortest, hd]
  exact shortestFrom_reads hd

end Ecma
