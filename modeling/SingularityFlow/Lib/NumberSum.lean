/-
# Sums of binary64 numbers and integers

`plus x n` is the number closest to the exact sum of a finite number and an integer.
Near the largest numbers the sum is rounded back to what it was, so that adding one
never leaves the finite numbers (`isFinite_plus`).
-/
import SingularityFlow.Lib.Number

namespace Ecma

/-- `x + n`, of a finite number: the exact sum, rounded. -/
def plus (x : Number) (n : Int) : Number :=
  let sum := x.units + n * 2 ^ 1074
  roundFraction (sum < 0) sum.natAbs (2 ^ 1074)

/-! ## Rounding to an integer -/

theorem roundHalfEven_le {num den M : Nat} (h : 2 * num < (2 * M + 1) * den) :
    roundHalfEven num den ≤ M := by
  have hpos : 0 < den := Nat.pos_of_ne_zero fun hzero => by simp [hzero] at h
  have hdiv := Nat.div_add_mod num den
  have hle : num / den ≤ M := by
    refine Nat.lt_succ_iff.mp ((Nat.div_lt_iff_lt_mul hpos).mpr ?_)
    nlinarith
  unfold roundHalfEven
  dsimp only
  rcases hle.lt_or_eq with hlt | heq
  · split_ifs <;> omega
  · -- less than half is left over
    have hrem : 2 * (num % den) < den := by
      rw [heq] at hdiv
      nlinarith
    rw [if_pos hrem]
    exact heq.le

theorem le_roundHalfEven {num den M : Nat} (hpos : 0 < den) (h : M * den ≤ num) :
    M ≤ roundHalfEven num den := by
  have hle : M ≤ num / den := (Nat.le_div_iff_mul_le hpos).mpr h
  unfold roundHalfEven
  dsimp only
  split_ifs <;> omega

/-! ## Rounding a fraction that is not too large -/

theorem scale_den_pos {num den : Nat} (hd : 0 < den) (k : Int) : 0 < (scale num den k).2 := by
  unfold scale
  split <;> positivity

theorem scale_eq (num : Nat) {den : Nat} (hd : 0 < den) (k : Int) :
    ((scale num den k).1 : ℚ) / (scale num den k).2 = (num : ℚ) / den / 2 ^ k := by
  have hd' : (den : ℚ) ≠ 0 := by exact_mod_cast hd.ne'
  unfold scale
  split
  · next hk =>
    obtain ⟨n, rfl⟩ := Int.eq_ofNat_of_zero_le hk
    push_cast
    rw [Int.toNat_natCast, zpow_natCast, div_div]
  · next hk =>
    obtain ⟨n, hn⟩ := Int.eq_ofNat_of_zero_le (a := -k) (by omega)
    obtain rfl : k = -(n : Int) := by omega
    push_cast
    rw [neg_neg, Int.toNat_natCast, zpow_neg, zpow_natCast, div_inv_eq_mul, mul_div_right_comm]

/-- The largest number and one more is below the first power that is too large. -/
theorem largest_succ_lt : ((2 : ℚ) ^ 53 - 1) * 2 ^ 971 + 1 < 2 ^ (1024 : ℤ) := by
  have hone : (1 : ℚ) < 2 ^ 971 := one_lt_pow₀ (by norm_num) (by norm_num)
  rw [show (1024 : ℤ) = ((53 + 971 : ℕ) : ℤ) from rfl, zpow_natCast, pow_add]
  generalize (2 : ℚ) ^ 971 = top at *
  linarith

/-- It is less than half a unit above the largest number. -/
theorem largest_succ_lt_half :
    ((2 : ℚ) ^ 53 - 1) * 2 ^ 971 + 1 < ((2 ^ 53 - 1 : ℕ) + 1 / 2) * 2 ^ (971 : ℤ) := by
  have htwo : (2 : ℚ) ^ 1 < 2 ^ 971 := pow_lt_pow_right₀ (by norm_num) (by norm_num)
  have hcast : ((2 ^ 53 - 1 : ℕ) : ℚ) = 2 ^ 53 - 1 := by norm_num
  rw [hcast, show (971 : ℤ) = ((971 : ℕ) : ℤ) from rfl, zpow_natCast]
  generalize (2 : ℚ) ^ 971 = top at *
  linarith

/-- Up to the largest number and one more, rounding gives a finite number. -/
theorem isFinite_roundFraction {negative : Bool} {num den : Nat} (hn : 0 < num) (hd : 0 < den)
    (h : (num : ℚ) / den ≤ (2 ^ 53 - 1) * 2 ^ 971 + 1) :
    (roundFraction negative num den).isFinite = true := by
  obtain ⟨hlow, hhigh⟩ := leadingBit_spec hn hd
  have two : (2 : ℚ) ≠ 0 := by norm_num
  have one_lt : (1 : ℚ) < 2 := by norm_num
  have hbit : leadingBit num den < 1024 := by
    exact (zpow_lt_zpow_iff_right₀ one_lt).mp (hlow.trans_lt (h.trans_lt largest_succ_lt))
  let k : Int := max (-1074) (leadingBit num den - 52)
  have hk : k ≤ 971 := by omega
  have hp : (0 : ℚ) < 2 ^ k := by positivity
  have hs : 0 < (scale num den k).2 := scale_den_pos hd k
  have hs' : (0 : ℚ) < (scale num den k).2 := by exact_mod_cast hs
  have hscale := scale_eq num hd k
  let m := roundHalfEven (scale num den k).1 (scale num den k).2
  -- a bound on the fraction is one on what it is rounded to
  have hle : ∀ M : Nat, (num : ℚ) / den / 2 ^ k < M + 1 / 2 → m ≤ M := by
    intro M hM
    rw [← hscale, div_lt_iff₀ hs'] at hM
    refine roundHalfEven_le ?_
    have : (2 * (scale num den k).1 : ℚ) < (2 * M + 1) * (scale num den k).2 := by linarith
    exact_mod_cast this
  have hge : -1074 < k → 2 ^ 52 ≤ m := by
    intro hlt
    have hk' : k = leadingBit num den - 52 := by omega
    refine le_roundHalfEven hs ?_
    have : (2 : ℚ) ^ 52 * (scale num den k).2 ≤ (scale num den k).1 := by
      rw [← le_div_iff₀ hs', hscale, le_div_iff₀ hp, ← zpow_natCast, ← zpow_add₀ two, hk',
        show ((52 : ℕ) : ℤ) + (leadingBit num den - 52) = leadingBit num den by push_cast; omega]
      exact hlow
    exact_mod_cast this
  have hm : m ≤ 2 ^ 53 := by
    refine hle _ ?_
    have : (num : ℚ) / den / 2 ^ k < 2 ^ 53 := by
      rw [div_lt_iff₀ hp, ← zpow_natCast, ← zpow_add₀ two]
      refine hhigh.trans_le (zpow_le_zpow_right₀ one_lt.le ?_)
      push_cast
      omega
    push_cast
    linarith
  have htop : k = 971 → m ≤ 2 ^ 53 - 1 := by
    intro heq
    refine hle _ ?_
    rw [heq, div_lt_iff₀ (by positivity)]
    exact h.trans_lt largest_succ_lt_half
  have hcanonical : Canonical m k ∨ Canonical (m / 2) (k + 1) := by
    by_cases hcarry : m = 2 ^ 53
    · refine .inr ⟨?_, ?_, ?_, ?_⟩
      all_goals omega
    · refine .inl ⟨?_, ?_, ?_, ?_⟩
      all_goals omega
  unfold roundFraction
  dsimp only
  by_cases hfirst : Canonical m k
  · rw [dif_pos hfirst]
    rfl
  · rw [dif_neg hfirst, dif_pos (hcanonical.resolve_left hfirst)]
    rfl

/-! ## Adding one -/

theorem natAbs_units (negative : Bool) (m : Nat) (e : Int) (h : Canonical m e) :
    (Number.finite negative m e h).units.natAbs = m * 2 ^ (e + 1074).toNat := by
  rw [Number.units, Int.natAbs_mul, Int.natAbs_natCast]
  cases negative with
  | true => exact one_mul _
  | false => exact one_mul _

theorem natAbs_units_le {x : Number} (hx : x.isFinite = true) :
    (x.units.natAbs : ℚ) ≤ (2 ^ 53 - 1) * 2 ^ 971 * 2 ^ 1074 := by
  cases x with
  | nan => cases hx
  | infinity negative => cases hx
  | finite negative m e h =>
      have hexponent : (2 : ℚ) ^ (e + 1074).toNat ≤ 2 ^ (971 + 1074) := by
        obtain ⟨-, -, hhigh, -⟩ := h
        exact pow_le_pow_right₀ (by norm_num) (by omega)
      have hm : (m : ℚ) ≤ 2 ^ 53 - 1 := by
        have : m + 1 ≤ 2 ^ 53 := h.1
        have : (m : ℚ) + 1 ≤ 2 ^ 53 := by exact_mod_cast this
        linarith
      rw [natAbs_units, Nat.cast_mul, Nat.cast_pow, Nat.cast_ofNat, mul_assoc, ← pow_add]
      exact mul_le_mul hm hexponent (by positivity) (by norm_num)

/-- One more, or one less, than a finite number is finite. -/
theorem isFinite_plus {x : Number} (hx : x.isFinite = true) {n : Int} (hn : n.natAbs = 1) :
    (plus x n).isFinite = true := by
  unfold plus
  dsimp only
  by_cases hzero : x.units + n * 2 ^ 1074 = 0
  · rw [hzero]
    decide +kernel
  · refine isFinite_roundFraction (Int.natAbs_pos.mpr hzero) (by positivity) ?_
    have hle : (x.units + n * 2 ^ 1074).natAbs ≤ x.units.natAbs + 2 ^ 1074 := by
      refine (Int.natAbs_add_le _ _).trans (Nat.add_le_add_left ?_ _)
      rw [Int.natAbs_mul, hn, one_mul, Int.natAbs_pow]
      exact Nat.pow_le_pow_left (by decide) 1074
    have hsum : ((x.units + n * 2 ^ 1074).natAbs : ℚ)
        ≤ (2 ^ 53 - 1) * 2 ^ 971 * 2 ^ 1074 + 2 ^ 1074 := by
      have hunits := natAbs_units_le hx
      have : ((x.units + n * 2 ^ 1074).natAbs : ℚ) ≤ x.units.natAbs + 2 ^ 1074 := by
        exact_mod_cast hle
      linarith
    rw [div_le_iff₀ (by positivity)]
    refine hsum.trans (le_of_eq ?_)
    push_cast
    ring

end Ecma
