/-
# Sizes as text

A natural number below `2 ^ 53` is a number exactly, and its decimal digits
are read back as it.
-/
import SingularityFlow.Lib.Coercion

namespace Ecma

/-- A natural number below `2 ^ 53` is shifted to a full significand. -/
theorem canonical_shift {n : Nat} (hpos : 0 < n) (h : n < 2 ^ 53) :
    Canonical (n * 2 ^ (52 - Nat.log 2 n)) (-((52 - Nat.log 2 n : Nat) : Int)) := by
  have hlow : 2 ^ Nat.log 2 n ≤ n := Nat.pow_log_le_self 2 (by omega)
  have hhigh : n < 2 ^ (Nat.log 2 n + 1) := Nat.lt_pow_succ_log_self (by decide) n
  have hlog : Nat.log 2 n ≤ 52 := by
    have := Nat.log_lt_of_lt_pow (by omega) h
    omega
  refine ⟨?_, by omega, by omega, .inl ?_⟩
  · calc n * 2 ^ (52 - Nat.log 2 n)
        < 2 ^ (Nat.log 2 n + 1) * 2 ^ (52 - Nat.log 2 n) :=
          Nat.mul_lt_mul_of_pos_right hhigh (by positivity)
      _ = 2 ^ 53 := by rw [← pow_add]; congr 1; omega
  · calc 2 ^ 52 = 2 ^ Nat.log 2 n * 2 ^ (52 - Nat.log 2 n) := by rw [← pow_add]; congr 1; omega
      _ ≤ n * 2 ^ (52 - Nat.log 2 n) := Nat.mul_le_mul_right _ hlow

theorem ofNat_eq {n : Nat} (hpos : 0 < n) (h : n < 2 ^ 53) :
    Number.ofNat n = .finite false _ _ (canonical_shift hpos h) := by
  rw [Number.ofNat, ofDecimal, if_neg (by omega), if_pos le_rfl,
    ← roundFraction_fraction false (by positivity) (canonical_shift hpos h)]
  refine roundFraction_congr (by simpa using hpos) one_pos (fraction_num_pos (by positivity) _)
    (fraction_den_pos _ _) ?_
  unfold fraction
  split
  · next hle =>
      have hzero : 52 - Nat.log 2 n = 0 := by omega
      simp [hzero]
  · simp

/-- A natural number below `2 ^ 53` is safe. -/
theorem safeSize?_ofNat {n : Nat} (h : n < 2 ^ 53) : (Number.ofNat n).safeSize? = some n := by
  have hint : (Number.ofNat n).integer? = some (n : Int) := by
    rcases Nat.eq_zero_or_pos n with rfl | hpos
    · have hzero : Number.ofNat 0 = .finite false 0 (-1074) canonical_zero := rfl
      rw [hzero, Number.integer?, if_neg (by decide), Nat.zero_mod, if_pos rfl, Nat.zero_div]
      rfl
    · rw [ofNat_eq hpos h, Number.integer?]
      split
      · next hle =>
          have hzero : 52 - Nat.log 2 n = 0 := by omega
          simp [hzero]
      · simp
  rw [Number.safeSize?, hint]
  exact if_pos h

theorem isDigit_natText (n : Nat) : ∀ u ∈ natText n, isDigit u = true := lastDigits_isDigit _ _

theorem trim_digits {ds : Text} (hds : ∀ u ∈ ds, isDigit u = true) : trim ds = ds := by
  refine trim_of_forall fun u hu => isTrimmed_of_printable ?_ ?_ <;>
    · have := hds u hu
      simp only [isDigit, Bool.and_eq_true, decide_eq_true_eq] at this
      omega

theorem unsignedDecimal_digits {ds : Text} (hds : ∀ u ∈ ds, isDigit u = true) (hne : ds ≠ []) :
    unsignedDecimal false ds = some (ofDecimal false (digitsValue ds) 0) := by
  have hinfinity : ds ≠ js "Infinity" := by
    rintro rfl
    exact absurd (hds 0x49 (by decide)) (by decide)
  have hend : DigitsEnd [] := by simp [DigitsEnd]
  have htake : ds.takeWhile isDigit = ds := by simpa using takeWhile_digits hds hend
  have hdrop : ds.dropWhile isDigit = [] := by simpa using dropWhile_digits hds hend
  rw [unsignedDecimal, if_neg hinfinity]
  simp only [htake, hdrop, if_neg hne]
  rfl

theorem stringToNumber_digits {ds : Text} (hds : ∀ u ∈ ds, isDigit u = true) (hne : ds ≠ []) :
    stringToNumber ds = ofDecimal false (digitsValue ds) 0 := by
  have hdecimal := unsignedDecimal_digits hds hne
  have hdigit : ∀ {u : UInt16}, isDigit u = false → u ∉ ds := fun hu hmem =>
    absurd (hds _ hmem) (by rw [hu]; exact Bool.false_ne_true)
  rw [stringToNumber, trim_digits hds]
  split
  · exact absurd rfl hne
  · exact absurd (List.mem_cons_self ..) (hdigit (by decide))
  · exact absurd (List.mem_cons_self ..) (hdigit (by decide))
  · next _ u t =>
      -- a zero, and then a digit: no letter of a radix
      have hu : u ∈ 0x30 :: u :: t := List.mem_cons_of_mem _ (List.mem_cons_self ..)
      have hletter : ∀ v : UInt16, isDigit v = false → u ≠ v := fun v hv huv =>
        hdigit hv (huv ▸ hu)
      rw [if_neg (by simp [hletter 0x78 (by decide), hletter 0x58 (by decide)]),
        if_neg (by simp [hletter 0x6F (by decide), hletter 0x4F (by decide)]),
        if_neg (by simp [hletter 0x62 (by decide), hletter 0x42 (by decide)]), hdecimal]
      rfl
  · rw [hdecimal]
    rfl

/-- **The digits of a natural number are read as it.** -/
theorem stringToNumber_natText (n : Nat) : stringToNumber (natText n) = Number.ofNat n := by
  rw [stringToNumber_digits (isDigit_natText n) (natText_ne_nil n), digitsValue_natText]
  rfl

end Ecma
