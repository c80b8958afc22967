import Mathlib.Algebra.Order.Field.Power
import Mathlib.Tactic.FieldSimp
import Mathlib.Tactic.Positivity
import TypedReads.Number.Numeral
import TypedReads.Proofs.Number.Double

/-!
# Decimals and the doubles nearest to them

`Decimal.value` is the number that a decimal spells. Reading a decimal rounds that number once
(`Double.ofDecimal_eq_ofRatio`): the decimals that `Double.ofDecimal` recognises by their exponent
alone are those that round to infinity or to zero anyway. So two decimals of one value are read as
one double (`Double.ofDecimal_congr`), however their digits and exponents divide it.
-/

namespace TypedReads

namespace Decimal

/-- The number that a decimal spells. -/
def value (d : Decimal) : ℚ := d.digits * 10 ^ d.exponent

/-- The quotient of a decimal has a divisor. -/
theorem toRatio_pos (d : Decimal) : 0 < d.toRatio.2 := by
  unfold toRatio
  split_ifs
  · exact Nat.one_pos
  · exact Nat.pow_pos (by norm_num)

/-- The quotient of a decimal is the number it spells. -/
theorem toRatio_value (d : Decimal) : (d.toRatio.1 : ℚ) / d.toRatio.2 = d.value := by
  obtain ⟨digits, exponent⟩ := d
  unfold toRatio value
  dsimp only
  split_ifs with h
  · obtain ⟨k, rfl⟩ := Int.eq_ofNat_of_zero_le h
    simp
  · obtain ⟨k, hk⟩ : ∃ k : ℕ, exponent = -(k : ℤ) := ⟨(-exponent).toNat, by omega⟩
    subst hk
    simp [div_eq_mul_inv]

/-- Dropping zeros at the end of the digits does not change the number. -/
theorem value_reduced (d : Decimal) : d.reduced.value = d.value := by
  fun_induction reduced d with
  | case1 d h ih =>
    rw [ih]
    obtain ⟨q, hq⟩ := Nat.dvd_of_mod_eq_zero h.2
    unfold value
    dsimp only
    rw [hq, Nat.mul_div_cancel_left q (by norm_num), zpow_add₀ (by norm_num)]
    push_cast
    ring
  | case2 d h => rfl

/-- Reduced digits do not end in a zero. -/
theorem reduced_digits_mod (d : Decimal) (h : 0 < d.reduced.digits) :
    d.reduced.digits % 10 ≠ 0 := by
  fun_induction reduced d with
  | case1 d hd ih => exact ih h
  | case2 d hd => exact fun hmod => hd ⟨h, hmod⟩

end Decimal

namespace Double

/-- From `10 ^ 309` on there is no finite double. -/
theorem ranks_le_rank_large :
    BinaryFormat.double.ranks ≤ BinaryFormat.double.rank (10 ^ 309) 1 := by
  decide +kernel

/-- A decimal with so great an exponent is past every finite double. -/
theorem ranks_le_rank {n k : ℕ} (hn : 0 < n) (hk : 309 ≤ k) :
    BinaryFormat.double.ranks ≤ BinaryFormat.double.rank (n * 10 ^ k) 1 := by
  have hle : 10 ^ 309 ≤ n * 10 ^ k := by
    calc 10 ^ 309 ≤ 10 ^ k := pow_le_pow_right₀ (by norm_num) hk
      _ ≤ n * 10 ^ k := Nat.le_mul_of_pos_left _ hn
  exact ranks_le_rank_large.trans (rank_le hle)

/-- Half of the least positive double goes down to zero. -/
theorem rank_half_least : BinaryFormat.double.rank 1 (2 ^ 1075) = 0 := by
  decide +kernel

/-- Digits so few that their decimal stays below half of the least positive double. -/
theorem mul_two_pow_le_ten_pow {digits k : ℕ} (h : digits.log2 + 1 + 1075 ≤ 3 * k) :
    digits * 2 ^ 1075 ≤ 10 ^ k := by
  calc digits * 2 ^ 1075 ≤ 2 ^ (digits.log2 + 1) * 2 ^ 1075 :=
        Nat.mul_le_mul_right _ Nat.lt_log2_self.le
    _ = 2 ^ (digits.log2 + 1 + 1075) := (pow_add 2 _ _).symm
    _ ≤ 2 ^ (3 * k) := Nat.pow_le_pow_right (by norm_num) h
    _ = 8 ^ k := by rw [pow_mul]; norm_num
    _ ≤ 10 ^ k := Nat.pow_le_pow_left (by norm_num) k

/-- A decimal is read by rounding the number it spells. -/
theorem ofDecimal_eq_ofRatio (negative : Bool) (d : Decimal) :
    ofDecimal negative d = ofRatio negative d.toRatio.1 d.toRatio.2 := by
  obtain ⟨digits, exponent⟩ := d
  have hp := BinaryFormat.double_precision_pos
  unfold ofDecimal
  dsimp only
  -- The three cases that do not round give what rounding would.
  split_ifs with hzero hlarge hsmall
  · subst hzero
    have hnum : (Decimal.mk 0 exponent).toRatio.1 = 0 := by
      unfold Decimal.toRatio
      split_ifs <;> simp
    unfold ofRatio
    rw [hnum, BinaryFormat.double.rank_zero hp (Decimal.toRatio_pos _)]
  · obtain ⟨k, rfl⟩ := Int.eq_ofNat_of_zero_le (show 0 ≤ exponent by omega)
    have hover := ranks_le_rank (Nat.pos_of_ne_zero hzero) (show 309 ≤ k by omega)
    unfold ofRatio ofRank Decimal.toRatio
    simp [hover]
  · obtain ⟨k, hk⟩ : ∃ k : ℕ, exponent = -(k : ℤ) := ⟨(-exponent).toNat, by omega⟩
    subst hk
    have hle : digits * 2 ^ 1075 ≤ 10 ^ k := mul_two_pow_le_ten_pow (by omega)
    have hrank : BinaryFormat.double.rank digits (10 ^ k) ≤ BinaryFormat.double.rank 1 (2 ^ 1075) :=
      BinaryFormat.double.rank_mono hp (Nat.pow_pos (by norm_num)) (pow_pos two_pos _)
        (by rw [one_mul]; exact hle)
    rw [rank_half_least, Nat.le_zero] at hrank
    unfold ofRatio Decimal.toRatio
    rw [if_neg (by dsimp only; omega)]
    simp [hrank]
  · rfl

/-- Decimals of one value are read as one double. -/
theorem ofDecimal_congr (negative : Bool) {d d' : Decimal} (h : d.value = d'.value) :
    ofDecimal negative d = ofDecimal negative d' := by
  have hpos : (d.toRatio.2 : ℚ) ≠ 0 := by exact_mod_cast d.toRatio_pos.ne'
  have hpos' : (d'.toRatio.2 : ℚ) ≠ 0 := by exact_mod_cast d'.toRatio_pos.ne'
  rw [← d.toRatio_value, ← d'.toRatio_value, div_eq_div_iff hpos hpos'] at h
  rw [ofDecimal_eq_ofRatio, ofDecimal_eq_ofRatio]
  exact ofRatio_congr negative d.toRatio_pos d'.toRatio_pos (by exact_mod_cast h)

/-- A decimal that spells a natural number is read as the double nearest to it. -/
theorem ofDecimal_whole (negative : Bool) {d : Decimal} {n : ℕ} (h : d.value = n) :
    ofDecimal negative d = ofRatio negative n 1 := by
  have hwhole : d.value = (Decimal.mk n 0).value := by
    rw [h]
    simp [Decimal.value]
  rw [ofDecimal_congr negative hwhole, ofDecimal_eq_ofRatio]
  simp [Decimal.toRatio]

end Double

namespace Numeral

/-- An integer literal is read as the double nearest to the integer, with the sign as written. -/
theorem toDouble_of_toInt? {n : Numeral} {i : ℤ} (h : n.toInt? = some i) :
    n.toDouble = Double.ofRatio n.negative i.natAbs 1 ∧
      i = if n.negative then -(i.natAbs : ℤ) else i.natAbs := by
  unfold toInt? at h
  by_cases hnone : n.fraction.isNone ∧ n.exponent.isNone
  · rw [if_pos hnone, Option.some.injEq] at h
    have habs : i.natAbs = ofDigits n.whole := by
      rw [← h]
      cases n.negative <;> simp
    refine ⟨?_, by rw [habs, h]⟩
    rw [habs]
    refine Double.ofDecimal_whole n.negative ?_
    rw [Option.isNone_iff_eq_none, Option.isNone_iff_eq_none] at hnone
    simp [toDecimal, Decimal.value, hnone]
  · rw [if_neg hnone] at h
    cases h

/-- An integer literal that a double does not round is read as the integer. -/
theorem toInt?_toDouble {n : Numeral} {i : ℤ} (hi : n.toInt? = some i) (h : i.natAbs ≤ 2 ^ 53) :
    n.toDouble.toInt? = some i := by
  obtain ⟨hdouble, hsign⟩ := n.toDouble_of_toInt? hi
  obtain ⟨rank, heq, hmag⟩ := Double.exists_ofRatio_whole n.negative h
  rw [hdouble, heq, Double.toInt?_finite hmag, ← hsign]

/-- An integer literal other than zero is read as the double nearest to the integer. -/
theorem toDouble_eq_ofInt {n : Numeral} {i : ℤ} (hi : n.toInt? = some i) (hzero : i ≠ 0) :
    n.toDouble = Double.ofInt i := by
  obtain ⟨hdouble, hsign⟩ := n.toDouble_of_toInt? hi
  have hnegative : n.negative = decide (i < 0) := by
    cases hn : n.negative <;> rw [hn] at hsign
    · rw [if_neg Bool.false_ne_true] at hsign
      exact (decide_eq_false (by omega)).symm
    · rw [if_pos rfl] at hsign
      exact (decide_eq_true (by omega)).symm
  rw [hdouble, hnegative]
  rfl

end Numeral

end TypedReads
