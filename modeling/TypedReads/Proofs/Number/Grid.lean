import TypedReads.Number.Significant
import TypedReads.Proofs.Number.Shortest
import TypedReads.Proofs.Text.Digits

/-!
# Decimals with few digits

`Decimal.digitCount` is the number of significant digits of a decimal, without the zeros at either
end, so it depends on the number alone (`digitCount_congr`). The decimals with `count` digits about
a positive quotient lie on a grid of steps `10 ^ (pointPlace num den - count)`, apart from those that
a point of the grid separates from the quotient (`exists_step`). So of all decimals with so few digits
`significant` is the nearest (`significant_nearest`), and if any of them is accepted by a reader that
accepts what is between it and the quotient, then so is one of the two that `nearestAccepted` tries
(`exists_nearestAccepted`).
-/

namespace TypedReads

namespace Decimal

/-- The number of significant digits. -/
def digitCount (d : Decimal) : ℕ := (decimalDigits d.reduced.digits).length

/-- A decimal has at least one digit. -/
theorem digitCount_pos (d : Decimal) : 0 < d.digitCount :=
  List.length_pos_iff.mpr (decimalDigits_ne_nil _)

/-- A decimal is not negative. -/
theorem value_nonneg (d : Decimal) : 0 ≤ d.value := by
  unfold value
  positivity

/-- A decimal is zero exactly if its digits are. -/
theorem digits_eq_zero_iff (d : Decimal) : d.digits = 0 ↔ d.value = 0 := by
  unfold value
  rw [mul_eq_zero_iff_right (by positivity), Nat.cast_eq_zero]

/-- Of two decimals of one value, the one with the greater exponent has fewer digits, with zeros
dropped at the end. -/
theorem digits_eq_mul {d d' : Decimal} (h : d.value = d'.value) {k : ℕ}
    (hk : d'.exponent = d.exponent + k) : d.digits = d'.digits * 10 ^ k := by
  unfold value at h
  rw [hk, zpow_add₀ (by norm_num), zpow_natCast, ← mul_assoc, mul_right_comm] at h
  exact_mod_cast mul_right_cancel₀ (by positivity) h

/-- Digits that do not end in a zero are the fewest that spell their number. -/
theorem digits_le_of_mod {d d' : Decimal} (h : d.value = d'.value) (hd : d.digits % 10 ≠ 0) :
    d.digits ≤ d'.digits := by
  rcases le_total d'.exponent d.exponent with hle | hle
  · obtain ⟨k, hk⟩ := Int.le.dest hle
    rw [digits_eq_mul h.symm hk.symm]
    exact Nat.le_mul_of_pos_right _ (Nat.pow_pos (by norm_num))
  · obtain ⟨k, hk⟩ := Int.le.dest hle
    have hmul := digits_eq_mul h hk.symm
    cases k with
    | zero => rw [hmul, pow_zero, mul_one]
    | succ k => exact absurd (by rw [hmul, pow_succ, ← mul_assoc, Nat.mul_mod_left]) hd

/-- A number has as many significant digits however a decimal spells it. -/
theorem digitCount_congr {d d' : Decimal} (h : d.value = d'.value) : d.digitCount = d'.digitCount := by
  have hvalue : d.reduced.value = d'.reduced.value := by rw [d.value_reduced, d'.value_reduced, h]
  unfold digitCount
  rcases Nat.eq_zero_or_pos d.reduced.digits with hzero | hpos
  · rw [hzero, (digits_eq_zero_iff _).mpr (hvalue ▸ (digits_eq_zero_iff _).mp hzero)]
  · have hpos' : 0 < d'.reduced.digits := by
      rw [Nat.pos_iff_ne_zero, ne_eq, digits_eq_zero_iff, ← hvalue, ← digits_eq_zero_iff]
      exact hpos.ne'
    rw [le_antisymm (digits_le_of_mod hvalue (d.reduced_digits_mod hpos))
      (digits_le_of_mod hvalue.symm (d'.reduced_digits_mod hpos'))]

/-- Dropping zeros drops no significant digit. -/
theorem digitCount_reduced (d : Decimal) : d.reduced.digitCount = d.digitCount :=
  digitCount_congr d.value_reduced

/-- A number has no more significant digits than any decimal that spells it. -/
theorem digitCount_le_of_lt {d : Decimal} {count : ℕ} (hpos : 0 < d.digits)
    (h : d.digits < 10 ^ count) : d.digitCount ≤ count := by
  have hreduced : 0 < d.reduced.digits := by
    rw [Nat.pos_iff_ne_zero, ne_eq, digits_eq_zero_iff, d.value_reduced, ← digits_eq_zero_iff]
    exact hpos.ne'
  have hle := digits_le_of_mod d.value_reduced (d.reduced_digits_mod hreduced)
  have hlow := (pow_length_decimalDigits_le hreduced).trans_lt (hle.trans_lt h)
  have hlt := (Nat.pow_lt_pow_iff_right (by norm_num)).mp hlow
  unfold digitCount
  omega

/-- The digits may also be those of the power of ten behind them, which has a single one. -/
theorem digitCount_le_of_le {d : Decimal} {count : ℕ} (hpos : 0 < d.digits) (hcount : 0 < count)
    (h : d.digits ≤ 10 ^ count) : d.digitCount ≤ count := by
  rcases h.lt_or_eq with hlt | heq
  · exact digitCount_le_of_lt hpos hlt
  · have hvalue : d.value = (Decimal.mk 1 (d.exponent + count)).value := by
      unfold value
      dsimp only
      rw [heq, zpow_add₀ (by norm_num), zpow_natCast]
      push_cast
      ring
    rw [digitCount_congr hvalue]
    have hone : (Decimal.mk 1 (d.exponent + count)).digitCount ≤ 1 :=
      digitCount_le_of_lt Nat.one_pos (by norm_num)
    exact hone.trans hcount

/-- A decimal is a whole number of steps no finer than its reduced digits, and less than `10 ^ count`
of them if it has no more than `count` digits. -/
theorem exists_reduced (d : Decimal) {count : ℕ} (h : d.digitCount ≤ count) :
    ∃ (n : ℕ) (e : ℤ), d.value = n * 10 ^ e ∧ n < 10 ^ count :=
  ⟨d.reduced.digits, d.reduced.exponent, d.value_reduced.symm,
    (lt_pow_length_decimalDigits _).trans_le (Nat.pow_le_pow_right (by norm_num) h)⟩

end Decimal

section Quotient

variable {num den : ℕ}

/-- Dividing a quotient into steps divides the number. -/
theorem inSteps_spec (num : ℕ) {den : ℕ} (hden : 0 < den) (e : ℤ) :
    0 < (inSteps num den e).2 ∧
      ((inSteps num den e).1 : ℚ) / (inSteps num den e).2 * 10 ^ e = num / den := by
  have hden' : (den : ℚ) ≠ 0 := by exact_mod_cast hden.ne'
  unfold inSteps
  split_ifs with he
  · obtain ⟨k, rfl⟩ := Int.eq_ofNat_of_zero_le he
    refine ⟨Nat.mul_pos hden (Nat.pow_pos (by norm_num)), ?_⟩
    simp only [Int.toNat_natCast, zpow_natCast]
    push_cast
    field_simp
  · obtain ⟨k, rfl⟩ : ∃ k : ℕ, e = -(k : ℤ) := ⟨(-e).toNat, by omega⟩
    refine ⟨hden, ?_⟩
    simp only [neg_neg, Int.toNat_natCast, zpow_neg, zpow_natCast]
    push_cast
    field_simp

/-- The decimal point of a quotient is behind its first power of ten. -/
theorem pointPlace_spec (hnum : 0 < num) (hden : 0 < den) :
    (10 : ℚ) ^ (pointPlace num den - 1) ≤ num / den ∧
      (num / den : ℚ) < 10 ^ pointPlace num den := by
  have hnum' : (0 : ℚ) < num := by exact_mod_cast hnum
  have hden' : (0 : ℚ) < den := by exact_mod_cast hden
  have hlength : ∀ n, ∃ k, (decimalDigits n).length = k + 1 := fun n =>
    Nat.exists_eq_succ_of_ne_zero (List.length_pos_iff.mpr (decimalDigits_ne_nil n)).ne'
  unfold pointPlace
  split_ifs with hle
  · -- The digits in front of the point are counted.
    have hlow := pow_length_decimalDigits_le (Nat.div_pos hle hden)
    have hhigh := lt_pow_length_decimalDigits (num / den)
    obtain ⟨k, hk⟩ := hlength (num / den)
    rw [hk, Nat.add_sub_cancel, Nat.le_div_iff_mul_le hden] at hlow
    rw [hk, Nat.div_lt_iff_lt_mul hden] at hhigh
    rw [hk, Nat.cast_succ, add_sub_cancel_right, zpow_natCast, ← Nat.cast_succ, zpow_natCast,
      le_div_iff₀ hden', div_lt_iff₀ hden']
    exact ⟨by exact_mod_cast hlow, by exact_mod_cast hhigh⟩
  · -- The zeros behind the point are.
    have hlow := pow_length_decimalDigits_le (Nat.div_pos (by omega) hnum : 0 < (den - 1) / num)
    have hhigh := lt_pow_length_decimalDigits ((den - 1) / num)
    obtain ⟨k, hk⟩ := hlength ((den - 1) / num)
    rw [hk, Nat.add_sub_cancel, Nat.le_div_iff_mul_le hnum] at hlow
    rw [hk, Nat.div_lt_iff_lt_mul hnum] at hhigh
    rw [hk, show (1 : ℤ) - ((k + 1 : ℕ) : ℤ) - 1 = -((k + 1 : ℕ) : ℤ) by omega,
      show (1 : ℤ) - ((k + 1 : ℕ) : ℤ) = -(k : ℤ) by omega, zpow_neg, zpow_neg, zpow_natCast,
      zpow_natCast, inv_le_iff_one_le_mul₀ (by positivity), lt_inv_comm₀ (by positivity)
      (by positivity), inv_div, lt_div_iff₀ hnum', div_mul_eq_mul_div, le_div_iff₀ hden', one_mul]
    exact ⟨by exact_mod_cast (show den ≤ num * 10 ^ (k + 1) by rw [mul_comm]; omega),
      by exact_mod_cast (show 10 ^ k * num < den by omega)⟩

/-- The decimal point of a quotient stands where the quotient is less than one step, but no less than
one of a tenth of it. -/
theorem pointPlace_eq (hnum : 0 < num) (hden : 0 < den) {p : ℤ}
    (hlow : (inSteps num den (p - 1)).2 ≤ (inSteps num den (p - 1)).1)
    (hhigh : (inSteps num den p).1 < (inSteps num den p).2) : pointPlace num den = p := by
  have hten : (1 : ℚ) < 10 := by norm_num
  obtain ⟨hplow, hphigh⟩ := pointPlace_spec hnum hden
  obtain ⟨hpos, hvalue⟩ := inSteps_spec num hden (p - 1)
  obtain ⟨hpos', hvalue'⟩ := inSteps_spec num hden p
  have hge : (10 : ℚ) ^ (p - 1) ≤ num / den := by
    rw [← hvalue]
    refine le_mul_of_one_le_left (zpow_nonneg (by norm_num) _) ?_
    rw [one_le_div (by exact_mod_cast hpos)]
    exact_mod_cast hlow
  have hlt : (num / den : ℚ) < 10 ^ p := by
    rw [← hvalue']
    refine mul_lt_of_lt_one_left (zpow_pos (by norm_num) _) ?_
    rw [div_lt_one (by exact_mod_cast hpos')]
    exact_mod_cast hhigh
  have hbelow := (zpow_lt_zpow_iff_right₀ hten).mp (hge.trans_lt hphigh)
  have habove := (zpow_lt_zpow_iff_right₀ hten).mp (hplow.trans_lt hlt)
  omega

/-- The step of the grid of decimals with `count` digits about a quotient. -/
def gridStep (num den count : ℕ) : ℚ := 10 ^ (pointPlace num den - count)

/-- The step of a grid is positive. -/
theorem gridStep_pos (num den count : ℕ) : 0 < gridStep num den count := by
  unfold gridStep
  positivity

/-- The steps of the grid that are whole below a quotient. -/
def stepsBelow (num den count : ℕ) : ℕ :=
  (inSteps num den (pointPlace num den - count)).1 / (inSteps num den (pointPlace num den - count)).2

/-- A quotient is as many steps of the grid. -/
theorem gridSteps_spec (num : ℕ) {den : ℕ} (hden : 0 < den) (count : ℕ) :
    (0 : ℚ) < (inSteps num den (pointPlace num den - count)).2 ∧
      ((inSteps num den (pointPlace num den - count)).1 : ℚ) /
        (inSteps num den (pointPlace num den - count)).2 * gridStep num den count = num / den := by
  obtain ⟨hstep, hvalue⟩ := inSteps_spec num hden (pointPlace num den - count)
  exact ⟨by exact_mod_cast hstep, hvalue⟩

/-- Powers of ten in steps of the grid. -/
theorem pow_mul_gridStep (num den k count : ℕ) :
    ((10 ^ k : ℕ) : ℚ) * gridStep num den count = 10 ^ (pointPlace num den - count + k) := by
  unfold gridStep
  rw [Nat.cast_pow, Nat.cast_ofNat, ← zpow_natCast, ← zpow_add₀ (by norm_num)]
  congr 1
  ring

/-- A decimal with no more than `count` digits is on the grid about a quotient, or a point of the grid
separates it from the quotient. -/
theorem exists_step (hnum : 0 < num) (hden : 0 < den) {d : Decimal} {count : ℕ}
    (h : d.digitCount ≤ count) :
    ∃ n : ℕ, d.value = n * gridStep num den count ∨
      d.value ≤ n * gridStep num den count ∧
        n * gridStep num den count ≤ (num / den : ℚ) := by
  obtain ⟨n, e, hvalue, hn⟩ := d.exists_reduced h
  have hcount := d.digitCount_pos.trans_le h
  have hten : (10 : ℚ) ≠ 0 := by norm_num
  rcases le_or_gt (pointPlace num den - count) e with hcoarse | hfine
  -- A decimal on a coarser grid is on this one.
  · obtain ⟨k, hk⟩ := Int.le.dest hcoarse
    refine ⟨n * 10 ^ k, .inl ?_⟩
    unfold gridStep
    rw [hvalue, ← hk, zpow_add₀ hten, zpow_natCast]
    push_cast
    ring
  · -- On a finer grid so few digits stay below the first power of ten of the quotient.
    have hpower := pow_mul_gridStep num den (count - 1) count
    rw [show pointPlace num den - count + ((count - 1 : ℕ) : ℤ) = pointPlace num den - 1 by omega]
      at hpower
    refine ⟨10 ^ (count - 1), .inr ⟨?_, by rw [hpower]; exact (pointPlace_spec hnum hden).1⟩⟩
    rw [hpower, hvalue]
    calc (n * 10 ^ e : ℚ) ≤ 10 ^ count * 10 ^ (pointPlace num den - count - 1) :=
          mul_le_mul (by exact_mod_cast hn.le)
            (zpow_le_zpow_right₀ (by norm_num) (by omega)) (by positivity) (by positivity)
      _ = 10 ^ (pointPlace num den - 1) := by
          rw [← zpow_natCast, ← zpow_add₀ hten]
          congr 1
          omega

/-- A quotient is between the whole steps below it and the next. -/
theorem stepsBelow_spec (num : ℕ) {den : ℕ} (hden : 0 < den) (count : ℕ) :
    stepsBelow num den count * gridStep num den count ≤ (num / den : ℚ) ∧
      (num / den : ℚ) < (stepsBelow num den count + 1) * gridStep num den count := by
  obtain ⟨hstep, hvalue⟩ := gridSteps_spec num hden count
  unfold stepsBelow
  rw [← hvalue]
  generalize inSteps num den (pointPlace num den - count) = steps at *
  have hpow := gridStep_pos num den count
  refine ⟨mul_le_mul_of_nonneg_right ?_ hpow.le, mul_lt_mul_of_pos_right ?_ hpow⟩
  · rw [le_div_iff₀ hstep]
    exact_mod_cast Nat.div_mul_le_self steps.1 steps.2
  · rw [div_lt_iff₀ hstep]
    exact_mod_cast Nat.lt_mul_of_div_lt (Nat.lt_succ_self (steps.1 / steps.2))
      (by exact_mod_cast hstep)

/-- The steps below a quotient have the digits that are asked for. -/
theorem stepsBelow_bounds (hnum : 0 < num) (hden : 0 < den) {count : ℕ} (hcount : 0 < count) :
    0 < stepsBelow num den count ∧ stepsBelow num den count < 10 ^ count := by
  obtain ⟨hlow, hhigh⟩ := pointPlace_spec hnum hden
  obtain ⟨hbelow, habove⟩ := stepsBelow_spec num hden count
  have hpow := gridStep_pos num den count
  have hfirst := pow_mul_gridStep num den (count - 1) count
  have hlast := pow_mul_gridStep num den count count
  rw [show pointPlace num den - count + ((count - 1 : ℕ) : ℤ) = pointPlace num den - 1 by omega]
    at hfirst
  rw [sub_add_cancel] at hlast
  have hone := lt_of_mul_lt_mul_right ((hfirst.le.trans hlow).trans_lt habove) hpow.le
  have hten := lt_of_mul_lt_mul_right (hbelow.trans_lt (hhigh.trans_eq hlast.symm)) hpow.le
  have hone : 10 ^ (count - 1) < stepsBelow num den count + 1 := by exact_mod_cast hone
  have hpos : 0 < 10 ^ (count - 1) := Nat.pow_pos (by norm_num)
  exact ⟨by omega, by exact_mod_cast hten⟩

/-- A whole number within a half of a quotient is nearest to it. -/
theorem abs_sub_le_of_half {n : ℕ} {t : ℚ} (h : |n - t| ≤ 1 / 2) (m : ℕ) : |n - t| ≤ |m - t| := by
  by_cases hm : m = n
  · rw [hm]
  · have hgap : (1 : ℚ) ≤ |(m : ℚ) - n| := by
      exact_mod_cast Int.one_le_abs (sub_ne_zero.mpr (Nat.cast_injective.ne hm : (m : ℤ) ≠ n))
    have htriangle := abs_sub_le (m : ℚ) t n
    rw [abs_sub_comm t] at htriangle
    linarith

/-- A quotient is rounded to a whole number of steps. -/
theorem significant_value (num den count : ℕ) : (significant num den count).value =
    (((2 * (inSteps num den (pointPlace num den - count)).1 +
      (inSteps num den (pointPlace num den - count)).2) /
      (2 * (inSteps num den (pointPlace num den - count)).2) : ℕ) : ℚ) * gridStep num den count := rfl

/-- Rounding to `count` digits moves a quotient by half a step at most, and no point of the grid is
nearer. -/
theorem significant_spec (num : ℕ) {den : ℕ} (hden : 0 < den) (count : ℕ) :
    |(significant num den count).value - num / den| ≤ 1 / 2 * gridStep num den count ∧
      ∀ n : ℕ, |(significant num den count).value - num / den| ≤
        |(n : ℚ) * gridStep num den count - num / den| := by
  obtain ⟨hstep, hvalue⟩ := gridSteps_spec num hden count
  have hpow := gridStep_pos num den count
  rw [significant_value, ← hvalue]
  generalize inSteps num den (pointPlace num den - count) = steps at *
  have hpos : 0 < steps.2 := by exact_mod_cast hstep
  generalize hn : (2 * steps.1 + steps.2) / (2 * steps.2) = n
  -- The step taken is the whole part of the quotient in steps and a half.
  have hhalf : |(n : ℚ) - steps.1 / steps.2| ≤ 1 / 2 := by
    have hlow := Nat.div_mul_le_self (2 * steps.1 + steps.2) (2 * steps.2)
    have hhigh := Nat.lt_mul_of_div_lt (Nat.lt_succ_self _) (Nat.mul_pos two_pos hpos)
      (a := 2 * steps.1 + steps.2)
    rw [hn] at hlow hhigh
    have hlow : (n * (2 * steps.2) : ℚ) ≤ 2 * steps.1 + steps.2 := by exact_mod_cast hlow
    have hhigh : (2 * steps.1 + steps.2 : ℚ) < (n + 1) * (2 * steps.2) := by exact_mod_cast hhigh
    have hsplit : (steps.1 : ℚ) / steps.2 * steps.2 = steps.1 := div_mul_cancel₀ _ hstep.ne'
    rw [abs_le]
    constructor <;> nlinarith
  have hscale : ∀ m : ℕ, |(m : ℚ) * gridStep num den count -
      steps.1 / steps.2 * gridStep num den count| =
      |(m : ℚ) - steps.1 / steps.2| * gridStep num den count := fun m => by
    rw [← sub_mul, abs_mul, abs_of_pos hpow]
  refine ⟨?_, fun m => ?_⟩
  · rw [hscale]
    exact mul_le_mul_of_nonneg_right hhalf hpow.le
  · rw [hscale, hscale]
    exact mul_le_mul_of_nonneg_right (abs_sub_le_of_half hhalf m) hpow.le

/-- Of all decimals with no more than `count` digits none is nearer than the one that a quotient is
rounded to. -/
theorem significant_nearest (hnum : 0 < num) (hden : 0 < den) {d : Decimal} {count : ℕ}
    (h : d.digitCount ≤ count) :
    |(significant num den count).value - num / den| ≤ |d.value - num / den| := by
  obtain ⟨n, hn⟩ := exists_step hnum hden h
  have hnear := (significant_spec num hden count).2 n
  rcases hn with heq | ⟨hbelow, hbetween⟩
  · rwa [heq]
  · refine hnear.trans ?_
    rw [abs_of_nonpos (by linarith), abs_of_nonpos (by linarith)]
    linarith

/-- What a quotient is rounded to has no more digits than asked for. -/
theorem digitCount_significant_le (hnum : 0 < num) (hden : 0 < den) {count : ℕ} (hcount : 0 < count) :
    (significant num den count).digitCount ≤ count := by
  obtain ⟨hpos, hlt⟩ := stepsBelow_bounds hnum hden hcount
  have hstep := (inSteps_spec num hden (pointPlace num den - count)).1
  have hbetween : stepsBelow num den count ≤ (significant num den count).digits ∧
      (significant num den count).digits < stepsBelow num den count + 2 := by
    unfold significant stepsBelow
    dsimp only
    generalize inSteps num den (pointPlace num den - count) = steps at *
    have hlow := Nat.div_mul_le_self steps.1 steps.2
    have hhigh := Nat.lt_mul_of_div_lt (Nat.lt_succ_self (steps.1 / steps.2)) hstep
    rw [Nat.le_div_iff_mul_le (by omega), Nat.div_lt_iff_lt_mul (by omega)]
    constructor <;> nlinarith
  exact Decimal.digitCount_le_of_le (by omega) hcount (by omega)

/-- Between a decimal with no more than `count` digits and a quotient is one of the two neighbours of the
quotient on the grid. -/
theorem neighbour_between (hnum : 0 < num) (hden : 0 < den) {d : Decimal} {count : ℕ}
    (h : d.digitCount ≤ count) :
    d.value ≤ stepsBelow num den count * gridStep num den count ∧
        stepsBelow num den count * gridStep num den count ≤ (num / den : ℚ) ∨
      (num / den : ℚ) ≤ ((stepsBelow num den count + 1 : ℕ) : ℚ) * gridStep num den count ∧
        ((stepsBelow num den count + 1 : ℕ) : ℚ) * gridStep num den count ≤ d.value := by
  obtain ⟨n, hn⟩ := exists_step hnum hden h
  obtain ⟨hlow, hhigh⟩ := stepsBelow_spec num hden count
  have hpow := gridStep_pos num den count
  rw [← Nat.cast_succ] at hhigh
  rcases Nat.lt_or_ge (stepsBelow num den count) n with hlt | hge
  · -- The decimal is above the quotient.
    have hle : ((stepsBelow num den count + 1 : ℕ) : ℚ) * gridStep num den count ≤
        n * gridStep num den count :=
      mul_le_mul_of_nonneg_right (by exact_mod_cast hlt) hpow.le
    have hvalue : d.value = n * gridStep num den count :=
      hn.resolve_right fun hcon => absurd (hhigh.trans_le (hle.trans hcon.2)) (lt_irrefl _)
    exact .inr ⟨hhigh.le, hvalue ▸ hle⟩
  · have hle : (n : ℚ) * gridStep num den count ≤
        stepsBelow num den count * gridStep num den count :=
      mul_le_mul_of_nonneg_right (by exact_mod_cast hge) hpow.le
    exact .inl ⟨(hn.elim le_of_eq And.left).trans hle, hlow⟩

section Accepted

variable {reads : Decimal → Bool} {count : ℕ}

/-- A decimal is found if one of the two neighbours is accepted. -/
theorem exists_nearestAccepted_of_or
    (h : reads ⟨stepsBelow num den count, pointPlace num den - count⟩ = true ∨
      reads ⟨stepsBelow num den count + 1, pointPlace num den - count⟩ = true) :
    ∃ d, nearestAccepted reads num den count = some d := by
  unfold stepsBelow at h
  unfold nearestAccepted
  dsimp only
  generalize reads ⟨_, _⟩ = lower at *
  generalize reads ⟨_ + 1, _⟩ = upper at *
  cases lower <;> cases upper
  · simp at h
  · exact ⟨_, rfl⟩
  · exact ⟨_, rfl⟩
  · dsimp only
    split_ifs
    · exact ⟨_, rfl⟩
    · exact ⟨_, rfl⟩

/-- If a decimal with few digits is accepted, and with it whatever is between it and the quotient, so
is one that is found on the grid. -/
theorem exists_nearestAccepted (hnum : 0 < num) (hden : 0 < den) {d : Decimal}
    (hcount : d.digitCount ≤ count)
    (hbelow : ∀ d' : Decimal, d.value ≤ d'.value → d'.value ≤ num / den → reads d' = true)
    (habove : ∀ d' : Decimal, (num / den : ℚ) ≤ d'.value → d'.value ≤ d.value → reads d' = true) :
    ∃ d', nearestAccepted reads num den count = some d' :=
  exists_nearestAccepted_of_or <| (neighbour_between hnum hden hcount).imp
    (fun h => hbelow _ h.1 h.2) fun h => habove _ h.1 h.2

/-- What is found has no more digits than the grid is for. -/
theorem digitCount_of_nearestAccepted (hnum : 0 < num) (hden : 0 < den) (hcount : 0 < count)
    {d : Decimal} (h : nearestAccepted reads num den count = some d) : d.digitCount ≤ count := by
  obtain ⟨hpos, hlt⟩ := stepsBelow_bounds hnum hden hcount
  have hdigits : d.digits = stepsBelow num den count ∨ d.digits = stepsBelow num den count + 1 := by
    unfold nearestAccepted at h
    dsimp only at h
    split at h
    · cases h
    · cases h
      exact .inl rfl
    · cases h
      exact .inr rfl
    · split_ifs at h <;> cases h
      · exact .inl rfl
      · exact .inr rfl
  refine Decimal.digitCount_le_of_le ?_ hcount ?_ <;> omega

end Accepted

end Quotient

end TypedReads
