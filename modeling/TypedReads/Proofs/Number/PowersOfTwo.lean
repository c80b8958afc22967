import TypedReads.Proofs.Number.ReadBack

/-!
# Rounding powers of two to few digits

Below a power of two the 32-bit magnitudes are closer together than above it, and so are the bounds of
the numbers that are read as it (`readAsSingle_power`). The decimal nearest to it may then lie below it
and out of bounds, where the neighbour above is in them. `significant_of_read` says when: with at most
eight digits that happens at `2 ^ (-96)`, at `2 ^ 87` and at `2 ^ 90`, always with eight digits, and at
no other magnitude. The powers of two are checked one by one (`power_table`), in whole numbers.
-/

namespace TypedReads

open BinaryFormat

section Bounds

variable {q : ℚ} {k j : ℕ}

/-- The bounds of the numbers read as an even rank, where the middles about it are whole numbers of half
units of a last place. -/
theorem readAsSingle_iff_bounds (c e s c' e' s' : ℕ) (hq : 0 ≤ q) (hk : 0 < k) (heven : k % 2 = 0)
    (hc' : 2 ^ e' < c' ∧ c' < 2 ^ (e' + 1)) (he' : e' ≤ 24)
    (hlower : single.middle (k - 1) = c' * (2 ^ s' / single.one / 2))
    (hc : 2 ^ e ≤ c ∧ c < 2 ^ (e + 1)) (he : e ≤ 24)
    (hupper : single.middle k = c * (2 ^ s / single.one / 2)) :
    ReadAsSingle q k ↔ (c' : ℚ) * 2 ^ (s' + 53) ≤ q * (2 ^ 54 * single.one) + 2 ^ (s' + e') ∧
      q * (2 ^ 54 * single.one) ≤ c * 2 ^ (s + 53) + 2 ^ (s + e) := by
  have hone := single.one_pos_rat
  obtain ⟨upper, hueven, -, huvalue, humiddle, -⟩ := exists_double s hc.1 hc.2 he
  obtain ⟨lower, hleven, hlpos, hlvalue, -, hlmiddle⟩ := exists_double s' hc'.1.le hc'.2 he'
  rw [readAsSingle_iff_of_even hq hk heven hleven hlpos hueven (hlvalue.trans hlower.symm)
    (huvalue.trans hupper.symm), humiddle, hlmiddle hc'.1, sub_le_iff_le_add]
  -- Counted in the `2 ^ 54`th part of the least magnitude, both bounds are whole numbers.
  have hscale : (0 : ℚ) < 2 ^ 54 * single.one := by positivity
  have hwhole : ∀ n t : ℕ, (n : ℚ) * (2 ^ t / single.one / 2) * (2 ^ 54 * single.one) =
      n * 2 ^ (t + 53) := fun n t => by
    rw [pow_add]
    field_simp
  have hfine : ∀ t : ℕ, fineHalf t * (2 ^ 54 * single.one) = 2 ^ t := fun t => by
    unfold fineHalf
    field_simp
  rw [← mul_le_mul_iff_left₀ hscale, ← mul_le_mul_iff_left₀ (b := q) hscale, add_mul, add_mul, hwhole,
    hwhole, hfine, hfine]

/-- The numbers read as a power of two of the first binade, where all magnitudes are a unit apart. -/
theorem readAsSingle_power_first (hq : 0 ≤ q) (hj : 0 < j) (hle : j ≤ 23) :
    ReadAsSingle q (2 ^ j) ↔
      (2 : ℚ) ^ (j + 54) ≤ q * (2 ^ 54 * single.one) + (2 ^ 53 + 2 ^ j) ∧
        q * (2 ^ 54 * single.one) ≤ 2 ^ (j + 54) + (2 ^ 53 + 2 ^ (j + 1)) := by
  have htwo : 2 ≤ 2 ^ j := Nat.pow_le_pow_right two_pos hj
  have hnext : 2 ^ (j + 1) = 2 * 2 ^ j := pow_succ' 2 j
  have hnext' : 2 ^ (j + 1 + 1) = 2 * 2 ^ (j + 1) := pow_succ' 2 (j + 1)
  have hbinade : 2 ^ j < 2 * single.binade :=
    Nat.pow_lt_pow_right (n := 24) one_lt_two (by omega)
  have heven : 2 ^ j % 2 = 0 := by
    obtain ⟨i, rfl⟩ := Nat.exists_eq_succ_of_ne_zero hj.ne'
    rw [pow_succ, Nat.mul_mod_left]
  have hbehind := single.middle_significand (s := 0) hbinade (.inl rfl)
  have hbefore := middle_pred (s := 0) (by omega) hbinade (.inl rfl)
  rw [Nat.zero_mul, Nat.zero_add] at hbehind hbefore
  have hlower : ((2 * 2 ^ j - 1 : ℕ) : ℚ) = 2 * 2 ^ j - 1 := by
    rw [Nat.cast_sub (by omega)]
    push_cast
    rfl
  -- The middles are an odd number of half units, above and below.
  rw [readAsSingle_iff_bounds (2 * 2 ^ j + 1) (j + 1) 0 (2 * 2 ^ j - 1) j 0 hq (by omega) heven
    (by omega) (by omega) (by rw [hbefore, hlower]; push_cast; rfl) (by omega) (by omega)
    (by rw [hbehind]; push_cast; rfl), hlower, Nat.zero_add, Nat.zero_add, Nat.zero_add,
    pow_add _ j 54]
  push_cast
  constructor <;> rintro ⟨hleft, hright⟩ <;> constructor <;> linarith

/-- The numbers read as a power of two of a later binade, which is twice as wide as the one before. -/
theorem readAsSingle_power_later (hq : 0 ≤ q) (t : ℕ) :
    ReadAsSingle q ((t + 1) * single.binade + single.binade) ↔
      (2 : ℚ) ^ (t + 78) ≤ q * (2 ^ 54 * single.one) + (2 ^ (t + 53) + 2 ^ (t + 24)) ∧
        q * (2 ^ 54 * single.one) ≤ 2 ^ (t + 78) + (2 ^ (t + 54) + 2 ^ (t + 25)) := by
  have hbehind := single.middle_significand (s := t + 1) (m := single.binade) (by decide) (.inr le_rfl)
  have hbefore := middle_pred_binade t
  have heven : ((t + 1) * single.binade + single.binade) % 2 = 0 := by
    rw [show single.binade = 2 ^ 22 * 2 from rfl, ← mul_assoc, ← add_mul, Nat.mul_mod_left]
  rw [show single.binade = 2 ^ 23 from rfl] at *
  -- Below a binade's first magnitude the units are half as long.
  rw [readAsSingle_iff_bounds (2 * 2 ^ 23 + 1) 24 (t + 1) (4 * 2 ^ 23 - 1) 24 t hq (by omega) heven
    (by omega) (by omega) (by rw [hbefore]; norm_num) (by omega) (by omega)
    (by rw [hbehind]; norm_num), pow_add _ t 78, pow_add _ t 54, pow_add _ t 53, pow_add _ t 25,
    pow_add _ t 24]
  push_cast
  constructor <;> rintro ⟨hleft, hright⟩ <;> constructor <;> linarith

/-- A power of two among the magnitudes is a rank of the first binade, or starts a later one. -/
theorem power_cases (h : single.unitsAt k = 2 ^ j) :
    k = 2 ^ j ∧ j ≤ 23 ∨ ∃ t, k = (t + 1) * single.binade + single.binade ∧ j = t + 24 := by
  have hp : 0 < single.precision := by decide
  have hrank : ∀ {l}, single.unitsAt l = 2 ^ j → k = l := fun {l} hl => by
    rw [← single.rank_unitsAt hp k, h, ← hl, single.rank_unitsAt hp]
  rcases le_or_gt j 23 with hle | hgt
  · refine .inl ⟨hrank ?_, hle⟩
    have hbinade : 2 ^ j < 2 * single.binade :=
      Nat.pow_lt_pow_right (n := 24) one_lt_two (by omega)
    have hunits := single.unitsAt_add (s := 0) hbinade (.inl rfl)
    rwa [Nat.zero_mul, Nat.zero_add, pow_zero, mul_one] at hunits
  · obtain ⟨t, rfl⟩ := Nat.exists_eq_add_of_le' hgt
    refine .inr ⟨t, hrank ?_, rfl⟩
    rw [single.unitsAt_add (by decide) (.inr le_rfl), show single.binade = 2 ^ 23 from rfl, ← pow_add]
    congr 1
    omega

/-- The numbers that are read as a power of two from two units on, in parts of `2 ^ (-54)` of a unit. -/
theorem readAsSingle_power (hq : 0 ≤ q) (hj : 0 < j) (hk : single.unitsAt k = 2 ^ j) :
    ReadAsSingle q k ↔
      (2 : ℚ) ^ (j + 54) ≤ q * (2 ^ 54 * single.one) + (2 ^ max (j + 29) 53 + 2 ^ j) ∧
        q * (2 ^ 54 * single.one) ≤ 2 ^ (j + 54) + (2 ^ max (j + 30) 53 + 2 ^ (j + 1)) := by
  rcases power_cases hk with ⟨rfl, hle⟩ | ⟨t, rfl, rfl⟩
  · rw [max_eq_right (by omega), max_eq_right (by omega)]
    exact readAsSingle_power_first hq hj hle
  · rw [max_eq_left (by omega), max_eq_left (by omega)]
    exact readAsSingle_power_later hq t

end Bounds

section Table

/-- The place of the decimal point of a power of two, from the logarithm of two. -/
def powerPlace (j : ℕ) : ℤ := ((j : ℤ) - 149) * 1233 / 4096 + 1

/-- A power of two in steps of the grid of decimals with `count` digits about it. -/
def powerSteps (j count : ℕ) : ℕ × ℕ :=
  inSteps (doubleUnits (2 ^ j)) Double.one (powerPlace j - count)

/-- Whether `n` steps are read as a power of two of so many steps. -/
def readsPower (j : ℕ) (steps : ℕ × ℕ) (n : ℕ) : Bool :=
  decide (2 ^ (j + 54) * steps.1 ≤ n * steps.2 * 2 ^ (j + 54) +
    (2 ^ max (j + 29) 53 + 2 ^ j) * steps.1) &&
  decide (n * steps.2 * 2 ^ (j + 54) ≤
    (2 ^ (j + 54) + (2 ^ max (j + 30) 53 + 2 ^ (j + 1))) * steps.1)

/-- A quotient in steps, rounded to a whole number of them, a half upwards. -/
def nearestSteps (steps : ℕ × ℕ) : ℕ := (2 * steps.1 + steps.2) / (2 * steps.2)

/-- Whether a power of two rounded to `count` digits is read as it if one of its two neighbours is. -/
def roundsRight (j count : ℕ) : Bool :=
  let steps := powerSteps j count
  let below := steps.1 / steps.2
  !(readsPower j steps below || readsPower j steps (below + 1)) || readsPower j steps (nearestSteps steps)

/-- The decimal points of all powers of two stand where the logarithm puts them, and all powers of two
round right, but for three of them and eight digits. -/
theorem power_table : ∀ j ∈ List.range' 1 276,
    ((inSteps (doubleUnits (2 ^ j)) Double.one (powerPlace j - 1)).2 ≤
        (inSteps (doubleUnits (2 ^ j)) Double.one (powerPlace j - 1)).1 ∧
      (inSteps (doubleUnits (2 ^ j)) Double.one (powerPlace j)).1 <
        (inSteps (doubleUnits (2 ^ j)) Double.one (powerPlace j)).2) ∧
    ∀ count ∈ List.range' 1 8, roundsRight j count = true ∨ count = 8 ∧ j ∈ [53, 236, 239] := by
  decide +kernel

/-- The steps of a power of two are those of its units among the doubles. -/
theorem powerSteps_eq {j : ℕ} (hj : j ∈ List.range' 1 276) (count : ℕ) :
    powerSteps j count = inSteps (doubleUnits (2 ^ j)) Double.one
      (pointPlace (doubleUnits (2 ^ j)) Double.one - count) := by
  obtain ⟨⟨hlow, hhigh⟩, -⟩ := power_table j hj
  have hplace := pointPlace_eq (doubleUnits_pos (Nat.two_pow_pos j)) Double.one_pos hlow hhigh
  rw [powerSteps, hplace]

/-- Steps are compared with the bounds in whole numbers. -/
theorem readsPower_iff {k j : ℕ} (hj : j ∈ List.range' 1 276) (hk : single.unitsAt k = 2 ^ j)
    (count n : ℕ) :
    readsPower j (powerSteps j count) n = true ↔
      ReadAsSingle (n * gridStep (doubleUnits (2 ^ j)) Double.one count) k := by
  have hone := single.one_pos_rat
  have hstep := gridStep_pos (doubleUnits (2 ^ j)) Double.one count
  obtain ⟨hpos, hvalue⟩ := gridSteps_spec (doubleUnits (2 ^ j)) Double.one_pos count
  rw [quotient_doubleUnits, Nat.cast_pow, Nat.cast_ofNat] at hvalue
  have hpos' : 0 < j := (List.mem_range'_1.mp hj).1
  rw [readAsSingle_power (mul_nonneg n.cast_nonneg hstep.le) hpos' hk]
  rw [powerSteps_eq hj]
  unfold readsPower
  generalize inSteps _ _ _ = steps at *
  generalize gridStep _ _ _ = step at *
  -- The power of two is `steps.1 / steps.2` steps.
  rw [div_mul_eq_mul_div, div_eq_div_iff hpos.ne' hone.ne'] at hvalue
  have hnum : (0 : ℚ) < steps.1 := by
    have hprod : (0 : ℚ) < steps.1 * step * single.one := by
      rw [hvalue]
      positivity
    exact pos_of_mul_pos_left (pos_of_mul_pos_left hprod hone.le) hstep.le
  -- Either bound is compared as it stands times `steps.1`, which is positive.
  have hscale : (n * step * (2 ^ 54 * single.one) : ℚ) * steps.1 = n * steps.2 * 2 ^ (j + 54) := by
    calc (n * step * (2 ^ 54 * single.one) : ℚ) * steps.1
        = n * 2 ^ 54 * (steps.1 * step * single.one) := by ring
      _ = n * steps.2 * 2 ^ (j + 54) := by rw [hvalue, pow_add]; ring
  have hlow : (2 : ℚ) ^ (j + 54) ≤ n * step * (2 ^ 54 * single.one) + (2 ^ max (j + 29) 53 + 2 ^ j) ↔
      2 ^ (j + 54) * steps.1 ≤ n * steps.2 * 2 ^ (j + 54) +
        (2 ^ max (j + 29) 53 + 2 ^ j) * steps.1 := by
    rw [← mul_le_mul_iff_left₀ hnum, add_mul, hscale]
    exact_mod_cast Iff.rfl
  have hhigh : (n * step * (2 ^ 54 * single.one) : ℚ) ≤
      2 ^ (j + 54) + (2 ^ max (j + 30) 53 + 2 ^ (j + 1)) ↔
      n * steps.2 * 2 ^ (j + 54) ≤
        (2 ^ (j + 54) + (2 ^ max (j + 30) 53 + 2 ^ (j + 1))) * steps.1 := by
    rw [← mul_le_mul_iff_left₀ hnum, hscale]
    exact_mod_cast Iff.rfl
  rw [Bool.and_eq_true, decide_eq_true_iff, decide_eq_true_iff, hlow, hhigh]

/-- Whether a power of two is read from the decimal it is rounded to, in whole numbers. -/
theorem significant_power_iff {k j : ℕ} (hj : j ∈ List.range' 1 276) (hk : single.unitsAt k = 2 ^ j)
    (count : ℕ) :
    readsPower j (powerSteps j count) (nearestSteps (powerSteps j count)) = true ↔
      ReadAsSingle (significant (doubleUnits (2 ^ j)) Double.one count).value k := by
  rw [significant_value, ← powerSteps_eq hj]
  exact readsPower_iff hj hk count _

/-- The least magnitude, which is as far from zero as from the next, rounds right. -/
theorem significant_least : ∀ count ∈ List.range' 1 8,
    single.rank (double.unitsAt (double.rank
      (significant (doubleUnits (2 ^ 0)) Double.one count).toRatio.1
      (significant (doubleUnits (2 ^ 0)) Double.one count).toRatio.2)) double.one = 1 := by
  decide +kernel

/-- A power of two that rounds right is read from the decimal it is rounded to, if it is read from any with
so few digits. -/
theorem significant_of_roundsRight {k j count : ℕ} {d : Decimal} (hj : j ∈ List.range' 1 276)
    (hk : single.unitsAt k = 2 ^ j) (hround : roundsRight j count = true) (hcount : d.digitCount ≤ count)
    (h : ReadAsSingle d.value k) :
    ReadAsSingle (significant (doubleUnits (2 ^ j)) Double.one count).value k := by
  have hstep := gridStep_pos (doubleUnits (2 ^ j)) Double.one count
  have hself := readAsSingle_valueAt k
  have hvalue : single.valueAt k = (doubleUnits (2 ^ j) : ℚ) / Double.one := by
    rw [quotient_doubleUnits, ← hk, valueAt]
  have hread := readsPower_iff hj hk count
  have hneighbour : readsPower j (powerSteps j count)
      ((powerSteps j count).1 / (powerSteps j count).2) = true ∨
        readsPower j (powerSteps j count)
          ((powerSteps j count).1 / (powerSteps j count).2 + 1) = true := by
    rw [hread, hread, powerSteps_eq hj]
    refine (neighbour_between (doubleUnits_pos (Nat.two_pow_pos j)) Double.one_pos hcount).imp ?_ ?_
    · rintro ⟨hlow, hhigh⟩
      exact h.between d.value_nonneg hself hlow (hvalue ▸ hhigh)
    · rintro ⟨hlow, hhigh⟩
      exact hself.between (single.valueAt_nonneg k) h (hvalue ▸ hlow) hhigh
  unfold roundsRight at hround
  rw [Bool.or_eq_true, Bool.not_eq_true', Bool.or_eq_false_iff] at hround
  have hnearest := hround.resolve_left fun hcon => hneighbour.elim
    (fun h => absurd h (Bool.eq_false_iff.mp hcon.1)) fun h => absurd h (Bool.eq_false_iff.mp hcon.2)
  exact (significant_power_iff hj hk count).mp hnearest

/-- A magnitude is read from the decimal it is rounded to, if it is read from any with as few digits, at
most eight; the exceptions are three powers of two. -/
theorem significant_of_read {k count : ℕ} {d : Decimal} (hk : 0 < k) (hlt : k < single.ranks)
    (hcount : d.digitCount ≤ count) (hfew : count ≤ 8) (h : ReadAsSingle d.value k) :
    ReadAsSingle (significant (doubleUnits (single.unitsAt k)) Double.one count).value k ∨
      count = 8 ∧ ∃ j ∈ [53, 236, 239], single.unitsAt k = 2 ^ j := by
  have hpos := d.digitCount_pos
  obtain ⟨s, m, rfl, hm, hfull⟩ := single.exists_significand k
  have hunits := single.unitsAt_add hm hfull
  have hm0 : m ≠ 0 := by
    rintro rfl
    have hb := single.binade_pos
    rcases hfull with rfl | hle <;> omega
  have hlow := Nat.log2_self_le hm0
  have hhigh := @Nat.lt_log2_self m
  rcases hlow.lt_or_eq with hstrict | hlog
  · -- No power of two.
    refine .inl (h.of_nearer hm hfull hstrict hhigh d.value_nonneg (Decimal.value_nonneg _) ?_)
    have hnear := significant_nearest (doubleUnits_pos (hunits ▸ Nat.mul_pos (Nat.pos_of_ne_zero hm0)
      (Nat.two_pow_pos s))) Double.one_pos hcount
    rw [quotient_doubleUnits] at hnear
    exact hnear
  -- A power of two, where the numbers below lie closer than those above.
  · have hpower : single.unitsAt (s * single.binade + m) = 2 ^ (m.log2 + s) := by
      rw [hunits, pow_add, hlog]
    generalize m.log2 + s = j at hpower
    have hj : j < 128 + single.scale := by
      have hend : single.unitsAt single.ranks = 2 ^ 128 * 2 ^ single.scale := by decide
      have hless := single.unitsAt_lt (by decide) hlt
      rw [hpower, hend, ← pow_add] at hless
      exact (pow_lt_pow_iff_right₀ one_lt_two).mp hless
    have hscale : single.scale = 149 := rfl
    have hmem : count ∈ List.range' 1 8 := by
      rw [List.mem_range'_1]
      omega
    rw [hpower]
    rcases Nat.eq_zero_or_pos j with rfl | hjpos
    · -- The least magnitude.
      refine .inl (readAsSingle_iff_rank.mpr ?_)
      have hrank := single.rank_unitsAt (by decide) (s * single.binade + m)
      rw [hpower] at hrank
      rw [significant_least count hmem, ← hrank]
      exact (single.rank_unitsAt (by decide) 1).symm
    -- All others are in the table.
    · have hrange : j ∈ List.range' 1 276 := by
        rw [List.mem_range'_1]
        omega
      rcases (power_table j hrange).2 count hmem with hround | ⟨height, hj⟩
      · exact .inl (significant_of_roundsRight hrange hpower hround hcount h)
      · exact .inr ⟨height, j, hj, rfl⟩

end Table

end TypedReads
