import TypedReads.Number.Shortest
import TypedReads.Proofs.Number.Decimal

/-!
# Shortest decimals read back

The shortest decimal of a positive double is read back as that double (`Double.ofDecimal_shortest`).
For a whole double it spells an integer (`Double.exists_shortest_whole`): a grid finer than the units
has the double on it, so nothing but the double itself is nearest. Below `2 ^ 53` this integer is the
double, and beyond it stays on the same side of `2 ^ 53` and of `2 ^ 63` as the double.
-/

namespace TypedReads

/-- A decimal that was found was accepted. -/
theorem reads_of_nearestAccepted {reads : Decimal → Bool} {num den count : ℕ} {d : Decimal}
    (h : nearestAccepted reads num den count = some d) : reads d = true := by
  unfold nearestAccepted at h
  dsimp only at h
  split at h
  · cases h
  · rename_i hlower hupper
    cases h
    exact hlower
  · rename_i hlower hupper
    cases h
    exact hupper
  · rename_i hlower hupper
    split_ifs at h <;> cases h
    · exact hlower
    · exact hupper

/-- The exponent of a decimal that was found is that of the grid. -/
theorem exponent_of_nearestAccepted {reads : Decimal → Bool} {num den count : ℕ} {d : Decimal}
    (h : nearestAccepted reads num den count = some d) :
    d.exponent = pointPlace num den - count := by
  unfold nearestAccepted at h
  dsimp only at h
  split at h
  · cases h
  · cases h
    rfl
  · cases h
    rfl
  · split_ifs at h <;> cases h <;> rfl

/-- A quotient on a grid finer than the units is nearest to itself. -/
theorem nearestAccepted_exact {reads : Decimal → Bool} {num den count steps : ℕ} {d : Decimal}
    (h : nearestAccepted reads num den count = some d) (hfine : pointPlace num den - count < 0)
    (hden : 0 < den) (hsteps : num * 10 ^ (-(pointPlace num den - count)).toNat = steps * den)
    (haccept : reads ⟨steps, pointPlace num den - count⟩ = true) :
    d = ⟨steps, pointPlace num den - count⟩ := by
  unfold nearestAccepted inSteps at h
  dsimp only at h
  rw [if_neg (not_le.mpr hfine)] at h
  dsimp only at h
  rw [hsteps, Nat.mul_div_cancel _ hden, Nat.mul_mod_left, haccept] at h
  split at h
  · rename_i hlower _
    cases hlower
  · cases h
    rfl
  · rename_i hlower _
    cases hlower
  · -- Were the next decimal read as well, the quotient itself would still be nearer.
    rw [if_pos (.inl (by omega))] at h
    cases h
    rfl

namespace Decimal

/-- A decimal that spells a positive number has digits. -/
theorem digits_pos_of_value {d : Decimal} {n : ℕ} (hn : 0 < n) (h : d.value = n) :
    0 < d.digits := by
  by_contra hzero
  rw [Nat.not_lt, Nat.le_zero] at hzero
  unfold value at h
  rw [hzero, Nat.cast_zero, zero_mul] at h
  exact hn.ne' (by exact_mod_cast h.symm)

/-- A reduced decimal that spells a natural number has no digits behind the point. -/
theorem exponent_nonneg_of_whole {d : Decimal} {n : ℕ} (hn : 0 < n) (h : d.value = n) :
    0 ≤ d.reduced.exponent := by
  have hvalue := d.value_reduced.trans h
  have hmod := d.reduced_digits_mod (digits_pos_of_value hn hvalue)
  -- With a digit behind the point the last one would be a zero.
  by_contra hneg
  obtain ⟨k, hk⟩ : ∃ k : ℕ, d.reduced.exponent = -((k + 1 : ℕ) : ℤ) :=
    ⟨(-d.reduced.exponent - 1).toNat, by omega⟩
  unfold value at hvalue
  rw [hk, zpow_neg, zpow_natCast, ← div_eq_mul_inv, div_eq_iff (by positivity)] at hvalue
  have hnat : d.reduced.digits = n * 10 ^ (k + 1) := by exact_mod_cast hvalue
  exact hmod (by rw [hnat, pow_succ, ← mul_assoc, Nat.mul_mod_left])

/-- A decimal without digits behind the point spells a natural number. -/
theorem value_of_nonneg {d : Decimal} (h : 0 ≤ d.exponent) :
    d.value = (d.digits * 10 ^ d.exponent.toNat : ℕ) := by
  obtain ⟨k, hk⟩ := Int.eq_ofNat_of_zero_le h
  unfold value
  rw [hk]
  simp

end Decimal

namespace Double

/-- The decimal that spells a magnitude exactly. -/
def exactDecimal (rank : Fin BinaryFormat.double.ranks) : Decimal :=
  ⟨magnitude rank * 5 ^ BinaryFormat.double.scale, -BinaryFormat.double.scale⟩

/-- The exact decimal of a double has its magnitude. -/
theorem exactDecimal_value (rank : Fin BinaryFormat.double.ranks) :
    (exactDecimal rank).value = (magnitude rank : ℚ) / one := by
  have hone : (one : ℚ) = 2 ^ BinaryFormat.double.scale := by
    unfold one BinaryFormat.one
    push_cast
    rfl
  unfold exactDecimal Decimal.value
  dsimp only
  generalize BinaryFormat.double.scale = k at *
  rw [hone, zpow_neg, zpow_natCast, show (10 : ℚ) = 5 * 2 by norm_num, mul_pow]
  push_cast
  field_simp

/-- A decimal that spells a magnitude exactly is read as it. -/
theorem ofDecimal_of_value (negative : Bool) {d : Decimal}
    {rank : Fin BinaryFormat.double.ranks} (h : d.value = (magnitude rank : ℚ) / one) :
    ofDecimal negative d = .finite negative rank := by
  have hpos : (d.toRatio.2 : ℚ) ≠ 0 := by exact_mod_cast d.toRatio_pos.ne'
  have hone : (one : ℚ) ≠ 0 := by exact_mod_cast one_pos.ne'
  rw [← d.toRatio_value, div_eq_div_iff hpos hone] at h
  rw [ofDecimal_eq_ofRatio, ofRatio_eq_finite_iff]
  rw [BinaryFormat.double.rank_congr BinaryFormat.double_precision_pos d.toRatio_pos one_pos
    (by exact_mod_cast h)]
  exact BinaryFormat.double.rank_unitsAt BinaryFormat.double_precision_pos rank.val

/-- The sign of a decimal does not matter for how its magnitude is read. -/
theorem ofDecimal_sign {d : Decimal} {rank : Fin BinaryFormat.double.ranks} {negative : Bool}
    (h : ofDecimal negative d = .finite negative rank) (negative' : Bool) :
    ofDecimal negative' d = .finite negative' rank := by
  rw [ofDecimal_eq_ofRatio, ofRatio_eq_finite_iff] at h ⊢
  exact h

/-- What the search over the counts of digits looks for. -/
def accepts (rank : Fin BinaryFormat.double.ranks) (d : Decimal) : Bool :=
  ofDecimal false d = .finite false rank

/-- The shortest decimal is one that was accepted or the exact one, without zeros at the end. -/
theorem shortest_cases (rank : Fin BinaryFormat.double.ranks) :
    ∃ d, shortest rank = d.reduced ∧ (d = exactDecimal rank ∨
      ∃ count, nearestAccepted (accepts rank) (magnitude rank) one count = some d) := by
  have hshortest : shortest rank = (((List.range' 1 17).findSome?
      (nearestAccepted (accepts rank) (magnitude rank) one)).getD (exactDecimal rank)).reduced :=
    rfl
  cases hfound : (List.range' 1 17).findSome?
      (nearestAccepted (accepts rank) (magnitude rank) one) with
  | none => exact ⟨exactDecimal rank, by rw [hshortest, hfound]; rfl, .inl rfl⟩
  | some d =>
    obtain ⟨count, -, hd⟩ := List.exists_of_findSome?_eq_some hfound
    exact ⟨d, by rw [hshortest, hfound]; rfl, .inr ⟨count, hd⟩⟩

/-- The shortest decimal of a magnitude is read back, with either sign. -/
theorem ofDecimal_shortest (negative : Bool) (rank : Fin BinaryFormat.double.ranks) :
    ofDecimal negative (shortest rank) = .finite negative rank := by
  obtain ⟨d, hd, hcases⟩ := shortest_cases rank
  rw [hd, ofDecimal_congr negative d.value_reduced]
  rcases hcases with rfl | ⟨count, hcount⟩
  · exact ofDecimal_of_value negative (exactDecimal_value rank)
  · exact ofDecimal_sign (of_decide_eq_true (reads_of_nearestAccepted hcount)) negative

/-- The shortest decimal of a whole number spells an integer. -/
theorem exists_shortest_whole {rank : Fin BinaryFormat.double.ranks} {n : ℕ}
    (hmag : magnitude rank = n * one) : ∃ m : ℕ, (shortest rank).value = m := by
  have hone : (one : ℚ) ≠ 0 := by exact_mod_cast one_pos.ne'
  have hvalue : (magnitude rank : ℚ) / one = n := by
    rw [hmag]
    push_cast
    exact mul_div_cancel_right₀ _ hone
  -- The shortest decimal is the exact one or the nearest with some number of digits.
  obtain ⟨d, hd, hcases⟩ := shortest_cases rank
  rw [hd, d.value_reduced]
  rcases hcases with rfl | ⟨count, hcount⟩
  · exact ⟨n, (exactDecimal_value rank).trans hvalue⟩
  · have hexponent := exponent_of_nearestAccepted hcount
    rcases le_or_gt 0 d.exponent with hcoarse | hfine
    · exact ⟨_, Decimal.value_of_nonneg hcoarse⟩
    · -- The grid is finer than the units, and the number stands on it.
      rw [hexponent] at hfine
      have hspells : (Decimal.mk (n * 10 ^ (-(pointPlace (magnitude rank) one - count)).toNat)
          (pointPlace (magnitude rank) one - count)).value = n := by
        generalize pointPlace (magnitude rank) one - count = e at hfine
        obtain ⟨k, rfl⟩ : ∃ k : ℕ, e = -(k : ℤ) := ⟨(-e).toNat, by omega⟩
        unfold Decimal.value
        simp
      have hsteps : magnitude rank * 10 ^ (-(pointPlace (magnitude rank) one - count)).toNat =
          n * 10 ^ (-(pointPlace (magnitude rank) one - count)).toNat * one := by
        rw [hmag]
        ring
      have haccept := decide_eq_true (ofDecimal_of_value false (hspells.trans hvalue.symm))
      exact ⟨n, by rw [nearestAccepted_exact hcount hfine one_pos hsteps haccept, hspells]⟩

/-- The integer that the shortest decimal of a whole number spells gets the same rank. -/
theorem rank_shortest_whole {rank : Fin BinaryFormat.double.ranks} {m : ℕ}
    (hm : (shortest rank).value = m) : BinaryFormat.double.rank m 1 = rank.val := by
  have hread := ofDecimal_shortest false rank
  rw [ofDecimal_whole false hm] at hread
  exact ofRatio_eq_finite_iff.mp hread

/-- A whole double and the integer that its shortest decimal spells are on the same side of every
other whole double. -/
theorem shortest_whole_side {rank : Fin BinaryFormat.double.ranks} {n m k : ℕ}
    (hmag : magnitude rank = n * one) (hm : (shortest rank).value = m)
    (hk : BinaryFormat.double.unitsAt (BinaryFormat.double.rank k 1) = k * one) :
    (n < k → m < k) ∧ (k < n → k < m) := by
  have hm' : BinaryFormat.double.unitsAt (BinaryFormat.double.rank m 1) = n * one := by
    rw [rank_shortest_whole hm]
    exact hmag
  constructor
  · intro hlt
    by_contra hge
    exact hlt.not_ge (rounded_le (not_lt.mp hge) hk hm')
  · intro hlt
    by_contra hge
    exact hlt.not_ge (rounded_le (not_lt.mp hge) hm' hk)

/-- An integer up to `2 ^ 53` that reads as a whole double is that double. -/
theorem eq_of_shortest_whole {rank : Fin BinaryFormat.double.ranks} {n m : ℕ}
    (hmag : magnitude rank = n * one) (hm : (shortest rank).value = m) (hle : m ≤ 2 ^ 53) :
    m = n := by
  have hunits := unitsAt_rank_whole hle
  rw [rank_shortest_whole hm] at hunits
  exact Nat.eq_of_mul_eq_mul_right one_pos (hunits.symm.trans hmag)

/-- A double whose shortest decimal spells an integer is whole. -/
theorem whole_of_shortest_whole {rank : Fin BinaryFormat.double.ranks} {m : ℕ}
    (hm : (shortest rank).value = m) : ∃ n : ℕ, magnitude rank = n * one := by
  have hrank := rank_shortest_whole hm
  rcases le_or_gt m (2 ^ 53) with hle | hgt
  · have hunits := unitsAt_rank_whole hle
    rw [hrank] at hunits
    exact ⟨m, hunits⟩
  · -- From there on all doubles are whole.
    have hge := rank_le hgt.le
    rw [rank_two_pow_precision, hrank] at hge
    obtain ⟨n, hn⟩ := BinaryFormat.double.one_dvd_unitsAt (le_trans (by decide) hge)
    exact ⟨n, hn.trans (Nat.mul_comm _ _)⟩

/-- The shortest decimal of `2 ^ 63` is past it. -/
theorem shortest_two_pow_63 : shortest ⟨1086 * 2 ^ 52, by decide⟩ = ⟨9223372036854776, 3⟩ := by
  decide +kernel

end Double

end TypedReads
