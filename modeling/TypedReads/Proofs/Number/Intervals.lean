import TypedReads.Proofs.Number.Overflow

/-!
# The numbers of one magnitude

The numbers that are rounded to a rank are those between two middles: `BinaryFormat.middle` is that of a
magnitude and the next. An even rank takes both middles (`nearest_iff_of_even`) and an odd one neither
(`nearest_iff_of_odd`). So rounding keeps the order of numbers (`Nearest.mono`), and every number that is
not negative is rounded to some rank (`exists_nearest`).
-/

namespace TypedReads

namespace BinaryFormat

variable {f : BinaryFormat} {q q' : ℚ} {r r' k : ℕ}

/-- The middle between the magnitude of a rank and the next. -/
def middle (f : BinaryFormat) (k : ℕ) : ℚ := (f.valueAt k + f.valueAt (k + 1)) / 2

/-- The number of a rank is not negative. -/
theorem valueAt_nonneg (f : BinaryFormat) (k : ℕ) : 0 ≤ f.valueAt k := by
  unfold valueAt
  positivity

/-- Magnitudes are in the order of their ranks. -/
theorem valueAt_strictMono (hf : 0 < f.precision) : StrictMono f.valueAt := fun _ _ h =>
  f.valueAt_lt hf h

/-- A middle is between the two magnitudes. -/
theorem middle_bounds (hf : 0 < f.precision) (k : ℕ) :
    f.valueAt k < f.middle k ∧ f.middle k < f.valueAt (k + 1) := by
  have hstep := f.valueAt_lt hf (Nat.lt_succ_self k)
  unfold middle
  constructor <;> linarith

/-- Up to an odd rank are the numbers in front of the middle behind it. -/
theorem Nearest.le_iff_of_odd (hf : 0 < f.precision) (h : f.Nearest q r) (hodd : k % 2 = 1) :
    r ≤ k ↔ q < f.middle k := by
  have hnext := h.lt_iff hf (k := k + 1) (by omega) (by omega)
  rw [Nat.add_sub_cancel] at hnext
  rw [← Nat.lt_succ_iff]
  exact hnext

/-- Up to an even rank are the numbers in front of the middle behind it, with the middle. -/
theorem Nearest.le_iff_of_even (hf : 0 < f.precision) (h : f.Nearest q r) (heven : k % 2 = 0) :
    r ≤ k ↔ q ≤ f.middle k := by
  have hstep := f.valueAt_lt hf (Nat.lt_succ_self k)
  constructor
  · intro hle
    -- The nearest rank is as near as the one behind `k`.
    have hnear : |f.valueAt r - q| ≤ |f.valueAt (k + 1) - q| := h.abs_le (k + 1)
    have hmiddle := (abs_sub_le_abs_sub_iff (f.valueAt_lt hf (Nat.lt_succ_of_le hle))).mp hnear
    rcases hle.lt_or_eq with hlt | rfl
    · have hvalues := f.valueAt_lt hf hlt
      unfold middle
      linarith
    · exact hmiddle
  · intro hq
    have hnear := (abs_sub_le_abs_sub_iff hstep).mpr hq
    by_contra hgt
    rcases (show k + 1 ≤ r by omega).lt_or_eq with hless | rfl
    · -- The rank next to it would be nearer.
      have hvalues := f.valueAt_lt hf hless
      have hmiddle := mt (abs_sub_lt_abs_sub_iff hvalues).mpr (h.abs_le (k + 1)).not_gt
      have hend := (f.middle_bounds hf k).2
      linarith
    · -- An odd rank wins no tie.
      rcases h k (by omega) with hlt | ⟨-, hodd⟩
      · exact hlt.not_ge hnear
      · omega

/-- Rounding keeps the order of numbers. -/
theorem Nearest.mono (hf : 0 < f.precision) (h : f.Nearest q r) (h' : f.Nearest q' r') (hle : q ≤ q') :
    r ≤ r' := by
  rcases Nat.mod_two_eq_zero_or_one r' with heven | hodd
  · exact (h.le_iff_of_even hf heven).mpr (hle.trans ((h'.le_iff_of_even hf heven).mp le_rfl))
  · exact (h.le_iff_of_odd hf hodd).mpr (hle.trans_lt ((h'.le_iff_of_odd hf hodd).mp le_rfl))

/-- A quotient is rounded to no rank but the nearest. -/
theorem nearest_iff_rank (hf : 1 < f.precision) (n : ℕ) {d : ℕ} (hd : 0 < d) :
    f.Nearest (n / d : ℚ) k ↔ f.rank n d = k := by
  have hrank := f.rank_nearest hf n hd
  exact ⟨fun h => hrank.unique (by omega) h, fun h => h ▸ hrank⟩

/-- Every number that is not negative is rounded to some rank. -/
theorem exists_nearest (hf : 1 < f.precision) (hq : 0 ≤ q) : ∃ r, f.Nearest q r := by
  refine ⟨f.rank q.num.toNat q.den, ?_⟩
  have hnearest := f.rank_nearest hf q.num.toNat q.den_pos
  have hnum : ((q.num.toNat : ℕ) : ℚ) = (q.num : ℚ) := by
    exact_mod_cast Int.toNat_of_nonneg (Rat.num_nonneg.mpr hq)
  rwa [hnum, Rat.num_div_den] at hnearest

/-- A magnitude is rounded to itself. -/
theorem nearest_valueAt (hf : 0 < f.precision) (k : ℕ) : f.Nearest (f.valueAt k) k := by
  intro r hr
  refine .inl ?_
  rw [sub_self, abs_zero, abs_pos, sub_ne_zero]
  rcases Nat.lt_or_gt_of_ne hr with hlt | hgt
  · exact (f.valueAt_lt hf hlt).ne
  · exact (f.valueAt_lt hf hgt).ne'

/-- An even rank takes the numbers between its middles, and the middles. -/
theorem nearest_iff_of_even (hf : 1 < f.precision) (hq : 0 ≤ q) (hk : 0 < k) (heven : k % 2 = 0) :
    f.Nearest q k ↔ f.middle (k - 1) ≤ q ∧ q ≤ f.middle k := by
  obtain ⟨r, hr⟩ := exists_nearest hf hq
  have hbelow := hr.le_iff_of_odd (by omega) (show (k - 1) % 2 = 1 by omega)
  have habove := hr.le_iff_of_even (by omega) heven
  rw [← not_lt, ← hbelow, ← habove]
  constructor
  · intro h
    have := h.unique (by omega) hr
    omega
  · intro h
    obtain rfl : r = k := by omega
    exact hr

/-- An odd rank takes the numbers between its middles, without the middles. -/
theorem nearest_iff_of_odd (hf : 1 < f.precision) (hq : 0 ≤ q) (hodd : k % 2 = 1) :
    f.Nearest q k ↔ f.middle (k - 1) < q ∧ q < f.middle k := by
  obtain ⟨r, hr⟩ := exists_nearest hf hq
  have hbelow := hr.le_iff_of_even (by omega) (show (k - 1) % 2 = 0 by omega)
  have habove := hr.le_iff_of_odd (by omega) hodd
  rw [← not_le, ← hbelow, ← habove]
  constructor
  · intro h
    have := h.unique (by omega) hr
    omega
  · intro h
    obtain rfl : r = k := by omega
    exact hr

/-- The magnitude of a significand with bits behind it. -/
theorem valueAt_significand {s m : ℕ} (hm : m ≤ 2 * f.binade) (hfull : s = 0 ∨ f.binade ≤ m) :
    f.valueAt (s * f.binade + m) = m * (2 ^ s / f.one) := by
  unfold valueAt
  rw [f.unitsAt_add_le hm hfull]
  push_cast
  ring

/-- The middle behind a significand is half of a unit of its last bit away. -/
theorem middle_significand {s m : ℕ} (hm : m < 2 * f.binade) (hfull : s = 0 ∨ f.binade ≤ m) :
    f.middle (s * f.binade + m) = (2 * m + 1) * (2 ^ s / f.one / 2) := by
  unfold middle
  rw [f.valueAt_significand hm.le hfull, Nat.add_assoc,
    f.valueAt_significand (m := m + 1) hm (by omega)]
  push_cast
  ring

end BinaryFormat

end TypedReads
