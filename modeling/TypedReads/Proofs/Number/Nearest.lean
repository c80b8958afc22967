import Mathlib.Tactic.Linarith
import TypedReads.Proofs.Number.Decimal

/-!
# Rounding gives the nearest magnitude

`BinaryFormat.Nearest` says what rounding is for, with no reference to how it is done: no other
magnitude is nearer to the number, and of two that are equally near the one of even rank is taken.
The magnitudes go on without end here, so that a rank past the finite ones is an overflow.
`rank_nearest` shows it of `BinaryFormat.rank`, and `nearestTo_ofDecimal` of what a decimal is read
as. There is only one such rank (`Nearest.unique`).

The rank keeps `k` units of `2 ^ s`. Above it the next magnitude is one such unit away. So it is
below, unless `k` is the first of its binade; then the number rounded is not below `k` units, since
they are as many as its binade starts with.
-/

namespace TypedReads

/-- A half is rounded to the even neighbour, and everything else to the nearest. -/
theorem roundHalfEven_nearest (n : ℕ) {d : ℕ} (hd : 0 < d) :
    |(roundHalfEven n d : ℚ) - n / d| ≤ 1 / 2 ∧
    (|(roundHalfEven n d : ℚ) - n / d| = 1 / 2 → roundHalfEven n d % 2 = 0) := by
  have hd' : (0 : ℚ) < d := by exact_mod_cast hd
  have hmod : (((n % d : ℕ) : ℚ) / d) < 1 := by
    rw [div_lt_one hd']
    exact_mod_cast Nat.mod_lt n hd
  have hsplit : (n : ℚ) / d = (n / d : ℕ) + ((n % d : ℕ) : ℚ) / d := by
    field_simp
    exact_mod_cast (Nat.div_add_mod n d).symm
  -- The remainder is compared with the half in whole numbers.
  have hhalf : ((n % d : ℕ) : ℚ) / d = 1 / 2 ↔ 2 * (n % d) = d := by
    rw [div_eq_div_iff hd'.ne' two_ne_zero, one_mul, mul_comm]
    exact_mod_cast Iff.rfl
  have hle : ((n % d : ℕ) : ℚ) / d ≤ 1 / 2 ↔ 2 * (n % d) ≤ d := by
    rw [div_le_div_iff₀ hd' two_pos, one_mul, mul_comm]
    exact_mod_cast Iff.rfl
  have hrest : (0 : ℚ) ≤ ((n % d : ℕ) : ℚ) / d := by positivity
  unfold roundHalfEven
  dsimp only
  rw [hsplit]
  split_ifs with h
  -- Rounding down is off by the remainder, rounding up by what is missing to the divisor.
  · rw [sub_add_cancel_left, abs_neg, abs_of_nonneg hrest, hle, hhalf]
    exact ⟨by omega, by omega⟩
  · -- The quotient is behind the half, or at it with an odd number in front.
    have hbehind : (1 : ℚ) / 2 ≤ ((n % d : ℕ) : ℚ) / d := by
      rcases lt_or_ge (((n % d : ℕ) : ℚ) / d) (1 / 2) with hlt | hge
      · have := hle.mp hlt.le
        have := mt hhalf.mpr hlt.ne
        omega
      · exact hge
    push_cast
    rw [add_sub_add_left_eq_sub, abs_of_nonneg (by linarith)]
    refine ⟨by linarith, fun heq => ?_⟩
    have := hhalf.mp (by linarith)
    omega

namespace BinaryFormat

variable (f : BinaryFormat)

/-- The magnitude of a rank. -/
def valueAt (rank : ℕ) : ℚ := f.unitsAt rank / f.one

/-- A rank is nearest to a number if no other magnitude is nearer, and the rank is even where
another is equally near. -/
def Nearest (q : ℚ) (rank : ℕ) : Prop :=
  ∀ r ≠ rank, |f.valueAt rank - q| < |f.valueAt r - q| ∨
    |f.valueAt rank - q| = |f.valueAt r - q| ∧ rank % 2 = 0

/-- One is positive as a rational as well. -/
theorem one_pos_rat : (0 : ℚ) < f.one := by exact_mod_cast f.one_pos

/-- Magnitudes grow with their ranks. -/
theorem valueAt_lt (hf : 0 < f.precision) {r r' : ℕ} (h : r < r') : f.valueAt r < f.valueAt r' := by
  unfold valueAt
  exact div_lt_div_of_pos_right (by exact_mod_cast f.unitsAt_lt hf h) f.one_pos_rat

/-- No two ranks are nearest to one number. -/
theorem Nearest.unique {f : BinaryFormat} (hf : 0 < f.precision) {q : ℚ} {r r' : ℕ}
    (h : f.Nearest q r) (h' : f.Nearest q r') : r = r' := by
  wlog hlt : r < r' generalizing r r'
  · rcases Nat.lt_trichotomy r r' with hlt' | heq | hgt
    · exact absurd hlt' hlt
    · exact heq
    · exact (this h' h hgt).symm
  exfalso
  have hne := h r' hlt.ne'
  have hne' := h' r hlt.ne
  -- Both are equally near, so that the number lies in the middle between them.
  have htie : |f.valueAt r - q| = |f.valueAt r' - q| := by
    rcases hne with hcloser | ⟨heq, -⟩
    · rcases hne' with hcloser' | ⟨heq', -⟩
      · exact absurd (hcloser.trans hcloser') (lt_irrefl _)
      · exact heq'.symm
    · exact heq
  have hvalues := f.valueAt_lt hf hlt
  have heven : r % 2 = 0 := (hne.resolve_left htie.not_lt).2
  have heven' : r' % 2 = 0 := (hne'.resolve_left htie.symm.not_lt).2
  -- The odd rank behind the lower one is in between, and nearer.
  have hlow := f.valueAt_lt hf (Nat.lt_succ_self r)
  have hhigh := f.valueAt_lt hf (show r + 1 < r' by omega)
  have hmiddle : f.valueAt r + f.valueAt r' = 2 * q := by
    rcases abs_eq_abs.mp htie with heq | heq
    · linarith
    · linarith
  have hnearer : |f.valueAt (r + 1) - q| < |f.valueAt r - q| := by
    rw [abs_of_neg (show f.valueAt r - q < 0 by linarith), abs_lt]
    constructor <;> linarith
  rcases h (r + 1) (by omega) with hfar | ⟨hfar, -⟩
  · exact absurd (hnearer.trans hfar) (lt_irrefl _)
  · exact absurd hfar hnearer.ne'

/-- A significand that overflows its binade by one is the first of the next. -/
theorem unitsAt_add_le {s m : ℕ} (hm : m ≤ 2 * f.binade) (hfull : s = 0 ∨ f.binade ≤ m) :
    f.unitsAt (s * f.binade + m) = m * 2 ^ s := by
  rcases Nat.lt_or_ge m (2 * f.binade) with hlt | hge
  · exact f.unitsAt_add hlt hfull
  · have hb := f.binade_pos
    obtain rfl : m = 2 * f.binade := by omega
    have hnext := f.unitsAt_add (s := s + 1) (m := f.binade) (by omega) (.inr le_rfl)
    rw [show s * f.binade + 2 * f.binade = (s + 1) * f.binade + f.binade by ring, hnext]
    ring

/-- The magnitude behind a significand is one unit of it above, or more. -/
theorem le_unitsAt_succ {s m : ℕ} (hm : m ≤ 2 * f.binade) (hfull : s = 0 ∨ f.binade ≤ m) :
    (m + 1) * 2 ^ s ≤ f.unitsAt (s * f.binade + m + 1) := by
  have hb := f.binade_pos
  rcases Nat.lt_or_ge m (2 * f.binade) with hlt | hge
  · have hnext := f.unitsAt_add_le (s := s) (m := m + 1) (by omega) (by omega)
    rw [Nat.add_assoc, hnext]
  · obtain rfl : m = 2 * f.binade := by omega
    have hnext := f.unitsAt_add_le (s := s + 1) (m := f.binade + 1) (by omega) (by omega)
    rw [show s * f.binade + 2 * f.binade + 1 = (s + 1) * f.binade + (f.binade + 1) by ring, hnext,
      pow_succ]
    nlinarith [Nat.two_pow_pos s]

/-- The rank of a quotient, by its significand and the bits dropped behind that: how far it is from
the quotient, counted in units, and that the significand has its full length. -/
theorem exists_rank_significand (hf : 1 < f.precision) (n : ℕ) {d : ℕ} (hd : 0 < d) :
    ∃ s k, f.rank n d = s * f.binade + k ∧ k ≤ 2 * f.binade ∧ (s = 0 ∨ f.binade ≤ k) ∧
      (0 < s → (f.binade * 2 ^ s : ℚ) ≤ n * f.one / d) ∧
      |(k * 2 ^ s : ℚ) - n * f.one / d| ≤ 2 ^ s / 2 ∧
      (|(k * 2 ^ s : ℚ) - n * f.one / d| = 2 ^ s / 2 → f.rank n d % 2 = 0) := by
  have hd' : (0 : ℚ) < d := by exact_mod_cast hd
  have hhigh := f.lt_two_binades (by omega) (u := n * f.one) hd
  have hlow := f.binade_le (by omega) (u := n * f.one) hd
  rw [f.rank_eq]
  generalize f.dropped (n * f.one) d = s at *
  have hunit : 0 < d * 2 ^ s := Nat.mul_pos hd (Nat.two_pow_pos s)
  have hpow : (0 : ℚ) < 2 ^ s := by positivity
  -- The number of ranks in a binade is even, so that a rank is even where its significand is.
  have hbinade : f.binade % 2 = 0 := by
    obtain ⟨p, hp⟩ := Nat.exists_eq_add_of_le hf
    unfold binade
    rw [hp, show 1 + 1 + p - 1 = p + 1 by omega, pow_succ]
    exact Nat.mul_mod_left _ _
  obtain ⟨hnear, htie⟩ := roundHalfEven_nearest (n * f.one) hunit
  have hfull : s = 0 ∨ f.binade ≤ roundHalfEven (n * f.one) (d * 2 ^ s) := by
    rcases Nat.eq_zero_or_pos s with h0 | hpos
    · exact .inl h0
    · exact .inr (le_roundHalfEven hunit (hlow hpos))
  -- The significand is the quotient by the unit, so that its error is counted in units.
  refine ⟨s, _, rfl, roundHalfEven_le hunit hhigh.le, hfull, fun hpos => ?_, ?_⟩
  · rw [le_div_iff₀ hd']
    have hle : (f.binade * (d * 2 ^ s) : ℚ) ≤ n * f.one := by exact_mod_cast hlow hpos
    linarith
  · generalize roundHalfEven (n * f.one) (d * 2 ^ s) = k at *
    have hscale : (k * 2 ^ s : ℚ) - n * f.one / d =
        (k - ((n * f.one : ℕ) : ℚ) / ((d * 2 ^ s : ℕ) : ℚ)) * 2 ^ s := by
      push_cast
      field_simp
    rw [hscale, abs_mul, abs_of_pos hpow, show (2 ^ s / 2 : ℚ) = 1 / 2 * 2 ^ s by ring]
    refine ⟨mul_le_mul_of_nonneg_right hnear hpow.le, fun h => ?_⟩
    rw [Nat.add_mod, Nat.mul_mod, hbinade, htie (mul_right_cancel₀ hpow.ne' h)]
    simp

/-- Any other magnitude is half the last bit kept away from the quotient, or it is below the one
that the quotient was rounded down to. -/
theorem unitsAt_far (hf : 0 < f.precision) {s k r : ℕ} {x : ℚ} (hx : 0 ≤ x)
    (hk : k ≤ 2 * f.binade) (hfull : s = 0 ∨ f.binade ≤ k) (hlow : 0 < s → (f.binade * 2 ^ s : ℚ) ≤ x)
    (hnear : |(k * 2 ^ s : ℚ) - x| ≤ 2 ^ s / 2) (hr : r ≠ s * f.binade + k) :
    2 ^ s / 2 ≤ |(f.unitsAt r : ℚ) - x| ∨
      (f.unitsAt r : ℚ) < k * 2 ^ s ∧ (k * 2 ^ s : ℚ) ≤ x := by
  obtain ⟨hbelow, habove⟩ := abs_le.mp hnear
  have hpow : (0 : ℚ) < 2 ^ s := by positivity
  rcases Nat.lt_or_gt_of_ne hr with hless | hgreater
  · rcases le_or_gt (k * 2 ^ s : ℚ) x with hside | hside
    · -- The quotient was rounded down.
      refine .inr ⟨?_, hside⟩
      have hlt := f.unitsAt_lt hf hless
      rw [f.unitsAt_add_le hk hfull] at hlt
      exact_mod_cast hlt
    · -- It was rounded up, so that the rank below has as many bits dropped.
      obtain ⟨m, rfl⟩ : ∃ m, k = m + 1 := by
        refine Nat.exists_eq_succ_of_ne_zero ?_
        rintro rfl
        rw [Nat.cast_zero, zero_mul] at hside
        linarith
      have hfull' : s = 0 ∨ f.binade ≤ m := by
        rcases Nat.eq_zero_or_pos s with h0 | hpos
        · exact .inl h0
        · have hlt := lt_of_mul_lt_mul_right ((hlow hpos).trans_lt hside) hpow.le
          exact .inr (Nat.lt_succ_iff.mp (by exact_mod_cast hlt))
      have hle := f.unitsAt_mono hf (show r ≤ s * f.binade + m by omega)
      rw [f.unitsAt_add_le (by omega) hfull'] at hle
      have hle : (f.unitsAt r : ℚ) ≤ m * 2 ^ s := by exact_mod_cast hle
      push_cast at habove
      refine .inl (le_abs.mpr (.inr ?_))
      linarith
  · -- The rank above is a whole unit away from the significand.
    have hle := (f.le_unitsAt_succ hk hfull).trans (f.unitsAt_mono hf hgreater)
    have hle : ((k + 1) * 2 ^ s : ℚ) ≤ f.unitsAt r := by exact_mod_cast hle
    refine .inl (le_abs.mpr (.inl ?_))
    linarith

/-- Rounding gives the nearest magnitude. -/
theorem rank_nearest (hf : 1 < f.precision) (n : ℕ) {d : ℕ} (hd : 0 < d) :
    f.Nearest (n / d : ℚ) (f.rank n d) := by
  obtain ⟨s, k, hrank, hk, hfull, hlow, hnear, htie⟩ := f.exists_rank_significand hf n hd
  have hf' : 0 < f.precision := by omega
  have hone := f.one_pos_rat
  have hunits : (f.unitsAt (f.rank n d) : ℚ) = k * 2 ^ s := by
    rw [hrank, f.unitsAt_add_le hk hfull]
    push_cast
    rfl
  -- Distances are compared in units.
  have hdistance : ∀ r, |f.valueAt r - n / d| =
      |(f.unitsAt r : ℚ) - n * f.one / d| / f.one := by
    intro r
    have hsub : f.valueAt r - n / d = (f.unitsAt r - n * f.one / d) / f.one := by
      unfold valueAt
      field_simp
    rw [hsub, abs_div, abs_of_pos hone]
  intro r hr
  rw [hdistance, hdistance, hunits]
  rcases f.unitsAt_far hf' (by positivity) hk hfull hlow hnear (hrank ▸ hr) with hfar | ⟨hless, hside⟩
  · rcases (hnear.trans hfar).lt_or_eq with hlt | heq
    · exact .inl (div_lt_div_of_pos_right hlt hone)
    · exact .inr ⟨by rw [heq], htie (le_antisymm hnear (heq ▸ hfar))⟩
  · refine .inl (div_lt_div_of_pos_right ?_ hone)
    rw [abs_of_nonpos (by linarith), abs_of_nonpos (by linarith)]
    linarith

end BinaryFormat

namespace Double

/-- The doubles of one sign that are nearest to a magnitude. Past the finite magnitudes stands the
infinity. -/
inductive NearestTo (negative : Bool) (q : ℚ) : Double → Prop
  | finite {rank : Fin BinaryFormat.double.ranks} (h : BinaryFormat.double.Nearest q rank) :
    NearestTo negative q (.finite negative rank)
  | infinite {rank : ℕ} (hlarge : BinaryFormat.double.ranks ≤ rank)
    (h : BinaryFormat.double.Nearest q rank) : NearestTo negative q (.infinite negative)

/-- No two doubles of one sign are nearest to one number. -/
theorem NearestTo.unique {negative : Bool} {q : ℚ} {x y : Double} (hx : NearestTo negative q x)
    (hy : NearestTo negative q y) : x = y := by
  have hp := BinaryFormat.double_precision_pos
  cases hx with
  | finite h =>
    cases hy with
    | finite h' => rw [Fin.ext (h.unique hp h')]
    | infinite hlarge h' => exact absurd (h.unique hp h' ▸ hlarge) (Nat.not_le_of_lt (Fin.is_lt _))
  | infinite hlarge h =>
    cases hy with
    | finite h' => exact absurd (h.unique hp h' ▸ hlarge) (Nat.not_le_of_lt (Fin.is_lt _))
    | infinite => rfl

/-- The double of a nearest rank is nearest. -/
theorem nearestTo_ofRank {negative : Bool} {q : ℚ} {rank : ℕ}
    (h : BinaryFormat.double.Nearest q rank) : NearestTo negative q (ofRank negative rank) := by
  unfold ofRank
  split_ifs with hlt
  · exact .finite h
  · exact .infinite (Nat.le_of_not_lt hlt) h

/-- A decimal is read as the double nearest to it. -/
theorem nearestTo_ofDecimal (negative : Bool) (d : Decimal) :
    NearestTo negative d.value (ofDecimal negative d) := by
  rw [ofDecimal_eq_ofRatio, ← d.toRatio_value]
  exact nearestTo_ofRank (BinaryFormat.double.rank_nearest (by decide) _ d.toRatio_pos)

end Double

end TypedReads
