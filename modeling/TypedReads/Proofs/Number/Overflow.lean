import TypedReads.Proofs.Number.Nearest

/-!
# Where rounding overflows

Rounding gives a finite magnitude to exactly the numbers below `BinaryFormat.overflowAt`, which is in the
middle between the greatest finite magnitude and the one that would come next (`Nearest.lt_iff`).
The middle itself overflows, since the greatest finite magnitude has an odd rank. So a double is infinite
from `2 ^ 1024 - 2 ^ 970` on (`Double.NearestTo.isFinite_iff`), and a 32-bit number from
`2 ^ 128 - 2 ^ 103` on (`Double.isFinite_toSingle_iff`).
-/

namespace TypedReads

section Middle

variable {a b q : ℚ}

/-- Of two numbers the lower one is nearer to what is in front of their middle. -/
theorem abs_sub_lt_abs_sub_iff (h : a < b) : |a - q| < |b - q| ↔ q < (a + b) / 2 := by
  have hprod : (b - q) ^ 2 - (a - q) ^ 2 = 2 * (b - a) * ((a + b) / 2 - q) := by ring
  rw [← sq_lt_sq, ← sub_pos, hprod, mul_pos_iff_of_pos_left (by linarith), sub_pos]

/-- What it is as near to, at least, is in front of the middle or there. -/
theorem abs_sub_le_abs_sub_iff (h : a < b) : |a - q| ≤ |b - q| ↔ q ≤ (a + b) / 2 := by
  have hprod : (b - q) ^ 2 - (a - q) ^ 2 = 2 * (b - a) * ((a + b) / 2 - q) := by ring
  rw [← sq_le_sq, ← sub_nonneg, hprod, mul_nonneg_iff_of_pos_left (by linarith), sub_nonneg]

end Middle

namespace BinaryFormat

variable {f : BinaryFormat} {q : ℚ} {r k : ℕ}

/-- No magnitude is nearer than that of a nearest rank. -/
theorem Nearest.abs_le (h : f.Nearest q r) (r' : ℕ) : |f.valueAt r - q| ≤ |f.valueAt r' - q| := by
  by_cases hr : r' = r
  · rw [hr]
  · rcases h r' hr with hlt | ⟨heq, -⟩
    · exact hlt.le
    · exact heq.le

/-- The last rank in front of an even one takes the numbers up to the middle between them, without the
middle. -/
theorem Nearest.lt_iff (hf : 0 < f.precision) (h : f.Nearest q r) (hk : 0 < k) (heven : k % 2 = 0) :
    r < k ↔ q < (f.valueAt (k - 1) + f.valueAt k) / 2 := by
  have hstep := f.valueAt_lt hf (show k - 1 < k by omega)
  constructor
  · intro hlt
    rcases (show r ≤ k - 1 by omega).lt_or_eq with hless | rfl
    · have hvalues := f.valueAt_lt hf hless
      have hmiddle := (abs_sub_le_abs_sub_iff hvalues).mp (h.abs_le (k - 1))
      linarith
    · -- An odd rank wins no tie.
      have hnear := (h k (by omega)).resolve_right fun htie => by omega
      exact (abs_sub_lt_abs_sub_iff hstep).mp hnear
  · intro hq
    have hnear := (abs_sub_lt_abs_sub_iff hstep).mpr hq
    by_contra hge
    rcases (not_lt.mp hge).lt_or_eq with hless | rfl
    · have hvalues := f.valueAt_lt hf hless
      have hmiddle := mt (abs_sub_lt_abs_sub_iff hvalues).mpr (h.abs_le k).not_gt
      linarith
    · exact (h.abs_le (k - 1)).not_gt hnear

/-- The middle between the greatest finite magnitude and the one that would come next. -/
def overflowAt (f : BinaryFormat) : ℚ := (f.valueAt (f.ranks - 1) + f.valueAt f.ranks) / 2

/-- Where the magnitudes about the end of the finite ones are powers of two and a step below that, so is
the middle between them. -/
theorem overflowAt_eq {n m : ℕ} (hend : f.unitsAt f.ranks = 2 ^ n * f.one)
    (hlast : f.unitsAt (f.ranks - 1) + 2 ^ (m + 1) * f.one = 2 ^ n * f.one) :
    f.overflowAt = 2 ^ n - 2 ^ m := by
  have hone := f.one_pos_rat.ne'
  have hend : (f.unitsAt f.ranks : ℚ) = 2 ^ n * f.one := by exact_mod_cast hend
  have hlast : (f.unitsAt (f.ranks - 1) : ℚ) = (2 ^ n - 2 ^ (m + 1)) * f.one := by
    rw [sub_mul, eq_sub_iff_add_eq]
    exact_mod_cast hlast
  unfold overflowAt valueAt
  rw [hend, hlast, mul_div_cancel_right₀ _ hone, mul_div_cancel_right₀ _ hone, pow_succ]
  ring

/-- Doubles overflow half a step above the greatest. -/
theorem overflowAt_double : double.overflowAt = 2 ^ 1024 - 2 ^ 970 :=
  overflowAt_eq (by decide +kernel) (by decide +kernel)

/-- So do 32-bit numbers. -/
theorem overflowAt_single : single.overflowAt = 2 ^ 128 - 2 ^ 103 :=
  overflowAt_eq (by decide +kernel) (by decide +kernel)

end BinaryFormat

namespace Double

/-- A double nearest to a number is finite exactly if the number is below `2 ^ 1024 - 2 ^ 970`. -/
theorem NearestTo.isFinite_iff {negative : Bool} {q : ℚ} {x : Double} (h : NearestTo negative q x) :
    x.isFinite = true ↔ q < 2 ^ 1024 - 2 ^ 970 := by
  have hp := BinaryFormat.double_precision_pos
  have hrank := BinaryFormat.double_ranks_pos
  rw [← BinaryFormat.overflowAt_double]
  cases h with
  | finite h => exact iff_of_true rfl ((h.lt_iff hp hrank (by decide)).mp (Fin.is_lt _))
  | infinite hlarge h =>
    exact iff_of_false Bool.false_ne_true (mt (h.lt_iff hp hrank (by decide)).mpr hlarge.not_gt)

/-- One that is not finite is the infinity of the sign. -/
theorem NearestTo.eq_infinite {negative : Bool} {q : ℚ} {x : Double} (h : NearestTo negative q x)
    (hq : 2 ^ 1024 - 2 ^ 970 ≤ q) : x = .infinite negative := by
  have hfinite := mt h.isFinite_iff.mp hq.not_gt
  cases h with
  | finite => exact absurd rfl hfinite
  | infinite => rfl

/-- The magnitude of a finite double. -/
theorem abs_value (negative : Bool) (rank : Fin BinaryFormat.double.ranks) :
    |(Double.finite negative rank).value| = (magnitude rank : ℚ) / one := by
  have hnonneg : (0 : ℚ) ≤ (magnitude rank : ℚ) / one := by positivity
  cases negative with
  | false => exact abs_of_nonneg hnonneg
  | true => exact (abs_neg _).trans (abs_of_nonneg hnonneg)

/-- A finite double is nearest to its own magnitude. -/
theorem nearestTo_abs_value (negative : Bool) (rank : Fin BinaryFormat.double.ranks) :
    NearestTo negative |(Double.finite negative rank).value| (.finite negative rank) := by
  have hself := BinaryFormat.double.rank_nearest (by decide) (magnitude rank) one_pos
  have hrank : BinaryFormat.double.rank (magnitude rank) one = rank.val :=
    BinaryFormat.double.rank_unitsAt BinaryFormat.double_precision_pos rank
  rw [abs_value]
  rw [hrank] at hself
  exact .finite hself

/-- A finite 32-bit magnitude is that of a finite double. -/
theorem isFinite_ofRatio_single (negative : Bool) {k : ℕ} (hk : k < BinaryFormat.single.ranks) :
    (ofRatio negative (BinaryFormat.single.unitsAt k) BinaryFormat.single.one).isFinite = true := by
  have hend : BinaryFormat.double.rank (BinaryFormat.single.unitsAt BinaryFormat.single.ranks)
      BinaryFormat.single.one < BinaryFormat.double.ranks := by decide +kernel
  have hunits := BinaryFormat.single.unitsAt_mono (by decide) hk.le
  have hrank := BinaryFormat.double.rank_mono BinaryFormat.double_precision_pos
    BinaryFormat.single.one_pos BinaryFormat.single.one_pos (Nat.mul_le_mul_right _ hunits)
  unfold ofRatio ofRank
  rw [dif_pos (hrank.trans_lt hend)]
  rfl

/-- A finite double is rounded to a finite 32-bit number exactly below `2 ^ 128 - 2 ^ 103`. -/
theorem isFinite_toSingle_iff {x : Double} (h : x.isFinite = true) :
    x.toSingle.isFinite = true ↔ |x.value| < 2 ^ 128 - 2 ^ 103 := by
  cases x with
  | nan => cases h
  | infinite negative => cases h
  | finite negative rank =>
    have hnearest := BinaryFormat.single.rank_nearest (by decide) (magnitude rank) one_pos
    have hiff := hnearest.lt_iff (k := BinaryFormat.single.ranks) (by decide) (by decide) (by decide)
    rw [abs_value, ← BinaryFormat.overflowAt_single]
    unfold BinaryFormat.overflowAt
    rw [← hiff, toSingle]
    split_ifs with hlt
    · exact iff_of_true (isFinite_ofRatio_single negative hlt) hlt
    · exact iff_of_false Bool.false_ne_true hlt

end Double

end TypedReads
