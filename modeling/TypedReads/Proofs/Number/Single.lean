import TypedReads.Number.Significant
import TypedReads.Proofs.Number.Double

/-!
# 32-bit numbers

A 32-bit number is stored as the double of the same value. Every 32-bit magnitude is a 64-bit one
(`BinaryFormat.unitsAt_widened`), so rounding to 32 bits a second time changes nothing
(`Double.toSingle_toSingle`), and the number that stands for a 32-bit one in text is rounded to it again
(`Double.toSingle_shortestSingle`). Numbers are compared without the sign of zero, which texts do not
show.
-/

namespace TypedReads

namespace BinaryFormat

/-- The unit of doubles is the smaller one. -/
theorem double_one : double.one = 2 ^ (double.scale - single.scale) * single.one := by
  unfold one
  rw [← pow_add, Nat.sub_add_cancel (by decide)]

/-- The magnitude of a 32-bit number is that of a double: no bit of its significand is dropped. -/
theorem unitsAt_widened (k : ℕ) :
    double.unitsAt (double.rank (single.unitsAt k) single.one) =
      single.unitsAt k * 2 ^ (double.scale - single.scale) := by
  obtain ⟨s, m, rfl, hm, hfull⟩ := single.exists_significand k
  rw [single.unitsAt_add hm hfull, mul_assoc, ← pow_add]
  generalize hshift : s + (double.scale - single.scale) = shift
  refine double.unitsAt_rank double_precision_pos single.one_pos ?_ ?_
  · rw [double_one, ← hshift, pow_add]
    ring
  · have hwide : m < 2 * double.binade := hm.trans_le (by decide)
    have hlow := double.binade_le double_precision_pos (u := m * 2 ^ shift) Nat.one_pos
    rw [one_mul] at hlow
    generalize double.dropped (m * 2 ^ shift) 1 = t at *
    have ht : t ≤ shift := by
      rcases Nat.eq_zero_or_pos t with rfl | hpos
      · exact Nat.zero_le _
      · exact double.le_of_binades (hlow hpos)
          (Nat.mul_lt_mul_of_pos_right hwide (Nat.two_pow_pos shift))
    exact Dvd.dvd.mul_left (Nat.pow_dvd_pow 2 ht) m

/-- A 32-bit magnitude, widened, is rounded to 32 bits as itself. -/
theorem rank_widened (k : ℕ) :
    single.rank (double.unitsAt (double.rank (single.unitsAt k) single.one)) double.one = k := by
  have hp : 0 < single.precision := by decide
  have hsame : single.unitsAt k * 2 ^ (double.scale - single.scale) * single.one =
      single.unitsAt k * double.one := by
    rw [double_one]
    ring
  rw [unitsAt_widened, single.rank_congr hp double.one_pos single.one_pos hsame, single.rank_unitsAt hp]

end BinaryFormat

namespace Double

/-- The double of a 32-bit magnitude is rounded to it again. -/
theorem toSingle_ofRatio (negative : Bool) {k : ℕ} (hk : k < BinaryFormat.single.ranks) :
    (ofRatio negative (BinaryFormat.single.unitsAt k) BinaryFormat.single.one).toSingle =
      ofRatio negative (BinaryFormat.single.unitsAt k) BinaryFormat.single.one := by
  have hrank := BinaryFormat.rank_widened k
  unfold ofRatio ofRank
  split_ifs with hlt
  · have hsingle : BinaryFormat.single.rank (magnitude ⟨_, hlt⟩) one = k := hrank
    rw [toSingle, hsingle, if_pos hk, ofRatio, ofRank, dif_pos hlt]
  · rfl

/-- A number that was rounded to 32 bits is not changed by rounding it again. -/
theorem toSingle_toSingle (x : Double) : x.toSingle.toSingle = x.toSingle := by
  cases x with
  | nan => rfl
  | infinite negative => rfl
  | finite negative rank =>
    rw [toSingle]
    split_ifs with hk
    · exact toSingle_ofRatio negative hk
    · rfl

/-- The zeros are the numbers that differ by a sign alone. -/
theorem withoutNegativeZero_of_eqv {x y : Double} (h : x.eqv y = true) :
    x.withoutNegativeZero = y.withoutNegativeZero := by
  rcases eq_or_zeros_of_eqv h with rfl | ⟨p, q, ⟨_, _⟩, ⟨_, _⟩, rfl, rfl, rfl, rfl⟩
  · rfl
  · cases p <;> cases q <;> rfl

/-- A second time there is no negative zero to be changed. -/
@[simp] theorem withoutNegativeZero_withoutNegativeZero (x : Double) :
    x.withoutNegativeZero.withoutNegativeZero = x.withoutNegativeZero := by
  unfold withoutNegativeZero
  split_ifs with hzero hagain
  · cases hagain
  · rfl
  · rfl

/-- Numbers that differ in the sign of zero at most are finite alike. -/
theorem isFinite_congr {x y : Double} (h : x.withoutNegativeZero = y.withoutNegativeZero) :
    x.isFinite = y.isFinite := by
  rw [← isFinite_withoutNegativeZero x, h, isFinite_withoutNegativeZero y]

/-- The two zeros are one integer. -/
@[simp] theorem toInt?_withoutNegativeZero (x : Double) :
    x.withoutNegativeZero.toInt? = x.toInt? := by
  unfold withoutNegativeZero
  split_ifs with hzero
  · rw [hzero]
    decide +kernel
  · rfl

/-- Rounding to 32 bits does not see the sign of zero. -/
theorem toSingle_congr {x y : Double} (h : x.withoutNegativeZero = y.withoutNegativeZero) :
    x.toSingle.withoutNegativeZero = y.toSingle.withoutNegativeZero := by
  have hkeeps : ∀ x : Double,
      x.withoutNegativeZero.toSingle.withoutNegativeZero = x.toSingle.withoutNegativeZero := by
    intro x
    by_cases hzero : x = .finite true ⟨0, by decide⟩
    · subst hzero
      decide +kernel
    · rw [show x.withoutNegativeZero = x from if_neg hzero]
  rw [← hkeeps x, h, hkeeps y]

/-- A number is finite if one that equals it is. -/
theorem isFinite_of_eqv {x y : Double} (h : x.eqv y = true) (hy : y.isFinite = true) :
    x.isFinite = true := by
  rcases eq_or_zeros_of_eqv h with rfl | ⟨p, q, ⟨_, _⟩, ⟨_, _⟩, rfl, rfl, -, -⟩
  · exact hy
  · rfl

/-- The number that stands for a finite one in text is finite. -/
theorem isFinite_shortestSingle {x : Double} (h : x.isFinite = true) :
    x.shortestSingle.isFinite = true := by
  unfold shortestSingle
  cases hfound : ((List.range' 1 9).map x.roundedTo).find? fun y => y.toSingle.eqv x with
  | none => exact h
  | some y =>
    have hsingle : y.toSingle.isFinite = true := isFinite_of_eqv (by simpa using List.find?_some hfound) h
    -- Only finite numbers have finite nearest 32-bit numbers.
    cases y with
    | nan => cases hsingle
    | infinite negative => cases hsingle
    | finite negative rank => rfl

/-- The number that stands for a 32-bit one in text is rounded to it, but for the sign of zero. -/
theorem toSingle_shortestSingle {x : Double} (h : x.toSingle = x) :
    x.shortestSingle.toSingle.withoutNegativeZero = x.withoutNegativeZero := by
  unfold shortestSingle
  cases hfound : ((List.range' 1 9).map x.roundedTo).find? fun y => y.toSingle.eqv x with
  | none => exact congrArg withoutNegativeZero h
  | some y => exact withoutNegativeZero_of_eqv (by simpa using List.find?_some hfound)

/-- Different ranks have different magnitudes. -/
theorem magnitude_injective {a b : Fin BinaryFormat.double.ranks} (h : magnitude a = magnitude b) :
    a = b := by
  rcases lt_trichotomy a.val b.val with hlt | heq | hgt
  · exact absurd h (magnitude_lt_iff.mpr hlt).ne
  · exact Fin.ext heq
  · exact absurd h (magnitude_lt_iff.mpr hgt).ne'

/-- A whole number is the double of the integer that it is, but for the sign of zero. -/
theorem withoutNegativeZero_ofInt {x : Double} {n : ℤ} (hx : x.toInt? = some n)
    (hn : n.natAbs ≤ 2 ^ 53) : (ofInt n).withoutNegativeZero = x.withoutNegativeZero := by
  obtain ⟨rank, hrank, -, horder⟩ := order?_of_toInt? hx
  obtain ⟨rank', hrank', -, horder'⟩ := order?_of_toInt? (toInt?_ofInt hn)
  obtain rfl := magnitude_injective (hrank'.trans hrank.symm)
  exact withoutNegativeZero_of_eqv (eqv_iff.mpr ⟨_, horder', horder⟩)

end Double

end TypedReads
