import TypedReads.Proofs.Number.Floating
import TypedReads.Proofs.Number.PowersOfTwo

/-!
# Texts of 32-bit numbers read back

The text of a finite 32-bit number is that of the first rounding to one, two, up to nine digits that is
read as the number: there always is one, so that the number itself never stands in for it
(`toSingleText_reads_back`). No numeral with fewer significant digits is read as the number, except for
three powers of two, which are shown with nine digits while a numeral with eight is read as well
(`shorter_numeral_iff`): only the decimal nearest to a number is tried, and below a power of two it may
be too far away where the next one above is not.
-/

namespace TypedReads

open BinaryFormat

/-- The number of significant digits of a numeral. -/
def Numeral.digitCount (n : Numeral) : ℕ := n.toDecimal.digitCount

/-- A numeral is read as a 32-bit number if the double that it spells is rounded to it. -/
def Numeral.ReadsBack (n : Numeral) (x : Double) : Prop := n.toDouble.toSingle.eqv x = true

namespace Double

/-- The two zeros have one order. -/
@[simp] theorem order?_withoutNegativeZero (x : Double) : x.withoutNegativeZero.order? = x.order? := by
  unfold withoutNegativeZero
  split_ifs with hzero
  · rw [hzero]
    rfl
  · rfl

/-- The sign of zero does not matter for what numbers are equal to. -/
theorem eqv_congr {x y : Double} (h : x.withoutNegativeZero = y.withoutNegativeZero) (z : Double) :
    x.eqv z = y.eqv z := by
  unfold eqv
  rw [← order?_withoutNegativeZero x, h, order?_withoutNegativeZero y]

/-- Only the number itself equals a number other than zero. -/
theorem eqv_iff_eq {negative : Bool} {rank : Fin double.ranks} (hzero : rank.val ≠ 0) {y : Double} :
    y.eqv (.finite negative rank) = true ↔ y = .finite negative rank := by
  constructor
  · intro h
    rcases eq_or_zeros_of_eqv h with heq | ⟨p, q, a, b, -, hb, -, hbzero⟩
    · exact heq
    · cases hb
      exact absurd hbzero hzero
  · rintro rfl
    exact eqv_iff.mpr ⟨_, rfl, rfl⟩

/-- A double at a rank is a finite one of its sign, or none. -/
theorem ofRank_eq_finite_iff' {negative negative' : Bool} {r : ℕ} {rank : Fin double.ranks} :
    ofRank negative' r = .finite negative rank ↔ negative' = negative ∧ r = rank.val := by
  constructor
  · intro h
    have hsign : negative' = negative := by
      unfold ofRank at h
      split_ifs at h
      cases h
      rfl
    subst hsign
    exact ⟨rfl, ofRank_eq_finite_iff.mp h⟩
  · rintro ⟨rfl, h⟩
    exact ofRank_eq_finite_iff.mpr h

/-- A finite 32-bit number has the magnitude of a 32-bit rank. -/
theorem exists_single_rank {x : Double} (hfinite : x.isFinite = true) (hsingle : x.toSingle = x) :
    ∃ negative rank k, x = .finite negative rank ∧ k < single.ranks ∧
      rank.val = double.rank (single.unitsAt k) single.one := by
  cases x with
  | nan => cases hfinite
  | infinite negative => cases hfinite
  | finite negative rank =>
    rw [toSingle] at hsingle
    split_ifs at hsingle with hk
    exact ⟨negative, rank, _, rfl, hk, (ofRatio_eq_finite_iff.mp hsingle).symm⟩

section Single

variable {negative : Bool} {rank : Fin double.ranks} {k : ℕ} (hk : k < single.ranks)
  (hrank : rank.val = double.rank (single.unitsAt k) single.one)
include hrank

/-- The magnitude of a 32-bit number is that of its units among the doubles. -/
theorem magnitude_single : magnitude rank = doubleUnits (single.unitsAt k) := by
  unfold magnitude
  rw [hrank, unitsAt_widened]
  rfl

/-- A 32-bit magnitude has a positive rank if its double has one. -/
theorem single_rank_pos (hzero : rank.val ≠ 0) : 0 < k := by
  by_contra hcon
  obtain rfl : k = 0 := by omega
  have hunits : single.unitsAt 0 = 0 := rfl
  rw [hrank, hunits, double.rank_zero double_precision_pos single.one_pos] at hzero
  exact hzero rfl

include hk

/-- A decimal is read as a 32-bit number if its sign is that of the number and its magnitude is read as the
magnitude. -/
theorem toSingle_ofDecimal_iff {negative' : Bool} {d : Decimal} :
    (ofDecimal negative' d).toSingle = .finite negative rank ↔
      negative' = negative ∧ ReadAsSingle d.value k := by
  have hp : 0 < single.precision := by decide
  rw [ofDecimal_eq_ofRatio, readAsSingle_iff_rank]
  unfold ofRatio
  generalize double.rank d.toRatio.1 d.toRatio.2 = r
  unfold ofRank
  split_ifs with hr
  · rw [toSingle]
    have hsame : single.rank (magnitude ⟨r, hr⟩) one = single.rank (double.unitsAt r) double.one := rfl
    rw [hsame]
    generalize single.rank (double.unitsAt r) double.one = l
    split_ifs with hl
    · -- Different 32-bit magnitudes are different doubles.
      unfold ofRatio
      rw [ofRank_eq_finite_iff', hrank]
      refine and_congr_right fun _ => ⟨fun h => ?_, fun h => by rw [h]⟩
      rw [← rank_widened l, h, rank_widened]
    · refine iff_of_false (fun h => by cases h) fun h => hl ?_
      rw [h.2]
      exact hk
  · -- Past the doubles there are no finite 32-bit numbers.
    refine iff_of_false (fun h => by cases h) fun h => ?_
    have hend : single.ranks ≤ single.rank (double.unitsAt double.ranks) double.one := by decide +kernel
    have hunits := double.unitsAt_mono double_precision_pos (not_lt.mp hr)
    have hmono := single.rank_mono hp double.one_pos double.one_pos (Nat.mul_le_mul_right _ hunits)
    rw [h.2] at hmono
    omega

variable (hzero : rank.val ≠ 0)
include hzero

/-- A rounding is accepted if it is read as the magnitude. -/
theorem accepted_iff {count : ℕ} :
    ((Double.finite negative rank).roundedTo count).toSingle.eqv (.finite negative rank) = true ↔
      ReadAsSingle (significant (doubleUnits (single.unitsAt k)) one count).value k := by
  rw [eqv_iff_eq hzero, roundedTo, if_neg hzero, magnitude_single hrank, toSingle_ofDecimal_iff hk hrank]
  exact and_iff_right rfl

/-- A numeral is read back if its sign is that of the number and its magnitude is read as the magnitude. -/
theorem readsBack_iff {n : Numeral} : n.ReadsBack (.finite negative rank) ↔
    n.negative = negative ∧ ReadAsSingle n.toDecimal.value k := by
  unfold Numeral.ReadsBack Numeral.toDouble
  rw [eqv_iff_eq hzero, toSingle_ofDecimal_iff hk hrank]

/-- Nine digits are accepted. -/
theorem accepted_nine :
    ((Double.finite negative rank).roundedTo 9).toSingle.eqv (.finite negative rank) = true := by
  rw [accepted_iff hk hrank hzero]
  have hkpos := single_rank_pos hrank hzero
  have hupos : 0 < doubleUnits (single.unitsAt k) := doubleUnits_pos <| by
    have := single.unitsAt_lt (by decide) hkpos
    omega
  have hvalue : (doubleUnits (single.unitsAt k) : ℚ) / one = single.valueAt k :=
    quotient_doubleUnits _
  have hspec := (significant_spec (doubleUnits (single.unitsAt k)) one_pos 9).1
  have hplace := (pointPlace_spec hupos one_pos).1
  have hnine := pow_mul_gridStep (doubleUnits (single.unitsAt k)) one 8 9
  rw [show pointPlace (doubleUnits (single.unitsAt k)) one - ((9 : ℕ) : ℤ) + ((8 : ℕ) : ℤ) =
    pointPlace (doubleUnits (single.unitsAt k)) one - 1 by push_cast; ring] at hnine
  rw [← hnine, hvalue] at hplace
  rw [hvalue] at hspec
  refine readAsSingle_of_near (Decimal.value_nonneg _) (hspec.trans ?_)
  push_cast at hplace
  linarith

end Single

/-- Zero is accepted at once. -/
theorem accepted_zero (negative : Bool) :
    ((Double.finite negative ⟨0, double_ranks_pos⟩).roundedTo 1).toSingle.eqv
      (.finite negative ⟨0, double_ranks_pos⟩) = true := by
  cases negative <;> decide +kernel

/-- The roundings are tried in their order, and one of them is accepted. -/
theorem exists_shortestSingle {x : Double} (hfinite : x.isFinite = true) (hsingle : x.toSingle = x) :
    ∃ count, 1 ≤ count ∧ count ≤ 9 ∧ (x.roundedTo count).toSingle.eqv x = true ∧
      (∀ c, 1 ≤ c → c < count → (x.roundedTo c).toSingle.eqv x = false) ∧
      x.shortestSingle = x.roundedTo count := by
  have haccepted : ∃ c, 1 ≤ c ∧ c ≤ 9 ∧ (x.roundedTo c).toSingle.eqv x = true := by
    obtain ⟨negative, rank, k, rfl, hk, hrank⟩ := exists_single_rank hfinite hsingle
    by_cases hzero : rank.val = 0
    · obtain rfl : rank = ⟨0, double_ranks_pos⟩ := Fin.ext hzero
      exact ⟨1, le_rfl, by norm_num, accepted_zero negative⟩
    · exact ⟨9, by norm_num, le_rfl, accepted_nine hk hrank hzero⟩
  unfold shortestSingle
  rw [List.find?_map]
  cases hfound : (List.range' 1 9).find? ((fun y => y.toSingle.eqv x) ∘ x.roundedTo) with
  | none =>
    obtain ⟨c, hlow, hhigh, hc⟩ := haccepted
    have hnone := List.find?_range'_eq_none.mp hfound c hlow (by omega)
    rw [Function.comp_apply, hc] at hnone
    cases hnone
  | some count =>
    obtain ⟨hcount, hmem, hfirst⟩ := List.find?_range'_eq_some.mp hfound
    rw [List.mem_range'_1] at hmem
    exact ⟨count, hmem.1, by omega, hcount,
      fun c hlow hlt => by simpa using hfirst c hlow hlt, rfl⟩

/-- The text of a finite 32-bit number is a numeral that is read back as it, as a literal too. -/
theorem exists_numeral {x y : Double} (hfinite : x.isFinite = true) (hy : y.toSingle.eqv x = true) :
    ∃ negative rank, y = .finite negative rank ∧ NumeralText y.toText (numeral negative rank) ∧
      (numeral negative rank).ReadsBack x ∧
      y.toText.floating? = some (numeral negative rank).toDouble := by
  have hsingle := isFinite_of_eqv hy hfinite
  cases y with
  | nan => cases hsingle
  | infinite negative => cases hsingle
  | finite negative rank =>
    have htext := numeralText_toText negative rank
    refine ⟨negative, rank, rfl, htext, ?_, htext.floating?⟩
    unfold Numeral.ReadsBack
    rw [toDouble_numeral, eqv_congr (toSingle_congr (withoutNegativeZero_withoutNegativeZero _)), hy]

section ShortestDecimal

variable {rank : Fin double.ranks}

/-- A decimal is accepted exactly if the double is nearest to it. -/
theorem accepts_iff {d : Decimal} : accepts rank d = true ↔ double.Nearest d.value rank := by
  unfold accepts
  rw [decide_eq_true_iff, ofDecimal_eq_ofRatio, ofRatio_eq_finite_iff,
    ← nearest_iff_rank double_precision _ d.toRatio_pos, d.toRatio_value]

/-- What is between the magnitude of a double and a decimal that is read as it, is read as it too. -/
theorem accepts_between {d d' : Decimal} (h : accepts rank d = true)
    (hbetween : d.value ≤ d'.value ∧ d'.value ≤ magnitude rank / one ∨
      (magnitude rank / one : ℚ) ≤ d'.value ∧ d'.value ≤ d.value) : accepts rank d' = true := by
  have hp := double_precision_pos
  have hself : double.Nearest (magnitude rank / one : ℚ) rank := nearest_valueAt hp rank
  obtain ⟨r, hr⟩ := exists_nearest double_precision d'.value_nonneg
  rw [accepts_iff] at h ⊢
  have hsame : r = rank.val := by
    rcases hbetween with ⟨hlow, hhigh⟩ | ⟨hlow, hhigh⟩
    · exact le_antisymm (hr.mono hp hself hhigh) (h.mono hp hr hlow)
    · exact le_antisymm (hr.mono hp h hhigh) (hself.mono hp hr hlow)
  exact hsame ▸ hr

/-- One of the two neighbours on a grid is read as a double, if any decimal with so few digits is. -/
theorem exists_accepted (hzero : rank.val ≠ 0) {d : Decimal} (h : accepts rank d = true) {count : ℕ}
    (hcount : d.digitCount ≤ count) :
    ∃ d', nearestAccepted (accepts rank) (magnitude rank) one count = some d' :=
  exists_nearestAccepted (magnitude_pos_iff.mpr (Nat.pos_of_ne_zero hzero)) one_pos hcount
    (fun _ hlow hhigh => accepts_between h (.inl ⟨hlow, hhigh⟩))
    fun _ hlow hhigh => accepts_between h (.inr ⟨hlow, hhigh⟩)

/-- A double is shown with more digits than a grid has on which neither neighbour is read as it. -/
theorem lt_digitCount_shortest (hzero : rank.val ≠ 0) {count : ℕ}
    (h : nearestAccepted (accepts rank) (magnitude rank) one count = none) :
    count < (shortest rank).digitCount := by
  by_contra hle
  have hshown : accepts rank (shortest rank) = true := decide_eq_true (ofDecimal_shortest false rank)
  obtain ⟨d, hd⟩ := exists_accepted hzero hshown (not_lt.mp hle)
  rw [h] at hd
  cases hd

/-- The decimal that a double is shown as has no more significant digits than any that is read as it. -/
theorem digitCount_shortest_le (hzero : rank.val ≠ 0) {d : Decimal} (h : accepts rank d = true)
    (hfew : d.digitCount ≤ 17) : (shortest rank).digitCount ≤ d.digitCount := by
  have hpos := magnitude_pos_iff.mpr (Nat.pos_of_ne_zero hzero)
  have hmem : d.digitCount ∈ List.range' 1 17 := by
    rw [List.mem_range'_1]
    have := d.digitCount_pos
    omega
  obtain ⟨d', hd'⟩ := exists_accepted hzero h le_rfl
  have hshortest : shortest rank = (((List.range' 1 17).findSome?
      (nearestAccepted (accepts rank) (magnitude rank) one)).getD (exactDecimal rank)).reduced := rfl
  cases hfound : (List.range' 1 17).findSome?
      (nearestAccepted (accepts rank) (magnitude rank) one) with
  | none => rw [List.findSome?_eq_none_iff.mp hfound _ hmem] at hd'; cases hd'
  | some found =>
    obtain ⟨before, count, after, hsplit, hcount, hnone⟩ := List.findSome?_eq_some_iff.mp hfound
    rw [hfound, Option.getD_some] at hshortest
    rw [hshortest, Decimal.digitCount_reduced]
    -- The counts are tried in their order.
    have hsorted : (before ++ count :: after).Pairwise (· < ·) := hsplit ▸ List.pairwise_lt_range'
    have hle : count ≤ d.digitCount := by
      rw [hsplit, List.mem_append, List.mem_cons] at hmem
      rcases hmem with hbefore | heq | hafter
      · rw [hnone _ hbefore] at hd'
        cases hd'
      · exact heq.ge
      · exact ((List.pairwise_cons.mp (List.pairwise_append.mp hsorted).2.1).1 _ hafter).le
    have hone : 0 < count := by
      have hcmem : count ∈ List.range' 1 17 := by rw [hsplit]; simp
      rw [List.mem_range'_1] at hcmem
      omega
    exact (digitCount_of_nearestAccepted hpos one_pos hone hcount).trans hle

/-- Zero has one digit, as a decimal and as a numeral. -/
theorem digitCount_zero : (shortest ⟨0, double_ranks_pos⟩).digitCount = 1 ∧
    (Numeral.mk false [0] none none).digitCount = 1 := by
  decide +kernel

/-- A numeral has the digits of the decimal that it lays out. -/
theorem digitCount_numeral (negative : Bool) (rank : Fin double.ranks) :
    (numeral negative rank).digitCount = (shortest rank).digitCount := by
  unfold Numeral.digitCount numeral
  by_cases hzero : rank.val = 0
  · obtain rfl : rank = ⟨0, double_ranks_pos⟩ := Fin.ext hzero
    rw [if_pos rfl, digitCount_zero.1]
    exact digitCount_zero.2
  · rw [if_neg hzero]
    exact Decimal.digitCount_congr ((toDecimal_layout_value negative (shownDigits_ne_nil rank)
      (shownPlace rank)).trans (shown_value rank))

end ShortestDecimal

section Exceptions

/-- The number of digits that a finite number is shown with. -/
def shownCount : Double → ℕ
  | .finite _ rank => (shortest rank).digitCount
  | _ => 0

/-- The powers of two that round wrong to eight digits, the decimals with eight digits that are read as
them, and the ranks of the doubles that their roundings to nine digits are read as. -/
def wrongPowers : List (ℕ × Decimal × Fin double.ranks) :=
  [(53, ⟨12621775, -36⟩, ⟨4174836854578324276, by decide⟩),
    (236, ⟨15474251, 19⟩, ⟨4998995586383850331, by decide⟩),
    (239, ⟨12379401, 20⟩, ⟨5012506385265961819, by decide⟩)]

/-- No rounding to eight digits or fewer is read as one of the powers, and no decimal with eight digits is
read as the double that stands for it. -/
theorem wrongPowers_table : ∀ p ∈ wrongPowers,
    (p.2.1.digitCount = 8 ∧
      single.rank (double.unitsAt (double.rank p.2.1.toRatio.1 p.2.1.toRatio.2)) double.one =
        single.rank (2 ^ p.1) single.one) ∧
    (∀ count ∈ List.range' 1 8,
      readsPower p.1 (powerSteps p.1 count) (nearestSteps (powerSteps p.1 count)) = false) ∧
    double.rank (significant (doubleUnits (2 ^ p.1)) one 9).toRatio.1
      (significant (doubleUnits (2 ^ p.1)) one 9).toRatio.2 = p.2.2 ∧
    p.2.2.val ≠ 0 ∧ (nearestAccepted (accepts p.2.2) (magnitude p.2.2) one 8).isNone := by
  decide +kernel

/-- A numeral of the digits and the exponent of a decimal. -/
def plainNumeral (negative : Bool) (d : Decimal) : Numeral :=
  ⟨negative, decimalDigits d.digits, none, some d.exponent⟩

/-- A plain numeral has the decimal that it was made of. -/
theorem toDecimal_plainNumeral (negative : Bool) (d : Decimal) :
    (plainNumeral negative d).toDecimal = d := by
  unfold plainNumeral Numeral.toDecimal
  simp [ofDigits_decimalDigits]

/-- A number that was rounded is shown with no more digits than it was rounded to. -/
theorem shownCount_le {negative : Bool} {rank : Fin double.ranks} (hzero : rank.val ≠ 0) {count : ℕ}
    (hlow : 1 ≤ count) (hhigh : count ≤ 9) :
    ((Double.finite negative rank).roundedTo count).shownCount ≤ count := by
  have hupos : 0 < magnitude rank := magnitude_pos_iff.mpr (Nat.pos_of_ne_zero hzero)
  have hdigits := digitCount_significant_le hupos one_pos hlow
  rw [roundedTo, if_neg hzero]
  generalize significant (magnitude rank) one count = d at *
  cases hy : ofDecimal negative d with
  | nan => exact Nat.zero_le _
  | infinite negative' => exact Nat.zero_le _
  | finite negative' rank' =>
    show (shortest rank').digitCount ≤ count
    by_cases hzero' : rank'.val = 0
    · obtain rfl : rank' = ⟨0, double_ranks_pos⟩ := Fin.ext hzero'
      rw [digitCount_zero.1]
      exact hlow
    · refine (digitCount_shortest_le hzero' ?_ (hdigits.trans (by omega))).trans hdigits
      rw [ofDecimal_eq_ofRatio, ofRatio, ofRank_eq_finite_iff'] at hy
      unfold accepts
      rw [decide_eq_true_iff, ofDecimal_eq_ofRatio, ofRatio_eq_finite_iff]
      exact hy.2

end Exceptions

section Shorter

variable {negative : Bool} {rank : Fin double.ranks} {k : ℕ} (hk : k < single.ranks)
  (hrank : rank.val = double.rank (single.unitsAt k) single.one) (hzero : rank.val ≠ 0)
include hrank

/-- The size of a 32-bit number is that of its units. -/
theorem abs_value_single : |(Double.finite negative rank).value| = single.unitsAt k / single.one := by
  rw [abs_value, magnitude_single hrank, quotient_doubleUnits]

/-- The three powers of two as numbers. -/
theorem power_iff : (∃ j ∈ [53, 236, 239], single.unitsAt k = 2 ^ j) ↔
    |(Double.finite negative rank).value| = 1 / 2 ^ 96 ∨
      |(Double.finite negative rank).value| = 2 ^ 87 ∨
      |(Double.finite negative rank).value| = 2 ^ 90 := by
  have hunits : ∀ j, single.unitsAt k = 2 ^ j ↔
      |(Double.finite negative rank).value| = 2 ^ j / single.one := fun j => by
    rw [abs_value_single hrank, div_left_inj' single.one_pos_rat.ne']
    exact_mod_cast Iff.rfl
  have hone : (single.one : ℚ) = 2 ^ 149 := by
    rw [show single.one = 2 ^ 149 from rfl, Nat.cast_pow, Nat.cast_ofNat]
  simp only [List.exists_mem_cons_iff, List.not_mem_nil, false_and, exists_false, or_false, hunits, hone]
  norm_num

include hk hzero

/-- A number that is shown with more digits than a numeral that is read back as it, is one of three powers
of two. -/
theorem power_of_shorter {count : ℕ} (hhigh : count ≤ 9)
    (hfirst : ∀ c, 1 ≤ c → c < count →
      ((Double.finite negative rank).roundedTo c).toSingle.eqv (.finite negative rank) = false)
    {n : Numeral} (hn : n.digitCount < count) (hback : n.ReadsBack (.finite negative rank)) :
    ∃ j ∈ [53, 236, 239], single.unitsAt k = 2 ^ j := by
  have hkpos := single_rank_pos hrank hzero
  have hcount : 0 < n.digitCount := n.toDecimal.digitCount_pos
  have hread := ((readsBack_iff hk hrank hzero).mp hback).2
  have hfewer : n.toDecimal.digitCount ≤ count - 1 := Nat.le_sub_one_of_lt hn
  rcases significant_of_read hkpos hk hfewer (by omega) hread with hnear | ⟨-, hpower⟩
  · -- The loop would have stopped before.
    have haccepted := (@accepted_iff negative rank k hk hrank hzero (count - 1)).mpr hnear
    rw [hfirst (count - 1) (by omega) (by omega)] at haccepted
    cases haccepted
  · exact hpower

/-- A number that no rounding to fewer digits is read as is shown as its rounding to nine digits. -/
theorem shortestSingle_eq_roundedTo_nine
    (hnone : ∀ count ∈ List.range' 1 8,
      ¬ ReadAsSingle (significant (doubleUnits (single.unitsAt k)) one count).value k) :
    (Double.finite negative rank).shortestSingle = (Double.finite negative rank).roundedTo 9 := by
  have hself : ofRatio negative (single.unitsAt k) single.one = .finite negative rank := by
    rw [ofRatio_eq_finite_iff, hrank]
  have hsingle : (Double.finite negative rank).toSingle = .finite negative rank := by
    rw [← hself]
    exact toSingle_ofRatio negative hk
  obtain ⟨count, hlow, hhigh, haccepted, -, hshortest⟩ := exists_shortestSingle rfl hsingle
  rcases hhigh.lt_or_eq with hless | rfl
  · have hmem : count ∈ List.range' 1 8 := by
      rw [List.mem_range'_1]
      omega
    exact absurd ((accepted_iff hk hrank hzero).mp haccepted) (hnone count hmem)
  · exact hshortest

/-- One of the three powers of two is shown with more digits than the eight of a decimal that is read as
it. -/
theorem exists_shorter {j : ℕ} (hj : j ∈ [53, 236, 239]) (hpower : single.unitsAt k = 2 ^ j) :
    8 < (Double.finite negative rank).shortestSingle.shownCount ∧
      ∃ n : Numeral, n.digitCount = 8 ∧ n.ReadsBack (.finite negative rank) := by
  obtain ⟨d, nine, hd⟩ : ∃ d nine, (j, d, nine) ∈ wrongPowers := by
    simp only [List.mem_cons, List.not_mem_nil, or_false] at hj
    rcases hj with rfl | rfl | rfl
    · exact ⟨_, _, List.mem_cons_self⟩
    · exact ⟨_, _, List.mem_cons_of_mem _ List.mem_cons_self⟩
    · exact ⟨_, _, List.mem_cons_of_mem _ (List.mem_cons_of_mem _ List.mem_cons_self)⟩
  obtain ⟨⟨height, hread⟩, hwrong, hnine, hpos, hnone⟩ := wrongPowers_table _ hd
  have hrange : j ∈ List.range' 1 276 := by
    simp only [List.mem_cons, List.not_mem_nil, or_false] at hj
    rw [List.mem_range'_1]
    omega
  constructor
  -- None of the first eight roundings reads back, so the ninth is shown.
  · have hshown : (Double.finite negative rank).shortestSingle = .finite negative nine := by
      rw [shortestSingle_eq_roundedTo_nine hk hrank hzero, roundedTo, if_neg hzero,
        magnitude_single hrank, hpower, ofDecimal_eq_ofRatio, ofRatio_eq_finite_iff]
      · exact hnine
      · intro count hcount hcon
        rw [hpower, ← significant_power_iff hrange hpower, hwrong count hcount] at hcon
        cases hcon
    rw [hshown]
    exact lt_digitCount_shortest hpos (Option.isNone_iff_eq_none.mp hnone)
  -- The decimal of the table has eight digits and is read as the number.
  · refine ⟨plainNumeral negative d, ?_, ?_⟩
    · unfold Numeral.digitCount
      rw [toDecimal_plainNumeral, height]
    · rw [readsBack_iff hk hrank hzero, toDecimal_plainNumeral, readAsSingle_iff_rank, hread, ← hpower]
      exact ⟨rfl, single.rank_unitsAt (by decide) k⟩

end Shorter

end Double

/-- The text of a finite 32-bit number is that of its first rounding to `count` digits that is read as the
number, for a count of nine at most; so the search never ends without one. The text is a numeral that is
read back as the number. -/
theorem toSingleText_reads_back {x : Double} (hfinite : x.isFinite = true) (hsingle : x.toSingle = x) :
    ∃ count, 1 ≤ count ∧ count ≤ 9 ∧ (x.roundedTo count).toSingle.eqv x = true ∧
      (∀ c, 1 ≤ c → c < count → (x.roundedTo c).toSingle.eqv x = false) ∧
      x.toSingleText = (x.roundedTo count).toText ∧
      ∃ n : Numeral, NumeralText x.toSingleText n ∧ n.ReadsBack x ∧
        x.toSingleText.floating? = some n.toDouble := by
  obtain ⟨count, hlow, hhigh, hcount, hfirst, hshortest⟩ :=
    Double.exists_shortestSingle hfinite hsingle
  obtain ⟨negative, rank, -, htext, hback, hread⟩ := Double.exists_numeral hfinite hcount
  have hshown : x.toSingleText = (x.roundedTo count).toText := congrArg Double.toText hshortest
  rw [hshown]
  exact ⟨count, hlow, hhigh, hcount, hfirst, rfl, _, htext, hback, hread⟩

/-- The least positive 32-bit number. -/
def leastSingle : Double := Double.ofRatio false 1 (2 ^ 149)

/-- The least 32-bit number has a text of at most nine digits, which reads back as the number. -/
theorem leastSingle_reads_back : leastSingle.isFinite = true ∧ leastSingle.toSingle = leastSingle ∧
    ∃ count, 1 ≤ count ∧ count ≤ 9 ∧ leastSingle.toSingleText = (leastSingle.roundedTo count).toText ∧
      ∃ n : Numeral, NumeralText leastSingle.toSingleText n ∧ n.ReadsBack leastSingle := by
  have hleast : 1 < single.ranks := by decide
  have hself : leastSingle = Double.ofRatio false (single.unitsAt 1) single.one := by
    rw [leastSingle, show single.unitsAt 1 = 1 by decide, show single.one = 2 ^ 149 from rfl]
  have hfinite : leastSingle.isFinite = true := by
    rw [hself]
    exact Double.isFinite_ofRatio_single false hleast
  have hsingle : leastSingle.toSingle = leastSingle := by
    rw [hself]
    exact Double.toSingle_ofRatio false hleast
  obtain ⟨count, hlow, hhigh, -, -, htext, n, hn, hback, -⟩ := toSingleText_reads_back hfinite hsingle
  exact ⟨hfinite, hsingle, count, hlow, hhigh, htext, n, hn, hback⟩

/-- No numeral with fewer significant digits than the text of a finite 32-bit number other than zero is read
back as the number, except for those of three magnitudes: these are shown with nine digits, and there are
numerals with eight. -/
theorem shorter_numeral_iff {x : Double} (hfinite : x.isFinite = true) (hsingle : x.toSingle = x)
    (hzero : x.value ≠ 0) :
    ∃ n : Numeral, NumeralText x.toSingleText n ∧ n.ReadsBack x ∧
      ((∃ n' : Numeral, n'.digitCount < n.digitCount ∧ n'.ReadsBack x) ↔
        |x.value| = 1 / 2 ^ 96 ∨ |x.value| = 2 ^ 87 ∨ |x.value| = 2 ^ 90) := by
  obtain ⟨count, hlow, hhigh, hcount, hfirst, hshortest⟩ :=
    Double.exists_shortestSingle hfinite hsingle
  obtain ⟨negative', rank', hy, htext, hback, -⟩ := Double.exists_numeral hfinite hcount
  obtain ⟨negative, rank, k, rfl, hk, hrank⟩ := Double.exists_single_rank hfinite hsingle
  have hrzero : rank.val ≠ 0 := by
    intro hcon
    obtain rfl : rank = ⟨0, double_ranks_pos⟩ := Fin.ext hcon
    have hmagnitude : Double.magnitude ⟨0, double_ranks_pos⟩ = 0 := rfl
    exact hzero (abs_eq_zero.mp (by rw [Double.abs_value, hmagnitude, Nat.cast_zero, zero_div]))
  -- The digits shown are those of the first rounding that reads back.
  have hshown : (Double.finite negative rank).toSingleText =
      ((Double.finite negative rank).roundedTo count).toText := congrArg Double.toText hshortest
  have hdigits : (Double.numeral negative' rank').digitCount =
      ((Double.finite negative rank).roundedTo count).shownCount := by
    rw [hy, Double.digitCount_numeral]
    rfl
  refine ⟨_, hshown ▸ htext, hback, ?_⟩
  rw [← Double.power_iff hrank, hdigits]
  constructor
  · rintro ⟨n, hn, hread⟩
    exact Double.power_of_shorter hk hrank hrzero hhigh hfirst
      (hn.trans_le (Double.shownCount_le hrzero hlow hhigh)) hread
  · rintro ⟨j, hj, hpower⟩
    obtain ⟨hmore, n, hn, hread⟩ := Double.exists_shorter hk hrank hrzero hj hpower
    rw [hshortest] at hmore
    exact ⟨n, hn ▸ hmore, hread⟩

/-- The number `2 ^ (-96)`. -/
def thinPower : Double := Double.ofRatio false 1 (2 ^ 96)

/-- The text of the power of two reads back as it, and so does a numeral with fewer digits. -/
theorem thinPower_has_shorter :
    thinPower.isFinite = true ∧ thinPower.toSingle = thinPower ∧ thinPower.value ≠ 0 ∧
      ∃ n n' : Numeral, NumeralText thinPower.toSingleText n ∧ n.ReadsBack thinPower ∧
        n'.digitCount < n.digitCount ∧ n'.ReadsBack thinPower := by
  have hless : 31 * single.binade < single.ranks := by decide
  have hself : thinPower = Double.ofRatio false (single.unitsAt (31 * single.binade)) single.one := by
    rw [thinPower, show single.unitsAt (31 * single.binade) = 2 ^ 53 by decide]
    exact Double.ofRatio_congr false (by norm_num) single.one_pos (by decide)
  have hfinite : thinPower.isFinite = true := by
    rw [hself]
    exact Double.isFinite_ofRatio_single false hless
  have hsingle : thinPower.toSingle = thinPower := by
    rw [hself]
    exact Double.toSingle_ofRatio false hless
  have hvalue : thinPower.value = 1 / 2 ^ 96 := by decide +kernel
  have habs : |thinPower.value| = 1 / 2 ^ 96 := by rw [hvalue, abs_of_pos (by positivity)]
  have hzero : thinPower.value ≠ 0 := by rw [hvalue]; positivity
  obtain ⟨n, htext, hback, hshorter⟩ := shorter_numeral_iff hfinite hsingle hzero
  obtain ⟨n', hfewer, hback'⟩ := hshorter.mpr (.inl habs)
  exact ⟨hfinite, hsingle, hzero, n, n', htext, hback, hfewer, hback'⟩

end TypedReads
