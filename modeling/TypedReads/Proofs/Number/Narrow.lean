import TypedReads.Number.Narrow
import TypedReads.Proofs.Number.Double

/-!
# Strict narrowing is exact

`IntegralKind.exact` is an integer as a value of a kind, present exactly in the kind's range. Strict
narrowing of an integer is this function (`narrowIntegral_strict`), and so is strict narrowing of a
finite double, at its integral part (`truncateFloating_strict`). What an integer of more than 64 bits
becomes on its way through a double is the subject of `truncateFloating_ofInt_strict`: only the
integers that round to `-2 ^ 63` from below are taken for it.
-/

namespace TypedReads

namespace IntegralKind

/-- An integer as a value of a kind: itself in the range of the kind, and nothing elsewhere. -/
def exact (kind : IntegralKind) (n : ℤ) : Option ℤ :=
  if kind.least ≤ n ∧ n ≤ kind.greatest then some n else none

/-- A kind holds the integers of its range. -/
theorem holds_iff (kind : IntegralKind) (n : ℤ) :
    kind.holds n = true ↔ kind.least ≤ n ∧ n ≤ kind.greatest := by
  unfold holds wrap
  rw [decide_eq_true_iff, Int.bmod_eq_iff (Nat.two_pow_pos _), sub_self]
  cases kind <;> simp [least, greatest, width] <;> omega

/-- But for the greatest magnitude, the integers of 64 bits are those below `2 ^ 63` in magnitude. -/
theorem holds_long_iff {i : ℤ} (h : i.natAbs ≠ 2 ^ 63) :
    IntegralKind.long.holds i = true ↔ i.natAbs < 2 ^ 63 := by
  rw [holds_iff]
  simp only [least, greatest, width]
  omega

/-- An integer in the range of a kind is not wrapped. -/
theorem wrap_of_holds {kind : IntegralKind} {n : ℤ} (h : kind.holds n = true) : kind.wrap n = n :=
  of_decide_eq_true h

/-- What an integer is wrapped to is in the range of the kind. -/
theorem holds_wrap (kind : IntegralKind) (n : ℤ) : kind.holds (kind.wrap n) = true :=
  decide_eq_true (Int.bmod_bmod ..)

/-- A kind narrower than 64 bits holds safe integers only. -/
theorem natAbs_lt_of_holds {kind : IntegralKind} (hkind : kind ≠ .long) {n : ℤ}
    (hn : kind.holds n = true) : n.natAbs < 2 ^ 53 := by
  rw [holds_iff] at hn
  cases kind with
  | long => exact absurd rfl hkind
  | _ =>
    simp only [least, greatest, width] at hn
    omega

/-- An integer is exact in a kind if the kind holds it. -/
theorem exact_eq (kind : IntegralKind) (n : ℤ) :
    kind.exact n = if kind.holds n then some n else none := by
  unfold exact
  simp only [holds_iff]

end IntegralKind

/-- Strict narrowing keeps an integer exactly in the range of its kind. -/
theorem narrowIntegral_strict (n : ℤ) (kind : IntegralKind) :
    narrowIntegral n kind .strict = kind.exact n := by
  unfold narrowIntegral
  rw [kind.exact_eq]
  by_cases h : kind.holds n = true
  · simp [h, IntegralKind.wrap_of_holds h]
  · simp [h]

/-- Strict narrowing of a finite double is that of its integral part. -/
theorem truncateFloating_strict {x : Double} (h : x.isFinite = true) (kind : IntegralKind) :
    truncateFloating x kind .strict = kind.exact (truncated x.value) := by
  unfold truncateFloating
  dsimp only
  rw [Double.trunc?_eq h, kind.exact_eq, Option.filter_some]

/-- Strict narrowing of a double that is an integer is that of the integer. -/
theorem truncateFloating_strict_of_toInt? {x : Double} {n : ℤ} (h : x.toInt? = some n)
    (kind : IntegralKind) : truncateFloating x kind .strict = kind.exact n := by
  rw [truncateFloating_strict (Double.isFinite_of_toInt? h), Double.value_of_toInt? h,
    truncated_intCast]

/-- The ranks about the edge of 64 bits: the doubles next to `2 ^ 63` stand `2048` apart above it and
`1024` below it, and a half goes to it. -/
theorem rank_about_edge :
    BinaryFormat.double.rank (2 ^ 63) 1 = 1086 * 2 ^ 52 ∧
      BinaryFormat.double.rank (2 ^ 63 - 512) 1 = 1086 * 2 ^ 52 ∧
      BinaryFormat.double.rank (2 ^ 63 + 1024) 1 = 1086 * 2 ^ 52 ∧
      BinaryFormat.double.rank (2 ^ 63 + 1025) 1 = 1086 * 2 ^ 52 + 1 := by
  decide +kernel

/-- The magnitudes of these ranks. -/
theorem unitsAt_about_edge :
    BinaryFormat.double.unitsAt (1086 * 2 ^ 52) = 2 ^ 63 * Double.one ∧
      BinaryFormat.double.unitsAt (1086 * 2 ^ 52 + 1) = (2 ^ 63 + 2048) * Double.one := by
  decide +kernel

/-- The integers that round to the edge. -/
theorem toInt?_ofInt_about_edge {n : ℤ} (hlow : 2 ^ 63 - 512 ≤ n.natAbs)
    (hhigh : n.natAbs ≤ 2 ^ 63 + 1024) :
    (Double.ofInt n).toInt? = some (if n < 0 then -2 ^ 63 else 2 ^ 63) := by
  obtain ⟨-, hrank, hrank', -⟩ := rank_about_edge
  obtain ⟨hunits, -⟩ := unitsAt_about_edge
  have heq : BinaryFormat.double.rank n.natAbs 1 = 1086 * 2 ^ 52 :=
    le_antisymm (hrank' ▸ Double.rank_le hhigh) (hrank ▸ Double.rank_le hlow)
  have hlt : 1086 * 2 ^ 52 < BinaryFormat.double.ranks := by decide
  have hmag : Double.magnitude ⟨_, hlt⟩ = 2 ^ 63 * Double.one := hunits
  have hfinite : Double.ofInt n = .finite (decide (n < 0)) ⟨_, hlt⟩ :=
    Double.ofRatio_eq_finite_iff.mpr heq
  rw [hfinite, Double.toInt?_finite hmag]
  simp only [decide_eq_true_eq]
  rfl

/-- The integers that round to `-2 ^ 63` from below. -/
theorem trunc?_ofInt_below_edge {n : ℤ} (hlow : -2 ^ 63 - 1024 ≤ n) (hhigh : n ≤ -2 ^ 63) :
    (Double.ofInt n).trunc? = some (-2 ^ 63) := by
  have hint := toInt?_ofInt_about_edge (n := n) (by omega) (by omega)
  rw [Double.trunc?_of_toInt? hint, if_pos (by omega)]

/-- An integer of more than 64 bits is taken for one of 64 bits only if it rounds to `-2 ^ 63`
from below. -/
theorem truncateFloating_ofInt_strict {n : ℤ} (h : IntegralKind.long.holds n = false)
    (kind : IntegralKind) :
    truncateFloating (Double.ofInt n) kind .strict =
      if kind = .long ∧ -2 ^ 63 - 1024 ≤ n ∧ n < 0 then some (-2 ^ 63) else none := by
  have hout : n < -2 ^ 63 ∨ 2 ^ 63 ≤ n := by
    rw [← Bool.not_eq_true, IntegralKind.holds_iff] at h
    simp only [IntegralKind.least, IntegralKind.greatest, IntegralKind.width] at h
    omega
  unfold truncateFloating
  dsimp only
  by_cases hedge : -2 ^ 63 - 1024 ≤ n ∧ n < 0
  · -- The edge itself is in the range of the widest kind alone.
    have hkind : kind.holds (-2 ^ 63) = decide (kind = .long) := by cases kind <;> decide
    rw [trunc?_ofInt_below_edge hedge.1 (by omega), Option.filter_some, hkind]
    simp only [hedge, decide_eq_true_eq, and_self, and_true]
  · -- All other integers round to a double that no kind holds.
    rw [if_neg fun hcon => hedge hcon.2]
    obtain ⟨hrank, -, -, hrank'⟩ := rank_about_edge
    obtain ⟨hunits, hunits'⟩ := unitsAt_about_edge
    rw [Option.filter_eq_none_iff]
    intro t ht hholds
    rw [IntegralKind.holds_iff] at hholds
    -- No kind is wider than 64 bits.
    have hrange : -2 ^ 63 ≤ t ∧ t < 2 ^ 63 := by
      cases kind <;>
        simp only [IntegralKind.least, IntegralKind.greatest, IntegralKind.width] at hholds <;>
        omega
    rcases hout with hneg | hpos
    · have hmono := Double.rank_le (show 2 ^ 63 + 1025 ≤ n.natAbs by omega)
      rw [hrank'] at hmono
      have := (Double.le_natAbs_trunc?_ofInt hunits' hmono ht).1
      omega
    · have hmono := Double.rank_le (show 2 ^ 63 ≤ n.natAbs by omega)
      rw [hrank] at hmono
      have := Double.le_natAbs_trunc?_ofInt hunits hmono ht
      omega

end TypedReads
