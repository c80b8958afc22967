import Mathlib.Data.Rat.Floor
import TypedReads.Number.Double
import TypedReads.Proofs.Number.Rounding

/-!
# Exact values of doubles

`Double.value` is the number that a finite double stands for, and `truncated` the integral part of
a number; `Double.trunc?_eq` says that a double drops its fraction exactly, and `Double.le_iff_value`
that numeric order is the order of the exact values. Integers up to `2 ^ 53` in magnitude keep their
value as doubles (`Double.toInt?_ofInt`), and the double nearest to a quotient depends on the quotient
alone (`Double.ofRatio_congr`).

Beyond that bound rounding may move an integer, but never past a whole double nearer to zero
(`Double.le_natAbs_trunc?_ofInt`).
-/

namespace TypedReads

/-- A double has bits. -/
theorem BinaryFormat.double_precision_pos : 0 < BinaryFormat.double.precision := by decide

/-- There are doubles. -/
theorem BinaryFormat.double_ranks_pos : 0 < BinaryFormat.double.ranks := by decide

/-- The integral part of a number, on the side of zero. -/
def truncated (q : ℚ) : ℤ := if 0 ≤ q then ⌊q⌋ else ⌈q⌉

/-- What is not negative is truncated downwards. -/
theorem truncated_of_nonneg {q : ℚ} (h : 0 ≤ q) : truncated q = ⌊q⌋ := if_pos h

/-- Below zero the integral part is that of the magnitude. -/
theorem truncated_neg {q : ℚ} (h : 0 ≤ q) : truncated (-q) = -⌊q⌋ := by
  unfold truncated
  rcases h.eq_or_lt with hzero | hpos
  · rw [← hzero, neg_zero, if_pos le_rfl, Int.floor_zero, neg_zero]
  · rw [if_neg (by linarith), Int.ceil_neg]

/-- An integer is its own integral part. -/
theorem truncated_intCast (n : ℤ) : truncated n = n := by
  unfold truncated
  rw [Int.floor_intCast, Int.ceil_intCast, ite_self]

/-- Integral parts are in the order of the numbers. -/
theorem truncated_mono {p q : ℚ} (h : p ≤ q) : truncated p ≤ truncated q := by
  unfold truncated
  split_ifs with hp hq hq
  · exact Int.floor_mono h
  · exact absurd (hp.trans h) hq
  · calc ⌈p⌉ ≤ 0 := Int.ceil_le.mpr (by push_cast; linarith)
      _ ≤ ⌊q⌋ := Int.le_floor.mpr (by push_cast; exact hq)
  · exact Int.ceil_mono h

/-- A number below a positive integer has its integral part below it. -/
theorem truncated_lt {q : ℚ} {n : ℤ} (hn : 0 < n) (h : q < n) : truncated q < n := by
  unfold truncated
  split_ifs with hq
  · exact Int.floor_lt.mpr h
  · exact lt_of_le_of_lt (Int.ceil_le.mpr (by push_cast; linarith)) hn

/-- A sign does not change a magnitude. -/
theorem natAbs_signed (negative : Bool) (m : ℕ) :
    (if negative then -(m : ℤ) else m).natAbs = m := by
  split_ifs
  · rw [Int.natAbs_neg, Int.natAbs_natCast]
  · rw [Int.natAbs_natCast]

namespace Double

/-- The safe integers are those below `2 ^ 53` in magnitude. -/
theorem safe_iff (i : ℤ) : -safeBound ≤ i ∧ i ≤ safeBound ↔ i.natAbs < 2 ^ 53 := by
  unfold safeBound
  omega

/-- The number that a finite double stands for; zero for the others, which stand for none. -/
def value : Double → ℚ
  | .finite negative rank =>
    if negative then -((magnitude rank : ℚ) / one) else (magnitude rank : ℚ) / one
  | _ => 0

/-- The number of units in one is positive. -/
theorem one_pos : 0 < one := BinaryFormat.one_pos _

/-- A finite double drops its fraction exactly. -/
theorem trunc?_eq {x : Double} (h : x.isFinite = true) : x.trunc? = some (truncated x.value) := by
  cases x with
  | nan => cases h
  | infinite negative => cases h
  | finite negative rank =>
    have hfloor : ⌊(magnitude rank : ℚ) / one⌋ = ((magnitude rank / one : ℕ) : ℤ) := by
      rw [Rat.floor_natCast_div_natCast]
      norm_cast
    have hnonneg : (0 : ℚ) ≤ (magnitude rank : ℚ) / one := by positivity
    unfold trunc? truncMagnitude value
    dsimp only
    cases negative with
    | false =>
      rw [if_neg Bool.false_ne_true, if_neg Bool.false_ne_true, truncated_of_nonneg hnonneg, hfloor]
    | true => rw [if_pos rfl, if_pos rfl, truncated_neg hnonneg, hfloor]

/-- Equal quotients have the same nearest double. -/
theorem ofRatio_congr (negative : Bool) {n d n' d' : ℕ} (hd : 0 < d) (hd' : 0 < d')
    (h : n * d' = n' * d) : ofRatio negative n d = ofRatio negative n' d' := by
  unfold ofRatio
  rw [BinaryFormat.double.rank_congr BinaryFormat.double_precision_pos hd hd' h]

/-- The double at a rank is the finite one exactly if the rank is that of a finite magnitude. -/
theorem ofRank_eq_finite_iff {negative : Bool} {k : ℕ} {rank : Fin BinaryFormat.double.ranks} :
    ofRank negative k = .finite negative rank ↔ k = rank.val := by
  unfold ofRank
  split_ifs with h
  · simp [Fin.ext_iff]
  · simp only [false_iff]
    intro hk
    exact h (hk ▸ rank.isLt)

/-- A quotient rounds to a finite double at its rank. -/
theorem ofRatio_eq_finite_iff {negative : Bool} {n d : ℕ} {rank : Fin BinaryFormat.double.ranks} :
    ofRatio negative n d = .finite negative rank ↔ BinaryFormat.double.rank n d = rank.val :=
  ofRank_eq_finite_iff

/-- The rank of the first integer that no significand holds. -/
theorem rank_two_pow_precision : BinaryFormat.double.rank (2 ^ 53) 1 = 1076 * 2 ^ 52 := by
  decide +kernel

/-- Natural numbers have ranks in their order. -/
theorem rank_le {m n : ℕ} (h : m ≤ n) :
    BinaryFormat.double.rank m 1 ≤ BinaryFormat.double.rank n 1 :=
  BinaryFormat.double.rank_mono BinaryFormat.double_precision_pos Nat.one_pos Nat.one_pos
    (Nat.mul_le_mul_right 1 h)

/-- Natural numbers that round to whole doubles do so in their order. -/
theorem rounded_le {m n k l : ℕ} (h : m ≤ n)
    (hm : BinaryFormat.double.unitsAt (BinaryFormat.double.rank m 1) = k * one)
    (hn : BinaryFormat.double.unitsAt (BinaryFormat.double.rank n 1) = l * one) : k ≤ l := by
  have hle := BinaryFormat.double.unitsAt_mono BinaryFormat.double_precision_pos (rank_le h)
  rw [hm, hn] at hle
  exact Nat.le_of_mul_le_mul_right hle one_pos

/-- A natural number up to `2 ^ 53` is not rounded. -/
theorem unitsAt_rank_whole {n : ℕ} (hn : n ≤ 2 ^ 53) :
    BinaryFormat.double.unitsAt (BinaryFormat.double.rank n 1) = n * one :=
  BinaryFormat.double.unitsAt_rank_whole BinaryFormat.double_precision_pos hn

/-- A natural number up to `2 ^ 53` is a double. -/
theorem exists_ofRatio_whole (negative : Bool) {n : ℕ} (hn : n ≤ 2 ^ 53) :
    ∃ rank, ofRatio negative n 1 = .finite negative rank ∧ magnitude rank = n * one := by
  have hlt : BinaryFormat.double.rank n 1 < BinaryFormat.double.ranks := by
    have hle := rank_le hn
    rw [rank_two_pow_precision] at hle
    exact lt_of_le_of_lt hle (by decide)
  exact ⟨⟨_, hlt⟩, ofRatio_eq_finite_iff.mpr rfl, unitsAt_rank_whole hn⟩

/-- A double of whole magnitude is an integer. -/
theorem toInt?_finite {negative : Bool} {rank : Fin BinaryFormat.double.ranks} {n : ℕ}
    (h : magnitude rank = n * one) :
    (Double.finite negative rank).toInt? = some (if negative then -(n : ℤ) else n) := by
  unfold toInt? truncMagnitude
  dsimp only
  rw [h, Nat.mul_mod_left, if_pos rfl, Nat.mul_div_cancel n one_pos]

/-- An integer double has a whole magnitude. -/
theorem magnitude_of_toInt? {negative : Bool} {rank : Fin BinaryFormat.double.ranks} {i : ℤ}
    (h : (Double.finite negative rank).toInt? = some i) : magnitude rank = i.natAbs * one := by
  unfold toInt? truncMagnitude at h
  dsimp only at h
  by_cases hmod : magnitude rank % one = 0
  · rw [if_pos hmod, Option.some.injEq] at h
    have habs : i.natAbs = magnitude rank / one := by
      rw [← h, natAbs_signed]
    rw [habs, Nat.div_mul_cancel (Nat.dvd_of_mod_eq_zero hmod)]
  · rw [if_neg hmod] at h
    cases h

/-- An integer double drops no fraction. -/
theorem trunc?_of_toInt? {x : Double} {n : ℤ} (h : x.toInt? = some n) : x.trunc? = some n := by
  cases x with
  | nan => cases h
  | infinite negative => cases h
  | finite negative rank =>
    unfold toInt? at h
    dsimp only at h
    split_ifs at h
    exact h

/-- An integer double is finite. -/
theorem isFinite_of_toInt? {x : Double} {n : ℤ} (h : x.toInt? = some n) : x.isFinite = true := by
  cases x with
  | finite negative rank => rfl
  | nan => cases h
  | infinite negative => cases h

/-- An integer double stands for the integer. -/
theorem value_of_toInt? {x : Double} {n : ℤ} (h : x.toInt? = some n) : x.value = n := by
  cases x with
  | nan => cases h
  | infinite negative => cases h
  | finite negative rank =>
    have hmag := magnitude_of_toInt? h
    rw [toInt?_finite hmag, Option.some.injEq] at h
    have hone : (one : ℚ) ≠ 0 := by exact_mod_cast one_pos.ne'
    unfold value
    dsimp only
    rw [hmag, Nat.cast_mul, mul_div_cancel_right₀ _ hone]
    cases negative with
    | false =>
      rw [if_neg Bool.false_ne_true] at h ⊢
      rw [← Int.cast_natCast, h]
    | true =>
      rw [if_pos rfl] at h ⊢
      rw [← Int.cast_natCast, ← Int.cast_neg, h]

/-- An integer up to `2 ^ 53` in magnitude is a double. -/
theorem toInt?_ofInt {n : ℤ} (hn : n.natAbs ≤ 2 ^ 53) : (ofInt n).toInt? = some n := by
  obtain ⟨rank, heq, hmag⟩ := exists_ofRatio_whole (decide (n < 0)) hn
  unfold ofInt
  rw [heq, toInt?_finite hmag]
  rcases lt_or_ge n 0 with hneg | hpos
  · rw [decide_eq_true hneg, if_pos rfl, Int.natCast_natAbs, abs_of_neg hneg, neg_neg]
  · rw [decide_eq_false (not_lt.mpr hpos), if_neg Bool.false_ne_true, Int.natCast_natAbs,
      abs_of_nonneg hpos]

/-- An integer no nearer to zero than a whole double stays so as a double. -/
theorem le_natAbs_trunc?_ofInt {n t : ℤ} {m : ℕ} {rank : ℕ}
    (hmag : BinaryFormat.double.unitsAt rank = m * one)
    (hrank : rank ≤ BinaryFormat.double.rank n.natAbs 1) (h : (ofInt n).trunc? = some t) :
    m ≤ t.natAbs ∧ (t < 0 → n < 0) := by
  unfold ofInt ofRatio ofRank at h
  split_ifs at h with hlt
  · have hle : m * one ≤ magnitude ⟨_, hlt⟩ := by
      rw [← hmag]
      exact BinaryFormat.double.unitsAt_mono BinaryFormat.double_precision_pos hrank
    have hwhole : m ≤ magnitude ⟨_, hlt⟩ / one := (Nat.le_div_iff_mul_le one_pos).mpr hle
    simp only [trunc?, truncMagnitude, Option.some.injEq] at h
    generalize magnitude ⟨_, hlt⟩ / one = whole at h hwhole
    split_ifs at h with hneg
    · rw [decide_eq_true_iff] at hneg
      omega
    · omega
  · -- Past the finite doubles there is nothing to truncate.
    simp [trunc?] at h

/-- Magnitudes are in the order of their ranks. -/
theorem magnitude_lt_iff {a b : Fin BinaryFormat.double.ranks} :
    magnitude a < magnitude b ↔ a.val < b.val := by
  constructor
  · intro h
    by_contra hge
    rcases (Nat.not_lt.mp hge).lt_or_eq with hlt | heq
    · exact absurd h (BinaryFormat.double.unitsAt_lt BinaryFormat.double_precision_pos hlt).not_gt
    · rw [Fin.ext heq] at h
      exact lt_irrefl _ h
  · exact fun h => BinaryFormat.double.unitsAt_lt BinaryFormat.double_precision_pos h

/-- Zero alone has no magnitude. -/
theorem magnitude_pos_iff {rank : Fin BinaryFormat.double.ranks} :
    0 < magnitude rank ↔ 0 < rank.val := by
  have hzero : magnitude ⟨0, BinaryFormat.double_ranks_pos⟩ = 0 := rfl
  have hlt := @magnitude_lt_iff ⟨0, BinaryFormat.double_ranks_pos⟩ rank
  rwa [hzero] at hlt

/-- The position of an integer in numeric order is that of its magnitude, with its sign. -/
theorem order?_of_toInt? {x : Double} {n : ℤ} (h : x.toInt? = some n) :
    ∃ rank : Fin BinaryFormat.double.ranks, magnitude rank = n.natAbs * one ∧
      (0 < rank.val ↔ n ≠ 0) ∧ x.order? = some (if n < 0 then -(rank.val : ℤ) else rank.val) := by
  cases x with
  | nan => cases h
  | infinite negative => cases h
  | finite negative rank =>
    have hmag := magnitude_of_toInt? h
    have hpos : 0 < rank.val ↔ n ≠ 0 := by
      rw [← magnitude_pos_iff, hmag, Nat.mul_pos_iff_of_pos_right one_pos, Int.natAbs_pos]
    have hsign := @toInt?_finite negative rank _ hmag
    refine ⟨rank, hmag, hpos, ?_⟩
    rw [h, Option.some.injEq] at hsign
    unfold order?
    dsimp only
    rw [Option.some.injEq]
    -- Only for zero may the sign of the double differ from that of the integer.
    cases negative with
    | false =>
      rw [if_neg Bool.false_ne_true] at hsign ⊢
      rw [if_neg (by omega)]
    | true =>
      rw [if_pos rfl] at hsign ⊢
      split_ifs <;> omega

/-- The magnitude of a finite number in units, with its sign. -/
def signedUnits (negative : Bool) (rank : Fin BinaryFormat.double.ranks) : ℤ :=
  if negative then -(magnitude rank : ℤ) else magnitude rank

/-- The value of a finite number is its units by the number of units in one. -/
theorem value_finite (negative : Bool) (rank : Fin BinaryFormat.double.ranks) :
    (Double.finite negative rank).value = (signedUnits negative rank : ℚ) / one := by
  unfold value signedUnits
  dsimp only
  split_ifs
  · rw [Int.cast_neg, Int.cast_natCast, neg_div]
  · rw [Int.cast_natCast]

/-- Numeric order is the order of the exact values. -/
theorem le_iff_value {x y : Double} (hx : x.isFinite = true) (hy : y.isFinite = true) :
    Double.le x y = true ↔ x.value ≤ y.value := by
  cases x with
  | nan => cases hx
  | infinite negative => cases hx
  | finite p a =>
    cases y with
    | nan => cases hy
    | infinite negative => cases hy
    | finite q b =>
      have hone : (0 : ℚ) < one := by exact_mod_cast one_pos
      rw [value_finite, value_finite, div_le_div_iff_of_pos_right hone, Int.cast_le]
      -- Ranks and magnitudes are in one order, and vanish together.
      have hlt : magnitude a < magnitude b ↔ a.val < b.val := magnitude_lt_iff
      have hgt : magnitude b < magnitude a ↔ b.val < a.val := magnitude_lt_iff
      have ha : 0 < magnitude a ↔ 0 < a.val := magnitude_pos_iff
      have hb : 0 < magnitude b ↔ 0 < b.val := magnitude_pos_iff
      unfold Double.le order? signedUnits
      dsimp only
      rw [decide_eq_true_iff]
      split_ifs <;> omega

/-- Numerically equal numbers stand at one position. -/
theorem eqv_iff {x y : Double} : x.eqv y = true ↔ ∃ n, x.order? = some n ∧ y.order? = some n := by
  unfold eqv
  cases x.order? <;> cases y.order? <;> simp [eq_comm]

/-- Numerically equal numbers are the same or both zeros. -/
theorem eq_or_zeros_of_eqv {x y : Double} (h : x.eqv y = true) :
    x = y ∨ ∃ p q a b, x = .finite p a ∧ y = .finite q b ∧ a.val = 0 ∧ b.val = 0 := by
  have hpos := BinaryFormat.double_ranks_pos
  unfold eqv order? at h
  cases x with
  | nan => cases h
  | infinite p =>
    cases y with
    | nan => cases h
    | infinite q =>
      -- The two infinities lie at the two ends of the order.
      have heq := of_decide_eq_true h
      cases p <;> cases q
      · exact .inl rfl
      · simp at heq
        omega
      · simp at heq
        omega
      · exact .inl rfl
    | finite q b =>
      -- A finite number lies between them.
      have heq := of_decide_eq_true h
      have hb := b.isLt
      split_ifs at heq <;> omega
  | finite p a =>
    cases y with
    | nan => cases h
    | infinite q =>
      have heq := of_decide_eq_true h
      have ha := a.isLt
      split_ifs at heq <;> omega
    | finite q b =>
      have heq := of_decide_eq_true h
      by_cases hzero : a.val = 0
      · refine .inr ⟨p, q, a, b, rfl, rfl, hzero, ?_⟩
        split_ifs at heq <;> omega
      · -- Apart from zero the signs agree, and with them the ranks.
        have hab : p = q ∧ a = b := by
          cases p <;> cases q <;> simp at heq ⊢ <;> omega
        rw [hab.1, hab.2]
        exact .inl rfl

/-- The sign of zero does not make a number finite. -/
@[simp] theorem isFinite_withoutNegativeZero (x : Double) :
    x.withoutNegativeZero.isFinite = x.isFinite := by
  unfold withoutNegativeZero
  split_ifs with hzero
  · rw [hzero]
    rfl
  · rfl

end Double

end TypedReads
