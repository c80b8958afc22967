import TypedReads.Proofs.Json.Scanning
import TypedReads.Proofs.Number.Layout
import TypedReads.Proofs.Number.Narrow

/-!
# Numbers written and read back

`Double.canonical` is what a finite number becomes when a document is written with it and read again.
Only whole numbers change: negative zero loses its sign, and beyond the safe integers but within 64
bits a number turns into the exact integer that its text spells, which need not be the number itself.
`Double.toJson_numeral` says that this is what the reader makes of the writer's text: the digits of
such a text are all in front of the point, and the integer they spell is on the number's side of both
bounds.
-/

namespace TypedReads

/-- The integer that a sign and the digits behind it spell. -/
def Text.spelled (t : Text) : ℤ :=
  let (negative, digits) := t.scanSign
  if negative then -(ofDigits digits.scanDigits.1 : ℤ) else ofDigits digits.scanDigits.1

/-- The minus of a number is the text of its sign. -/
theorem signText_minusText (negative : Bool) : SignText (minusText negative) negative := by
  cases negative with
  | false => exact .absent
  | true => exact .minus

/-- A numeral that is an integer is a sign and digits. -/
theorem NumeralText.of_toInt? {t : Text} {n : Numeral} {i : ℤ} (h : NumeralText t n)
    (hi : n.toInt? = some i) :
    ∃ ds, WholeDigits ds ∧ t = minusText n.negative ++ digitText ds ∧
      i = if n.negative then -(ofDigits ds : ℤ) else ofDigits ds := by
  obtain ⟨hwhole, hfraction, hexponent⟩ := h
  rename_i negative whole fractionText exponentText fraction exponent
  unfold Numeral.toInt? at hi
  split at hi
  swap
  · cases hi
  rename_i hnone
  cases hfraction with
  | digits hne hds => cases hnone.1
  | absent =>
    cases hexponent with
    | power he hsign hne hds => cases hnone.2
    | absent =>
      refine ⟨whole, hwhole, ?_, (Option.some.inj hi).symm⟩
      rw [List.append_nil, List.append_nil]

/-- The text of such a numeral spells the integer that it is. -/
theorem NumeralText.spelled {t : Text} {n : Numeral} {i : ℤ} (h : NumeralText t n)
    (hi : n.toInt? = some i) : t.spelled = i := by
  obtain ⟨ds, ⟨hne, hten, -⟩, rfl, rfl⟩ := h.of_toInt? hi
  have hscan := scanDigits_digitText_nil hten
  obtain ⟨d, ds, rfl⟩ := List.exists_cons_of_ne_nil hne
  have hsign : Text.scanSign (minusText n.negative ++ digitUnit d :: digitText ds) =
      (n.negative, digitUnit d :: digitText ds) :=
    (signText_minusText n.negative).scanSign (hten d List.mem_cons_self)
  rw [Text.spelled, digitText_cons, hsign]
  dsimp only
  rw [← digitText_cons, hscan]

/-- The text of such a numeral, unless it is zero, is the text of the integer. -/
theorem NumeralText.eq_ofInt {t : Text} {n : Numeral} {i : ℤ} (h : NumeralText t n)
    (hi : n.toInt? = some i) (hzero : i ≠ 0) : t = Text.ofInt i := by
  obtain ⟨ds, ⟨hne, hten, hhead⟩, rfl, rfl⟩ := h.of_toInt? hi
  have hdigits := decimalDigits_ofDigits hne hten hhead
  unfold Text.ofInt
  rw [natAbs_signed, Text.ofNat_eq, hdigits]
  cases hn : n.negative with
  | false =>
    rw [if_neg Bool.false_ne_true, if_neg (by omega)]
    rfl
  | true =>
    rw [hn, if_pos rfl] at hzero
    rw [if_pos rfl, if_pos (by omega)]
    rfl

namespace Double

/-- What a finite number is once it has been written and read again. -/
def canonical (x : Double) : Json :=
  match x.toInt? with
  | some n =>
    if -safeBound ≤ n ∧ n ≤ safeBound then .number x.withoutNegativeZero
    else if n.natAbs < 2 ^ 63 then .integer x.toText.spelled
    else .number x
  | none => .number x

/-- A whole number of at most 64 bits that is not safe, whatever its sign. -/
def Wide (x : Double) : Prop := ∃ n, x.toInt? = some n ∧ 2 ^ 53 ≤ n.natAbs ∧ n.natAbs < 2 ^ 63

/-- Both zeros are the integer zero. -/
theorem toInt?_zero (negative : Bool) :
    (Double.finite negative ⟨0, BinaryFormat.double_ranks_pos⟩).toInt? = some 0 := by
  have hmag : magnitude ⟨0, BinaryFormat.double_ranks_pos⟩ = 0 * one := by
    rw [Nat.zero_mul]
    rfl
  rw [toInt?_finite hmag]
  cases negative <;> rfl

/-- Only negative zero has a sign to lose. -/
theorem withoutNegativeZero_of_toInt?_ne {x : Double} (h : x.toInt? ≠ some 0) :
    x.withoutNegativeZero = x := by
  unfold withoutNegativeZero
  split_ifs with hzero
  · rw [hzero] at h
    exact absurd (toInt?_zero true) h
  · rfl

/-- A wide number turns into the integer that its text spells. -/
theorem canonical_of_wide {x : Double} (h : x.Wide) : x.canonical = .integer x.toText.spelled := by
  obtain ⟨n, hn, hlow, hhigh⟩ := h
  unfold canonical
  rw [hn]
  dsimp only
  simp only [safe_iff]
  rw [if_neg (not_lt.mpr hlow), if_pos hhigh]

/-- Every other number loses at most the sign of zero. -/
theorem canonical_of_not_wide {x : Double} (h : ¬ x.Wide) :
    x.canonical = .number x.withoutNegativeZero := by
  have hsame : x.canonical = .number x.withoutNegativeZero ∨ x.toInt? ≠ some 0 ∧
      x.canonical = .number x := by
    unfold canonical
    cases hint : x.toInt? with
    | none => exact .inr ⟨nofun, rfl⟩
    | some n =>
      dsimp only
      split_ifs with hsafe hlow
      · exact .inl rfl
      · exact absurd ⟨n, hint, not_lt.mp fun hlt => hsafe ((safe_iff n).mpr hlt), hlow⟩ h
      · refine .inr ⟨fun hzero => hlow ?_, rfl⟩
        rw [Option.some.inj hzero]
        decide
  -- Where the number stays as it is, it is not zero.
  rcases hsame with heq | ⟨hne, heq⟩
  · exact heq
  · rw [heq, withoutNegativeZero_of_toInt?_ne hne]

section Sides

variable {rank : Fin BinaryFormat.double.ranks} {n m : ℕ}

/-- The shortest decimal of a whole double spells it below `2 ^ 53`, and nothing below `2 ^ 53` from
there on. -/
theorem shortest_about_safe (hmag : magnitude rank = n * one) (hm : (shortest rank).value = m) :
    n < 2 ^ 53 ∧ m = n ∨ 2 ^ 53 ≤ n ∧ 2 ^ 53 ≤ m := by
  obtain ⟨hbelow, -⟩ := shortest_whole_side hmag hm (unitsAt_rank_whole le_rfl)
  have heq := eq_of_shortest_whole hmag hm
  rcases lt_or_ge n (2 ^ 53) with hlt | hge
  · exact .inl ⟨hlt, heq (hbelow hlt).le⟩
  · by_contra hcon
    have := heq (by omega)
    omega

/-- A whole double of magnitude `2 ^ 63`. -/
theorem shortest_edge (hmag : magnitude rank = 2 ^ 63 * one) (hm : (shortest rank).value = m) :
    m = 9223372036854776000 := by
  have hp := BinaryFormat.double_precision_pos
  have hrank : rank.val = 1086 * 2 ^ 52 := by
    have h : BinaryFormat.double.rank (magnitude rank) one = rank.val :=
      BinaryFormat.double.rank_unitsAt hp rank.val
    rw [hmag, BinaryFormat.double.rank_congr hp one_pos Nat.one_pos (Nat.mul_one _),
      rank_about_edge.1] at h
    exact h.symm
  have heq : rank = ⟨1086 * 2 ^ 52, by decide⟩ := Fin.ext hrank
  rw [heq, shortest_two_pow_63, Decimal.value_of_nonneg (by decide)] at hm
  exact_mod_cast hm.symm

/-- The shortest decimal of a whole double is on the same side of `2 ^ 63` as the double, and never
`2 ^ 63` itself. -/
theorem shortest_about_edge (hmag : magnitude rank = n * one) (hm : (shortest rank).value = m) :
    n < 2 ^ 63 ∧ m < 2 ^ 63 ∨ 2 ^ 63 ≤ n ∧ 2 ^ 63 < m := by
  have hunits : BinaryFormat.double.unitsAt (BinaryFormat.double.rank (2 ^ 63) 1) = 2 ^ 63 * one := by
    rw [rank_about_edge.1, unitsAt_about_edge.1]
  obtain ⟨hbelow, habove⟩ := shortest_whole_side hmag hm hunits
  rcases lt_trichotomy n (2 ^ 63) with hlt | rfl | hgt
  · exact .inl ⟨hlt, hbelow hlt⟩
  · have := shortest_edge hmag hm
    exact .inr ⟨le_rfl, by omega⟩
  · exact .inr ⟨hgt.le, habove hgt⟩

end Sides

section Whole

variable {rank : Fin BinaryFormat.double.ranks} {m : ℕ}

/-- The digits of a positive magnitude are shown in front of the point. -/
def ShownWhole (rank : Fin BinaryFormat.double.ranks) : Prop :=
  (shownDigits rank).length ≤ shownPlace rank ∧ shownPlace rank ≤ 21

/-- The integer that digits in front of the point spell. -/
theorem exists_of_shownWhole (h : ShownWhole rank) :
    ∃ m : ℕ, (shortest rank).value = m ∧
      ofDigits (shownDigits rank) * 10 ^ (shownPlace rank - (shownDigits rank).length).toNat = m := by
  obtain ⟨k, hk⟩ := Int.eq_ofNat_of_zero_le
    (show 0 ≤ shownPlace rank - (shownDigits rank).length by have := h.1; omega)
  refine ⟨_, ?_, rfl⟩
  rw [← shown_value, hk]
  simp

/-- A magnitude whose shortest decimal is an integer of at most 63 bits is shown with all digits in
front of the point. -/
theorem shownWhole_of_lt (hpos : 0 < m) (hm : (shortest rank).value = m) (hlt : m < 2 ^ 63) :
    ShownWhole rank := by
  have hexponent : 0 ≤ (shortest rank).exponent := by
    obtain ⟨d, hd, -⟩ := shortest_cases rank
    rw [hd] at hm ⊢
    exact Decimal.exponent_nonneg_of_whole hpos (d.value_reduced.symm.trans hm)
  have hdigits := Decimal.digits_pos_of_value hpos hm
  obtain ⟨k, hk⟩ := Int.eq_ofNat_of_zero_le hexponent
  have hvalue : (shortest rank).digits * 10 ^ k = m := by
    rw [Decimal.value_of_nonneg hexponent, hk] at hm
    exact_mod_cast hm
  have hplace : shownPlace rank = ((k + (shownDigits rank).length : ℕ) : ℤ) := by
    unfold shownPlace
    rw [hk]
    push_cast
    rfl
  refine ⟨by omega, ?_⟩
  by_contra hgt
  -- So many digits would spell more than 63 bits hold.
  have hlen := List.length_pos_iff.mpr (shownDigits_ne_nil rank)
  have hle : 10 ^ 21 ≤ m := by
    calc 10 ^ 21 ≤ 10 ^ ((shownDigits rank).length - 1 + k) :=
          Nat.pow_le_pow_right (by norm_num) (by omega)
      _ = 10 ^ ((shownDigits rank).length - 1) * 10 ^ k := pow_add ..
      _ ≤ (shortest rank).digits * 10 ^ k :=
          Nat.mul_le_mul_right _ (pow_length_decimalDigits_le hdigits)
      _ = m := hvalue
  omega

end Whole

section Numeral

variable (negative : Bool) {rank : Fin BinaryFormat.double.ranks} (hzero : rank.val ≠ 0)
include hzero

/-- The numeral of a number other than zero is laid out from its shown digits. -/
theorem numeral_of_ne_zero :
    numeral negative rank = layoutNumeral negative (shownDigits rank) (shownPlace rank) :=
  if_neg hzero

/-- The double that a positive magnitude is read back as. -/
theorem toDouble_numeral_of_ne_zero :
    (numeral negative rank).toDouble = Double.finite negative rank := by
  rw [toDouble_numeral, withoutNegativeZero_of_ne_zero negative hzero]

/-- A magnitude that is shown as an integer is read as the number itself below `2 ^ 53` and past 64
bits, and as that integer between the two. -/
theorem toJson_numeral_of_shownWhole (hshown : ShownWhole rank) :
    (numeral negative rank).toJson = (Double.finite negative rank).canonical := by
  obtain ⟨m, hm, hdigits⟩ := exists_of_shownWhole hshown
  obtain ⟨n, hn⟩ := whole_of_shortest_whole hm
  have hint := toInt?_layout_whole negative hshown hdigits
  rw [← numeral_of_ne_zero negative hzero] at hint
  have hspelled := (numeralText_toText negative rank).spelled hint
  -- The integer shown, `m`, is on the side of the number, `n`, of either bound.
  have hsafe := shortest_about_safe hn hm
  have hedge := shortest_about_edge hn hm
  have hread := natAbs_signed negative m
  have hsource := natAbs_signed negative n
  have hlong := IntegralKind.holds_long_iff
    (show (if negative then -(m : ℤ) else m).natAbs ≠ 2 ^ 63 by omega)
  unfold Numeral.toJson canonical
  rw [toDouble_numeral_of_ne_zero negative hzero, withoutNegativeZero_of_ne_zero negative hzero,
    hspelled, hint, toInt?_finite hn]
  dsimp only
  simp only [safe_iff, hlong, hread, hsource]
  rcases hsafe with ⟨hlt, rfl⟩ | ⟨hge, hge'⟩
  · rw [if_pos (.inl hlt), if_pos hlt]
  rw [if_neg (not_lt.mpr hge)]
  rcases hedge with ⟨hlt, hlt'⟩ | ⟨hout, hout'⟩
  · rw [if_neg (by omega), if_pos hlt]
  · rw [if_pos (by omega), if_neg (not_lt.mpr hout)]

/-- A magnitude that is not shown as an integer is read as the number itself: if it is whole it has
more than 64 bits. -/
theorem toJson_numeral_of_not_shownWhole (hshown : ¬ ShownWhole rank) :
    (numeral negative rank).toJson = (Double.finite negative rank).canonical := by
  have hnone := toInt?_layout_other negative hshown
  rw [← numeral_of_ne_zero negative hzero] at hnone
  unfold Numeral.toJson canonical
  rw [toDouble_numeral_of_ne_zero negative hzero, withoutNegativeZero_of_ne_zero negative hzero,
    hnone]
  cases hint : (Double.finite negative rank).toInt? with
  | none => rfl
  | some i =>
    -- Below 64 bits the shortest decimal of a whole number would be shown as an integer.
    have hmag := magnitude_of_toInt? hint
    obtain ⟨m, hm⟩ := exists_shortest_whole hmag
    have hpos : 0 < m := by
      by_contra hcon
      have hmzero : m = 0 := by omega
      have hrank := rank_shortest_whole hm
      rw [hmzero, BinaryFormat.double.rank_zero BinaryFormat.double_precision_pos Nat.one_pos]
        at hrank
      exact hzero hrank.symm
    have hout : 2 ^ 63 ≤ i.natAbs := by
      rcases shortest_about_edge hmag hm with ⟨-, hlt⟩ | ⟨hout, -⟩
      · exact absurd (shownWhole_of_lt hpos hm hlt) hshown
      · exact hout
    dsimp only
    simp only [safe_iff]
    rw [if_neg (by omega), if_neg (by omega)]

end Numeral

/-- What the reader makes of the text of a finite number. -/
theorem toJson_numeral (negative : Bool) (rank : Fin BinaryFormat.double.ranks) :
    (numeral negative rank).toJson = (Double.finite negative rank).canonical := by
  by_cases hzero : rank.val = 0
  · -- Zero is shown without a sign.
    have hrank : rank = ⟨0, BinaryFormat.double_ranks_pos⟩ := Fin.ext hzero
    have hdouble := toDouble_numeral negative rank
    unfold numeral at hdouble ⊢
    rw [if_pos hzero, hrank] at hdouble
    rw [if_pos hzero, hrank]
    unfold canonical
    rw [toInt?_zero, ← hdouble]
    rfl
  · by_cases hshown : ShownWhole rank
    · exact toJson_numeral_of_shownWhole negative hzero hshown
    · exact toJson_numeral_of_not_shownWhole negative hzero hshown

/-- A number that is read as an exact integer is the double nearest to it, and is shown with its
digits. -/
theorem of_canonical_integer {x : Double} {i : ℤ} (h : x.canonical = .integer i) :
    ofInt i = x ∧ Text.ofInt i = x.toText := by
  cases x with
  | nan => cases h
  | infinite negative => cases h
  | finite negative rank =>
    have hnumeral := (toJson_numeral negative rank).trans h
    unfold Numeral.toJson at hnumeral
    cases hint : (numeral negative rank).toInt? with
    | none =>
      rw [hint] at hnumeral
      cases hnumeral
    | some k =>
      rw [hint] at hnumeral
      dsimp only at hnumeral
      split_ifs at hnumeral with hstored
      cases hnumeral
      -- Zero would be safe.
      have hzero : i ≠ 0 := by
        rintro rfl
        exact hstored (.inl (by decide))
      have hsame : (Double.finite negative rank).withoutNegativeZero = .finite negative rank := by
        refine withoutNegativeZero_of_toInt?_ne fun hcon => ?_
        unfold canonical at h
        rw [hcon] at h
        cases h
      refine ⟨?_, ((numeralText_toText negative rank).eq_ofInt hint hzero).symm⟩
      rw [← Numeral.toDouble_eq_ofInt hint hzero, toDouble_numeral, hsame]

/-- The sign of zero does not matter for what a number is read as. -/
theorem canonical_withoutNegativeZero (x : Double) : x.withoutNegativeZero.canonical = x.canonical := by
  unfold withoutNegativeZero
  split_ifs with h
  · subst h
    rw [← toJson_numeral, ← toJson_numeral]
    rfl
  · rfl

/-- The sign of zero is not shown. -/
theorem toText_withoutNegativeZero (x : Double) : x.withoutNegativeZero.toText = x.toText := by
  unfold withoutNegativeZero
  split_ifs with hzero
  · rw [hzero]
    rfl
  · rfl

/-- What a number is read as is no container. -/
theorem normalize_canonical (x : Double) : x.canonical.normalize = x.canonical := by
  unfold canonical
  split
  · split_ifs <;> rfl
  · rfl

end Double

end TypedReads
