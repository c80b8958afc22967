import TypedReads.Proofs.Json.Grammar
import TypedReads.Proofs.Number.Shortest

/-!
# Number texts as numerals

The text of a finite double is a numeral of the grammar, `Double.numeral`, and spells the shortest
decimal of the double, so it is read back as the same double but for the sign of zero
(`Double.toDouble_numeral`). `layoutNumeral` mirrors the four layouts of `layoutDigits`; all of them
keep the number that the digits and the place of the point stand for.
-/

namespace TypedReads

/-- The numeral that a decimal is laid out as. -/
def layoutNumeral (negative : Bool) (ds : List ℕ) (place : ℤ) : Numeral :=
  if ds.length ≤ place ∧ place ≤ 21 then
    ⟨negative, ds ++ List.replicate (place - ds.length).toNat 0, none, none⟩
  else if 0 < place ∧ place ≤ 21 then
    ⟨negative, ds.take place.toNat, some (ds.drop place.toNat), none⟩
  else if -6 < place ∧ place ≤ 0 then
    ⟨negative, [0], some (List.replicate (-place).toNat 0 ++ ds), none⟩
  else
    ⟨negative, ds.take 1, if ds.length ≤ 1 then none else some (ds.drop 1), some (place - 1)⟩

section Layout

variable {ds : List ℕ}

/-- Digits that start with no zero may stand in front of the point. -/
theorem wholeDigits_of_head (hne : ds ≠ []) (hds : ∀ d ∈ ds, d < 10) (hhead : ds.head? ≠ some 0) :
    WholeDigits ds :=
  ⟨hne, hds, fun h => absurd h hhead⟩

/-- The first units of a digit text are the text of the first digits. -/
theorem digitText_take (k : ℕ) (ds : List ℕ) : (digitText ds).take k = digitText (ds.take k) :=
  List.map_take.symm

/-- The last units of a digit text are the text of the last digits. -/
theorem digitText_drop (k : ℕ) (ds : List ℕ) : (digitText ds).drop k = digitText (ds.drop k) :=
  List.map_drop.symm

/-- A digit text has a unit for each digit. -/
theorem digitText_length (ds : List ℕ) : (digitText ds).length = ds.length := List.length_map ..

/-- The exponent of the scientific layout, with its sign. -/
theorem exponentText_int (e : ℤ) :
    ExponentText (unit 'e' :: (if e < 0 then unit '-' else unit '+') :: Text.ofNat e.natAbs)
      (some e) := by
  have hds : ∀ d ∈ decimalDigits e.natAbs, d < 10 := fun d hd => lt_ten_of_mem_decimalDigits hd
  have hne := decimalDigits_ne_nil e.natAbs
  rcases lt_or_ge e 0 with hneg | hpos
  · have h := ExponentText.power (.inl rfl) .minus hne hds
    rw [ofDigits_decimalDigits, if_pos rfl, Int.natCast_natAbs, abs_of_neg hneg, neg_neg] at h
    rw [if_pos hneg]
    exact h
  · have h := ExponentText.power (.inl rfl) .plus hne hds
    rw [ofDigits_decimalDigits, if_neg Bool.false_ne_true, Int.natCast_natAbs,
      abs_of_nonneg hpos] at h
    rw [if_neg (not_lt.mpr hpos)]
    exact h

/-- A decimal is laid out as a numeral of the grammar. -/
theorem numeralText_layout (negative : Bool) (hne : ds ≠ []) (hds : ∀ d ∈ ds, d < 10)
    (hhead : ds.head? ≠ some 0) (place : ℤ) :
    NumeralText (minusText negative ++ layoutDigits (digitText ds) place)
      (layoutNumeral negative ds place) := by
  have hlen := List.length_pos_iff.mpr hne
  have hzeros : ∀ {k d : ℕ}, d ∈ List.replicate k 0 → d < 10 := fun h => by
    rw [List.eq_of_mem_replicate h]
    decide
  -- Where the point cuts the digits in two, the first part does not start with zero.
  have hleading : ∀ k, 0 < k → WholeDigits (ds.take k) := fun k hk => by
    refine wholeDigits_of_head ?_ (fun d hd => hds d (List.mem_of_mem_take hd)) ?_
    · rw [ne_eq, List.take_eq_nil_iff]
      exact fun h => h.elim hk.ne' hne
    · rwa [List.head?_take, if_neg hk.ne']
  have hfollowing : ∀ k, k < ds.length →
      FractionText (unit '.' :: digitText (ds.drop k)) (some (ds.drop k)) := fun k hk =>
    .digits (by rw [ne_eq, List.drop_eq_nil_iff]; omega) fun d hd => hds d (List.mem_of_mem_drop hd)
  unfold layoutDigits layoutNumeral
  dsimp only
  rw [digitText_length, digitText_take, digitText_take, digitText_drop, digitText_drop]
  by_cases hwhole : (ds.length : ℤ) ≤ place ∧ place ≤ 21
  · -- All digits stand in front of the point, with zeros behind them.
    rw [if_pos hwhole, if_pos hwhole]
    have hdigits : WholeDigits (ds ++ List.replicate (place - ds.length).toNat 0) := by
      refine wholeDigits_of_head (by simp [hne]) (fun d hd => ?_) ?_
      · exact (List.mem_append.mp hd).elim (hds d) hzeros
      · rwa [List.head?_append_of_ne_nil _ hne]
    have htext := @NumeralText.mk negative _ _ _ _ _ hdigits .absent .absent
    rw [digitText_append, digitText_replicate, List.append_nil, List.append_nil] at htext
    exact htext
  rw [if_neg hwhole, if_neg hwhole]
  by_cases hinside : 0 < place ∧ place ≤ 21
  · -- The point stands among the digits.
    rw [if_pos hinside, if_pos hinside]
    have htext := @NumeralText.mk negative _ _ _ _ _ (hleading place.toNat (by omega))
      (hfollowing place.toNat (by omega)) .absent
    rw [List.append_nil, List.append_assoc] at htext
    exact htext
  rw [if_neg hinside, if_neg hinside]
  by_cases hbehind : -6 < place ∧ place ≤ 0
  · -- All digits stand behind the point, with zeros in front of them.
    rw [if_pos hbehind, if_pos hbehind]
    have hdigits : FractionText
        (unit '.' :: digitText (List.replicate (-place).toNat 0 ++ ds))
        (some (List.replicate (-place).toNat 0 ++ ds)) :=
      .digits (by simp [hne]) fun d hd => (List.mem_append.mp hd).elim hzeros (hds d)
    have hzero : WholeDigits [0] := ⟨by decide, by decide, fun _ => rfl⟩
    have htext := @NumeralText.mk negative _ _ _ _ _ hzero hdigits .absent
    rw [digitText_append, digitText_replicate, List.append_nil, List.append_assoc] at htext
    exact htext
  rw [if_neg hbehind, if_neg hbehind]
  -- The point stands behind the first digit, and an exponent moves it.
  have hexponent := exponentText_int (place - 1)
  have hfirst := hleading 1 Nat.one_pos
  by_cases hsingle : ds.length ≤ 1
  · rw [if_pos hsingle, if_pos hsingle, List.append_nil]
    have htext := @NumeralText.mk negative _ _ _ _ _ hfirst .absent hexponent
    rw [List.append_nil, List.append_assoc] at htext
    exact htext
  · rw [if_neg hsingle, if_neg hsingle]
    have htext := @NumeralText.mk negative _ _ _ _ _ hfirst (hfollowing 1 (by omega)) hexponent
    rw [List.append_assoc (minusText negative ++ _), List.append_assoc, ← List.append_assoc _ _
      (unit 'e' :: _)] at htext
    exact htext

/-- A numeral spells its digits as one number, moved by what is left of its exponent. -/
theorem Numeral.toDecimal_value {n : Numeral} {digits : ℕ} {e : ℤ}
    (hdigits : ofDigits (n.whole ++ n.fraction.getD []) = digits)
    (he : n.exponent.getD 0 - (n.fraction.getD []).length = e) :
    n.toDecimal.value = digits * 10 ^ e := by
  subst hdigits he
  rfl

/-- The layout keeps the number. -/
theorem toDecimal_layout_value (negative : Bool) (hne : ds ≠ []) (place : ℤ) :
    (layoutNumeral negative ds place).toDecimal.value =
      ofDigits ds * 10 ^ (place - ds.length) := by
  have hlen := List.length_pos_iff.mpr hne
  unfold layoutNumeral
  by_cases hwhole : (ds.length : ℤ) ≤ place ∧ place ≤ 21
  · -- The zeros behind the digits count for the exponent.
    obtain ⟨k, hk⟩ := Int.eq_ofNat_of_zero_le (show 0 ≤ place - ds.length by omega)
    rw [if_pos hwhole, hk]
    have hdigits : ofDigits (ds ++ List.replicate k 0) = ofDigits ds * 10 ^ k := by
      rw [ofDigits_append, ofDigits_replicate_zero, List.length_replicate, Nat.add_zero]
    refine (Numeral.toDecimal_value (e := 0) ((congrArg ofDigits (List.append_nil _)).trans hdigits)
      rfl).trans ?_
    push_cast
    rw [mul_one, zpow_natCast]
  rw [if_neg hwhole]
  by_cases hinside : 0 < place ∧ place ≤ 21
  · -- The digits behind the point are those that the exponent takes back.
    rw [if_pos hinside]
    refine Numeral.toDecimal_value ?_ ?_
    · rw [Option.getD_some, List.take_append_drop]
    · rw [Option.getD_none, Option.getD_some, List.length_drop]
      omega
  rw [if_neg hinside]
  by_cases hbehind : -6 < place ∧ place ≤ 0
  · -- So are the zeros in front of them, which spell nothing.
    rw [if_pos hbehind]
    refine Numeral.toDecimal_value ?_ ?_
    · rw [Option.getD_some, ofDigits_append, ofDigits_append, ofDigits_replicate_zero]
      simp [ofDigits]
    · rw [Option.getD_none, Option.getD_some, List.length_append, List.length_replicate]
      omega
  rw [if_neg hbehind]
  -- The exponent stands for the place, less the digits behind the point.
  by_cases hsingle : ds.length ≤ 1
  · rw [if_pos hsingle]
    refine Numeral.toDecimal_value ?_ ?_
    · rw [Option.getD_none, List.append_nil, List.take_of_length_le hsingle]
    · rw [Option.getD_some, Option.getD_none, List.length_nil]
      omega
  · rw [if_neg hsingle]
    refine Numeral.toDecimal_value ?_ ?_
    · rw [Option.getD_some, List.take_append_drop]
    · rw [Option.getD_some, Option.getD_some, List.length_drop]
      omega

end Layout

/-- Digits that end in front of the point, with the point not too far behind them, are laid out as an
integer. -/
theorem toInt?_layout_whole (negative : Bool) {ds : List ℕ} {place : ℤ}
    (h : ds.length ≤ place ∧ place ≤ 21) {m : ℕ}
    (hm : ofDigits ds * 10 ^ (place - ds.length).toNat = m) :
    (layoutNumeral negative ds place).toInt? = some (if negative then -(m : ℤ) else m) := by
  have hdigits : ofDigits (ds ++ List.replicate (place - ds.length).toNat 0) = m := by
    rw [ofDigits_append, ofDigits_replicate_zero, List.length_replicate, Nat.add_zero, hm]
  unfold layoutNumeral
  rw [if_pos h]
  unfold Numeral.toInt?
  rw [if_pos ⟨rfl, rfl⟩, hdigits]

/-- Every other layout has a fraction or an exponent. -/
theorem toInt?_layout_other (negative : Bool) {ds : List ℕ} {place : ℤ}
    (h : ¬ (ds.length ≤ place ∧ place ≤ 21)) :
    (layoutNumeral negative ds place).toInt? = none := by
  unfold layoutNumeral
  rw [if_neg h]
  split_ifs <;> rfl

/-- The layout keeps the sign. -/
theorem negative_layout (negative : Bool) (ds : List ℕ) (place : ℤ) :
    (layoutNumeral negative ds place).negative = negative := by
  unfold layoutNumeral
  split_ifs <;> rfl

namespace Double

/-- The digits of a positive magnitude as shown, and the place of the point among them. -/
def shownDigits (rank : Fin BinaryFormat.double.ranks) : List ℕ :=
  decimalDigits (shortest rank).digits

/-- The place of the point among the digits shown. -/
def shownPlace (rank : Fin BinaryFormat.double.ranks) : ℤ :=
  (shortest rank).exponent + (shownDigits rank).length

/-- At least one digit is shown. -/
theorem shownDigits_ne_nil (rank : Fin BinaryFormat.double.ranks) : shownDigits rank ≠ [] :=
  decimalDigits_ne_nil _

/-- The digits shown and the place of the point stand for the shortest decimal. -/
theorem shown_value (rank : Fin BinaryFormat.double.ranks) :
    (ofDigits (shownDigits rank) : ℚ) * 10 ^ (shownPlace rank - (shownDigits rank).length) =
      (shortest rank).value := by
  unfold shownPlace
  rw [add_sub_cancel_right]
  unfold shownDigits Decimal.value
  rw [ofDigits_decimalDigits]

/-- The numeral that a finite double is shown as. -/
def numeral (negative : Bool) (rank : Fin BinaryFormat.double.ranks) : Numeral :=
  if rank.val = 0 then ⟨false, [0], none, none⟩
  else layoutNumeral negative (shownDigits rank) (shownPlace rank)

/-- A positive magnitude has digits. -/
theorem shortest_digits_pos {rank : Fin BinaryFormat.double.ranks} (h : rank.val ≠ 0) :
    0 < (shortest rank).digits := by
  by_contra hzero
  rw [Nat.not_lt, Nat.le_zero] at hzero
  have hread := ofDecimal_shortest false rank
  unfold ofDecimal at hread
  rw [if_pos hzero, ofRank_eq_finite_iff] at hread
  exact h hread.symm

/-- The text of a finite double is a numeral. -/
theorem numeralText_toText (negative : Bool) (rank : Fin BinaryFormat.double.ranks) :
    NumeralText (Double.finite negative rank).toText (numeral negative rank) := by
  unfold toText numeral
  dsimp only
  by_cases hzero : rank.val = 0
  · rw [if_pos hzero, if_pos hzero]
    have hwhole : WholeDigits [0] := ⟨by decide, by decide, fun _ => rfl⟩
    exact @NumeralText.mk false _ _ _ _ _ hwhole .absent .absent
  · rw [if_neg hzero, if_neg hzero]
    have htext := numeralText_layout negative (shownDigits_ne_nil rank)
      (fun d hd => lt_ten_of_mem_decimalDigits hd)
      (head?_decimalDigits_ne (shortest_digits_pos hzero)) (shownPlace rank)
    have hdecimal : (shortest rank).toText =
        layoutDigits (digitText (decimalDigits (shortest rank).digits)) (shownPlace rank) := by
      unfold Decimal.toText shownPlace shownDigits
      dsimp only
      rw [Text.ofNat_eq, digitText_length]
    rw [hdecimal]
    cases negative with
    | false => exact htext
    | true => exact htext

/-- A number other than zero keeps its sign. -/
theorem withoutNegativeZero_of_ne_zero (negative : Bool) {rank : Fin BinaryFormat.double.ranks}
    (h : rank.val ≠ 0) :
    (Double.finite negative rank).withoutNegativeZero = .finite negative rank :=
  if_neg fun heq => h (congrArg Fin.val (Double.finite.inj heq).2)

/-- A finite double is read back from the numeral that it is shown as, but for the sign of zero. -/
theorem toDouble_numeral (negative : Bool) (rank : Fin BinaryFormat.double.ranks) :
    (numeral negative rank).toDouble = (Double.finite negative rank).withoutNegativeZero := by
  unfold numeral
  by_cases hzero : rank.val = 0
  · have hrank : rank = ⟨0, BinaryFormat.double_ranks_pos⟩ := Fin.ext hzero
    rw [if_pos hzero, hrank]
    cases negative <;> rfl
  · have hvalue := (toDecimal_layout_value negative (shownDigits_ne_nil rank)
      (shownPlace rank)).trans (shown_value rank)
    rw [if_neg hzero, withoutNegativeZero_of_ne_zero negative hzero, Numeral.toDouble,
      negative_layout, ofDecimal_congr negative hvalue, ofDecimal_shortest]

end Double

end TypedReads
