import TypedReads.Proofs.Json.Grammar

/-!
# Tokens of grammatical texts

Each scanner of the lexer reads the texts that the grammar gives for its part and stops behind them.
A string brings its own end; a numeral or a word needs to be told from what follows it, and
`Delimited` says that a text starts with no unit that would continue one.
-/

namespace TypedReads

/-- A text that does not continue a word or a numeral in front of it. -/
def Delimited (t : Text) : Prop := ∀ u ∈ t.head?, CodeUnit.isWordUnit u = false

/-- The units that end a word or a numeral. -/
theorem mem_of_not_isWordUnit {u : CodeUnit} (h : CodeUnit.isWordUnit u = false) :
    u ∈ [0x20, 0x09, 0x0A, 0x0D] ++ units "\x7d]\x7b[\":,/" := by
  unfold CodeUnit.isWordUnit CodeUnit.isSpace at h
  rw [Bool.not_eq_false', Bool.or_eq_true, List.contains_iff_mem] at h
  rcases h with h | h
  · refine List.mem_append_left _ ?_
    simpa [or_assoc] using h
  · exact List.mem_append_right _ h

/-- None of them is a digit, a point, or the letter of an exponent. -/
theorem CodeUnit.not_numeral_of_not_isWordUnit {u : CodeUnit} (h : CodeUnit.isWordUnit u = false) :
    CodeUnit.digit? u = none ∧ u ≠ unit '.' ∧ u ≠ unit 'e' ∧ u ≠ unit 'E' := by
  have hall : ([0x20, 0x09, 0x0A, 0x0D] ++ units "\x7d]\x7b[\":,/").all (fun u =>
      CodeUnit.digit? u = none ∧ u ≠ unit '.' ∧ u ≠ unit 'e' ∧ u ≠ unit 'E') = true := by decide
  exact of_decide_eq_true (List.all_eq_true.mp hall u (mem_of_not_isWordUnit h))

/-- A text is delimited if its first unit is no part of a word. -/
theorem delimited_cons {u : CodeUnit} {t : Text} :
    Delimited (u :: t) ↔ CodeUnit.isWordUnit u = false := by
  simp [Delimited]

/-- A blank ends a word or a numeral. -/
theorem CodeUnit.not_isWordUnit_of_isSpace {u : CodeUnit} (h : CodeUnit.isSpace u = true) :
    CodeUnit.isWordUnit u = false := by
  unfold CodeUnit.isWordUnit
  rw [h]
  rfl

/-- Blanks in front of a text that is set off leave it so. -/
theorem Blank.delimited {blank t : Text} (hblank : Blank blank) (ht : Delimited t) :
    Delimited (blank ++ t) := by
  cases blank with
  | nil => exact ht
  | cons u blank =>
    exact delimited_cons.mpr (CodeUnit.not_isWordUnit_of_isSpace (hblank u (by simp)))

section Strings

/-- One unit of a string is read from each of its texts. -/
theorem UnitText.scanString {t : Text} {u : CodeUnit} (h : UnitText t u) (rest : Text) :
    Text.scanString (t ++ rest) = (Text.scanString rest).cons u := by
  cases h with
  | raw hquote hslash hcontrol =>
    -- The scan asks for line breaks before other controls.
    have hbreak : ¬ (u = 0x0A ∨ u = 0x0D) := by
      rintro (rfl | rfl) <;> exact hcontrol (by decide)
    rw [List.singleton_append, Text.scanString.eq_def]
    dsimp only
    rw [if_neg hquote, if_neg hslash, if_neg hbreak, if_neg hcontrol]
  | @letter c _ h =>
    -- No unit is escaped by the letter that introduces digits.
    have hu : c ≠ unit 'u' := by
      rintro rfl
      cases h
    rw [List.cons_append, List.singleton_append, Text.scanString.eq_def]
    dsimp only
    rw [if_neg (by decide), if_pos rfl, if_neg hu, h]
  | @hex a b c d i j k l ha hb hc hd =>
    have hscan : Text.scanHex 4 0 (a :: b :: c :: d :: rest) =
        (some (16 * (16 * (16 * (16 * 0 + i) + j) + k) + l), rest) := by
      simp only [Text.scanHex, ha, hb, hc, hd]
    rw [List.cons_append, Text.scanString.eq_def]
    dsimp only [List.cons_append, List.nil_append]
    rw [if_neg (by decide), if_pos rfl, if_pos rfl, hscan]

/-- A string is read up to its closing quote. -/
theorem StringText.scanString {t value : Text} (h : StringText t value) (rest : Text) :
    Text.scanString (t ++ unit '"' :: rest) = ⟨value, none, rest⟩ := by
  induction h with
  | nil =>
    rw [List.nil_append, Text.scanString.eq_def]
    rfl
  | cons hunit hrest ih =>
    rw [List.append_assoc, hunit.scanString, ih]
    rfl

end Strings

section Numerals

/-- A fraction is scanned as such, if neither a digit nor another point follows. -/
theorem FractionText.scanFraction {t : Text} {fraction : Option (List ℕ)}
    (h : FractionText t fraction) {rest : Text}
    (hrest : ∀ u ∈ rest.head?, CodeUnit.digit? u = none ∧ u ≠ unit '.') :
    Text.scanFraction (t ++ rest) = some (fraction, rest) := by
  cases h with
  | absent =>
    cases rest with
    | nil => rfl
    | cons u rest =>
      rw [List.nil_append, Text.scanFraction, if_neg (hrest u (by simp)).2]
  | @digits ds hne hds =>
    rw [List.cons_append, Text.scanFraction, if_pos rfl,
      scanDigits_digitText hds fun u hu => (hrest u hu).1]
    cases ds with
    | nil => exact absurd rfl hne
    | cons d ds => rfl

/-- A sign is read in front of a text that does not start with one. -/
theorem SignText.scanSign_append {t : Text} {negative : Bool} (h : SignText t negative)
    {rest : Text} (hrest : ∀ u ∈ rest.head?, u ≠ unit '-' ∧ u ≠ unit '+') :
    Text.scanSign (t ++ rest) = (negative, rest) := by
  cases h with
  | absent =>
    -- Without a sign the scan looks at what follows.
    cases rest with
    | nil => rfl
    | cons u rest =>
      obtain ⟨hminus, hplus⟩ := hrest u rfl
      rw [List.nil_append, Text.scanSign, if_neg hminus, if_neg hplus]
  | plus => rfl
  | minus => rfl

/-- A sign is read in front of a digit. -/
theorem SignText.scanSign {t : Text} {negative : Bool} (h : SignText t negative) {rest : Text}
    {d : ℕ} (hd : d < 10) :
    Text.scanSign (t ++ digitUnit d :: rest) = (negative, digitUnit d :: rest) := by
  have hall : ∀ d < 10, digitUnit d ≠ unit '-' ∧ digitUnit d ≠ unit '+' := by decide
  refine h.scanSign_append fun u hu => ?_
  obtain rfl := Option.some.inj hu
  exact hall d hd

/-- An exponent is scanned as such, if it is delimited. -/
theorem ExponentText.scanExponent {t : Text} {exponent : Option ℤ}
    (h : ExponentText t exponent) {rest : Text} (hrest : Delimited rest) :
    Text.scanExponent (t ++ rest) = some (exponent, rest) := by
  cases h with
  | absent =>
    cases rest with
    | nil => rfl
    | cons u rest =>
      have hu := CodeUnit.not_numeral_of_not_isWordUnit (delimited_cons.mp hrest)
      rw [List.nil_append, Text.scanExponent, if_neg (by tauto)]
  | @power e sign negative ds he hsign hne hds =>
    cases ds with
    | nil => exact absurd rfl hne
    | cons d ds =>
      have hscan := scanDigits_digitText hds fun u hu =>
        (CodeUnit.not_numeral_of_not_isWordUnit (hrest u hu)).1
      rw [List.cons_append, List.cons_append, Text.scanExponent, if_pos he, List.append_assoc,
        digitText_cons, List.cons_append, hsign.scanSign (hds d (by simp))]
      rw [digitText_cons, List.cons_append] at hscan
      dsimp only
      rw [hscan]

/-- What follows the fraction of a numeral is neither a digit nor a point. -/
theorem ExponentText.head {t : Text} {exponent : Option ℤ} (h : ExponentText t exponent)
    {rest : Text} (hrest : Delimited rest) :
    ∀ u ∈ (t ++ rest).head?, CodeUnit.digit? u = none ∧ u ≠ unit '.' := by
  intro u hu
  cases h with
  | absent =>
    have hword := CodeUnit.not_numeral_of_not_isWordUnit (hrest u hu)
    exact ⟨hword.1, hword.2.1⟩
  | power he hsign hne hds =>
    rw [List.cons_append, List.cons_append, List.head?_cons, Option.mem_some] at hu
    subst hu
    rcases he with rfl | rfl <;> decide

/-- A numeral is read behind its sign and its first digit. -/
theorem scanNumeral_text (negative : Bool) {d : ℕ} {ds : List ℕ} {fractionText exponentText : Text}
    {fraction : Option (List ℕ)} {exponent : Option ℤ} (hwhole : WholeDigits (d :: ds))
    (hfraction : FractionText fractionText fraction)
    (hexponent : ExponentText exponentText exponent) {rest : Text} (hrest : Delimited rest) :
    Text.scanNumeral negative d (digitText ds ++ (fractionText ++ (exponentText ++ rest))) =
      (.number ⟨negative, d :: ds, fraction, exponent⟩, rest) := by
  obtain ⟨-, hten, hzero⟩ := hwhole
  have hhead := hexponent.head hrest
  have hmore : (if d = 0 then ([], digitText ds ++ (fractionText ++ (exponentText ++ rest)))
      else Text.scanDigits (digitText ds ++ (fractionText ++ (exponentText ++ rest)))) =
      (ds, fractionText ++ (exponentText ++ rest)) := by
    by_cases hd : d = 0
    · -- A leading zero has no digit behind it.
      have hds : d = 0 ∧ ds = [] := by simpa using hzero (by rw [hd]; rfl)
      rw [if_pos hd, hds.2]
      rfl
    · -- What follows the digits is a point, an exponent, or the rest.
      rw [if_neg hd]
      refine scanDigits_digitText (fun e he => hten e (List.mem_cons_of_mem d he)) ?_
      intro u hu
      cases hfraction with
      | absent => exact (hhead u hu).1
      | digits hne hds =>
        rw [List.cons_append, List.head?_cons, Option.mem_some] at hu
        subst hu
        decide
  unfold Text.scanNumeral
  rw [hmore]
  dsimp only
  rw [hfraction.scanFraction hhead]
  dsimp only
  rw [hexponent.scanExponent hrest]

/-- A unit that starts a numeral is a minus sign or a digit. -/
theorem scan_digitUnit {d : ℕ} (hd : d < 10) (rest : Text) :
    Token.scan (digitUnit d) rest = Text.scanNumeral false d rest := by
  have hall : ∀ d < 10, digitUnit d ∉ units "\x7b\x7d[]:,\"/-" := by decide
  have hne := List.forall_mem_ne.mpr (hall d hd)
  unfold Token.scan
  repeat rw [if_neg (hne _ (by decide))]
  rw [digit?_digitUnit hd]

/-- A number is scanned as one token, if it is delimited. -/
theorem NumeralText.scan {t : Text} {n : Numeral} (h : NumeralText t n) {rest : Text}
    (hrest : Delimited rest) :
    ∃ u tail, t = u :: tail ∧ CodeUnit.isSpace u = false ∧
      Token.scan u (tail ++ rest) = (.number n, rest) := by
  obtain ⟨hwhole, hfraction, hexponent⟩ := h
  rename_i negative whole fractionText exponentText fraction exponent
  cases whole with
  | nil => exact absurd rfl hwhole.1
  | cons d ds =>
    have hscan := scanNumeral_text negative hwhole hfraction hexponent hrest
    have hd : d < 10 := hwhole.2.1 d (by simp)
    cases negative with
    | false =>
      have hall : ∀ d < 10, CodeUnit.isSpace (digitUnit d) = false := by decide
      refine ⟨digitUnit d, digitText ds ++ fractionText ++ exponentText, rfl, hall d hd, ?_⟩
      rw [scan_digitUnit hd, List.append_assoc, List.append_assoc, hscan]
    | true =>
      -- The scan takes the sign and the first digit together.
      refine ⟨unit '-', digitUnit d :: (digitText ds ++ fractionText ++ exponentText), rfl,
        by decide, ?_⟩
      rw [List.cons_append, Token.scan]
      repeat rw [if_neg (by decide)]
      rw [if_pos rfl, digit?_digitUnit hd, List.append_assoc, List.append_assoc]
      exact hscan

end Numerals

/-- Units that continue a word are read up to the first that does not. -/
theorem span_word {t rest : Text} (ht : ∀ u ∈ t, CodeUnit.isWordUnit u = true)
    (hrest : Delimited rest) :
    (t ++ rest).takeWhile CodeUnit.isWordUnit = t ∧
      (t ++ rest).dropWhile CodeUnit.isWordUnit = rest := by
  rw [List.takeWhile_append_of_pos ht, List.dropWhile_append_of_pos ht]
  cases rest with
  | nil => simp
  | cons u rest =>
    have hu := delimited_cons.mp hrest
    simp [hu]

/-- A word is read up to the first unit that ends it. -/
theorem scan_word {u : CodeUnit} {tail : Text} {j : Json}
    (hu : u ∉ units "\x7b\x7d[]:,\"/-") (hdigit : CodeUnit.digit? u = none)
    (htail : tail.all CodeUnit.isWordUnit = true) (hword : wordToken (u :: tail) = .word j)
    {rest : Text} (hrest : Delimited rest) :
    Token.scan u (tail ++ rest) = (.word j, rest) := by
  have hne := List.forall_mem_ne.mpr hu
  obtain ⟨htake, hdrop⟩ := span_word (List.all_eq_true.mp htail) hrest
  unfold Token.scan
  repeat rw [if_neg (hne _ (by decide))]
  rw [hdigit, htake, hdrop, hword]

end TypedReads
