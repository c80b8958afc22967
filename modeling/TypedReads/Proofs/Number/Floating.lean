import TypedReads.Proofs.Number.Canonical

/-!
# Numerals as floating-point literals

Every numeral of a document is a floating-point literal of the same number
(`NumeralText.floating?`): the literals allow more, such as blanks at the ends, a plus sign, or a
point without digits on one side. So the text of a finite double is read back as the double, but for
the sign of zero (`Double.floating?_toText`).
-/

namespace TypedReads

/-- A text without blank units is trimmed already. -/
theorem trim_of_forall {t : Text} (h : ∀ u ∈ t, CodeUnit.isBlank u = false) : t.trim = t := by
  have hdrop : ∀ {t : Text}, (∀ u ∈ t, CodeUnit.isBlank u = false) →
      t.dropWhile CodeUnit.isBlank = t := fun {t} h => by
    cases t with
    | nil => rfl
    | cons u rest => rw [List.dropWhile_cons_of_neg (by rw [h u List.mem_cons_self]; decide)]
  unfold Text.trim
  rw [hdrop h, hdrop fun u hu => h u (List.mem_reverse.mp hu), List.reverse_reverse]

/-- Digits are not blank. -/
theorem isBlank_digitText {ds : List ℕ} (hds : ∀ d ∈ ds, d < 10) :
    ∀ u ∈ digitText ds, CodeUnit.isBlank u = false := by
  intro u hu
  obtain ⟨d, hd, rfl⟩ := List.mem_map.mp hu
  have hall : ∀ d < 10, CodeUnit.isBlank (digitUnit d) = false := by decide
  exact hall d (hds d hd)

/-- A sign has no blanks. -/
theorem SignText.isBlank {t : Text} {negative : Bool} (h : SignText t negative) :
    ∀ u ∈ t, CodeUnit.isBlank u = false := by
  cases h with
  | absent => exact fun u hu => absurd hu List.not_mem_nil
  | plus => exact List.forall_mem_singleton.mpr (by decide)
  | minus => exact List.forall_mem_singleton.mpr (by decide)

/-- Nor has an exponent. -/
theorem ExponentText.isBlank {t : Text} {exponent : Option ℤ} (h : ExponentText t exponent) :
    ∀ u ∈ t, CodeUnit.isBlank u = false := by
  cases h with
  | absent => exact fun u hu => absurd hu List.not_mem_nil
  | power he hsign hne hds =>
    refine List.forall_mem_append.mpr ⟨List.forall_mem_cons.mpr ⟨?_, hsign.isBlank⟩,
      isBlank_digitText hds⟩
    rcases he with rfl | rfl <;> decide

/-- The exponent of a numeral ends a literal. -/
theorem ExponentText.exponent? {t : Text} {exponent : Option ℤ} (h : ExponentText t exponent) :
    Text.exponent? t = some exponent := by
  cases h with
  | absent => rfl
  | @power e sign negative ds he hsign hne hds =>
    have hnatural : Text.natural? (digitText ds) = some (ofDigits ds) :=
      natural?_eq_some_iff.mpr ⟨ds, hne, hds, rfl, rfl⟩
    obtain ⟨d, ds, rfl⟩ := List.exists_cons_of_ne_nil hne
    rw [List.cons_append, Text.exponent?, if_pos he, digitText_cons,
      hsign.scanSign (hds d List.mem_cons_self)]
    dsimp only
    rw [← digitText_cons, hnatural]
    rfl

/-- The digits of a decimal literal, with or without a point: at least one stands in front of it or
behind. -/
inductive PointText : Text → List ℕ → Option (List ℕ) → Prop
  | whole {ds : List ℕ} (hne : ds ≠ []) (hds : ∀ d ∈ ds, d < 10) : PointText (digitText ds) ds none
  | pointed {ds es : List ℕ} (hne : ds ++ es ≠ []) (hds : ∀ d ∈ ds, d < 10)
      (hes : ∀ e ∈ es, e < 10) : PointText (digitText ds ++ unit '.' :: digitText es) ds (some es)

/-- The digits of a numeral are those of a literal. -/
theorem FractionText.pointText {whole : List ℕ} (hne : whole ≠ []) (hten : ∀ d ∈ whole, d < 10)
    {t : Text} {fraction : Option (List ℕ)} (h : FractionText t fraction) :
    PointText (digitText whole ++ t) whole fraction := by
  cases h with
  | absent =>
    rw [List.append_nil]
    exact .whole hne hten
  | digits _ hds => exact .pointed (List.append_ne_nil_of_left_ne_nil hne _) hten hds

/-- Digits and an exponent are a literal behind its sign. -/
theorem PointText.decimal? (negative : Bool) {digits exponentText : Text} {whole : List ℕ}
    {fraction : Option (List ℕ)} {exponent : Option ℤ} (hdigits : PointText digits whole fraction)
    (hexponent : ExponentText exponentText exponent) :
    Text.decimal? negative (digits ++ exponentText) = some ⟨negative, whole, fraction, exponent⟩ := by
  have hnil : Delimited [] := by simp [Delimited]
  have hhead := hexponent.head hnil
  rw [List.append_nil] at hhead
  unfold Text.decimal?
  cases hdigits with
  | whole hne hds =>
    have hscan := scanDigits_digitText hds fun u hu => (hhead u hu).1
    rw [hscan]
    dsimp only
    -- An exponent does not start with a point.
    cases exponentText with
    | nil => simp [hne, hexponent.exponent?]
    | cons u rest => simp [hne, hexponent.exponent?, (hhead u (by simp)).2]
  | @pointed _ es hne hds hes =>
    have hpoint : ∀ u ∈ (unit '.' :: (digitText es ++ exponentText)).head?,
        CodeUnit.digit? u = none := by
      intro u hu
      obtain rfl := Option.some.inj hu
      decide
    have hscan := scanDigits_digitText hds hpoint
    have hscan' := scanDigits_digitText hes fun u hu => (hhead u hu).1
    have hempty : ¬ (whole = [] ∧ es = []) := mt List.append_eq_nil_iff.mpr hne
    rw [List.append_assoc, List.cons_append, hscan]
    dsimp only
    simp [hempty, hscan', hexponent.exponent?]

/-- Its first unit is a digit or the point. -/
theorem PointText.exists_cons {t : Text} {whole : List ℕ} {fraction : Option (List ℕ)}
    (h : PointText t whole fraction) : ∃ u rest, t = u :: rest ∧ u ∉ units "-+NI" := by
  have hall : ∀ d < 10, digitUnit d ∉ units "-+NI" := by decide
  cases h with
  | whole hne hds =>
    obtain ⟨d, ds, rfl⟩ := List.exists_cons_of_ne_nil hne
    exact ⟨_, _, rfl, hall d (hds d List.mem_cons_self)⟩
  | @pointed _ es _ hds _ =>
    cases whole with
    | nil => exact ⟨_, _, rfl, by decide⟩
    | cons d ds => exact ⟨_, _, rfl, hall d (hds d List.mem_cons_self)⟩

/-- Nor have digits with a point. -/
theorem PointText.isBlank {t : Text} {whole : List ℕ} {fraction : Option (List ℕ)}
    (h : PointText t whole fraction) : ∀ u ∈ t, CodeUnit.isBlank u = false := by
  cases h with
  | whole _ hds => exact isBlank_digitText hds
  | pointed _ hds hes =>
    exact List.forall_mem_append.mpr
      ⟨isBlank_digitText hds, List.forall_mem_cons.mpr ⟨by decide, isBlank_digitText hes⟩⟩

/-- A sign, digits and an exponent are a literal of the number that they spell. -/
theorem PointText.floating? {sign digits exponentText : Text} {negative : Bool} {whole : List ℕ}
    {fraction : Option (List ℕ)} {exponent : Option ℤ} (hsign : SignText sign negative)
    (hdigits : PointText digits whole fraction) (hexponent : ExponentText exponentText exponent) :
    Text.floating? (sign ++ digits ++ exponentText) =
      some (Numeral.toDouble ⟨negative, whole, fraction, exponent⟩) := by
  have htrim := trim_of_forall (List.forall_mem_append.mpr ⟨List.forall_mem_append.mpr
    ⟨hsign.isBlank, hdigits.isBlank⟩, hexponent.isBlank⟩)
  have hdecimal := hdigits.decimal? negative hexponent
  obtain ⟨u, rest, rfl, hu⟩ := hdigits.exists_cons
  have hne := List.forall_mem_ne.mpr hu
  have hscan : Text.scanSign (sign ++ (u :: rest ++ exponentText)) =
      (negative, u :: rest ++ exponentText) := by
    refine hsign.scanSign_append fun v hv => ?_
    obtain rfl := Option.some.inj hv
    exact ⟨hne _ (by decide), hne _ (by decide)⟩
  -- What starts with a digit or the point is not one of the two words.
  have hnan : u :: rest ++ exponentText ≠ units "NaN" := fun h =>
    hne _ (by decide) (List.cons.inj h).1
  have hinfinity : u :: rest ++ exponentText ≠ units "Infinity" := fun h =>
    hne _ (by decide) (List.cons.inj h).1
  unfold Text.floating?
  rw [htrim, List.append_assoc, hscan]
  dsimp only
  rw [if_neg hnan, if_neg hinfinity, hdecimal]
  rfl

/-- A numeral is a literal of the same number. -/
theorem NumeralText.floating? {t : Text} {n : Numeral} (h : NumeralText t n) :
    t.floating? = some n.toDouble := by
  obtain ⟨hwhole, hfraction, hexponent⟩ := h
  rename_i negative whole fractionText exponentText fraction exponent
  have hdigits := hfraction.pointText hwhole.1 hwhole.2.1
  rw [List.append_assoc (minusText negative)]
  exact hdigits.floating? (signText_minusText negative) hexponent

/-- The text of a finite double is read back as the double, but for the sign of zero. -/
theorem Double.floating?_toText {x : Double} (h : x.isFinite = true) :
    x.toText.floating? = some x.withoutNegativeZero := by
  cases x with
  | nan => cases h
  | infinite negative => cases h
  | finite negative rank => rw [(numeralText_toText negative rank).floating?, toDouble_numeral]

end TypedReads
