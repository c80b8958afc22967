import Mathlib.Data.List.TakeWhile
import TypedReads.Proofs.Json.Tokens
import TypedReads.Proofs.Number.Floating
import TypedReads.Proofs.Read.Overflow

/-!
# How a text spells a number

The texts that a read takes for numbers, with no reference to how they are scanned. An integral read asks
for an `IntegerText`, a floating read for a `LiteralText` with any blanks around it; `spelled_numbers` shows
both readers sound and complete. Each scanner is inverted on its own, as those of documents are.

An integer is a literal without a point or an exponent, so a text that is read as an integer is read as a
double too, and blanks are the only thing that the two reads see differently in front of a digit.
-/

namespace TypedReads

/-- The blanks around a literal: the controls from tab to carriage return, spaces, the separators of lines
and paragraphs, and the byte order mark. -/
def blankUnits : List CodeUnit :=
  [0x09, 0x0A, 0x0B, 0x0C, 0x0D, 0x20, 0xA0, 0x1680, 0x2000, 0x2001, 0x2002, 0x2003, 0x2004, 0x2005,
    0x2006, 0x2007, 0x2008, 0x2009, 0x200A, 0x2028, 0x2029, 0x202F, 0x205F, 0x3000, 0xFEFF]

/-- A sign and digits, which spell an integer. -/
inductive IntegerText : Text → ℤ → Prop
  | mk {sign : Text} {negative : Bool} {ds : List ℕ} (hsign : SignText sign negative) (hne : ds ≠ [])
      (hds : ∀ d ∈ ds, d < 10) :
      IntegerText (sign ++ digitText ds) (if negative then -(ofDigits ds : ℤ) else ofDigits ds)

/-- A sign and one of the two words or a decimal, with the double nearest to what it spells. -/
inductive LiteralText : Text → Double → Prop
  | nan {sign : Text} {negative : Bool} (hsign : SignText sign negative) :
      LiteralText (sign ++ units "NaN") .nan
  | infinity {sign : Text} {negative : Bool} (hsign : SignText sign negative) :
      LiteralText (sign ++ units "Infinity") (.infinite negative)
  | decimal {sign digits exponentText : Text} {negative : Bool} {whole : List ℕ}
      {fraction : Option (List ℕ)} {exponent : Option ℤ} {x : Double} (hsign : SignText sign negative)
      (hdigits : PointText digits whole fraction) (hexponent : ExponentText exponentText exponent)
      (hx : Double.NearestTo negative (Numeral.magnitude ⟨negative, whole, fraction, exponent⟩) x) :
      LiteralText (sign ++ digits ++ exponentText) x

section Blanks

/-- The blanks are those of the table. -/
theorem isBlank_iff (u : CodeUnit) : CodeUnit.isBlank u = true ↔ u ∈ blankUnits := by
  unfold CodeUnit.isBlank blankUnits
  simp only [Bool.or_eq_true, Bool.and_eq_true, decide_eq_true_eq, beq_iff_eq, List.mem_cons,
    List.not_mem_nil, or_false, UInt16.le_iff_toNat_le, ← UInt16.toNat_inj, UInt16.reduceToNat]
  omega

/-- Blanks end in front of a text that does not start with one. -/
theorem dropWhile_isBlank {before t : Text} (hbefore : ∀ u ∈ before, CodeUnit.isBlank u = true)
    (ht : ∀ u ∈ t.head?, CodeUnit.isBlank u = false) :
    (before ++ t).dropWhile CodeUnit.isBlank = t := by
  rw [List.dropWhile_append_of_pos hbefore]
  cases t with
  | nil => rfl
  | cons u t => rw [List.dropWhile_cons_of_neg (by rw [ht u rfl]; decide)]

/-- A text without blank units is what is left of it between blanks. -/
theorem trim_between {before core after : Text} (hbefore : ∀ u ∈ before, CodeUnit.isBlank u = true)
    (hcore : ∀ u ∈ core, CodeUnit.isBlank u = false) (hne : core ≠ [])
    (hafter : ∀ u ∈ after, CodeUnit.isBlank u = true) : (before ++ core ++ after).trim = core := by
  have hfirst : ∀ u ∈ (core ++ after).head?, CodeUnit.isBlank u = false := by
    obtain ⟨v, rest, rfl⟩ := List.exists_cons_of_ne_nil hne
    intro u hu
    obtain rfl := Option.some.inj hu
    exact hcore _ List.mem_cons_self
  have hlast : ∀ u ∈ core.reverse.head?, CodeUnit.isBlank u = false := fun u hu =>
    hcore u (List.mem_reverse.mp (List.mem_of_mem_head? hu))
  have hreversed : ∀ u ∈ after.reverse, CodeUnit.isBlank u = true := fun u hu =>
    hafter u (List.mem_reverse.mp hu)
  unfold Text.trim
  rw [List.append_assoc, dropWhile_isBlank hbefore hfirst, List.reverse_append,
    dropWhile_isBlank hreversed hlast, List.reverse_reverse]

/-- A text is what its trimming leaves, between blanks. -/
theorem exists_blanks (t : Text) : ∃ before after, (∀ u ∈ before, u ∈ blankUnits) ∧
    (∀ u ∈ after, u ∈ blankUnits) ∧ t = before ++ t.trim ++ after := by
  set rest := t.dropWhile CodeUnit.isBlank with hrest
  refine ⟨t.takeWhile CodeUnit.isBlank, (rest.reverse.takeWhile CodeUnit.isBlank).reverse,
    fun u hu => (isBlank_iff u).mp (List.mem_takeWhile_imp hu),
    fun u hu => (isBlank_iff u).mp (List.mem_takeWhile_imp (List.mem_reverse.mp hu)), ?_⟩
  have hsplit : rest = t.trim ++ (rest.reverse.takeWhile CodeUnit.isBlank).reverse := by
    rw [Text.trim, ← hrest, ← List.reverse_append, List.takeWhile_append_dropWhile,
      List.reverse_reverse]
  rw [List.append_assoc, ← hsplit, List.takeWhile_append_dropWhile]

end Blanks

section Integers

variable {t : Text} {n : ℤ}

/-- The integer of a sign and digits, as a text with a sign in front is read. -/
theorem exists_natural?_iff :
    (∃ m : ℕ, (t.scanSign).2.natural? = some m ∧ (if (t.scanSign).1 then -(m : ℤ) else m) = n) ↔
      IntegerText t n := by
  constructor
  · rintro ⟨m, hm, rfl⟩
    obtain ⟨sign, hsign, ht⟩ := signText_of_scanSign t
    obtain ⟨ds, hne, hds, hrest, rfl⟩ := natural?_eq_some_iff.mp hm
    have hinteger := IntegerText.mk hsign hne hds
    rwa [← hrest, ← ht] at hinteger
  · rintro @⟨sign, negative, ds, hsign, hne, hds⟩
    have hnatural : (digitText ds).natural? = some (ofDigits ds) :=
      natural?_eq_some_iff.mpr ⟨ds, hne, hds, rfl, rfl⟩
    obtain ⟨d, ds, rfl⟩ := List.exists_cons_of_ne_nil hne
    rw [digitText_cons, hsign.scanSign (hds d List.mem_cons_self)]
    exact ⟨_, hnatural, rfl⟩

/-- An integral read of a text finds its integer, if the kind has it. -/
theorem integral?_eq_some_iff {kind : IntegralKind} :
    t.integral? kind = some n ↔ IntegerText t n ∧ kind.holds n = true := by
  rw [← exists_natural?_iff]
  unfold Text.integral?
  rw [Option.filter_eq_some_iff]
  refine and_congr_left fun _ => ?_
  cases (t.scanSign).2.natural? <;> simp

/-- An integer is a literal of the double nearest to it. -/
theorem IntegerText.floating? (h : IntegerText t n) : ∃ x : Double, t.floating? = some x ∧ x.Rounds n := by
  obtain ⟨hsign, hne, hds⟩ := h
  rename_i sign negative ds
  have hread := (PointText.whole hne hds).floating? hsign .absent
  rw [List.append_nil] at hread
  have hvalue : Numeral.toInt? ⟨negative, ds, none, none⟩ =
      some (if negative then -(ofDigits ds : ℤ) else ofDigits ds) := if_pos ⟨rfl, rfl⟩
  refine ⟨_, hread, ?_⟩
  rw [← Numeral.value_of_toInt? hvalue]
  exact Double.rounds_toDouble _

end Integers

section Literals

variable {t : Text} {x : Double}

/-- What is read as an exponent is one. -/
theorem exponentText_of_exponent? {exponent : Option ℤ} (h : t.exponent? = some exponent) :
    ExponentText t exponent := by
  cases t with
  | nil =>
    cases h
    exact .absent
  | cons u rest =>
    unfold Text.exponent? at h
    dsimp only at h
    by_cases hu : u = unit 'e' ∨ u = unit 'E'
    · rw [if_pos hu] at h
      cases hm : (Text.scanSign rest).2.natural? with
      | none => simp [hm] at h
      | some m =>
        obtain ⟨sign, hsign, hrest⟩ := signText_of_scanSign rest
        obtain ⟨ds, hne, hds, hdigits, rfl⟩ := natural?_eq_some_iff.mp hm
        have hpower := ExponentText.power hu hsign hne hds
        rw [List.cons_append, ← hdigits, ← hrest] at hpower
        rw [hm] at h
        obtain rfl := Option.some.inj h
        exact hpower
    · rw [if_neg hu] at h
      cases h

/-- A decimal is read from its digits and its exponent. -/
theorem pointText_of_decimal? {negative : Bool} {n : Numeral} (h : t.decimal? negative = some n) :
    n.negative = negative ∧ ∃ digits exponentText, PointText digits n.whole n.fraction ∧
      ExponentText exponentText n.exponent ∧ t = digits ++ exponentText := by
  obtain ⟨whole, rest, hscan⟩ : ∃ whole rest, t.scanDigits = (whole, rest) := ⟨_, _, rfl⟩
  obtain ⟨hwhole, ht⟩ := digitText_of_scanDigits_ne hscan
  -- What is read behind the digits and their point is an exponent.
  have hfinish : ∀ (digits after : Text) (fraction : Option (List ℕ)), t = digits ++ after →
      (¬ (whole = [] ∧ fraction.getD [] = []) → PointText digits whole fraction) →
      (if whole = [] ∧ fraction.getD [] = [] then none
        else (Text.exponent? after).map fun exponent =>
          (⟨negative, whole, fraction, exponent⟩ : Numeral)) = some n →
      n.negative = negative ∧ ∃ digits exponentText, PointText digits n.whole n.fraction ∧
        ExponentText exponentText n.exponent ∧ t = digits ++ exponentText := by
    intro digits after fraction ht hdigits h
    split_ifs at h with hempty
    obtain ⟨exponent, hexponent, rfl⟩ := Option.map_eq_some_iff.mp h
    exact ⟨rfl, digits, after, hdigits hempty, exponentText_of_exponent? hexponent, ht⟩
  have hpointless : ¬ (whole = [] ∧ (none : Option (List ℕ)).getD [] = []) →
      PointText (digitText whole) whole none := fun h => .whole (fun hnil => h ⟨hnil, rfl⟩) hwhole
  unfold Text.decimal? at h
  rw [hscan] at h
  dsimp only at h
  cases rest with
  | nil => exact hfinish _ _ _ ht hpointless h
  | cons u rest =>
    -- A point is followed by the digits of the fraction.
    by_cases hu : u = unit '.'
    · obtain ⟨es, after, hafter⟩ : ∃ es after, Text.scanDigits rest = (es, after) := ⟨_, _, rfl⟩
      obtain ⟨hes, hrest⟩ := digitText_of_scanDigits_ne hafter
      refine hfinish (digitText whole ++ unit '.' :: digitText es) after (some es) ?_
        (fun hempty => ?_) ?_
      · rw [ht, hu, hrest, List.append_assoc]
        rfl
      · exact .pointed (mt List.append_eq_nil_iff.mp hempty) hwhole hes
      · simpa only [if_pos hu, hafter] using h
    · refine hfinish _ _ _ ht hpointless ?_
      simpa only [if_neg hu] using h

/-- A word is checked for blanks unit by unit. -/
theorem isBlank_of_all {word : Text} (h : word.all (!CodeUnit.isBlank ·) = true) :
    ∀ u ∈ word, CodeUnit.isBlank u = false := by
  simpa only [List.all_eq_true, Bool.not_eq_true'] using h

/-- A literal has no blanks, and some unit. -/
theorem LiteralText.isBlank (h : LiteralText t x) :
    (∀ u ∈ t, CodeUnit.isBlank u = false) ∧ t ≠ [] := by
  cases h with
  | nan hsign =>
    exact ⟨List.forall_mem_append.mpr ⟨hsign.isBlank, isBlank_of_all (by decide)⟩,
      List.append_ne_nil_of_right_ne_nil _ (by decide)⟩
  | infinity hsign =>
    exact ⟨List.forall_mem_append.mpr ⟨hsign.isBlank, isBlank_of_all (by decide)⟩,
      List.append_ne_nil_of_right_ne_nil _ (by decide)⟩
  | decimal hsign hdigits hexponent =>
    refine ⟨List.forall_mem_append.mpr ⟨List.forall_mem_append.mpr
      ⟨hsign.isBlank, hdigits.isBlank⟩, hexponent.isBlank⟩, ?_⟩
    obtain ⟨u, rest, rfl, -⟩ := hdigits.exists_cons
    simp

/-- A word behind a sign is what the reader compares. -/
theorem SignText.scanSign_trim {sign word : Text} {negative : Bool} (hsign : SignText sign negative)
    (hword : ∀ u ∈ word, CodeUnit.isBlank u = false)
    (hhead : ∀ u ∈ word.head?, u ≠ unit '-' ∧ u ≠ unit '+') :
    Text.scanSign (Text.trim (sign ++ word)) = (negative, word) := by
  rw [trim_of_forall (List.forall_mem_append.mpr ⟨hsign.isBlank, hword⟩)]
  exact hsign.scanSign_append hhead

/-- A literal is read as its double. -/
theorem LiteralText.floating? (h : LiteralText t x) : t.floating? = some x := by
  cases h with
  | nan hsign =>
    unfold Text.floating?
    rw [hsign.scanSign_trim (isBlank_of_all (by decide)) (by rintro _ ⟨⟩; decide)]
    rfl
  | infinity hsign =>
    unfold Text.floating?
    rw [hsign.scanSign_trim (isBlank_of_all (by decide)) (by rintro _ ⟨⟩; decide)]
    rfl
  | @decimal sign digits exponentText negative whole fraction exponent _ hsign hdigits hexponent hx =>
    have hnearest := Numeral.nearestTo_toDouble ⟨negative, whole, fraction, exponent⟩
    rw [hdigits.floating? hsign hexponent, hnearest.unique hx]

/-- What is read is a literal, once its blanks are gone. -/
theorem literalText_of_floating? (h : t.floating? = some x) : LiteralText t.trim x := by
  obtain ⟨sign, hsign, ht⟩ := signText_of_scanSign t.trim
  unfold Text.floating? at h
  dsimp only at h
  split_ifs at h with hnan hinfinity
  · obtain rfl := Option.some.inj h
    rw [ht, hnan]
    exact .nan hsign
  · obtain rfl := Option.some.inj h
    have hliteral := LiteralText.infinity hsign
    rwa [← hinfinity, ← ht] at hliteral
  · obtain ⟨n, hn, rfl⟩ := Option.map_eq_some_iff.mp h
    obtain ⟨hnegative, digits, exponentText, hdigits, hexponent, hrest⟩ := pointText_of_decimal? hn
    have hnearest := n.nearestTo_toDouble
    rw [ht, hrest, ← List.append_assoc]
    rw [← hnegative] at hsign
    exact .decimal hsign hdigits hexponent hnearest

/-- Only the text between the blanks is looked at. -/
theorem floating?_congr {t' : Text} (h : t.trim = t'.trim) : t.floating? = t'.floating? := by
  unfold Text.floating?
  rw [h]

/-- A floating read of a text finds a literal between blanks. -/
theorem floating?_eq_some_iff :
    t.floating? = some x ↔ ∃ before core after, (∀ u ∈ before, u ∈ blankUnits) ∧
      (∀ u ∈ after, u ∈ blankUnits) ∧ t = before ++ core ++ after ∧ LiteralText core x := by
  constructor
  · intro h
    obtain ⟨before, after, hbefore, hafter, ht⟩ := exists_blanks t
    exact ⟨before, t.trim, after, hbefore, hafter, ht, literalText_of_floating? h⟩
  · rintro ⟨before, core, after, hbefore, hafter, rfl, hcore⟩
    obtain ⟨hblank, hne⟩ := hcore.isBlank
    have htrim := trim_between (fun u hu => (isBlank_iff u).mpr (hbefore u hu)) hblank hne
      fun u hu => (isBlank_iff u).mpr (hafter u hu)
    rw [floating?_congr (htrim.trans (trim_of_forall hblank).symm)]
    exact hcore.floating?

/-- Only the word stands for no number. -/
theorem LiteralText.eq_of_nan (h : LiteralText t .nan) :
    ∃ sign negative, SignText sign negative ∧ t = sign ++ units "NaN" := by
  cases h with
  | nan hsign => exact ⟨_, _, hsign, rfl⟩
  | decimal _ _ _ hx => cases hx

end Literals

/-- A text is read as an integer of a kind exactly if it is a sign or none and digits, and its integer is in
the range of the kind. It is read as a double exactly if it is a literal between blanks, and then as the
double nearest to what the literal spells, which is NaN for the word alone. So what any integral read takes
for an integer is read as a double in every mode, the nearest one. -/
theorem spelled_numbers (t : Text) :
    (∀ (kind : IntegralKind) (n : ℤ), t.integral? kind = some n ↔
      IntegerText t n ∧ kind.least ≤ n ∧ n ≤ kind.greatest) ∧
    (∀ x, t.floating? = some x ↔ ∃ before core after, (∀ u ∈ before, u ∈ blankUnits) ∧
      (∀ u ∈ after, u ∈ blankUnits) ∧ t = before ++ core ++ after ∧ LiteralText core x) ∧
    (∀ core, LiteralText core .nan ↔
      ∃ sign negative, SignText sign negative ∧ core = sign ++ units "NaN") ∧
    ∀ (kind : IntegralKind) (n : ℤ), t.integral? kind = some n →
      ∃ x : Double, t.floating? = some x ∧ x.Rounds n ∧
        ∀ (s : Store) (mode : Narrowing), s.read .double (.text t) mode = .ok (some (.number x)) := by
  refine ⟨fun kind n => ?_, fun x => floating?_eq_some_iff, fun core => ?_, fun kind n h => ?_⟩
  · rw [integral?_eq_some_iff, IntegralKind.holds_iff]
  · refine ⟨LiteralText.eq_of_nan, ?_⟩
    rintro ⟨sign, negative, hsign, rfl⟩
    exact .nan hsign
  · obtain ⟨x, hx, hrounds⟩ := (integral?_eq_some_iff.mp h).1.floating?
    refine ⟨x, hx, hrounds, fun s mode => ?_⟩
    calc s.read .double (.text t) mode
        = .ok ((t.floating?.bind fun y => Scalar.widen y .double mode).map .number) := rfl
      _ = .ok (some (.number x)) := by rw [hx]; rfl

/-- The first odd integer past the safe ones, behind a sign, is read as itself and as the double nearest to
it; with a blank in front it is read as that double only. -/
theorem spelled_numbers_past_safe :
    (units "+9007199254740993").integral? .long = some 9007199254740993 ∧
    (units " +9007199254740993").integral? .long = none ∧
    ¬ IntegerText (units " +9007199254740993") 9007199254740993 ∧
    ∃ x : Double, x.Rounds (9007199254740993 : ℤ) ∧
      (units "+9007199254740993").floating? = some x ∧
      (units " +9007199254740993").floating? = some x := by
  obtain ⟨-, hfloating, -, hdouble⟩ := spelled_numbers (units "+9007199254740993")
  obtain ⟨hintegral', hfloating', -, -⟩ := spelled_numbers (units " +9007199254740993")
  have hread : (units "+9007199254740993").integral? .long = some 9007199254740993 := by
    decide +kernel
  have hnone : (units " +9007199254740993").integral? .long = none := by decide +kernel
  obtain ⟨x, hx, hrounds, -⟩ := hdouble .long 9007199254740993 hread
  refine ⟨hread, hnone, fun h => ?_, x, hrounds, hx, ?_⟩
  · have hsome := (hintegral' .long 9007199254740993).mpr ⟨h, by decide, by decide⟩
    rw [hnone] at hsome
    cases hsome
  · -- One more blank stands in front of the same literal.
    obtain ⟨before, core, after, hbefore, hafter, ht, hcore⟩ := (hfloating x).mp hx
    refine (hfloating' x).mpr ⟨0x20 :: before, core, after,
      List.forall_mem_cons.mpr ⟨by decide, hbefore⟩, hafter, ?_, hcore⟩
    exact congrArg ((0x20 : CodeUnit) :: ·) ht

end TypedReads
