import TypedReads.Proofs.Json.Grammar

/-!
# Tokens are grammatical texts

Whatever the lexer makes a token of is a text that the grammar gives for it (`scan_text`), with
nothing left out in front of what follows. `TokenText` is the grammar of single tokens, and
`tokens_cases` cuts a document into blanks, a first token and the rest.

Each scanner is inverted on its own: what it returns besides the rest of the text comes from the
units in between.
-/

namespace TypedReads

/-- The texts of one token. -/
inductive TokenText : Text → Token → Prop
  | openBrace : TokenText [unit '\x7b'] .openBrace
  | closeBrace : TokenText [unit '\x7d'] .closeBrace
  | openBracket : TokenText [unit '['] .openBracket
  | closeBracket : TokenText [unit ']'] .closeBracket
  | colon : TokenText [unit ':'] .colon
  | comma : TokenText [unit ','] .comma
  | null : TokenText (units "null") (.word .null)
  | true : TokenText (units "true") (.word (.bool .true))
  | false : TokenText (units "false") (.word (.bool .false))
  | number {t : Text} {n : Numeral} (h : NumeralText t n) : TokenText t (.number n)
  | string {t value : Text} (h : StringText t value) : TokenText (quoted t) (.string value)

/-- Whether a token is one that the grammar knows. -/
def Token.Valid (token : Token) : Prop := ∀ code, token ≠ .invalid code

/-- A problem is no valid token. -/
theorem Token.not_valid_invalid (code : SyntaxCode) : ¬ (Token.invalid code).Valid :=
  fun h => h code rfl

section Strings

/-- One hexadecimal digit is read at a time. -/
theorem scanHex_succ {count value n : ℕ} {t rest : Text}
    (h : Text.scanHex (count + 1) value t = (some n, rest)) :
    ∃ u d tail, t = u :: tail ∧ CodeUnit.hexDigit? u = some d ∧
      Text.scanHex count (16 * value + d) tail = (some n, rest) := by
  cases t with
  | nil => cases h
  | cons u tail =>
    unfold Text.scanHex at h
    split at h
    · rename_i d hd
      exact ⟨u, d, tail, rfl, hd, h⟩
    · cases h

/-- Four hexadecimal digits behind `\u` spell a unit. -/
theorem unitText_of_scanHex {t : Text} {n : ℕ} (h : (Text.scanHex 4 0 t).1 = some n) :
    ∃ digits, UnitText (unit '\\' :: unit 'u' :: digits) n.toUInt16 ∧
      t = digits ++ (Text.scanHex 4 0 t).2 := by
  have hscan : Text.scanHex 4 0 t = (some n, (Text.scanHex 4 0 t).2) := by rw [← h]
  generalize (Text.scanHex 4 0 t).2 = rest at hscan ⊢
  obtain ⟨a, i, _, rfl, ha, hscan⟩ := scanHex_succ hscan
  obtain ⟨b, j, _, rfl, hb, hscan⟩ := scanHex_succ hscan
  obtain ⟨c, k, _, rfl, hc, hscan⟩ := scanHex_succ hscan
  obtain ⟨d, l, _, rfl, hd, hscan⟩ := scanHex_succ hscan
  cases hscan
  exact ⟨[a, b, c, d], .hex ha hb hc hd, rfl⟩

/-- A flaw stays a flaw. -/
theorem ScannedString.flaw_flawed (code : SyntaxCode) (s : ScannedString) :
    (s.flawed code).flaw ≠ none := by
  unfold flawed
  cases s.flaw <;> simp

/-- A string without flaws is a string of the grammar up to its closing quote. -/
theorem stringText_of_scanString {t : Text} (h : (Text.scanString t).flaw = none) :
    ∃ body, StringText body (Text.scanString t).value ∧
      t = body ++ unit '"' :: (Text.scanString t).rest := by
  -- A unit in front of a string, in any of its texts.
  have hcons : ∀ {body rest : Text} {u : CodeUnit}, UnitText body u →
      (∃ tail, StringText tail (Text.scanString rest).value ∧
        rest = tail ++ unit '"' :: (Text.scanString rest).rest) →
      ∃ tail, StringText tail ((Text.scanString rest).cons u).value ∧
        body ++ rest = tail ++ unit '"' :: ((Text.scanString rest).cons u).rest := by
    rintro body rest u hunit ⟨tail, htail, hrest⟩
    refine ⟨body ++ tail, .cons hunit htail, ?_⟩
    rw [List.append_assoc]
    exact congrArg (body ++ ·) hrest
  fun_induction Text.scanString t with
  | case1 => cases h
  | case2 rest => exact ⟨[], .nil, rfl⟩
  | case3 => cases h
  | case4 rest _ n hn _ ih =>
    obtain ⟨digits, hunit, hrest⟩ := unitText_of_scanHex hn
    have hstring := hcons hunit (ih h)
    rwa [List.cons_append, List.cons_append, ← hrest] at hstring
  | case6 v rest hv u hu _ ih => exact hcons (.letter hu) (ih h)
  | case10 u rest hquote hslash hbreak hcontrol ih =>
    exact hcons (.raw hquote hslash hcontrol) (ih h)
  | case8 => cases h
  | case5 | case7 | case9 => exact absurd h (ScannedString.flaw_flawed _ _)

end Strings

section Numerals

/-- What is scanned as a fraction is one. -/
theorem fractionText_of_scanFraction {t rest : Text} {fraction : Option (List ℕ)}
    (h : Text.scanFraction t = some (fraction, rest)) :
    ∃ text, FractionText text fraction ∧ t = text ++ rest := by
  cases t with
  | nil =>
    cases h
    exact ⟨[], .absent, rfl⟩
  | cons u tail =>
    unfold Text.scanFraction at h
    dsimp only at h
    split_ifs at h with hu
    · split at h
      · cases h
      · rename_i ds after hne hscan
        cases h
        obtain ⟨hds, htail⟩ := digitText_of_scanDigits_ne hscan
        exact ⟨_, .digits hne hds, by rw [hu, htail]; rfl⟩
    · cases h
      exact ⟨[], .absent, rfl⟩

/-- What is scanned as a sign is one, or nothing. -/
theorem signText_of_scanSign (t : Text) :
    ∃ sign, SignText sign (Text.scanSign t).1 ∧ t = sign ++ (Text.scanSign t).2 := by
  fun_cases Text.scanSign t with
  | case1 => exact ⟨[], .absent, rfl⟩
  | case2 => exact ⟨_, .minus, rfl⟩
  | case3 => exact ⟨_, .plus, rfl⟩
  | case4 => exact ⟨[], .absent, rfl⟩

/-- What is scanned as an exponent is one. -/
theorem exponentText_of_scanExponent {t rest : Text} {exponent : Option ℤ}
    (h : Text.scanExponent t = some (exponent, rest)) :
    ∃ text, ExponentText text exponent ∧ t = text ++ rest := by
  cases t with
  | nil =>
    cases h
    exact ⟨[], .absent, rfl⟩
  | cons u tail =>
    unfold Text.scanExponent at h
    dsimp only at h
    by_cases hu : u = unit 'e' ∨ u = unit 'E'
    · obtain ⟨sign, hsign, htail⟩ := signText_of_scanSign tail
      rw [if_pos hu] at h
      split at h
      · cases h
      · rename_i ds after hne hscan
        cases h
        obtain ⟨hds, hdigits⟩ := digitText_of_scanDigits_ne hscan
        refine ⟨_, .power hu hsign hne hds, ?_⟩
        rw [List.cons_append, List.cons_append, List.append_assoc, ← hdigits, ← htail]
    · rw [if_neg hu] at h
      cases h
      exact ⟨[], .absent, rfl⟩

/-- A numeral is read from its text behind the sign and the first digit. -/
theorem numeralText_of_scanNumeral {negative : Bool} {first : ℕ} (hfirst : first < 10)
    {t rest : Text} {n : Numeral} (h : Text.scanNumeral negative first t = (.number n, rest)) :
    ∃ text, NumeralText (minusText negative ++ digitUnit first :: text) n ∧ t = text ++ rest := by
  -- The digits in front of the point: none but the first, if that is a zero.
  obtain ⟨more, after, hmore, hwhole, ht⟩ : ∃ more after,
      (if first = 0 then ([], t) else Text.scanDigits t) = (more, after) ∧
      WholeDigits (first :: more) ∧ t = digitText more ++ after := by
    by_cases hzero : first = 0
    · refine ⟨[], t, if_pos hzero, ⟨by simp, by simpa using hfirst, fun _ => by rw [hzero]⟩, rfl⟩
    · obtain ⟨hds, ht⟩ := digitText_of_scanDigits t
      refine ⟨_, _, if_neg hzero, ⟨by simp, ?_, ?_⟩, ht⟩
      · rintro d hd
        rcases List.mem_cons.mp hd with rfl | hd
        · exact hfirst
        · exact hds d hd
      · intro hhead
        exact absurd (Option.some.inj hhead) hzero
  unfold Text.scanNumeral at h
  rw [hmore] at h
  dsimp only at h
  split at h
  · cases h
  · rename_i fraction afterFraction hfraction
    split at h
    · cases h
    · rename_i exponent afterExponent hexponent
      cases h
      obtain ⟨fractionText, hfractionText, rfl⟩ := fractionText_of_scanFraction hfraction
      obtain ⟨exponentText, hexponentText, rfl⟩ := exponentText_of_scanExponent hexponent
      have hnumeral := @NumeralText.mk negative _ _ _ _ _ hwhole hfractionText hexponentText
      refine ⟨digitText more ++ fractionText ++ exponentText, ?_, ?_⟩
      · simpa using hnumeral
      · rw [ht]
        simp

end Numerals

/-- A word is one of three. -/
theorem tokenText_of_wordToken {word : Text} (h : (wordToken word).Valid) :
    TokenText word (wordToken word) := by
  unfold wordToken at h ⊢
  split_ifs at h ⊢ with htrue hfalse hnull
  · exact htrue ▸ .true
  · exact hfalse ▸ .false
  · exact hnull ▸ .null
  · exact absurd h (Token.not_valid_invalid _)

/-- A numeral is a token if its scan makes it one. -/
theorem tokenText_of_scanNumeral {negative : Bool} {first : ℕ} (hfirst : first < 10)
    {t rest : Text} {token : Token} (h : Text.scanNumeral negative first t = (token, rest))
    (hvalid : token.Valid) :
    ∃ text, TokenText (minusText negative ++ digitUnit first :: text) token ∧ t = text ++ rest := by
  have hnumber : ∃ n, token = .number n := by
    unfold Text.scanNumeral at h
    dsimp only at h
    split at h
    · cases h
      exact absurd hvalid (Token.not_valid_invalid _)
    · split at h
      · cases h
        exact absurd hvalid (Token.not_valid_invalid _)
      · cases h
        exact ⟨_, rfl⟩
  obtain ⟨n, rfl⟩ := hnumber
  obtain ⟨text, htext, ht⟩ := numeralText_of_scanNumeral hfirst h
  exact ⟨text, .number htext, ht⟩

/-- A token is scanned from its text. -/
theorem scan_text {u : CodeUnit} {rest after : Text} {token : Token}
    (h : Token.scan u rest = (token, after)) (hvalid : token.Valid) :
    ∃ text, TokenText (u :: text) token ∧ rest = text ++ after := by
  have hinvalid : ∀ {code : SyntaxCode} {t : Text}, (Token.invalid code, t) ≠ (token, after) := by
    rintro code t heq
    cases heq
    exact Token.not_valid_invalid code hvalid
  unfold Token.scan at h
  split_ifs at h with hopen hclose hopenBracket hcloseBracket hcolon hcomma hquote hslash hminus
  -- The punctuation marks are tokens of one unit.
  · cases h
    exact ⟨[], hopen ▸ .openBrace, rfl⟩
  · cases h
    exact ⟨[], hclose ▸ .closeBrace, rfl⟩
  · cases h
    exact ⟨[], hopenBracket ▸ .openBracket, rfl⟩
  · cases h
    exact ⟨[], hcloseBracket ▸ .closeBracket, rfl⟩
  · cases h
    exact ⟨[], hcolon ▸ .colon, rfl⟩
  · cases h
    exact ⟨[], hcomma ▸ .comma, rfl⟩
  · -- A string without flaws.
    dsimp only at h
    unfold ScannedString.token at h
    split at h
    · rename_i hflaw
      cases h
      obtain ⟨body, hbody, hrest⟩ := stringText_of_scanString hflaw
      refine ⟨body ++ [unit '"'], ?_, ?_⟩
      · rw [hquote]
        exact .string hbody
      · rwa [List.append_assoc]
    · exact absurd h hinvalid
  · -- No token starts with a slash.
    split at h
    · split_ifs at h
      · exact absurd h hinvalid
      · exact absurd h hinvalid
    · exact absurd h hinvalid
  · -- A minus sign stands in front of a digit.
    cases rest with
    | nil => exact absurd h hinvalid
    | cons v tail =>
      dsimp only at h
      split at h
      · rename_i d hd
        obtain ⟨rfl, hten⟩ := eq_digitUnit_of_digit? hd
        obtain ⟨text, htext, hafter⟩ := tokenText_of_scanNumeral hten h hvalid
        refine ⟨digitUnit d :: text, ?_, congrArg (digitUnit d :: ·) hafter⟩
        rw [hminus]
        exact htext
      · exact absurd h hinvalid
  -- Anything else is a number if it starts with a digit, and a word otherwise.
  · split at h
    · rename_i d hd
      obtain ⟨rfl, hten⟩ := eq_digitUnit_of_digit? hd
      exact tokenText_of_scanNumeral hten h hvalid
    · cases h
      exact ⟨_, tokenText_of_wordToken hvalid, (List.takeWhile_append_dropWhile ..).symm⟩

/-- A document is blank, or starts with blanks and a first token. -/
theorem tokens_cases (t : Text) :
    (Blank t ∧ Text.tokens t = []) ∨
    ∃ blank u rest, Blank blank ∧ t = blank ++ u :: rest ∧ CodeUnit.isSpace u = false ∧
      Text.tokens t = ⟨(Token.scan u rest).1, u :: rest⟩ :: Text.tokens (Token.scan u rest).2 := by
  induction t with
  | nil =>
    refine .inl ⟨blank_nil, ?_⟩
    rw [Text.tokens.eq_def]
  | cons u rest ih =>
    by_cases hu : CodeUnit.isSpace u = true
    · -- One more blank in front.
      have htokens : Text.tokens (u :: rest) = Text.tokens rest := by
        rw [Text.tokens.eq_def]
        dsimp only
        rw [if_pos hu]
      have hblank : ∀ {blank : Text}, Blank blank → Blank (u :: blank) :=
        fun h => List.forall_mem_cons.mpr ⟨hu, h⟩
      rw [htokens]
      rcases ih with ⟨hrest, hnil⟩ | ⟨blank, v, after, hrest, rfl, hv⟩
      · exact .inl ⟨hblank hrest, hnil⟩
      · exact .inr ⟨u :: blank, v, after, hblank hrest, rfl, hv⟩
    · -- The first token starts here.
      have hu := Bool.eq_false_iff.mpr hu
      refine .inr ⟨[], u, rest, blank_nil, rfl, hu, ?_⟩
      rw [Text.tokens.eq_def]
      dsimp only
      rw [if_neg (by rw [hu]; decide)]

end TypedReads
