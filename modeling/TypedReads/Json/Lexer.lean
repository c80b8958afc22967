import TypedReads.Json.Token

/-!
# From text to tokens

`Text.tokens` cuts a document into tokens. Blanks are the space, the tab, the line feed and the
carriage return; nothing else separates tokens, and comments are refused. A string with several
flaws reports the last of them. Each scanner takes the text behind the unit that it starts with
and returns what it leaves over, which is never longer than what it got.
-/

namespace TypedReads

/-- The units that separate tokens. -/
def CodeUnit.isSpace (u : CodeUnit) : Bool := u == 0x20 || u == 0x09 || u == 0x0A || u == 0x0D

/-- The value of a hexadecimal digit of either case. -/
def CodeUnit.hexDigit? (u : CodeUnit) : Option Nat :=
  if unit '0' ≤ u ∧ u ≤ unit '9' then some (u.toNat - 48)
  else if unit 'a' ≤ u ∧ u ≤ unit 'f' then some (u.toNat - 87)
  else if unit 'A' ≤ u ∧ u ≤ unit 'F' then some (u.toNat - 55)
  else none

/-- Reads a number of hexadecimal digits, after a value already read; stops in front of the
first unit that is none. -/
def Text.scanHex : Nat → Nat → Text → Option Nat × Text
  | 0, value, t => (some value, t)
  | _ + 1, _, [] => (none, [])
  | count + 1, value, u :: rest =>
    match CodeUnit.hexDigit? u with
    | some d => Text.scanHex count (16 * value + d) rest
    | none => (none, u :: rest)

/-- Hexadecimal digits are taken from the front. -/
theorem Text.scanHex_length_le (count value : Nat) (t : Text) :
    (Text.scanHex count value t).2.length ≤ t.length := by
  fun_induction Text.scanHex count value t <;> simp <;> omega

/-- So are decimal digits. -/
theorem Text.scanDigits_length_le (t : Text) : t.scanDigits.2.length ≤ t.length := by
  fun_induction Text.scanDigits t <;> simp_all <;> omega

/-- The unit that a letter stands for after a backslash. -/
def CodeUnit.unescape? (u : CodeUnit) : Option CodeUnit :=
  if u = unit '"' ∨ u = unit '\\' ∨ u = unit '/' then some u
  else if u = unit 'b' then some 0x08
  else if u = unit 'f' then some 0x0C
  else if u = unit 'n' then some 0x0A
  else if u = unit 'r' then some 0x0D
  else if u = unit 't' then some 0x09
  else none

/-- A scanned string: what it spells, its last flaw, and the text behind it. -/
structure ScannedString where
  /-- The units spelled. -/
  value : Text
  /-- The last flaw, if there is one. -/
  flaw : Option SyntaxCode
  /-- The text behind the string. -/
  rest : Text

namespace ScannedString

/-- The string with a unit in front. -/
def cons (u : CodeUnit) (s : ScannedString) : ScannedString := { s with value := u :: s.value }

/-- The string with a flaw in front, which counts only if none follows. -/
def flawed (code : SyntaxCode) (s : ScannedString) : ScannedString :=
  { s with flaw := s.flaw <|> some code }

/-- The token that a string is. -/
def token (s : ScannedString) : Token :=
  match s.flaw with
  | none => .string s.value
  | some code => .invalid code

end ScannedString

/-- Reads a string behind its opening quote. A raw line break ends it and is left over. -/
def Text.scanString (t : Text) : ScannedString :=
  match t with
  | [] => ⟨[], some .unexpectedEndOfString, []⟩
  | u :: rest =>
    if u = unit '"' then ⟨[], none, rest⟩
    else if u = unit '\\' then
      match rest with
      | [] => ⟨[], some .unexpectedEndOfString, []⟩
      | v :: rest =>
        if v = unit 'u' then
          have := Text.scanHex_length_le 4 0 rest
          match (Text.scanHex 4 0 rest).1 with
          | some value => (Text.scanString (Text.scanHex 4 0 rest).2).cons value.toUInt16
          | none => (Text.scanString (Text.scanHex 4 0 rest).2).flawed .invalidUnicode
        else
          match CodeUnit.unescape? v with
          | some value => (Text.scanString rest).cons value
          | none => (Text.scanString rest).flawed .invalidEscapeCharacter
    else if u = 0x0A ∨ u = 0x0D then ⟨[], some .unexpectedEndOfString, u :: rest⟩
    else if u < 0x20 then (Text.scanString rest).flawed .invalidCharacter
    else (Text.scanString rest).cons u
termination_by t.length
decreasing_by all_goals simp only [List.length_cons]; omega

/-- Reads the fraction of a numeral: nothing, or a point and digits; `none` if the digits are
missing. -/
def Text.scanFraction : Text → Option (Option (List Nat) × Text)
  | [] => some (none, [])
  | u :: rest =>
    if u = unit '.' then
      match Text.scanDigits rest with
      | ([], _) => none
      | (ds, after) => some (some ds, after)
    else some (none, u :: rest)

/-- Reads the exponent of a numeral: nothing, or `e`, a sign or none, and digits; `none` if the
digits are missing. -/
def Text.scanExponent : Text → Option (Option Int × Text)
  | [] => some (none, [])
  | u :: rest =>
    if u = unit 'e' ∨ u = unit 'E' then
      let (negative, digits) := Text.scanSign rest
      match Text.scanDigits digits with
      | ([], _) => none
      | (ds, after) =>
        let n : Int := ofDigits ds
        some (some (if negative then -n else n), after)
    else some (none, u :: rest)

/-- Reads a numeral behind its sign, of which the first digit is known: a leading zero stands
alone. A numeral without the digits of its fraction or exponent leaves nothing over. -/
def Text.scanNumeral (negative : Bool) (first : Nat) (rest : Text) : Token × Text :=
  let (more, rest) := if first = 0 then ([], rest) else Text.scanDigits rest
  match Text.scanFraction rest with
  | none => (.invalid .unexpectedEndOfNumber, [])
  | some (fraction, rest) =>
    match Text.scanExponent rest with
    | none => (.invalid .unexpectedEndOfNumber, [])
    | some (exponent, rest) => (.number ⟨negative, first :: more, fraction, exponent⟩, rest)

/-- The units that a word may hold. -/
def CodeUnit.isWordUnit (u : CodeUnit) : Bool :=
  !(CodeUnit.isSpace u || (units "\x7d]\x7b[\":,/").contains u)

/-- The token that a word is. -/
def wordToken (word : Text) : Token :=
  if word = units "true" then .word (.bool true)
  else if word = units "false" then .word (.bool false)
  else if word = units "null" then .word .null
  else .invalid .invalidSymbol

/-- The token that starts with a unit other than a blank, and the text behind it. -/
def Token.scan (u : CodeUnit) (rest : Text) : Token × Text :=
  if u = unit '\x7b' then (.openBrace, rest)
  else if u = unit '\x7d' then (.closeBrace, rest)
  else if u = unit '[' then (.openBracket, rest)
  else if u = unit ']' then (.closeBracket, rest)
  else if u = unit ':' then (.colon, rest)
  else if u = unit ',' then (.comma, rest)
  else if u = unit '"' then
    let s := Text.scanString rest
    (s.token, s.rest)
  else if u = unit '/' then
    match rest with
    | v :: _ =>
      -- A comment is an error wherever it ends, so its end is not looked for.
      if v = unit '/' ∨ v = unit '*' then (.invalid .invalidCommentToken, [])
      else (.invalid .invalidSymbol, rest)
    | [] => (.invalid .invalidSymbol, rest)
  else if u = unit '-' then
    match rest with
    | v :: after =>
      match CodeUnit.digit? v with
      | some d => Text.scanNumeral true d after
      | none => (.invalid .invalidSymbol, rest)
    | [] => (.invalid .invalidSymbol, rest)
  else
    match CodeUnit.digit? u with
    | some d => Text.scanNumeral false d rest
    | none =>
      (wordToken (u :: rest.takeWhile CodeUnit.isWordUnit), rest.dropWhile CodeUnit.isWordUnit)

/-- What is left behind a string is no longer than the text. -/
theorem Text.scanString_length_le (t : Text) : (Text.scanString t).rest.length ≤ t.length := by
  fun_induction Text.scanString t <;>
    simp_all [ScannedString.cons, ScannedString.flawed] <;> omega

/-- A sign is taken from the front. -/
theorem Text.scanSign_length_le (t : Text) : t.scanSign.2.length ≤ t.length := by
  fun_cases Text.scanSign t <;> simp

/-- So is a fraction. -/
theorem Text.scanFraction_length_le {t rest : Text} {fraction : Option (List Nat)}
    (h : Text.scanFraction t = some (fraction, rest)) : rest.length ≤ t.length := by
  unfold Text.scanFraction at h
  split at h
  · simp_all
  · rename_i u after
    have := Text.scanDigits_length_le after
    split at h
    · split at h <;> simp_all <;> omega
    · simp_all

/-- So is an exponent. -/
theorem Text.scanExponent_length_le {t rest : Text} {exponent : Option Int}
    (h : Text.scanExponent t = some (exponent, rest)) : rest.length ≤ t.length := by
  unfold Text.scanExponent at h
  split at h
  · simp_all
  · rename_i u after
    have := Text.scanSign_length_le after
    have := Text.scanDigits_length_le (Text.scanSign after).2
    split at h
    · dsimp only at h
      split at h <;> simp_all <;> omega
    · simp_all

/-- What is left behind a number is no longer than what its first digit is followed by. -/
theorem Text.scanNumeral_length_le (negative : Bool) (first : Nat) (rest : Text) :
    (Text.scanNumeral negative first rest).2.length ≤ rest.length := by
  have := Text.scanDigits_length_le rest
  unfold Text.scanNumeral
  split
  rename_i more after hwhole
  have hafter : after.length ≤ rest.length := by
    split at hwhole
    · simp_all
    · simp_all
  split
  · simp
  · rename_i fraction after' hfraction
    have := Text.scanFraction_length_le hfraction
    split
    · simp
    · rename_i hexponent
      have := Text.scanExponent_length_le hexponent
      dsimp only
      omega

/-- A token leaves no more than what its first unit is followed by, so that scanning ends. -/
theorem Token.scan_length_le (u : CodeUnit) (rest : Text) :
    (Token.scan u rest).2.length ≤ rest.length := by
  have hstring := Text.scanString_length_le rest
  have hword := (List.dropWhile_sublist (l := rest) CodeUnit.isWordUnit).length_le
  unfold Token.scan
  repeat' split
  all_goals first
    | simp; done
    | exact hstring
    | exact hword
    | exact Text.scanNumeral_length_le ..
    | exact Nat.le_trans (Text.scanNumeral_length_le ..) (by simp)

/-- The tokens of a document, in order. -/
def Text.tokens (t : Text) : List Lexeme :=
  match t with
  | [] => []
  | u :: rest =>
    if CodeUnit.isSpace u then Text.tokens rest
    else
      have := Token.scan_length_le u rest
      ⟨(Token.scan u rest).1, u :: rest⟩ :: Text.tokens (Token.scan u rest).2
termination_by t.length
decreasing_by
  · exact Nat.lt_succ_self _
  · exact Nat.lt_succ_of_le this

end TypedReads
