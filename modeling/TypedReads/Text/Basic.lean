/-!
# Texts as UTF-16 code units

Every text the library handles is a list of 16-bit code units, so lengths, offsets and single
characters count code units, and a unit of a surrogate pair may stand alone. `units` gives the
code units of a string literal; `Text.ofNat` and `Text.ofInt` write integers in decimal, and
`ofDigits` reads digits back.
-/

namespace TypedReads

/-- One 16-bit unit of a UTF-16 text. -/
abbrev CodeUnit := UInt16

/-- A text is its sequence of UTF-16 code units; surrogates need not be paired. -/
abbrev Text := List CodeUnit

/-- The code unit of a character of the basic plane. -/
def unit (c : Char) : CodeUnit := c.toNat.toUInt16

/-- The code units of one character: one unit in the basic plane, a surrogate pair above it. -/
def unitsOf (c : Char) : Text :=
  if c.toNat < 0x10000 then [unit c]
  else
    let offset := c.toNat - 0x10000
    [(0xD800 + offset / 0x400).toUInt16, (0xDC00 + offset % 0x400).toUInt16]

/-- The code units of a string. -/
def units (s : String) : Text := s.toList.flatMap unitsOf

/-- The value of an ASCII decimal digit. -/
def CodeUnit.digit? (u : CodeUnit) : Option Nat :=
  if unit '0' ≤ u ∧ u ≤ unit '9' then some (u.toNat - 48) else none

/-- Whether a code unit is an ASCII decimal digit. -/
def CodeUnit.isDigit (u : CodeUnit) : Bool := u.digit?.isSome

/-- The digits at the start of a text, as numbers, and what follows them. -/
def Text.scanDigits : Text → List Nat × Text
  | [] => ([], [])
  | u :: rest =>
    match CodeUnit.digit? u with
    | some d => let (ds, after) := Text.scanDigits rest; (d :: ds, after)
    | none => ([], u :: rest)

/-- The number spelled by decimal digits, most significant first. -/
def ofDigits (ds : List Nat) : Nat := ds.foldl (fun n d => 10 * n + d) 0

/-- The decimal digits of a number, most significant first, without leading zeros. -/
def decimalDigits (n : Nat) : List Nat :=
  if n < 10 then [n] else decimalDigits (n / 10) ++ [n % 10]

/-- The code unit of a decimal digit. -/
def digitUnit (d : Nat) : CodeUnit := (48 + d).toUInt16

/-- The decimal numeral of a natural number. -/
def Text.ofNat (n : Nat) : Text := (decimalDigits n).map digitUnit

/-- The decimal numeral of an integer, with a minus sign in front of a negative one. -/
def Text.ofInt (n : Int) : Text :=
  if n < 0 then unit '-' :: Text.ofNat n.natAbs else Text.ofNat n.natAbs

/-- Whether a text starts with another. -/
def Text.startsWith (t start : Text) : Bool := start.isPrefixOf t

end TypedReads
