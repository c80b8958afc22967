import TypedReads.Text.Surrogate

/-!
# Quoted texts

The quoted form of a text in JSON. A quote and a backslash are escaped, five controls have a
letter of their own, every other control and every unpaired surrogate is written as four
hexadecimal digits, and all else stands for itself.
-/

namespace TypedReads

/-- A lower-case hexadecimal digit. -/
def hexUnit (d : Nat) : CodeUnit := if d < 10 then digitUnit d else (87 + d).toUInt16

/-- The escape of a code unit by its four hexadecimal digits. -/
def hexEscape (u : CodeUnit) : Text :=
  let n := u.toNat
  [unit '\\', unit 'u', hexUnit (n / 0x1000), hexUnit (n / 0x100 % 0x10),
    hexUnit (n / 0x10 % 0x10), hexUnit (n % 0x10)]

/-- The letter that escapes a code unit, if it has one. -/
def shortEscape? (u : CodeUnit) : Option CodeUnit :=
  if u = unit '"' ∨ u = unit '\\' then some u
  else if u = 0x08 then some (unit 'b')
  else if u = 0x09 then some (unit 't')
  else if u = 0x0A then some (unit 'n')
  else if u = 0x0C then some (unit 'f')
  else if u = 0x0D then some (unit 'r')
  else none

/-- The quoted form of a code unit that is not part of a surrogate pair. -/
def escapeUnit (u : CodeUnit) : Text :=
  match shortEscape? u with
  | some c => [unit '\\', c]
  | none => if u < 0x20 ∨ CodeUnit.isSurrogate u then hexEscape u else [u]

/-- What stands between the quotes. -/
def Text.escape : Text → Text
  | [] => []
  | [u] => escapeUnit u
  | u :: v :: rest =>
    if CodeUnit.isHigh u && CodeUnit.isLow v then u :: v :: Text.escape rest
    else escapeUnit u ++ Text.escape (v :: rest)

/-- The quoted form of a text. -/
def Text.quote (t : Text) : Text := unit '"' :: t.escape ++ [unit '"']

end TypedReads
