import TypedReads.Number.Narrow
import TypedReads.Value.Basic

/-!
# Native values

Constructors for the types that a plain number cannot name. Integers narrower than 64 bits, both
floating types and single characters are boxed; a 64-bit integer is a plain integer.
-/

namespace TypedReads

/-- A refused argument. -/
inductive ArgumentError where
  /-- A character of more or fewer than one code unit. -/
  | notOneUnit (length : Nat)
  /-- No map was given. -/
  | noMap
  deriving DecidableEq

/-- The message of an error. -/
def ArgumentError.message : ArgumentError → Text
  | notOneUnit length =>
    units "char requires exactly one UTF-16 code unit, got " ++ Text.ofNat length
  | noMap => units "Map must not be null"

namespace Native

/-- A number cast to an integral kind, as a number again. -/
def castIntegral (x : Double) (kind : IntegralKind) : Double :=
  Double.ofInt ((truncateFloating x kind .standard).getD 0)

/-- The box of a number cast to a kind. -/
def number (kind : NumericKind) (x : Double) : Object :=
  match kind with
  | .integral k => .numberBox kind (castIntegral x k)
  | .floating .float => .numberBox kind x.toSingle
  | .floating .double => .numberBox kind x

/-- An integer wrapped to 64 bits. -/
def long (n : Int) : Value := .integer (IntegralKind.long.wrap n)

/-- A number cast to a 64-bit integer. -/
def longOfNumber (x : Double) : Value :=
  .integer ((truncateFloating x .long .standard).getD 0)

/-- The box of a single code unit. -/
def char (t : Text) : Except ArgumentError Object :=
  if t.length = 1 then .ok (.charBox t) else .error (.notOneUnit t.length)

end Native

end TypedReads
