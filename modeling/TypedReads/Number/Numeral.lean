import TypedReads.Number.Decimal
import TypedReads.Number.Kind
import TypedReads.Text.Blank

/-!
# Numerals

A numeral is the written form of a decimal number: a sign, digits, and optionally a fraction and
an exponent. `Text.integral?` and `Text.floating?` read the numerals that a text value may hold.
Document numerals have a stricter grammar, and their scanner stands with the lexer.
-/

namespace TypedReads

/-- A written decimal number. -/
structure Numeral where
  /-- Whether a minus sign stands in front. -/
  negative : Bool
  /-- The digits before the point. -/
  whole : List Nat
  /-- The digits after the point, if there is one. -/
  fraction : Option (List Nat)
  /-- The power of ten, if one is written. -/
  exponent : Option Int
  deriving DecidableEq

namespace Numeral

/-- The magnitude that a numeral spells. -/
def toDecimal (n : Numeral) : Decimal :=
  let fraction := n.fraction.getD []
  ⟨ofDigits (n.whole ++ fraction), n.exponent.getD 0 - fraction.length⟩

/-- The number nearest to what a numeral spells. -/
def toDouble (n : Numeral) : Double := Double.ofDecimal n.negative n.toDecimal

/-- The integer that a numeral with neither fraction nor exponent spells. -/
def toInt? (n : Numeral) : Option Int :=
  if n.fraction.isNone ∧ n.exponent.isNone then
    some (if n.negative then -(ofDigits n.whole : Int) else ofDigits n.whole)
  else none

end Numeral

/-- A sign at the start of a text, true for minus, and what follows it. -/
def Text.scanSign : Text → Bool × Text
  | [] => (false, [])
  | u :: rest =>
    if u = unit '-' then (true, rest)
    else if u = unit '+' then (false, rest)
    else (false, u :: rest)

/-- The number that a text of digits alone spells. -/
def Text.natural? (t : Text) : Option Nat :=
  match t.scanDigits with
  | ([], _) => none
  | (ds, []) => some (ofDigits ds)
  | _ => none

/-- An optional sign and digits, as a value of a kind. A numeral out of range is no value at
all, in either mode. -/
def Text.integral? (t : Text) (kind : IntegralKind) : Option Int :=
  let (negative, rest) := t.scanSign
  (rest.natural?.map fun n => if negative then -(n : Int) else n).filter kind.holds

/-- The exponent part of a numeral, which ends the text: nothing, or `e` and an integer. -/
def Text.exponent? : Text → Option (Option Int)
  | [] => some none
  | u :: rest =>
    if u = unit 'e' ∨ u = unit 'E' then
      let (negative, digits) := Text.scanSign rest
      digits.natural?.map fun n => some (if negative then -(n : Int) else n)
    else none

/-- An unsigned decimal numeral: digits with a point before, among or after them, at least one
digit in all, and an optional exponent. -/
def Text.decimal? (negative : Bool) (t : Text) : Option Numeral :=
  let (whole, rest) := t.scanDigits
  let (fraction, rest) :=
    match rest with
    | [] => (none, [])
    | u :: after =>
      if u = unit '.' then
        let (ds, after) := Text.scanDigits after
        (some ds, after)
      else (none, u :: after)
  if whole = [] ∧ fraction.getD [] = [] then none
  else (Text.exponent? rest).map fun exponent => ⟨negative, whole, fraction, exponent⟩

/-- A floating-point literal with blanks around it: an optional sign and then `NaN`, `Infinity`
or a decimal numeral. -/
def Text.floating? (t : Text) : Option Double :=
  let (negative, rest) := t.trim.scanSign
  if rest = units "NaN" then some .nan
  else if rest = units "Infinity" then some (.infinite negative)
  else (rest.decimal? negative).map Numeral.toDouble

end TypedReads
