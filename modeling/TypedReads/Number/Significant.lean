import TypedReads.Number.Shortest

/-!
# Texts of 32-bit numbers

A 32-bit number is shown with the fewest significant digits that read back as the same 32-bit
number, so that the single nearest to `1.1` is shown as `1.1`. Digits come from rounding the
exact value, a half away from zero; nine of them always suffice.
-/

namespace TypedReads

/-- A positive quotient rounded to `count` significant digits, a half upwards. -/
def significant (num den count : Nat) : Decimal :=
  let exponent := pointPlace num den - count
  let (steps, step) := inSteps num den exponent
  ⟨(2 * steps + step) / (2 * step), exponent⟩

/-- A number rounded to `count` significant digits and read back; zero loses its sign, and what
is not finite stays. -/
def Double.roundedTo (x : Double) (count : Nat) : Double :=
  match x with
  | .finite negative rank =>
    if rank.val = 0 then Double.ofInt 0
    else Double.ofDecimal negative (significant (Double.magnitude rank) Double.one count)
  | x => x

/-- The number that stands for a 32-bit number in text: the one with the fewest significant
digits, nine at most, that rounds to it. -/
def Double.shortestSingle (x : Double) : Double :=
  (((List.range' 1 9).map x.roundedTo).find? fun y => y.toSingle.eqv x).getD x

/-- The text of a number stored as a 32-bit one. -/
def Double.toSingleText (x : Double) : Text := x.shortestSingle.toText

end TypedReads
