import TypedReads.Number.Decimal

/-!
# Shortest decimals

The decimal text of a double. Its digits are the fewest that read back as the same double, and
of those the nearest to it: for each count of digits only the two neighbours on the decimal grid
can be nearest, so they alone are tried. The text is positional between `10 ^ (-6)` and
`10 ^ 21` and scientific elsewhere.
-/

namespace TypedReads

-- Powers are the core ones, also where a monoid would offer its own.
attribute [local instance (2000)] instPowNat instNatPowNat

/-- The decimal with `count` digits that `reads` accepts and that is nearest to a positive
quotient, ties to even digits; `none` if neither neighbour is accepted. -/
def nearestAccepted (reads : Decimal → Bool) (num den count : Nat) : Option Decimal :=
  let exponent := pointPlace num den - count
  let (steps, step) := inSteps num den exponent
  -- The two neighbours of the quotient on the grid of `10 ^ exponent`.
  let below := steps / step
  let rest := steps % step
  let lower : Decimal := ⟨below, exponent⟩
  let upper : Decimal := ⟨below + 1, exponent⟩
  match reads lower, reads upper with
  | false, false => none
  | true, false => some lower
  | false, true => some upper
  | true, true =>
    if 2 * rest < step ∨ 2 * rest = step ∧ below % 2 = 0 then some lower else some upper

/-- The shortest decimal of a positive magnitude. Seventeen digits tell any two doubles apart;
the exact expansion stands behind them so that no case is left open. -/
def Double.shortest (rank : Fin BinaryFormat.double.ranks) : Decimal :=
  let units := Double.magnitude rank
  let reads (d : Decimal) : Bool := Double.ofDecimal false d = .finite false rank
  let found := (List.range' 1 17).findSome? (nearestAccepted reads units Double.one)
  (found.getD ⟨units * 5 ^ BinaryFormat.double.scale, -BinaryFormat.double.scale⟩).reduced

/-- The layout of a decimal with `digits` and its point at `place`. -/
def layoutDigits (digits : Text) (place : Int) : Text :=
  let count : Int := digits.length
  if count ≤ place ∧ place ≤ 21 then
    digits ++ List.replicate (place - count).toNat (unit '0')
  else if 0 < place ∧ place ≤ 21 then
    digits.take place.toNat ++ unit '.' :: digits.drop place.toNat
  else if -6 < place ∧ place ≤ 0 then
    units "0." ++ List.replicate (-place).toNat (unit '0') ++ digits
  else
    let exponent := place - 1
    let fraction := if digits.length ≤ 1 then [] else unit '.' :: digits.drop 1
    let sign := if exponent < 0 then unit '-' else unit '+'
    digits.take 1 ++ fraction ++ unit 'e' :: sign :: Text.ofNat exponent.natAbs

/-- The text of a decimal. -/
def Decimal.toText (d : Decimal) : Text :=
  let digits := Text.ofNat d.digits
  layoutDigits digits (d.exponent + digits.length)

/-- The text of a number: both zeros are `0`. -/
def Double.toText : Double → Text
  | .nan => units "NaN"
  | .infinite negative => if negative then units "-Infinity" else units "Infinity"
  | .finite negative rank =>
    if rank.val = 0 then units "0"
    else
      let text := (Double.shortest rank).toText
      if negative then unit '-' :: text else text

end TypedReads
