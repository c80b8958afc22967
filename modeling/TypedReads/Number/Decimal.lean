import TypedReads.Number.Double
import TypedReads.Text.Basic

/-!
# Decimals

A non-negative decimal number is a whole number of powers of ten. `Double.ofDecimal` reads one
as the nearest double: exactly, except that a decimal too large or too small for any rounding to
matter is recognised by its exponent alone. `pointPlace` locates the decimal point of a quotient.
-/

namespace TypedReads

-- Powers are the core ones, also where a monoid would offer its own.
attribute [local instance (2000)] instPowNat instNatPowNat

/-- The number `digits * 10 ^ exponent`. -/
structure Decimal where
  /-- The digits as one number. -/
  digits : Nat
  /-- The power of ten they count. -/
  exponent : Int
  deriving DecidableEq

namespace Decimal

/-- A decimal as a quotient. -/
def toRatio (d : Decimal) : Nat × Nat :=
  if 0 ≤ d.exponent then (d.digits * 10 ^ d.exponent.toNat, 1)
  else (d.digits, 10 ^ (-d.exponent).toNat)

/-- The same number with no zero at the end of its digits. -/
def reduced (d : Decimal) : Decimal :=
  if 0 < d.digits ∧ d.digits % 10 = 0 then reduced ⟨d.digits / 10, d.exponent + 1⟩ else d
termination_by d.digits
decreasing_by omega

end Decimal

/-- The number nearest to a decimal, with a sign. From `10 ^ 309` on everything is infinite;
digits below `2 ^ b` with an exponent `e` under zero stay below `2 ^ (b + 3 * e)`, and what is
under half a unit is zero. -/
def Double.ofDecimal (negative : Bool) (d : Decimal) : Double :=
  if d.digits = 0 then Double.ofRank negative 0
  else if 309 ≤ d.exponent then .infinite negative
  else if d.exponent < 0 ∧ (d.digits.log2 : Int) + 1 + 3 * d.exponent ≤ -1075 then
    Double.ofRank negative 0
  else Double.ofRatio negative d.toRatio.1 d.toRatio.2

/-- The place of the decimal point of a positive quotient: the least `n` with
`num / den < 10 ^ n`. -/
def pointPlace (num den : Nat) : Int :=
  if den ≤ num then (decimalDigits (num / den)).length
  else 1 - (decimalDigits ((den - 1) / num)).length

/-- A quotient in steps of `10 ^ exponent`, again as a quotient. -/
def inSteps (num den : Nat) (exponent : Int) : Nat × Nat :=
  if 0 ≤ exponent then (num, den * 10 ^ exponent.toNat)
  else (num * 10 ^ (-exponent).toNat, den)

end TypedReads
