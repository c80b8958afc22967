import TypedReads.Number.Rounding

/-!
# Doubles

The numbers a document and its readers compute with: 64-bit floating-point numbers with one NaN
and two zeros. Equality of the type tells the zeros apart and equates NaN with itself;
`Double.eqv` is numeric equality, which does the opposite. Every operation is exact arithmetic
followed by one rounding.
-/

namespace TypedReads

-- Powers are the core ones, also where a monoid would offer its own.
attribute [local instance (2000)] instPowNat Int.instNatPow

/-- A 64-bit floating-point number. -/
inductive Double where
  /-- Not a number. -/
  | nan
  /-- One of the two infinities. -/
  | infinite (negative : Bool)
  /-- A finite number by its sign and the rank of its magnitude. -/
  | finite (negative : Bool) (rank : Fin BinaryFormat.double.ranks)
  deriving DecidableEq

namespace Double

/-- The number with the magnitude of a rank, infinite if the rank is past the finite ones. -/
def ofRank (negative : Bool) (rank : Nat) : Double :=
  if h : rank < BinaryFormat.double.ranks then .finite negative ⟨rank, h⟩
  else .infinite negative

/-- The number nearest to a quotient, with a sign. -/
def ofRatio (negative : Bool) (num den : Nat) : Double :=
  ofRank negative (BinaryFormat.double.rank num den)

/-- The number nearest to an integer. -/
def ofInt (n : Int) : Double := ofRatio (decide (n < 0)) n.natAbs 1

/-- The default is zero. -/
instance : Inhabited Double := ⟨ofInt 0⟩

/-- The magnitude of a rank in units of `2 ^ (-1074)`. -/
def magnitude (rank : Fin BinaryFormat.double.ranks) : Nat :=
  BinaryFormat.double.unitsAt rank

/-- The number of units in one. -/
def one : Nat := BinaryFormat.double.one

/-- Whether a number is neither infinite nor NaN. -/
def isFinite : Double → Bool
  | .finite .. => true
  | _ => false

/-- The integer nearest to a magnitude on the side of zero. -/
def truncMagnitude (negative : Bool) (rank : Fin BinaryFormat.double.ranks) : Int :=
  let whole := magnitude rank / one
  if negative then -(whole : Int) else whole

/-- A finite number without its fraction. -/
def trunc? : Double → Option Int
  | .finite negative rank => some (truncMagnitude negative rank)
  | _ => none

/-- The integer that a number is, if it is one. -/
def toInt? : Double → Option Int
  | .finite negative rank =>
    if magnitude rank % one = 0 then some (truncMagnitude negative rank) else none
  | _ => none

/-- The bound of the integers that no other integer shares its double with. -/
def safeBound : Int := 2 ^ (53 : Nat) - 1

/-- The integer that a number is, if it is one within the safe bound. -/
def safeInt? (x : Double) : Option Int :=
  x.toInt?.filter fun n => -safeBound ≤ n ∧ n ≤ safeBound

/-- The position of a number in numeric order: both zeros stand at zero and NaN nowhere. -/
def order? : Double → Option Int
  | .nan => none
  | .infinite negative =>
    some (if negative then -BinaryFormat.double.ranks else BinaryFormat.double.ranks)
  | .finite negative rank => some (if negative then -(rank.val : Int) else rank.val)

/-- Numeric order, false for NaN on either side. -/
def le (x y : Double) : Bool :=
  match x.order?, y.order? with
  | some a, some b => decide (a ≤ b)
  | _, _ => false

/-- Numeric equality: the zeros are equal, and NaN equals nothing. -/
def eqv (x y : Double) : Bool :=
  match x.order?, y.order? with
  | some a, some b => decide (a = b)
  | _, _ => false

/-- A number with negative zero replaced by zero. -/
def withoutNegativeZero (x : Double) : Double :=
  if x = .finite true ⟨0, by decide⟩ then .finite false ⟨0, by decide⟩ else x

/-- The nearest 32-bit number, as the double of the same value. -/
def toSingle : Double → Double
  | .finite negative rank =>
    let single := BinaryFormat.single.rank (magnitude rank) one
    if single < BinaryFormat.single.ranks then
      ofRatio negative (BinaryFormat.single.unitsAt single) BinaryFormat.single.one
    else .infinite negative
  | x => x

/-- The product of a number and a positive integer; infinities and NaN stay. -/
def timesNat (x : Double) (n : Nat) : Double :=
  match x with
  | .finite negative rank => ofRatio negative (magnitude rank * n) one
  | x => x

/-- The quotient of a number by a positive integer; infinities and NaN stay. -/
def overNat (x : Double) (n : Nat) : Double :=
  match x with
  | .finite negative rank => ofRatio negative (magnitude rank) (one * n)
  | x => x

end Double

end TypedReads
