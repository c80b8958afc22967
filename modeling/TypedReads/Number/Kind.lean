import TypedReads.Text.Basic

/-!
# Numeric kinds

The native numeric types a read can ask for: signed integers of four widths and floating-point
numbers of two. `Narrowing` says what happens to a value that its target cannot hold.
-/

namespace TypedReads

-- Powers are the core ones, also where a monoid would offer its own.
attribute [local instance (2000)] instPowNat instNatPowNat Int.instNatPow

/-- The signed integer types. -/
inductive IntegralKind where
  | byte
  | short
  | int
  | long
  deriving DecidableEq, Inhabited

/-- The floating-point types. -/
inductive FloatingKind where
  | float
  | double
  deriving DecidableEq, Inhabited

/-- The numeric types. -/
inductive NumericKind where
  | integral (kind : IntegralKind)
  | floating (kind : FloatingKind)
  deriving DecidableEq, Inhabited

/-- What a conversion does with a value that its target cannot hold. -/
inductive Narrowing where
  /-- Wrap or saturate, like a native cast. -/
  | truncate
  /-- Report absence. -/
  | strict
  deriving DecidableEq, Inhabited

namespace IntegralKind

/-- The width in bits. -/
def width : IntegralKind → Nat
  | byte => 8
  | short => 16
  | int => 32
  | long => 64

/-- The least value of a kind. -/
def least (kind : IntegralKind) : Int := -2 ^ (kind.width - 1)

/-- The greatest value of a kind. -/
def greatest (kind : IntegralKind) : Int := 2 ^ (kind.width - 1) - 1

/-- An integer wrapped into the range of a kind, by its low bits in two's complement. -/
def wrap (kind : IntegralKind) (n : Int) : Int := n.bmod (2 ^ kind.width)

/-- Whether an integer is in the range of a kind: wrapping leaves it alone. -/
def holds (kind : IntegralKind) (n : Int) : Bool := kind.wrap n = n

end IntegralKind

namespace NumericKind

/-- Whether a kind is one of the integer types. -/
def isIntegral : NumericKind → Bool
  | integral _ => true
  | floating _ => false

/-- The name of a kind. -/
def name : NumericKind → String
  | integral .byte => "byte"
  | integral .short => "short"
  | integral .int => "int"
  | integral .long => "long"
  | floating .float => "float"
  | floating .double => "double"

/-- All kinds. -/
def all : List NumericKind :=
  [integral .byte, integral .short, integral .int, integral .long, floating .float,
    floating .double]

/-- The kind of a name. -/
def ofName? (name : String) : Option NumericKind := all.find? fun kind => kind.name = name

end NumericKind

namespace Narrowing

/-- The mode used where none is asked for. -/
def standard : Narrowing := truncate

/-- The name of a mode. -/
def name : Narrowing → String
  | truncate => "truncate"
  | strict => "strict"

/-- The mode of a name. -/
def ofName? (t : Text) : Option Narrowing := [truncate, strict].find? fun mode => units mode.name = t

end Narrowing

end TypedReads
