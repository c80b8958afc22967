/-!
# Binary formats and rounding to them

A finite magnitude of a binary floating-point format is known by its *rank*, its position among
the finite magnitudes in increasing order, zero first. All magnitudes are whole multiples of one
unit, the smallest of them, so `BinaryFormat.unitsAt` gives the magnitude of a rank as a natural
number. `BinaryFormat.rank` rounds an exact quotient to the nearest magnitude, ties to the even
rank; a rank at or past the number of finite magnitudes is an overflow.
-/

namespace TypedReads

-- Powers are the core ones, also where a monoid would offer its own.
attribute [local instance (2000)] instPowNat instNatPowNat

/-- A quotient rounded to the nearest whole number, a half to the even neighbour. -/
def roundHalfEven (num den : Nat) : Nat :=
  let quotient := num / den
  let rest := num % den
  if 2 * rest < den ∨ 2 * rest = den ∧ quotient % 2 = 0 then quotient else quotient + 1

/-- A binary floating-point format. -/
structure BinaryFormat where
  /-- The number of bits of a significand. -/
  precision : Nat
  /-- The unit, the least positive magnitude, is `2 ^ (-scale)`. -/
  scale : Nat
  /-- The number of finite magnitudes, zero included. -/
  ranks : Nat

namespace BinaryFormat

/-- The 64-bit format. -/
def double : BinaryFormat := ⟨53, 1074, 2047 * 2 ^ (52 : Nat)⟩

/-- The 32-bit format. -/
def single : BinaryFormat := ⟨24, 149, 255 * 2 ^ (23 : Nat)⟩

/-- The number of ranks in one binade, which is also the least full significand. -/
def binade (f : BinaryFormat) : Nat := 2 ^ (f.precision - 1)

/-- The magnitude of a rank in units. The first binade is evenly spaced with the subnormal
magnitudes below it; each later one is spaced twice as wide as the one before. -/
def unitsAt (f : BinaryFormat) (rank : Nat) : Nat :=
  if rank < f.binade then rank
  else (f.binade + rank % f.binade) * 2 ^ (rank / f.binade - 1)

/-- The number of units in one. -/
def one (f : BinaryFormat) : Nat := 2 ^ f.scale

/-- The rank of the magnitude nearest to a quotient, ties to the even rank. The quotient is cut
to the bits of a significand by dropping `shift` low bits of its count of units. -/
def rank (f : BinaryFormat) (num den : Nat) : Nat :=
  let shift := (num * f.one / den).log2 + 1 - f.precision
  shift * f.binade + roundHalfEven (num * f.one) (den * 2 ^ shift)

end BinaryFormat

end TypedReads
