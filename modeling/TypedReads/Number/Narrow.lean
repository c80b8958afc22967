import TypedReads.Number.Double
import TypedReads.Number.Kind

/-!
# Narrowing

Conversions between numeric kinds. In truncating mode an integer keeps its low bits, and a
floating number loses its fraction and is clamped to 64 or 32 bits, of which the two narrow kinds
keep the low ones. In strict mode a conversion that would change the integral value is absent.
-/

namespace TypedReads

/-- An integer as a value of a kind. -/
def narrowIntegral (n : Int) (kind : IntegralKind) (mode : Narrowing) : Option Int :=
  if mode = .strict ∧ ¬ kind.holds n then none else some (kind.wrap n)

/-- A number without its fraction, clamped to the range of a kind; NaN gives zero. The bounds
are compared as doubles. -/
def Double.saturate (x : Double) (kind : IntegralKind) : Int :=
  if x = .nan then 0
  else if Double.le (.ofInt kind.greatest) x then kind.greatest
  else if Double.le x (.ofInt kind.least) then kind.least
  else x.trunc?.getD 0

/-- A floating number as a value of an integral kind, its fraction dropped toward zero. -/
def truncateFloating (x : Double) (kind : IntegralKind) (mode : Narrowing) : Option Int :=
  match mode with
  | .strict => x.trunc?.filter kind.holds
  | .truncate =>
    match kind with
    | .long => some (x.saturate .long)
    | _ => some (kind.wrap (x.saturate .int))

/-- The nearest 32-bit number; in strict mode a finite number that overflows is absent. -/
def narrowToSingle (x : Double) (mode : Narrowing) : Option Double :=
  if mode = .strict ∧ x.isFinite ∧ ¬ x.toSingle.isFinite then none else some x.toSingle

end TypedReads
