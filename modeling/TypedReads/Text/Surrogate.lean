import TypedReads.Text.Basic

/-!
# Surrogates

A high surrogate directly followed by a low one is a pair and stands for one character of a
higher plane; any other surrogate is unpaired and stands for nothing. `Text.scalars` reads a
text as characters and unpaired surrogates.
-/

namespace TypedReads

/-- The first half of a surrogate pair. -/
def CodeUnit.isHigh (u : CodeUnit) : Bool := 0xD800 ≤ u && u ≤ 0xDBFF

/-- The second half of a surrogate pair. -/
def CodeUnit.isLow (u : CodeUnit) : Bool := 0xDC00 ≤ u && u ≤ 0xDFFF

/-- Either half of a surrogate pair. -/
def CodeUnit.isSurrogate (u : CodeUnit) : Bool := 0xD800 ≤ u && u ≤ 0xDFFF

/-- The code point that a surrogate pair stands for. -/
def pairedCodePoint (high low : CodeUnit) : Nat :=
  0x10000 + (high.toNat - 0xD800) * 0x400 + (low.toNat - 0xDC00)

/-- The code points of a text in order; an unpaired surrogate gives `none`. -/
def Text.scalars : Text → List (Option Nat)
  | [] => []
  | [u] => [if CodeUnit.isSurrogate u then none else some u.toNat]
  | u :: v :: rest =>
    if CodeUnit.isHigh u && CodeUnit.isLow v then
      some (pairedCodePoint u v) :: Text.scalars rest
    else
      (if CodeUnit.isSurrogate u then none else some u.toNat) :: Text.scalars (v :: rest)

/-- A text whose surrogates are all paired, as a string; `none` if one is not. -/
def Text.toString? (t : Text) : Option String :=
  (t.scalars.mapM id).map fun points => String.ofList (points.map Char.ofNat)

end TypedReads
