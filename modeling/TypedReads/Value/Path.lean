import TypedReads.Text.Quoted

/-!
# Access paths

Where a value stands inside another: the keys and indices that lead to it from the root. The text
of a path starts with `$`; a key that is an identifier follows a point, any other key stands
quoted in brackets, and an index stands in brackets as it is.
-/

namespace TypedReads

/-- One step from a container to something in it. -/
inductive Step where
  | key (k : Text)
  | index (i : Nat)
  deriving DecidableEq

/-- The steps from a root to something in it. -/
abbrev Path := List Step

/-- Whether a code unit may start an identifier: an ASCII letter, `_` or `$`. -/
def CodeUnit.startsIdentifier (u : CodeUnit) : Bool :=
  (unit 'A' ≤ u && u ≤ unit 'Z') || (unit 'a' ≤ u && u ≤ unit 'z') || u == unit '_' ||
    u == unit '$'

/-- Whether a text is an identifier: such a unit, then such units and ASCII digits. -/
def Text.isIdentifier : Text → Bool
  | [] => false
  | u :: rest =>
    CodeUnit.startsIdentifier u &&
      rest.all fun v => CodeUnit.startsIdentifier v || CodeUnit.isDigit v

/-- The text of a step. -/
def Step.toText : Step → Text
  | key k => if Text.isIdentifier k then unit '.' :: k else unit '[' :: Text.quote k ++ units "]"
  | index i => unit '[' :: Text.ofNat i ++ units "]"

/-- The text of a path. -/
def Path.toText (p : Path) : Text := unit '$' :: p.flatMap Step.toText

end TypedReads
