import TypedReads.Json.Basic
import TypedReads.Number.Shortest
import TypedReads.Text.Quoted

/-!
# From a JSON value to text

`Json.write` lays out a value with a number of spaces for each level: without indentation
everything stands on one line, with it each item and member has a line of its own. Members are
written as they are listed, and an exact integer by its digits. A number that is not finite has
no JSON form and is shown by its name.
-/

namespace TypedReads

/-- A number of spaces. -/
def spaces (n : Nat) : Text := List.replicate n (unit ' ')

/-- Lays out the parts of a container between two marks, `depth` spaces deep. -/
def layoutParts (first last : Char) (indent depth : Nat) (parts : List Text) : Text :=
  if parts.isEmpty then [unit first, unit last]
  else if indent = 0 then
    unit first :: List.intercalate [unit ','] parts ++ [unit last]
  else
    let line := unit '\n' :: spaces (depth + indent)
    unit first :: line ++ List.intercalate (unit ',' :: line) parts ++
      unit '\n' :: spaces depth ++ [unit last]

/-- A key with the colon behind it. -/
def layoutKey (indent : Nat) (key : Text) : Text :=
  key.quote ++ if indent = 0 then units ":" else units ": "

namespace Json

mutual

/-- Writes a value `depth` spaces deep. -/
def writeAt (indent depth : Nat) : Json → Text
  | .null => units "null"
  | .bool b => if b then units "true" else units "false"
  | .number x => x.toText
  | .integer n => Text.ofInt n
  | .text t => t.quote
  | .array items =>
    layoutParts '[' ']' indent depth (writeItems indent (depth + indent) items)
  | .object members =>
    layoutParts '\x7b' '\x7d' indent depth (writeMembers indent (depth + indent) members)

/-- Writes the items of an array. -/
def writeItems (indent depth : Nat) : List Json → List Text
  | [] => []
  | j :: rest => writeAt indent depth j :: writeItems indent depth rest

/-- Writes the members of an object. -/
def writeMembers (indent depth : Nat) : List (Text × Json) → List Text
  | [] => []
  | (key, j) :: rest =>
    (layoutKey indent key ++ writeAt indent depth j) :: writeMembers indent depth rest

end

/-- The text of a value with a number of spaces for each level. -/
def write (indent : Nat) (j : Json) : Text := j.writeAt indent 0

end Json

end TypedReads
