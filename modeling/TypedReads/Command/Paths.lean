import TypedReads.Text.Basic

/-!
# File paths

Paths with `/` between their parts. `directoryOf` is what stands in front of the last part, and
`joinPath` puts two paths together and removes empty parts, `.` and every `..` that has a part to
undo.
-/

namespace TypedReads

/-- The unit between the parts of a path. -/
def slash : CodeUnit := unit '/'

/-- The parts of a path. -/
def pathParts : Text → List Text
  | [] => [[]]
  | u :: rest =>
    match pathParts rest with
    | [] => [[u]]
    | part :: parts => if u = slash then [] :: part :: parts else (u :: part) :: parts

/-- A path without its last part, the slash in front of it and all slashes at the end. A path of
one part stands in `.`, or in `/` if it starts there. -/
def directoryOf (path : Text) : Text :=
  let isRooted := path.head? = some slash
  let body := (path.reverse.dropWhile (· = slash)).dropWhile (· ≠ slash)
  match (body.drop 1).reverse with
  | [] => if isRooted then [slash] else units "."
  | directory => if isRooted ∧ directory = [slash] then [slash, slash] else directory

/-- Adds a part to the parts of a normal path, which are kept backwards. -/
def normalPart (isRooted : Bool) (parts : List Text) (part : Text) : List Text :=
  if part = [] ∨ part = units "." then parts
  else if part = units ".." then
    match parts with
    | last :: before => if last = units ".." then part :: parts else before
    | [] => if isRooted then [] else [part]
  else part :: parts

/-- A path without parts that lead nowhere. -/
def normalPath (path : Text) : Text :=
  let isRooted := decide (path.head? = some slash)
  let parts := ((pathParts path).foldl (normalPart isRooted) []).reverse
  let body := List.intercalate [slash] parts
  let body := if path.getLast? = some slash ∧ body ≠ [] then body ++ [slash] else body
  if isRooted then slash :: body else if body = [] then units "." else body

/-- A path inside a directory. -/
def joinPath (directory path : Text) : Text := normalPath (directory ++ slash :: path)

end TypedReads
