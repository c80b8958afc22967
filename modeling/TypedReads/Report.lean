import TypedReads.Adapter.Content

/-!
# Reports

What every key of an adapter reads as, and how single reads and whole inspections are shown: as
text for people, with `-` for an absent value, and as JSON, with `null` for it. In JSON a 64-bit
integer and a number that is not finite are texts, and no number is negative zero.
-/

namespace TypedReads

namespace Coerced

/-- The text of a read value; one read as a 32-bit number is shown as such. -/
def toText (target : Target) : Coerced → Text
  | .number x => if target = .float then x.toSingleText else x.toText
  | .integer n => Text.ofInt n
  | .bool b => if b then units "true" else units "false"
  | .text t => t

/-- The JSON value of a read value. -/
def toJson (target : Target) : Coerced → Json
  | .number x =>
    if x.isFinite then
      .number (if target = .float then x.shortestSingle else x).withoutNegativeZero
    else .text x.toText
  | .integer n => .text (Text.ofInt n)
  | .bool b => .bool b
  | .text t => .text t

end Coerced

/-- The text of a read. -/
def readText (target : Target) (value : Option Coerced) : Text :=
  value.elim (units "-") (Coerced.toText target)

/-- The JSON value of a read. -/
def readJson (target : Target) (value : Option Coerced) : Json :=
  value.elim .null (Coerced.toJson target)

/-- A single read as a line of JSON that names its target. -/
def readLine (target : Target) (value : Option Coerced) : Text :=
  Json.write 0 (.object
    [(units "type", .text (units target.name)), (units "value", readJson target value)])

/-- A key and what it reads as, by target. -/
structure InspectionRow where
  /-- The key. -/
  key : Text
  /-- The reads in the order of the targets. -/
  reads : List (Target × Option Coerced)

namespace Adapter

/-- What a value reads as at each of some targets. -/
def readAll (a : Adapter) (s : Store) (value : Option Value) :
    List Target → Except Fault (List (Target × Option Coerced))
  | [] => .ok []
  | target :: rest => do
    let coerced ←
      match value with
      | none => pure none
      | some v => s.read target v a.narrowing
    return (target, coerced) :: (← a.readAll s value rest)

/-- The row of a key; a key that is no text is shown by its display text. -/
def inspectKey (a : Adapter) (s : Store) (key : Value) : Except Fault InspectionRow := do
  let reads ← a.readAll s (a.lookup s key) Target.all
  return ⟨← key.textWithin (s.objectText [] []), reads⟩

/-- The rows of all keys in order. -/
def inspect (a : Adapter) (s : Store) : Except Fault (List InspectionRow) :=
  rows (a.keys s)
where
  /-- The rows of some keys. -/
  rows : List Value → Except Fault (List InspectionRow)
  | [] => .ok []
  | key :: rest => do
    let row ← a.inspectKey s key
    return row :: (← rows rest)

end Adapter

/-- The name of a target, filled up to the width of the longest one. -/
def paddedName (target : Target) : Text :=
  let width := (Target.all.map fun t => t.name.length).max?.getD 0
  units target.name ++ spaces (width - target.name.length)

/-- The lines of a row: the key, then one line for each target. -/
def InspectionRow.lines (row : InspectionRow) : List Text :=
  (row.key ++ units ":") :: row.reads.map fun read =>
    units "  " ++ paddedName read.1 ++ units " " ++ readText read.1 read.2

/-- An inspection as text. -/
def inspectionText (rows : List InspectionRow) : Text :=
  if rows.isEmpty then units "(no keys)"
  else List.intercalate (units "\n") (rows.flatMap InspectionRow.lines)

/-- The key that a JSON inspection leaves out. -/
def hiddenKey : Text := units "__proto__"

/-- An inspection as JSON with two spaces for each level. Rows stand in listing order, and the row
of `hiddenKey` is left out. -/
def inspectionJson (rows : List InspectionRow) : Text :=
  let members := (rows.filter fun row => row.key ≠ hiddenKey).map fun row =>
    (row.key, Json.object (row.reads.map fun read => (units read.1.name, readJson read.1 read.2)))
  Json.write 2 (Json.record members)

end TypedReads
