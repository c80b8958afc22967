import TypedReads.Json.Writer
import TypedReads.Number.Significant
import TypedReads.Value.Path
import TypedReads.Value.Walk

/-!
# From values to JSON

`Store.encode` walks a value depth first and gives the JSON value it stands for. Maps and adapters
become objects in insertion order, records in listing order, and boxes become numbers or texts.
The first thing met that JSON cannot hold ends the walk: it is the obstacle, with the path that
leads to it. An object is a cycle exactly where it is met inside itself, so sharing is no obstacle.
-/

namespace TypedReads

/-- What JSON cannot hold. -/
inductive Unencodable where
  /-- A number that is not finite. -/
  | number (x : Double)
  /-- A value of a type that JSON lacks. -/
  | ofType (typeName : String)
  /-- A map with a key that is no text. -/
  | mapKey (typeName : String)
  /-- An object of another class, by the name that its class answers with. -/
  | foreign (className : Value)
  /-- An object of another class that there is nothing to ask for the name of. -/
  | classless
  /-- An object inside itself. -/
  | cycle
  deriving DecidableEq

/-- The first thing in a value that JSON cannot hold. -/
structure Obstacle where
  /-- Where it stands. -/
  path : Path
  /-- What stands there. -/
  cause : Unencodable
  deriving DecidableEq

namespace Obstacle

/-- An obstacle at its own place. -/
def here (cause : Unencodable) : Obstacle := ⟨[], cause⟩

/-- The obstacle as seen from one step further out. -/
def under (step : Step) (o : Obstacle) : Obstacle := { o with path := step :: o.path }

end Obstacle

/-- What an object holds, as far as encoding goes. -/
inductive Contents where
  | items (vs : List Value)
  | entries (es : List (Value × Value))
  /-- Nothing that JSON can hold. -/
  | none (cause : Unencodable)
  /-- A value without parts. -/
  | leaf (v : Value)

namespace Store

/-- The name that a constructor answers with: its member `name`, or that of a function, and
undefined where there is none. Null and undefined cannot be asked. -/
def nameOf? (s : Store) : Value → Option Value
  | .null | .undefined => none
  | .function f => some (.text f.name)
  | .object r =>
    match s.get? r with
    | some (.record _ members) | some (.derived members) =>
      some ((members.get? (units "name")).getD .undefined)
    | _ => some .undefined
  | _ => some .undefined

/-- The obstacle that a derived object is. Its class is the one its member `constructor` names,
or the one it inherits from a record. -/
def derivedCause (s : Store) (members : Entries Text Value) : Unencodable :=
  match members.get? (units "constructor") with
  | none => .foreign (.text (units "Object"))
  | some v => ((s.nameOf? v).map Unencodable.foreign).getD .classless

/-- The contents of an object. A box stands for the primitive in it, a 32-bit number by the
double that its shortest text reads as. -/
def contents (s : Store) : Object → Contents
  | .array slots => .items (slotItems slots)
  | .record _ members => .entries (members.listing.map fun e => (.text e.1, e.2))
  | .map entries => .entries entries
  | .adapter a => .entries (s.entriesAt a.backing)
  | .numberBox (.floating .float) x => .leaf (.number x.shortestSingle)
  | .numberBox _ x => .leaf (.number x)
  | .charBox t => .leaf (.text t)
  | .date _ => .none (.foreign (.text (units "Date")))
  | .foreign className _ => .none (.foreign (.text className))
  | .derived members => .none (s.derivedCause members)

/-- An array without holes holds its items. -/
@[simp] theorem contents_ofItems (s : Store) (items : List Value) :
    s.contents (.ofItems items) = .items items :=
  congrArg Contents.items (slotItems_map_some items)

/-- Encodes a value that is no object. -/
def encodeLeaf : Value → Except Obstacle Json
  | .null => .ok .null
  | .bool b => .ok (.bool b)
  | .number x => if x.isFinite then .ok (.number x) else .error (.here (.number x))
  | .integer n => .ok (.integer n)
  | .text t => .ok (.text t)
  | v => .error (.here (.ofType v.typeName))

/-- Encodes items from an index on. -/
def encodeItems (encode : Value → Except Obstacle Json) :
    Nat → List Value → Except Obstacle (List Json)
  | _, [] => .ok []
  | i, v :: rest =>
    match encode v with
    | .error e => .error (e.under (.index i))
    | .ok j =>
      match encodeItems encode (i + 1) rest with
      | .error e => .error e
      | .ok js => .ok (j :: js)

/-- Encodes entries in order. A map with a key that is no text is an obstacle itself. -/
def encodeEntries (encode : Value → Except Obstacle Json) :
    List (Value × Value) → Except Obstacle (List (Text × Json))
  | [] => .ok []
  | (.text key, v) :: rest =>
    match encode v with
    | .error e => .error (e.under (.key key))
    | .ok j =>
      match encodeEntries encode rest with
      | .error e => .error e
      | .ok members => .ok ((key, j) :: members)
  -- The path ends at the map, not at the key.
  | (key, _) :: _ => .error (.here (.mapKey key.typeName))

/-- Encodes a value inside the containers `ancestors`. -/
def encodeWithin (s : Store) (ancestors : List Ref) (v : Value) : Except Obstacle Json :=
  match v with
  | .object r =>
    match h : s.get? r with
    | none => .error (.here (.ofType "undefined"))
    | some o =>
      match s.contents o with
      | .leaf v => encodeLeaf v
      | .none cause => .error (.here cause)
      | .items vs =>
        if hr : r ∈ ancestors then .error (.here .cycle)
        else
          have := unvisited_cons_lt (mem_refs_of_get? h) hr
          (encodeItems (encodeWithin s (r :: ancestors)) 0 vs).map .array
      | .entries es =>
        if hr : r ∈ ancestors then .error (.here .cycle)
        else
          have := unvisited_cons_lt (mem_refs_of_get? h) hr
          (encodeEntries (encodeWithin s (r :: ancestors)) es).map .object
  | v => encodeLeaf v
termination_by unvisited s.refs ancestors

/-- The JSON value that a value stands for, in the order in which it is written. -/
def encode (s : Store) (v : Value) : Except Obstacle Json := s.encodeWithin [] v

end Store

end TypedReads
