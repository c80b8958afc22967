import TypedReads.Entries
import TypedReads.Json.Basic
import TypedReads.Number.Kind

/-!
# Values and the store

A value is a primitive or a reference to an object of the store, so that sharing and cycles are
visible: two references are the same object exactly if they are equal. Equality of the type
`Value` is identity: NaN is identical to itself, the two zeros differ, and objects are identical
only to themselves.

The objects are arrays, records, maps, adapters that look at a map with a narrowing mode, boxes
that remember a native type, dates, foreign objects of other classes, and objects derived from a
record. A member of a derived object stands in front of what it inherits, so such an object can
misname its class.

An array may have holes, which read as undefined. What functions and foreign objects do is up to
the program that made them: the store keeps what they answer when they are asked for a text, and
which objects a foreign one takes for its equals.
-/

namespace TypedReads

/-- The place of an object in the store. -/
abbrev Ref := Nat

/-- What comes of asking a function or an object for a text. -/
inductive Answer where
  /-- An exception of its own. -/
  | throws
  /-- An object, which is no text yet. -/
  | object
  /-- A symbol, which becomes no text. -/
  | symbol
  /-- Another primitive, by its text. -/
  | text (t : Text)
  deriving DecidableEq, Inhabited

/-- A function as it is seen from outside. -/
structure Function where
  /-- What it is known by. -/
  mark : Nat
  /-- The name it has. -/
  name : Text
  /-- What it answers when it is asked for its own text. -/
  text : Answer
  /-- What it answers when it is called, on whatever object. -/
  answer : Answer
  deriving DecidableEq, Inhabited

/-- A dynamically typed value. -/
inductive Value where
  | null
  | undefined
  | bool (b : Bool)
  | number (x : Double)
  /-- An integer of any size. -/
  | integer (n : Int)
  | text (t : Text)
  /-- A symbol, known by its mark alone. -/
  | symbol (mark : Nat) (description : Text)
  | function (f : Function)
  | object (ref : Ref)
  deriving DecidableEq, Inhabited

/-- A view of a map that reads its values with a narrowing mode. -/
structure Adapter where
  /-- The map looked at. -/
  backing : Ref
  /-- The mode of every numeric read. -/
  narrowing : Narrowing
  deriving DecidableEq

/-- A point in time, or none, with the text that it has in local time. -/
structure Date where
  /-- Milliseconds from the epoch. -/
  time : Option Int
  /-- The text in local time. -/
  localText : Text

/-- A hash and an equality that a foreign object brings along. -/
structure Protocol where
  /-- The hash. -/
  hash : UInt32
  /-- The objects that it takes for its equals. -/
  accepts : Ref → Bool
  /-- The boxes that take it for their equal. -/
  acceptedBy : Ref → Bool

/-- What a foreign object does in its own way. -/
structure Manner where
  /-- What it answers when it is asked for a text. -/
  answer : Answer
  /-- How it compares, unless it is equal to itself alone. -/
  protocol : Option Protocol

/-- What stands at a place of the store. -/
inductive Object where
  /-- An array by its slots; a hole is an empty one. -/
  | array (slots : List (Option Value))
  /-- An object with named members; a bare one inherits nothing. -/
  | record (bare : Bool) (members : Entries Text Value)
  /-- A map with arbitrary keys, none of them negative zero. -/
  | map (entries : Entries Value Value)
  | adapter (a : Adapter)
  /-- A number that remembers its native type. -/
  | numberBox (kind : NumericKind) (value : Double)
  /-- A single character that is not a text. -/
  | charBox (value : Text)
  | date (date : Date)
  /-- An object of some other class. -/
  | foreign (className : Text) (manner : Manner)
  /-- An object with named members that inherits from a record, and so is none itself. -/
  | derived (members : Entries Text Value)

/-- What reading the slots of an array gives: a hole reads as undefined. -/
def slotItems (slots : List (Option Value)) : List Value :=
  slots.map fun slot => slot.getD .undefined

/-- An array without holes. -/
abbrev Object.ofItems (items : List Value) : Object := .array (items.map some)

/-- Without holes the items are what was put into the slots. -/
@[simp] theorem slotItems_map_some (items : List Value) : slotItems (items.map some) = items := by
  rw [slotItems, List.map_map]
  exact List.map_id _

/-- No slots have no items. -/
@[simp] theorem slotItems_nil : slotItems [] = [] := rfl

/-- The first slot has the first item. -/
@[simp] theorem slotItems_cons (slot : Option Value) (slots : List (Option Value)) :
    slotItems (slot :: slots) = slot.getD .undefined :: slotItems slots :=
  List.map_cons

/-- What is in a slot is read from it. -/
theorem mem_slotItems_of_mem {slots : List (Option Value)} {v : Value} (h : some v ∈ slots) :
    v ∈ slotItems slots :=
  List.mem_map.mpr ⟨some v, h, rfl⟩

/-- Every slot is read. -/
@[simp] theorem length_slotItems (slots : List (Option Value)) :
    (slotItems slots).length = slots.length :=
  List.length_map ..

/-- The objects there are, and how many marks have been given out. -/
structure Store where
  /-- The objects by their places. -/
  objects : Array Object
  /-- The number of symbols and functions. -/
  marks : Nat

namespace Store

/-- The store without objects. -/
def empty : Store := ⟨#[], 0⟩

/-- The number of places. -/
def size (s : Store) : Nat := s.objects.size

/-- The object at a place. -/
def get? (s : Store) (r : Ref) : Option Object := s.objects[r]?

/-- Puts a new object into the store. -/
def alloc (s : Store) (o : Object) : Ref × Store :=
  (s.size, { s with objects := s.objects.push o })

/-- Replaces the object at a place. -/
def set (s : Store) (r : Ref) (o : Object) : Store :=
  { s with objects := s.objects.setIfInBounds r o }

/-- A mark that no symbol or function has yet. -/
def mark (s : Store) : Nat × Store := (s.marks, { s with marks := s.marks + 1 })

/-- An object stands below the number of places. -/
theorem lt_size_of_get? {s : Store} {r : Ref} {o : Object} (h : s.get? r = some o) :
    r < s.size := by
  simp only [get?, size] at *
  exact (Array.getElem?_eq_some_iff.mp h).1

/-- The entries of the map at a place; none if there is no map. -/
def entriesAt (s : Store) (r : Ref) : Entries Value Value :=
  match s.get? r with
  | some (.map entries) => entries
  | _ => []

/-- Replaces the entries of the map at a place. -/
def setEntries (s : Store) (r : Ref) (entries : Entries Value Value) : Store :=
  s.set r (.map entries)

/-- The entries behind an object that is a map or looks at one. -/
def mapEntries? (s : Store) : Object → Option (Entries Value Value)
  | .map entries => some entries
  | .adapter a => some (s.entriesAt a.backing)
  | _ => none

end Store

namespace Value

/-- A value as the key of a map, where the two zeros are one. -/
def asKey : Value → Value
  | .number x => .number x.withoutNegativeZero
  | v => v

/-- Whether a value counts as absent. -/
def isNullish : Value → Bool
  | .null | .undefined => true
  | _ => false

/-- The name of the type of a value, as messages show it. -/
def typeName : Value → String
  | .null | .object _ => "object"
  | .undefined => "undefined"
  | .bool _ => "boolean"
  | .number _ => "number"
  | .integer _ => "bigint"
  | .text _ => "string"
  | .symbol .. => "symbol"
  | .function _ => "function"

end Value

namespace Store

mutual

/-- Brings a JSON value into the store. -/
def load (s : Store) : Json → Value × Store
  | .null => (.null, s)
  | .bool b => (.bool b, s)
  | .number x => (.number x, s)
  | .integer n => (.integer n, s)
  | .text t => (.text t, s)
  | .array items =>
    let (items, s) := s.loadItems items
    let (r, s) := s.alloc (.ofItems items)
    (.object r, s)
  | .object members =>
    let (members, s) := s.loadMembers members
    let (r, s) := s.alloc (.record false members)
    (.object r, s)

/-- Brings the items of an array into the store. -/
def loadItems (s : Store) : List Json → List Value × Store
  | [] => ([], s)
  | j :: rest =>
    let (v, s) := s.load j
    let (vs, s) := s.loadItems rest
    (v :: vs, s)

/-- Brings the members of an object into the store. -/
def loadMembers (s : Store) : List (Text × Json) → List (Text × Value) × Store
  | [] => ([], s)
  | (key, j) :: rest =>
    let (v, s) := s.load j
    let (members, s) := s.loadMembers rest
    ((key, v) :: members, s)

end

end Store

end TypedReads
