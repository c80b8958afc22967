import TypedReads.Entries
import TypedReads.Number.Double
import TypedReads.Text.Basic

/-!
# JSON values

A JSON value keeps the order of its members and every repetition of a key, as they stand in a
document. `Json.normalize` gives the value they denote: at every depth each key once, at the place
of its first occurrence and with the value of its last, and keys that are array indices in front,
in ascending order. Integers that a double would round are kept exact.
-/

namespace TypedReads

-- Powers are the core ones, also where a monoid would offer its own.
attribute [local instance (2000)] instPowNat instNatPowNat

/-- A JSON value. -/
inductive Json where
  | null
  | bool (b : Bool)
  | number (x : Double)
  /-- An integer kept exact. -/
  | integer (n : Int)
  | text (t : Text)
  | array (items : List Json)
  | object (members : List (Text × Json))

/-- The number of an array-index key: a canonical numeral below `2 ^ 32 - 1`. -/
def indexKey? (key : Text) : Option Nat :=
  match key.scanDigits with
  | (ds, []) =>
    let n := ofDigits ds
    if Text.ofNat n = key ∧ n < 2 ^ (32 : Nat) - 1 then some n else none
  | _ => none

/-- Entries in listing order: array-index keys first, ascending, then the others as they are. -/
def Entries.listing {ν : Type} (es : Entries Text ν) : Entries Text ν :=
  let indexed := es.filterMap fun e => (indexKey? e.1).map fun n => (n, e)
  (indexed.mergeSort fun a b => a.1 ≤ b.1).map Prod.snd ++
    es.filter fun e => (indexKey? e.1).isNone

namespace Json

/-- The object that members define one after the other. -/
def record (members : List (Text × Json)) : Json := .object (Entries.ofPairs members).listing

mutual

/-- The value that a JSON value denotes. -/
def normalize : Json → Json
  | .array items => .array (normalizeItems items)
  | .object members => record (normalizeMembers members)
  | j => j

/-- Normalizes the items of an array. -/
def normalizeItems : List Json → List Json
  | [] => []
  | j :: rest => j.normalize :: normalizeItems rest

/-- Normalizes the values of members, leaving keys and order alone. -/
def normalizeMembers : List (Text × Json) → List (Text × Json)
  | [] => []
  | (key, j) :: rest => (key, j.normalize) :: normalizeMembers rest

end

/-- Whether a JSON value is an object. -/
def isObject : Json → Bool
  | .object _ => true
  | _ => false

/-- The name of the type of a JSON value. -/
def typeName : Json → String
  | .null => "null"
  | .bool _ => "boolean"
  | .number _ | .integer _ => "number"
  | .text _ => "string"
  | .array _ => "array"
  | .object _ => "object"

end Json

end TypedReads
