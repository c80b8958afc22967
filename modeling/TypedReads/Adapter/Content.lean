import TypedReads.Adapter.Basic
import TypedReads.Read
import TypedReads.Value.Hash

/-!
# Adapters by their contents

Typed reads through an adapter, its text, its hash, and its equality with other containers. All of
these depend on the entries alone, never on their order where equality and hash are concerned.
-/

namespace TypedReads

namespace Adapter

/-- A key read as a target, with the mode of the adapter. -/
def read (a : Adapter) (s : Store) (target : Target) (key : Text) :
    Except Fault (Option Coerced) :=
  match a.get? s key with
  | none => .ok none
  | some v => s.read target v a.narrowing

/-- Whether some value is equal to a given one. -/
def containsValue (a : Adapter) (s : Store) (v : Value) : Except Fault Bool :=
  search (a.values s)
where
  /-- Compares stored values in order until one is equal. -/
  search : List Value → Except Fault Bool
  | [] => .ok false
  | stored :: rest =>
    match s.equal stored v with
    | .ok false => search rest
    | r => r

/-- The text of the contents with a width of indentation. -/
def toText (a : Adapter) (s : Store) (width : Double) : Except (Failure EncodeError) Text :=
  s.encodeText (.object a.backing) width

/-- The map behind a value that is a map or an adapter. -/
def backingOf? (s : Store) (v : Value) : Option Ref :=
  match v with
  | .object r =>
    match s.get? r with
    | some (.map _) => some r
    | some (.adapter a) => some a.backing
    | _ => none
  | _ => none

/-- Whether a value is a map or an adapter with equal contents. -/
def equals (a : Adapter) (s : Store) (other : Value) : Except Fault Bool :=
  match backingOf? s other with
  | none => .ok false
  | some r => s.equal (.object a.backing) (.object r)

/-- The hash of the contents. -/
def hash (a : Adapter) (s : Store) : Except Fault UInt32 := s.hash (.object a.backing)

/-- Whether an object compares by a hash and an equality of its own. -/
def comparesItself (s : Store) (v : Value) : Bool :=
  match v with
  | .object r =>
    match s.get? r with
    | some (.adapter _) => true
    | some o => o.comparesItself
    | none => false
  | _ => false

/-- Whether the adapter at a place is the very value, or one that compares itself, has the same
hash, and is equal. -/
def equalsByHash (a : Adapter) (s : Store) (self : Ref) (other : Value) : Except Fault Bool := do
  if other = .object self then return true
  if !comparesItself s other then return false
  if (← a.hash s) ≠ (← s.hash other) then return false
  a.equals s other

end Adapter

end TypedReads
