import TypedReads.Json.Document
import TypedReads.Value.Equality
import TypedReads.Value.Native

/-!
# Adapters

An adapter looks at a map without copying it: all that is written through one adapter, or to the
map itself, is seen through every other of the same map. This module opens adapters and gives their
map operations; a key whose value is null or undefined reads as absent, like a missing one, but
counts as present.

Copying from a map reads its entries as they stand at each step, so that a map may be copied into
itself. Writing never adds a key that the source has already, so the copying ends.
-/

namespace TypedReads

namespace Store

/-- The adapter at a place. -/
def adapter? (s : Store) (r : Ref) : Option Adapter :=
  match s.get? r with
  | some (.adapter a) => some a
  | _ => none

/-- Opens an adapter on a new map with some entries. -/
def openMap (s : Store) (entries : Entries Value Value) (narrowing : Narrowing) : Ref × Store :=
  let (backing, s) := s.alloc (.map entries)
  s.alloc (.adapter ⟨backing, narrowing⟩)

/-- Opens an adapter on the members of a document. -/
def openDocument (s : Store) (document : Text) (narrowing : Narrowing) :
    Except DecodeError (Ref × Store) :=
  match Document.entries document with
  | .error e => .error e
  | .ok members =>
    let (members, s) := s.loadMembers members
    .ok (s.openMap (Entries.ofPairs (members.map fun e => (.text e.1, e.2))) narrowing)

/-- Opens an adapter on a map. An adapter stays as it is, and nothing is no map. -/
def wrap (s : Store) (container : Value) (narrowing : Narrowing) :
    Except ArgumentError (Ref × Store) :=
  match container with
  | .object r =>
    match s.adapter? r with
    | some _ => .ok (r, s)
    | none => .ok (s.alloc (.adapter ⟨r, narrowing⟩))
  | _ => .error .noMap

/-- Writes a value under a key of a map itself. -/
def setKey (s : Store) (r : Ref) (key value : Value) : Store :=
  s.setEntries r ((s.entriesAt r).put key.asKey value)

/-- Removes a key of a map itself and says whether it was there. -/
def deleteKey (s : Store) (r : Ref) (key : Value) : Bool × Store :=
  ((s.entriesAt r).contains key.asKey, s.setEntries r ((s.entriesAt r).erase key.asKey))

/-- Removes all entries of a map itself. -/
def clearMap (s : Store) (r : Ref) : Store := s.setEntries r []

end Store

namespace Adapter

/-- The entries of the map looked at. -/
def entries (a : Adapter) (s : Store) : Entries Value Value := s.entriesAt a.backing

/-- The number of entries. -/
def size (a : Adapter) (s : Store) : Nat := (a.entries s).length

/-- Whether there are no entries. -/
def isEmpty (a : Adapter) (s : Store) : Bool := (a.entries s).isEmpty

/-- The keys in order. -/
def keys (a : Adapter) (s : Store) : List Value := (a.entries s).keys

/-- The values in order. -/
def values (a : Adapter) (s : Store) : List Value := (a.entries s).values

/-- What an iterator gives from an index on, one entry after the other. -/
def iterateFrom (a : Adapter) (s : Store) (i : Nat) : List (Value × Value) :=
  match h : (a.entries s)[i]? with
  | none => []
  | some e =>
    have := (List.getElem?_eq_some_iff.mp h).1
    e :: iterateFrom a s (i + 1)
termination_by (a.entries s).length - i

/-- What iteration over the adapter gives, by keys and values. -/
def iterate (a : Adapter) (s : Store) : List (Value × Value) := a.iterateFrom s 0

/-- Calls back for each entry in turn, with the value before the key. -/
def forEach {m : Type → Type} [Monad m] (a : Adapter) (s : Store)
    (callback : Value → Value → m PUnit) : m PUnit :=
  (a.iterate s).forM fun e => callback e.2 e.1

/-- An iterator gives the entries that it has not come to. -/
theorem iterateFrom_eq_drop (a : Adapter) (s : Store) (i : Nat) :
    a.iterateFrom s i = (a.entries s).drop i := by
  induction i using iterateFrom.induct a s with
  | case1 i hi =>
    rw [iterateFrom.eq_def, List.drop_eq_nil_of_le (List.getElem?_eq_none_iff.mp hi)]
    split
    · rfl
    · rename_i e he
      rw [hi] at he
      cases he
  | case2 i e hi hlt ih =>
    rw [iterateFrom.eq_def, List.drop_eq_getElem_cons hlt, ← ih]
    split
    · rename_i hnone
      rw [hi] at hnone
      cases hnone
    · rename_i e' he
      obtain ⟨_, rfl⟩ := List.getElem?_eq_some_iff.mp he
      rfl

/-- Iteration gives the entries. -/
theorem iterate_eq_entries (a : Adapter) (s : Store) : a.iterate s = a.entries s := by
  rw [iterate, iterateFrom_eq_drop, List.drop_zero]

/-- The calls are made for the entries in order. -/
theorem forEach_eq_forM {m : Type → Type} [Monad m] (a : Adapter) (s : Store)
    (callback : Value → Value → m PUnit) :
    a.forEach s callback = (a.entries s).forM fun e => callback e.2 e.1 := by
  rw [forEach, iterate_eq_entries]

/-- Whether a key is present, be its value absent or not. -/
def containsKey (a : Adapter) (s : Store) (key : Text) : Bool :=
  (a.entries s).contains (.text key)

/-- The value under any key, unless it counts as absent. -/
def lookup (a : Adapter) (s : Store) (key : Value) : Option Value :=
  ((a.entries s).get? key).filter fun v => !v.isNullish

/-- The value under a key, unless it counts as absent. -/
def get? (a : Adapter) (s : Store) (key : Text) : Option Value := a.lookup s (.text key)

/-- Writes a value under any key. -/
def write (a : Adapter) (s : Store) (key value : Value) : Store :=
  s.setEntries a.backing ((a.entries s).put key value)

/-- Writes a value under a key and returns what `get?` gave before. -/
def put (a : Adapter) (s : Store) (key : Text) (value : Value) : Option Value × Store :=
  (a.get? s key, a.write s (.text key) value)

/-- Removes a key and returns what `get?` gave before. -/
def remove (a : Adapter) (s : Store) (key : Text) : Option Value × Store :=
  (a.get? s key, s.setEntries a.backing ((a.entries s).erase (.text key)))

/-- Removes all entries. -/
def clear (a : Adapter) (s : Store) : Store := s.setEntries a.backing []

/-- Writes pairs one after the other. -/
def putAll (a : Adapter) (s : Store) (pairs : List (Text × Value)) : Store :=
  pairs.foldl (fun s pair => a.write s (.text pair.1) pair.2) s

/-- Writing a key that a map has already leaves it with as many entries, whichever map is written. -/
theorem length_entriesAt_write {a : Adapter} {s : Store} {source : Ref} {key value : Value}
    (h : (key, value) ∈ s.entriesAt source) :
    ((a.write s key value).entriesAt source).length = (s.entriesAt source).length := by
  by_cases hsame : a.backing = source
  · -- The source itself is written, at a key that it has.
    subst hsame
    have hput := Entries.length_put_of_mem value h
    have hmap : ∃ es, s.get? a.backing = some (.map es) := by
      unfold Store.entriesAt at h
      split at h
      · exact ⟨_, by assumption⟩
      · cases h
    obtain ⟨es, hes⟩ := hmap
    have hlt := Store.lt_size_of_get? hes
    have hwrite : (a.write s key value).get? a.backing =
        some (.map ((s.entriesAt a.backing).put key value)) := by
      simp only [Store.size] at hlt
      simp [write, Store.setEntries, Store.set, Store.get?, hlt, entries]
    rw [Store.entriesAt, hwrite]
    exact hput
  · -- Another map is written.
    have hget : (a.write s key value).get? source = s.get? source := by
      simp [write, Store.setEntries, Store.set, Store.get?, hsame]
    simp [Store.entriesAt, hget]

/-- Writes the entries of the map at `source` from an index on. -/
def copyFrom (a : Adapter) (s : Store) (source : Ref) (i : Nat) : Store :=
  match h : (s.entriesAt source)[i]? with
  | none => s
  | some (key, value) =>
    have := (List.getElem?_eq_some_iff.mp h).1
    have := length_entriesAt_write (a := a) (List.mem_of_getElem? h)
    copyFrom a (a.write s key value) source (i + 1)
termination_by (s.entriesAt source).length - i

/-- Writes the entries of another map, or of the same one. -/
def copyAll (a : Adapter) (s : Store) (source : Ref) : Store := a.copyFrom s source 0

end Adapter

end TypedReads
