import TypedReads.Value.Hash

/-!
# Equality by content

Identical values are equal. So are two maps or adapters, in any mixture, with the same keys and
equal values under them; two arrays with equal items; two records with the same keys and equal
values; two boxes of one kind whose contents are numerically equal; and a foreign object and what
it takes for its equal, if their hashes agree. The order of entries does not matter, and all else is
unequal. A comparison that comes back to a pair of objects inside itself never ends.

The comparison of two arrays passes over the holes of the first, whatever stands at these places of
the other. So it is no equality where there are holes: an empty slot is equal to anything, from one
side only.
-/

namespace TypedReads

/-- Whether an object compares by a hash and an equality of its own. -/
def Object.comparesItself (o : Object) : Bool := o.ownHash?.isSome

/-- Whether two objects are boxes of one kind with equal contents. -/
def Object.boxEquals : Object → Object → Bool
  | .numberBox kind x, .numberBox kind' y => kind = kind' && x.eqv y
  | .charBox t, .charBox t' => t = t'
  | _, _ => false

/-- Whether two objects at different places are equal by an equality of their own. Both need one, and
their hashes are compared first. -/
def Object.ownEquals (a b : Ref) (x y : Object) : Bool :=
  match x, y with
  | .foreign _ manner, y =>
    manner.protocol.any fun p => y.ownHash? = some p.hash && p.accepts b
  | x, .foreign _ manner =>
    manner.protocol.any fun p => x.ownHash? = some p.hash && p.acceptedBy a
  | x, y => x.boxEquals y

namespace Store

/-- Whether what is in slots is equal to the items at the same places. -/
def slotsEqual (equal : Value → Value → Except Fault Bool) :
    List (Option Value) → List Value → Except Fault Bool
  | [], [] => .ok true
  | none :: slots, _ :: ws => slotsEqual equal slots ws
  | some v :: slots, w :: ws =>
    match equal v w with
    | .ok true => slotsEqual equal slots ws
    | r => r
  | _, _ => .ok false

/-- Whether every entry has an equal value under the same key of `others`. -/
def entriesCovered {κ : Type} [DecidableEq κ] (equal : Value → Value → Except Fault Bool)
    (others : Entries κ Value) : List (κ × Value) → Except Fault Bool
  | [] => .ok true
  | (key, v) :: rest =>
    match others.get? key with
    | none => .ok false
    | some w =>
      match equal v w with
      | .ok true => entriesCovered equal others rest
      | r => r

/-- Whether two lists of entries hold the same keys with equal values. -/
def entriesEqual {κ : Type} [DecidableEq κ] (equal : Value → Value → Except Fault Bool)
    (es fs : Entries κ Value) : Except Fault Bool :=
  if es.length = fs.length then entriesCovered equal fs es else .ok false

/-- Whether two objects at different places are equal, given the equality of what they hold. -/
def objectsEqual (s : Store) (equal : Value → Value → Except Fault Bool) (a b : Ref)
    (x y : Object) : Except Fault Bool :=
  match s.mapEntries? x, s.mapEntries? y with
  | some es, some fs => entriesEqual equal es fs
  | none, none =>
    if x.comparesItself || y.comparesItself then .ok (Object.ownEquals a b x y)
    else
      match x, y with
      | .array slots, .array others =>
        if slots.length = others.length then slotsEqual equal slots (slotItems others)
        else .ok false
      | .record _ es, .record _ fs => entriesEqual equal es.listing fs
      | _, _ => .ok false
  | _, _ => .ok false

/-- Equality inside the comparison of the pairs `within`. -/
def equalWithin (s : Store) (within : List (Ref × Ref)) (v w : Value) : Except Fault Bool :=
  if v = w then .ok true
  else
    match v, w with
    | .object a, .object b =>
      match ha : s.get? a, hb : s.get? b with
      | some x, some y =>
        if hr : (a, b) ∈ within then .error .endless
        else
          have := unvisited_cons_lt (mem_refPairs_of_get? ha hb) hr
          s.objectsEqual (equalWithin s ((a, b) :: within)) a b x y
      | _, _ => .ok false
    | _, _ => .ok false
termination_by unvisited s.refPairs within

/-- Equality by content. -/
def equal (s : Store) (v w : Value) : Except Fault Bool := s.equalWithin [] v w

end Store

end TypedReads
