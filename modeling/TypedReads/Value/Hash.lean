import TypedReads.Value.Display

/-!
# Hashes

A 32-bit hash that agrees with equality by content. A map or a record adds up a mix of the hashes
of its keys and values, so the order of entries does not matter; an array folds the hashes of its
items in order; a box mixes its named fields; a foreign object may have a hash of its own; anything
else hashes by its text or its number, or, if it is nothing but itself, by its place. All arithmetic
is on 32-bit words.
-/

namespace TypedReads

-- Powers are the core ones, also where a monoid would offer its own.
attribute [local instance (2000)] instPowNat Int.instNatPow

/-- Spreads a word: bit 30 takes over bit 31. -/
def optimizeHash (n : UInt32) : UInt32 :=
  (n &&& (0xBFFFFFFF : UInt32)) ||| ((n >>> 1) &&& (0x40000000 : UInt32))

/-- Mixes a word into a hash. -/
def combineHash (hash other : UInt32) : UInt32 := (hash * 53) ^^^ other

/-- The hash of a text, from its last unit to its first. -/
def Text.hash (t : Text) : UInt32 :=
  optimizeHash (t.foldr (fun u h => (h * 33) ^^^ u.toUInt32) 5381)

/-- The low 32 bits of a number without its fraction; zero if it is not finite. -/
def Double.toWord (x : Double) : UInt32 := (((x.trunc?.getD 0) % 2 ^ (32 : Nat)).toNat).toUInt32

/-- The greatest 32-bit word. -/
def maxWord : Nat := 0xFFFFFFFF

/-- Divides a number down to a word and mixes in each quotient. -/
def foldQuotients : Nat → Double → UInt32 → UInt32
  | 0, _, h => h
  | fuel + 1, x, h =>
    if x.le (Double.ofInt maxWord) then h
    else
      let quotient := x.overNat maxWord
      foldQuotients fuel quotient (h ^^^ quotient.toWord)

/-- The hash of a number. A finite number is below `2 ^ 1024`, so 33 divisions bring it down to a
word. -/
def Double.hash (x : Double) : UInt32 :=
  if x = .nan ∨ x = .infinite false then 0
  else
    let word := x.toWord
    -- A number that is no 32-bit integer also mixes in its fraction.
    let whole := x.eqv (Double.ofInt word.toInt32.toInt)
    let h := if whole then word else word ^^^ (x.timesNat maxWord).toWord
    optimizeHash (foldQuotients 33 x h)

/-- Mixes one named field into the hash of a box. -/
def fieldHash (name : String) (hash : UInt32) : UInt32 := combineHash (units name).hash hash

/-- The hash of a box of a class, from the hashes of its fields. -/
def boxHash (className : String) (fields : List (String × UInt32)) : UInt32 :=
  let fields := ("_tag", (units className).hash) :: fields
  optimizeHash (fields.foldl (fun h field => h ^^^ fieldHash field.1 field.2) 12289)

/-- The hash that an object brings along with an equality of its own. -/
def Object.ownHash? : Object → Option UInt32
  | .numberBox kind x =>
    some (boxHash "NativeNumber" [("kind", (units kind.name).hash), ("value", x.hash)])
  | .charBox t => some (boxHash "NativeChar" [("value", t.hash)])
  | .foreign _ manner => manner.protocol.map Protocol.hash
  | _ => none

namespace Store

/-- Folds the hashes of items into a hash. -/
def itemsHash (hash : Value → Except Fault UInt32) : UInt32 → List Value → Except Fault UInt32
  | h, [] => .ok h
  | h, v :: rest => do itemsHash hash (combineHash h (← hash v)) rest

/-- The sum of the mixed hashes of keys and values. -/
def entriesSum (hash : Value → Except Fault UInt32) : List (Value × Value) → Except Fault UInt32
  | [] => .ok 0
  | (key, v) :: rest => do
    let mixed := (← hash key) ^^^ (← hash v)
    return mixed + (← entriesSum hash rest)

/-- The hash of entries under the name of what holds them. -/
def entriesHash (hash : Value → Except Fault UInt32) (name : String) (es : List (Value × Value)) :
    Except Fault UInt32 :=
  (entriesSum hash es).map fun sum => optimizeHash (combineHash (units name).hash sum)

/-- The hash of a value that is no object. -/
def leafHash : Value → UInt32
  | .number x => x.hash
  | .function f => optimizeHash f.mark.toUInt32
  | v => v.leafText.hash

/-- The hash of an object, given the hashes of what it holds. -/
def objectHash (s : Store) (hash : Value → Except Fault UInt32) (r : Ref) (o : Object) :
    Except Fault UInt32 :=
  match o with
  | .map es => entriesHash hash "map" es
  | .adapter a => entriesHash hash "map" (s.entriesAt a.backing)
  | .record _ members =>
    entriesHash hash "object" (members.listing.map fun e => (.text e.1, e.2))
  | .array slots => (itemsHash hash (units "array").hash (slotItems slots)).map optimizeHash
  | .date date => .ok (dateText? date.time).hash
  | o => .ok (o.ownHash?.getD (optimizeHash r.toUInt32))

/-- The hash of a value inside the objects `within`. -/
def hashWithin (s : Store) (within : List Ref) (v : Value) : Except Fault UInt32 :=
  match v with
  | .object r =>
    match h : s.get? r with
    | none => .ok (leafHash .undefined)
    | some o =>
      if hr : r ∈ within then .error .endless
      else
        have := unvisited_cons_lt (mem_refs_of_get? h) hr
        s.objectHash (hashWithin s (r :: within)) r o
  | v => .ok (leafHash v)
termination_by unvisited s.refs within

/-- The hash of a value. -/
def hash (s : Store) (v : Value) : Except Fault UInt32 := s.hashWithin [] v

end Store

end TypedReads
