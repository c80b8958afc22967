/-!
# Keyed entries in insertion order

The contents of a map or an object: pairs of a key and a value, in the order in which the keys
were first written. Writing a key that is present replaces its value in place, writing a new one
appends it, and erasing a key removes its pair. `get?` and `keys` are the views that the lemmas
describe each operation by.
-/

namespace TypedReads

/-- Pairs of a key and a value in order. -/
abbrev Entries (κ ν : Type) := List (κ × ν)

namespace Entries

variable {κ ν : Type}

/-- The keys in order. -/
def keys (es : Entries κ ν) : List κ := es.map Prod.fst

/-- The values in order. -/
def values (es : Entries κ ν) : List ν := es.map Prod.snd

variable [DecidableEq κ]

/-- The value under a key. -/
def get? : Entries κ ν → κ → Option ν
  | [], _ => none
  | (k, v) :: rest, key => if k = key then some v else get? rest key

/-- Whether a key is present. -/
def contains (es : Entries κ ν) (key : κ) : Bool := (es.get? key).isSome

/-- Writes a value under a key. -/
def put : Entries κ ν → κ → ν → Entries κ ν
  | [], key, value => [(key, value)]
  | (k, v) :: rest, key, value =>
    if k = key then (k, value) :: rest else (k, v) :: put rest key value

/-- Writes pairs one after the other. -/
def putAll (es : Entries κ ν) (pairs : List (κ × ν)) : Entries κ ν :=
  pairs.foldl (fun es pair => es.put pair.1 pair.2) es

/-- The entries that pairs leave when written into an empty map: each key at the place of its
first occurrence, with the value of its last. -/
def ofPairs (pairs : List (κ × ν)) : Entries κ ν := putAll [] pairs

/-- Removes a key. -/
def erase (es : Entries κ ν) (key : κ) : Entries κ ν := es.filter fun e => e.1 ≠ key

/-- A written value is read back, and no other key is touched. -/
theorem get?_put (es : Entries κ ν) (key : κ) (value : ν) (k : κ) :
    (es.put key value).get? k = if key = k then some value else es.get? k := by
  induction es with
  | nil => simp [put, get?]
  | cons e rest ih =>
    obtain ⟨k', v'⟩ := e
    by_cases hk : k' = key
    · subst hk
      by_cases h : k' = k <;> simp [put, get?, h]
    · by_cases h : k' = k
      · subst h
        simp [put, get?, hk, Ne.symm hk]
      · simp [put, get?, hk, h, ih]

/-- An erased key is absent, and no other key is touched. -/
theorem get?_erase (es : Entries κ ν) (key k : κ) :
    (es.erase key).get? k = if key = k then none else es.get? k := by
  induction es with
  | nil => simp [erase, get?]
  | cons e rest ih =>
    obtain ⟨k', v'⟩ := e
    simp only [erase] at ih
    by_cases hk : k' = key
    · subst hk
      by_cases h : k' = k
      · simpa [erase, h] using ih
      · simpa [erase, get?, h] using ih
    · by_cases h : k' = k
      · subst h
        simp [erase, get?, hk, Ne.symm hk]
      · simpa [erase, get?, hk, h] using ih

/-- A key that is present keeps its place when it is written, and a new one goes to the end. -/
theorem keys_put (es : Entries κ ν) (key : κ) (value : ν) :
    (es.put key value).keys = if key ∈ es.keys then es.keys else es.keys ++ [key] := by
  induction es with
  | nil => simp [put, keys]
  | cons e rest ih =>
    obtain ⟨k', v'⟩ := e
    simp only [keys] at ih
    by_cases hk : k' = key
    · simp [put, keys, hk]
    · by_cases h : key ∈ rest.map Prod.fst
      · simp [put, keys, hk, ih, h]
      · simp [put, keys, hk, Ne.symm hk, ih, h]

/-- Writing a key that is present leaves the number of entries alone. -/
theorem length_put_of_mem {es : Entries κ ν} {key : κ} {v : ν} (w : ν) (h : (key, v) ∈ es) :
    (es.put key w).length = es.length := by
  have hkey : key ∈ es.keys := List.mem_map.mpr ⟨_, h, rfl⟩
  have hkeys : (es.put key w).keys = es.keys := by rw [keys_put, if_pos hkey]
  simpa [keys] using congrArg List.length hkeys

end Entries

end TypedReads
