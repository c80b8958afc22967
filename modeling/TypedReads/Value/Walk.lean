import TypedReads.Value.Basic

/-!
# Walking a store

A walk that never enters an object inside itself ends, because each step inwards leaves one
place fewer to enter. `unvisited` counts those places; it is the measure of every walk.
-/

namespace TypedReads

/-- How many of `all` are not among `visited`. -/
def unvisited {α : Type} [DecidableEq α] (all visited : List α) : Nat :=
  (all.filter fun a => a ∉ visited).length

/-- One more visit leaves fewer to be visited. -/
theorem unvisited_cons_lt {α : Type} [DecidableEq α] {all visited : List α} {a : α}
    (hall : a ∈ all) (hvisited : a ∉ visited) :
    unvisited all (a :: visited) < unvisited all visited := by
  -- What is left after `a` is what was left before, without `a`.
  have hsub : all.filter (fun b => b ∉ a :: visited) =
      (all.filter fun b => b ∉ visited).filter fun b => b ≠ a := by
    rw [List.filter_filter]
    exact List.filter_congr fun b _ => by simp
  have hmem : a ∈ all.filter fun b => b ∉ visited := by simp [hall, hvisited]
  simp only [unvisited, hsub]
  exact List.length_filter_lt_length_iff_exists.mpr ⟨a, hmem, by simp⟩

namespace Store

/-- The places of a store. -/
def refs (s : Store) : List Ref := List.range s.size

/-- The place of an object is one of the places. -/
theorem mem_refs_of_get? {s : Store} {r : Ref} {o : Object} (h : s.get? r = some o) :
    r ∈ s.refs :=
  List.mem_range.mpr (lt_size_of_get? h)

/-- The pairs of places of a store. -/
def refPairs (s : Store) : List (Ref × Ref) :=
  s.refs.flatMap fun a => s.refs.map fun b => (a, b)

/-- The places of two objects are one of the pairs. -/
theorem mem_refPairs_of_get? {s : Store} {a b : Ref} {x y : Object} (ha : s.get? a = some x)
    (hb : s.get? b = some y) : (a, b) ∈ s.refPairs := by
  simp [refPairs, mem_refs_of_get? ha, mem_refs_of_get? hb]

end Store

end TypedReads
