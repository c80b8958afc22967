import TypedReads.Proofs.Value.Stops

/-!
# Obstacles on the walk

Encoding ends at the first stop of the depth-first walk that it has a cause to end at
(`encode_error_iff_findSome?`). `Store.causeAt` gives the cause at a single stop, from what is met
there and the objects around it.

The encoder builds the path of an obstacle on the way back, and the walk knows the path of a stop
when it gets there: `Obstacle.after` is the obstacle as seen from the start of the way. The
induction of `obstacle?_encodeWithin` is on the places that the walk may still enter.
-/

namespace TypedReads

/-- The obstacle in the outcome of an encoding. -/
def obstacle? {α : Type} : Except Obstacle α → Option Obstacle
  | .ok _ => none
  | .error e => some e

/-- The obstacle as seen from the start of a way that leads to where it was met. -/
def Obstacle.after (path : Path) (e : Obstacle) : Obstacle := ⟨path ++ e.path, e.cause⟩

namespace Store

/-- The cause for which a value without parts is refused. -/
def leafCause (v : Value) : Option Unencodable := (obstacle? (encodeLeaf v)).map Obstacle.cause

/-- The cause for which encoding ends at a stop. -/
def causeAt (s : Store) (stop : Stop) : Option Unencodable :=
  match stop.item with
  | .key _ (.text _) => none
  | .key _ k => some (.mapKey k.typeName)
  | .value (.object r) =>
    match s.get? r with
    | none => some (.ofType "undefined")
    | some o =>
      match s.contents o with
      | .leaf v => leafCause v
      | .none cause => some cause
      | _ => if r ∈ stop.around then some .cycle else none
  | .value v => leafCause v

/-- The obstacle that encoding meets at a stop. -/
def obstacleAt (s : Store) (stop : Stop) : Option Obstacle :=
  (s.causeAt stop).map fun cause => ⟨stop.path, cause⟩

variable {s : Store}

/-- The obstacle of a result is its error. -/
theorem obstacle?_eq_some_iff {α : Type} {x : Except Obstacle α} {e : Obstacle} :
    obstacle? x = some e ↔ x = .error e := by
  cases x <;> simp [obstacle?]

/-- Mapping a result keeps the obstacle. -/
theorem obstacle?_map {α β : Type} (f : α → β) (x : Except Obstacle α) :
    obstacle? (x.map f) = obstacle? x := by
  cases x <;> rfl

/-- One step further out is one step less of the way. -/
theorem after_under (path : Path) (step : Step) (e : Obstacle) :
    (e.under step).after path = e.after (path ++ [step]) := by
  simp [Obstacle.after, Obstacle.under]

/-- A leaf is refused where it is met. -/
theorem obstacle?_encodeLeaf (path : Path) (v : Value) :
    (obstacle? (encodeLeaf v)).map (Obstacle.after path) =
      (leafCause v).map fun cause => ⟨path, cause⟩ := by
  unfold leafCause
  cases h : encodeLeaf v with
  | ok j => rfl
  | error e =>
    obtain ⟨cause, rfl, -⟩ := error_of_encodeLeaf h
    simp [obstacle?, Obstacle.after, Obstacle.here]

section Parts

variable {encode : Value → Except Obstacle Json} {stops : Path → Value → List Stop} {path : Path}
  (hencode : ∀ path v, (obstacle? (encode v)).map (Obstacle.after path) =
    (stops path v).findSome? s.obstacleAt)

include hencode

/-- The obstacle of a part is the first that the walk of the part finds. -/
theorem obstacle?_part (around : List Ref) (r : Ref) (step : Step) (v : Value) :
    ((obstacle? (encode v)).map (Obstacle.under step)).map (Obstacle.after path) =
      (childStops stops path around r (.part step v)).findSome? s.obstacleAt := by
  rw [Option.map_map, childStops, ← hencode]
  exact congrArg (Option.map · _) (funext (after_under path step))

/-- The obstacle of items is the first that the walk of them finds. -/
theorem obstacle?_encodeItems (around : List Ref) (r : Ref) (i : ℕ) (vs : List Value) :
    (obstacle? (encodeItems encode i vs)).map (Obstacle.after path) =
      (((vs.zipIdx i).map fun e => .part (.index e.2) e.1).flatMap
        (childStops stops path around r)).findSome? s.obstacleAt := by
  induction vs generalizing i with
  | nil => rfl
  | cons v vs ih =>
    rw [List.zipIdx_cons, List.map_cons, List.flatMap_cons, List.findSome?_append, ← ih,
      ← obstacle?_part hencode, encodeItems]
    cases encode v with
    | error e => rfl
    | ok j => cases encodeItems encode (i + 1) vs <;> rfl

/-- The obstacle of entries is the first that the walk of them finds. -/
theorem obstacle?_encodeEntries (around : List Ref) (r : Ref) (es : List (Value × Value)) :
    (obstacle? (encodeEntries encode es)).map (Obstacle.after path) =
      ((es.map Child.ofEntry).flatMap (childStops stops path around r)).findSome?
        s.obstacleAt := by
  induction es with
  | nil => rfl
  | cons e es ih =>
    obtain ⟨key, v⟩ := e
    rw [List.map_cons, List.flatMap_cons, List.findSome?_append, ← ih]
    cases key with
    | text key =>
      rw [Child.ofEntry, ← obstacle?_part hencode, encodeEntries]
      cases encode v with
      | error e => rfl
      | ok j => cases encodeEntries encode es <;> rfl
    | _ => simp [encodeEntries, obstacle?, Obstacle.after, Obstacle.here, Child.ofEntry, childStops,
        obstacleAt, causeAt]

end Parts

section Causes

variable {stop : Stop} {r : Ref} {o : Object} (h : stop.item = .value (.object r))

include h

/-- Where there is no object the cause is undefined. -/
theorem causeAt_of_dangling (hr : s.get? r = none) :
    s.causeAt stop = some (.ofType "undefined") := by
  simp [causeAt, h, hr]

/-- Where there is a leaf the cause is that of the leaf. -/
theorem causeAt_of_leaf {v : Value} (hr : s.get? r = some o) (ho : s.contents o = .leaf v) :
    s.causeAt stop = leafCause v := by
  simp [causeAt, h, hr, ho]

/-- Where there is what JSON cannot hold the cause is that of its contents. -/
theorem causeAt_of_none {cause : Unencodable} (hr : s.get? r = some o)
    (ho : s.contents o = .none cause) : s.causeAt stop = some cause := by
  simp [causeAt, h, hr, ho]

/-- A container is refused within itself. -/
theorem causeAt_of_container (hr : s.Container r) :
    s.causeAt stop = if r ∈ stop.around then some .cycle else none := by
  obtain ⟨o, hr, ⟨vs, ho⟩ | ⟨es, ho⟩⟩ := hr <;> simp [causeAt, h, hr, ho]

end Causes

/-- The obstacle of a value that is not entered is the one at its own stop. -/
theorem obstacle?_of_not_entered {around : List Ref} (haround : ∀ r ∈ around, s.Container r)
    {v : Value} (h : ∀ r o, v = .object r → s.get? r = some o → r ∈ around) (path : Path) :
    (obstacle? (s.encodeWithin around v)).map (Obstacle.after path) =
      s.obstacleAt ⟨path, around, .value v⟩ := by
  by_cases hobject : ∃ r, v = .object r
  · obtain ⟨r, rfl⟩ := hobject
    cases hr : s.get? r with
    | none =>
      rw [encodeWithin_dangling hr, obstacleAt, causeAt_of_dangling rfl hr]
      simp [obstacle?, Obstacle.after, Obstacle.here]
    | some o =>
      have hmem := h r o rfl hr
      rw [encodeWithin_of_mem (haround r hmem) hmem, obstacleAt,
        causeAt_of_container rfl (haround r hmem), if_pos hmem]
      simp [obstacle?, Obstacle.after, Obstacle.here]
  · rw [encodeWithin_leaf fun r hv => hobject ⟨r, hv⟩, obstacle?_encodeLeaf]
    cases v with
    | object r => exact absurd ⟨r, rfl⟩ hobject
    | _ => rfl

/-- The obstacle of a value is the first that the walk of the value finds. -/
theorem obstacle?_encodeWithin {around : List Ref} (haround : ∀ r ∈ around, s.Container r)
    (path : Path) (v : Value) :
    (obstacle? (s.encodeWithin around v)).map (Obstacle.after path) =
      (s.stopsWithin path around v).findSome? s.obstacleAt := by
  by_cases hentered : ∃ r o, v = .object r ∧ s.get? r = some o ∧ r ∉ around
  swap
  · have hnot : ∀ r o, v = .object r → s.get? r = some o → r ∈ around := fun r o hv hr =>
      by_contra fun hfree => hentered ⟨r, o, hv, hr, hfree⟩
    rw [stopsWithin_of_not_entered hnot, List.findSome?_singleton,
      obstacle?_of_not_entered haround hnot]
  -- What is found in the object is walked within it, as it is encoded.
  obtain ⟨r, o, rfl, hr, hfree⟩ := hentered
  have hlt := unvisited_cons_lt (mem_refs_of_get? hr) hfree
  rw [encodeWithin_object hr, stopsWithin_object hr hfree, List.findSome?_cons, obstacleAt,
    children_eq]
  cases ho : s.contents o with
  | leaf v =>
    rw [causeAt_of_leaf rfl hr ho, ← obstacle?_encodeLeaf]
    dsimp only
    cases (obstacle? (encodeLeaf v)).map (Obstacle.after path) <;> rfl
  | none cause =>
    rw [causeAt_of_none rfl hr ho]
    simp [obstacle?, Obstacle.after, Obstacle.here]
  -- A container that is not around itself is no obstacle, and its parts are walked in order.
  | items vs =>
    have hcontainer : s.Container r := ⟨o, hr, .inl ⟨vs, ho⟩⟩
    rw [causeAt_of_container rfl hcontainer]
    dsimp only
    rw [if_neg hfree, if_neg hfree, obstacle?_map]
    exact obstacle?_encodeItems
      (fun path v => obstacle?_encodeWithin (containers_cons haround hcontainer) path v)
      around r 0 vs
  | entries es =>
    have hcontainer : s.Container r := ⟨o, hr, .inr ⟨es, ho⟩⟩
    rw [causeAt_of_container rfl hcontainer]
    dsimp only
    rw [if_neg hfree, if_neg hfree, obstacle?_map]
    exact obstacle?_encodeEntries
      (fun path v => obstacle?_encodeWithin (containers_cons haround hcontainer) path v)
      around r es
termination_by unvisited s.refs around

/-- A value is refused for the first obstacle that its walk finds. -/
theorem encode_error_iff_findSome? {root : Value} {e : Obstacle} :
    s.encode root = .error e ↔ (s.stops root).findSome? s.obstacleAt = some e := by
  have hafter : Obstacle.after [] = id := rfl
  have haround : ∀ r ∈ ([] : List Ref), s.Container r := nofun
  have hroot := obstacle?_encodeWithin haround [] root
  rw [hafter, Option.map_id, id] at hroot
  rw [stops, ← hroot, obstacle?_eq_some_iff, encode]

end Store

end TypedReads
