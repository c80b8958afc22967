import Mathlib.Data.Finset.Basic
import TypedReads.Proofs.Value.Encoding

/-!
# Encoding with marks

`Store.encodeWithin` hands the containers around a value on to its parts. The same can be done with
one set of marks that all calls change: an object is marked when it is entered and unmarked when it
is left, with success or not. `Store.Walk` says so call by call, each going on with the marks that
the one before left. Nothing about it makes sure that there is an outcome, or that the marks of
before are back: a call that runs forever would have none.

Every outcome leaves the marks as they were (`Walk.marks`), and is that of `encodeWithin`
(`Walk.result`); both are read off the calls made. That there is an outcome (`exists_walk`) is by
induction on the places that are not marked. An obstacle that cannot be explained stops the program
when it is to be shown, after the walk.
-/

namespace TypedReads

namespace Store

mutual

/-- The call for a value with some marks, what it ends in and the marks it leaves. -/
inductive Walk (s : Store) : Finset Ref → Value → Except Obstacle Json → Finset Ref → Prop
  | leaf {seen : Finset Ref} {v : Value} (h : ∀ r, v ≠ .object r) :
      Walk s seen v (encodeLeaf v) seen
  | dangling {seen : Finset Ref} {r : Ref} (hr : s.get? r = none) :
      Walk s seen (.object r) (.error (.here (.ofType "undefined"))) seen
  /-- No mark is asked for in front of a box. -/
  | box {seen : Finset Ref} {r : Ref} {o : Object} {v : Value} (hr : s.get? r = some o)
      (ho : s.contents o = .leaf v) : Walk s seen (.object r) (encodeLeaf v) seen
  /-- A marked object is met inside itself. -/
  | marked {seen : Finset Ref} {r : Ref} {o : Object} (hr : s.get? r = some o)
      (ho : ∀ v, s.contents o ≠ .leaf v) (hmem : r ∈ seen) :
      Walk s seen (.object r) (.error (.here .cycle)) seen
  | refused {seen : Finset Ref} {r : Ref} {o : Object} {cause : Unencodable}
      (hr : s.get? r = some o) (ho : s.contents o = .none cause) (hfree : r ∉ seen) :
      Walk s seen (.object r) (.error (.here cause)) ((insert r seen).erase r)
  | items {seen seen' : Finset Ref} {r : Ref} {o : Object} {vs : List Value}
      {result : Except Obstacle (List Json)} (hr : s.get? r = some o)
      (ho : s.contents o = .items vs) (hfree : r ∉ seen)
      (h : WalkItems s (insert r seen) 0 vs result seen') :
      Walk s seen (.object r) (result.map .array) (seen'.erase r)
  | entries {seen seen' : Finset Ref} {r : Ref} {o : Object} {es : List (Value × Value)}
      {result : Except Obstacle (List (Text × Json))} (hr : s.get? r = some o)
      (ho : s.contents o = .entries es) (hfree : r ∉ seen)
      (h : WalkEntries s (insert r seen) es result seen') :
      Walk s seen (.object r) (result.map .object) (seen'.erase r)

/-- The calls for items from an index on, up to the first that is refused. -/
inductive WalkItems (s : Store) :
    Finset Ref → ℕ → List Value → Except Obstacle (List Json) → Finset Ref → Prop
  | nil {seen : Finset Ref} {i : ℕ} : WalkItems s seen i [] (.ok []) seen
  | error {seen seen' : Finset Ref} {i : ℕ} {v : Value} {rest : List Value} {e : Obstacle}
      (h : Walk s seen v (.error e) seen') :
      WalkItems s seen i (v :: rest) (.error (e.under (.index i))) seen'
  | ok {seen seen' seen'' : Finset Ref} {i : ℕ} {v : Value} {rest : List Value} {j : Json}
      {result : Except Obstacle (List Json)} (h : Walk s seen v (.ok j) seen')
      (hrest : WalkItems s seen' (i + 1) rest result seen'') :
      WalkItems s seen i (v :: rest) (result.map (j :: ·)) seen''

/-- The calls for entries in order, up to the first value that is refused or the first key that is
no text. -/
inductive WalkEntries (s : Store) :
    Finset Ref → List (Value × Value) → Except Obstacle (List (Text × Json)) → Finset Ref → Prop
  | nil {seen : Finset Ref} : WalkEntries s seen [] (.ok []) seen
  | key {seen : Finset Ref} {key v : Value} {rest : List (Value × Value)}
      (h : ∀ t, key ≠ .text t) :
      WalkEntries s seen ((key, v) :: rest) (.error (.here (.mapKey key.typeName))) seen
  | error {seen seen' : Finset Ref} {key : Text} {v : Value} {rest : List (Value × Value)}
      {e : Obstacle} (h : Walk s seen v (.error e) seen') :
      WalkEntries s seen ((.text key, v) :: rest) (.error (e.under (.key key))) seen'
  | ok {seen seen' seen'' : Finset Ref} {key : Text} {v : Value} {rest : List (Value × Value)}
      {j : Json} {result : Except Obstacle (List (Text × Json))} (h : Walk s seen v (.ok j) seen')
      (hrest : WalkEntries s seen' rest result seen'') :
      WalkEntries s seen ((.text key, v) :: rest) (result.map ((key, j) :: ·)) seen''

end

variable {s : Store}

section Outcomes

mutual

/-- A call leaves the marks as it found them. -/
theorem Walk.marks {seen seen' : Finset Ref} {v : Value} {result : Except Obstacle Json} :
    s.Walk seen v result seen' → seen' = seen
  | .leaf _ | .dangling _ | .box _ _ | .marked _ _ _ => rfl
  | .refused _ _ hfree => Finset.erase_insert hfree
  | .items _ _ hfree h => by rw [h.marks, Finset.erase_insert hfree]
  | .entries _ _ hfree h => by rw [h.marks, Finset.erase_insert hfree]

/-- The walk over items puts the marks back. -/
theorem WalkItems.marks {seen seen' : Finset Ref} {i : ℕ} {vs : List Value}
    {result : Except Obstacle (List Json)} : s.WalkItems seen i vs result seen' → seen' = seen
  | .nil => rfl
  | .error h => h.marks
  | .ok h hrest => hrest.marks.trans h.marks

/-- So does the walk over entries. -/
theorem WalkEntries.marks {seen seen' : Finset Ref} {es : List (Value × Value)}
    {result : Except Obstacle (List (Text × Json))} :
    s.WalkEntries seen es result seen' → seen' = seen
  | .nil | .key _ => rfl
  | .error h => h.marks
  | .ok h hrest => hrest.marks.trans h.marks

end

/-- An object that a walk goes on into: one with items or entries. -/
def Container (s : Store) (r : Ref) : Prop :=
  ∃ o, s.get? r = some o ∧ ((∃ vs, s.contents o = .items vs) ∨ ∃ es, s.contents o = .entries es)

/-- A container holds items or entries. -/
theorem Container.contents {r : Ref} {o : Object} (h : s.Container r) (hr : s.get? r = some o) :
    (∃ vs, s.contents o = .items vs) ∨ ∃ es, s.contents o = .entries es := by
  obtain ⟨o', hr', ho'⟩ := h
  rw [hr] at hr'
  cases hr'
  exact ho'

/-- A container is refused within itself. -/
theorem encodeWithin_of_mem {visited : List Ref} {r : Ref} (h : s.Container r)
    (hmem : r ∈ visited) : s.encodeWithin visited (.object r) = .error (.here .cycle) := by
  obtain ⟨o, hr, ⟨vs, ho⟩ | ⟨es, ho⟩⟩ := h
  · rw [encodeWithin_object hr, ho]
    exact if_pos hmem
  · rw [encodeWithin_object hr, ho]
    exact if_pos hmem

section Marks

variable {seen : Finset Ref} {visited : List Ref} {r : Ref} (hseen : seen = visited.toFinset)

include hseen

/-- One more mark is one more object around. -/
theorem insert_eq_toFinset : insert r seen = (r :: visited).toFinset := by
  rw [hseen, List.toFinset_cons]

/-- What is not marked is not around. -/
theorem notMem_of_toFinset (hfree : r ∉ seen) : r ∉ visited := by
  rwa [hseen, List.mem_toFinset] at hfree

end Marks

/-- A key that is no text is refused. -/
theorem encodeEntries_key {encode : Value → Except Obstacle Json} {key : Value}
    (hkey : ∀ t, key ≠ .text t) (v : Value) (rest : List (Value × Value)) :
    encodeEntries encode ((key, v) :: rest) = .error (.here (.mapKey key.typeName)) := by
  cases key with
  | text t => exact absurd rfl (hkey t)
  | _ => rfl

/-- One more container around leaves only containers around. -/
theorem containers_cons {visited : List Ref} (hvisited : ∀ r ∈ visited, s.Container r) {r : Ref}
    (hr : s.Container r) : ∀ r' ∈ r :: visited, s.Container r' :=
  List.forall_mem_cons.mpr ⟨hr, hvisited⟩

mutual

/-- Where the marked objects are containers, a call ends in what encoding within them gives. -/
theorem Walk.result {visited : List Ref} (hvisited : ∀ r ∈ visited, s.Container r)
    {seen seen' : Finset Ref} (hseen : seen = visited.toFinset) {v : Value}
    {result : Except Obstacle Json} :
    s.Walk seen v result seen' → result = s.encodeWithin visited v
  | .leaf h => (encodeWithin_leaf h visited).symm
  | .dangling hr => (encodeWithin_dangling hr visited).symm
  | .box hr ho => by rw [encodeWithin_object hr, ho]
  | .marked _ _ hmem => by
    rw [hseen, List.mem_toFinset] at hmem
    exact (encodeWithin_of_mem (hvisited _ hmem) hmem).symm
  | .refused hr ho _ => by rw [encodeWithin_object hr, ho]
  | .items hr ho hfree h => by
    rw [h.result (containers_cons hvisited ⟨_, hr, .inl ⟨_, ho⟩⟩) (insert_eq_toFinset hseen),
      encodeWithin_object hr, ho]
    exact (if_neg (notMem_of_toFinset hseen hfree)).symm
  | .entries hr ho hfree h => by
    rw [h.result (containers_cons hvisited ⟨_, hr, .inr ⟨_, ho⟩⟩) (insert_eq_toFinset hseen),
      encodeWithin_object hr, ho]
    exact (if_neg (notMem_of_toFinset hseen hfree)).symm

/-- The walk over items has the result of encoding them. -/
theorem WalkItems.result {visited : List Ref} (hvisited : ∀ r ∈ visited, s.Container r)
    {seen seen' : Finset Ref} (hseen : seen = visited.toFinset) {i : ℕ} {vs : List Value}
    {result : Except Obstacle (List Json)} :
    s.WalkItems seen i vs result seen' → result = encodeItems (s.encodeWithin visited) i vs
  | .nil => rfl
  | .error h => by rw [encodeItems, ← h.result hvisited hseen]
  | .ok h hrest => by
    rw [encodeItems, ← h.result hvisited hseen, hrest.result hvisited (h.marks.trans hseen)]
    cases encodeItems (s.encodeWithin visited) (i + 1) _ <;> rfl

/-- So has the walk over entries. -/
theorem WalkEntries.result {visited : List Ref} (hvisited : ∀ r ∈ visited, s.Container r)
    {seen seen' : Finset Ref} (hseen : seen = visited.toFinset) {es : List (Value × Value)}
    {result : Except Obstacle (List (Text × Json))} :
    s.WalkEntries seen es result seen' → result = encodeEntries (s.encodeWithin visited) es
  | .nil => rfl
  | .key h => (encodeEntries_key h _ _).symm
  | .error h => by rw [encodeEntries, ← h.result hvisited hseen]
  | .ok h hrest => by
    rw [encodeEntries, ← h.result hvisited hseen, hrest.result hvisited (h.marks.trans hseen)]
    cases encodeEntries (s.encodeWithin visited) _ <;> rfl

end

end Outcomes

section Existence

/-- Items have an outcome if each of them has. -/
theorem exists_walkItems {seen : Finset Ref} {vs : List Value}
    (h : ∀ v ∈ vs, ∃ result, s.Walk seen v result seen) (i : ℕ) :
    ∃ result, s.WalkItems seen i vs result seen := by
  induction vs generalizing i with
  | nil => exact ⟨_, .nil⟩
  | cons v rest ih =>
    obtain ⟨⟨result, hv⟩, hrest⟩ := List.forall_mem_cons.mp h
    cases result with
    | error e => exact ⟨_, .error hv⟩
    | ok j =>
      obtain ⟨results, hresults⟩ := ih hrest (i + 1)
      exact ⟨_, .ok hv hresults⟩

/-- Entries have an outcome if each of their values has. -/
theorem exists_walkEntries {seen : Finset Ref} {es : List (Value × Value)}
    (h : ∀ e ∈ es, ∃ result, s.Walk seen e.2 result seen) :
    ∃ result, s.WalkEntries seen es result seen := by
  induction es with
  | nil => exact ⟨_, .nil⟩
  | cons e rest ih =>
    obtain ⟨key, v⟩ := e
    obtain ⟨⟨result, hv⟩, hrest⟩ := List.forall_mem_cons.mp h
    cases key with
    | text key =>
      cases result with
      | error e => exact ⟨_, .error hv⟩
      | ok j =>
        obtain ⟨results, hresults⟩ := ih hrest
        exact ⟨_, .ok hv hresults⟩
    | _ => exact ⟨_, .key (by simp)⟩

/-- Every call has an outcome, whatever is marked. -/
theorem exists_walk_of_list (s : Store) (visited : List Ref) (v : Value) :
    ∃ result, s.Walk visited.toFinset v result visited.toFinset := by
  -- By induction on the places that are not marked yet.
  by_cases hobject : ∃ r, v = .object r
  swap
  · exact ⟨_, .leaf fun r hv => hobject ⟨r, hv⟩⟩
  obtain ⟨r, rfl⟩ := hobject
  cases hr : s.get? r with
  | none => exact ⟨_, .dangling hr⟩
  | some o =>
    by_cases hleaf : ∃ v, s.contents o = .leaf v
    · obtain ⟨v, ho⟩ := hleaf
      exact ⟨_, .box hr ho⟩
    by_cases hmem : r ∈ visited
    · exact ⟨_, .marked hr (fun v ho => hleaf ⟨v, ho⟩) (List.mem_toFinset.mpr hmem)⟩
    have hlt := unvisited_cons_lt (mem_refs_of_get? hr) hmem
    have hfree : r ∉ visited.toFinset := mt List.mem_toFinset.mp hmem
    have hinsert : (r :: visited).toFinset = insert r visited.toFinset := List.toFinset_cons
    -- What the object holds is walked with the object marked.
    suffices h : ∃ result seen', s.Walk visited.toFinset (.object r) result seen' by
      obtain ⟨result, seen', hwalk⟩ := h
      exact ⟨result, hwalk.marks ▸ hwalk⟩
    cases ho : s.contents o with
    | leaf v => exact absurd ⟨v, ho⟩ hleaf
    | none cause => exact ⟨_, _, .refused hr ho hfree⟩
    | items vs =>
      obtain ⟨result, hitems⟩ :=
        exists_walkItems (fun v (_ : v ∈ vs) => exists_walk_of_list s (r :: visited) v) 0
      exact ⟨_, _, .items hr ho hfree (hinsert ▸ hitems)⟩
    | entries es =>
      obtain ⟨result, hentries⟩ :=
        exists_walkEntries fun e (_ : e ∈ es) => exists_walk_of_list s (r :: visited) e.2
      exact ⟨_, _, .entries hr ho hfree (hinsert ▸ hentries)⟩
termination_by unvisited s.refs visited

/-- Every call ends, with the marks as they were. -/
theorem exists_walk (s : Store) (seen : Finset Ref) (v : Value) :
    ∃ result, s.Walk seen v result seen := by
  obtain ⟨result, hwalk⟩ := s.exists_walk_of_list seen.toList v
  rw [Finset.toList_toFinset] at hwalk
  exact ⟨result, hwalk⟩

variable {visited : List Ref} (hvisited : ∀ r ∈ visited, s.Container r)

include hvisited

/-- Where the marked objects are containers, there is one outcome: encoding within them. -/
theorem walk_iff {v : Value} {result : Except Obstacle Json} {seen' : Finset Ref} :
    s.Walk visited.toFinset v result seen' ↔
      result = s.encodeWithin visited v ∧ seen' = visited.toFinset := by
  constructor
  · exact fun h => ⟨h.result hvisited rfl, h.marks⟩
  · rintro ⟨rfl, rfl⟩
    obtain ⟨result, hwalk⟩ := s.exists_walk visited.toFinset v
    rwa [hwalk.result hvisited rfl] at hwalk

/-- The walk over items from the marks of containers is their encoding. -/
theorem walkItems_iff {i : ℕ} {vs : List Value} {result : Except Obstacle (List Json)}
    {seen' : Finset Ref} :
    s.WalkItems visited.toFinset i vs result seen' ↔
      result = encodeItems (s.encodeWithin visited) i vs ∧ seen' = visited.toFinset := by
  constructor
  · exact fun h => ⟨h.result hvisited rfl, h.marks⟩
  · rintro ⟨rfl, rfl⟩
    obtain ⟨result, hwalk⟩ :=
      exists_walkItems (fun v (_ : v ∈ vs) => s.exists_walk visited.toFinset v) i
    rwa [hwalk.result hvisited rfl] at hwalk

/-- So is the walk over entries. -/
theorem walkEntries_iff {es : List (Value × Value)} {result : Except Obstacle (List (Text × Json))}
    {seen' : Finset Ref} :
    s.WalkEntries visited.toFinset es result seen' ↔
      result = encodeEntries (s.encodeWithin visited) es ∧ seen' = visited.toFinset := by
  constructor
  · exact fun h => ⟨h.result hvisited rfl, h.marks⟩
  · rintro ⟨rfl, rfl⟩
    obtain ⟨result, hwalk⟩ :=
      exists_walkEntries fun e (_ : e ∈ es) => s.exists_walk visited.toFinset e.2
    rwa [hwalk.result hvisited rfl] at hwalk

end Existence

end Store

end TypedReads
