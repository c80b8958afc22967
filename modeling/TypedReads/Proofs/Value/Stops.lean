import TypedReads.Proofs.Json.Listing
import TypedReads.Proofs.Value.Positions
import TypedReads.Proofs.Value.WellFormed

/-!
# The depth-first walk of a value

`Store.stops` lists what a value holds depth first: a value in front of what is in it, items by
index, entries in insertion order and members in listing order. A key that is no text is a stop of
its own, and an object is not entered inside itself. The list knows nothing of what JSON can hold;
it only goes on from stop to stop.

Every stop knows the way to it. Following the way from the root ends at what stands there, and the
objects passed are those around it (`located_of_mem_stops`). The other way round, every way that
enters no object twice leads to a stop (`Trail.mem_stops`).
-/

namespace TypedReads

/-- What a walk meets. -/
inductive Item where
  | value (v : Value)
  /-- A key of the object at a place. -/
  | key (r : Ref) (k : Value)

/-- A stop of a walk. -/
structure Stop where
  /-- The way to what is met there; to the object that has it, if that is a key. -/
  path : Path
  /-- The objects passed on the way, the innermost first. -/
  around : List Ref
  /-- What is met there. -/
  item : Item

/-- What a walk finds in an object. -/
inductive Child where
  | part (step : Step) (v : Value)
  /-- A key that is no text, so that no step leads to what is under it. -/
  | badKey (k : Value)

/-- What a walk finds in an entry. -/
def Child.ofEntry : Value × Value → Child
  | (.text key, v) => .part (.key key) v
  | (k, _) => .badKey k

namespace Store

/-- What a walk finds in an object, in order. -/
def children (s : Store) : Object → List Child
  | .array slots => (slotItems slots).zipIdx.map fun e => .part (.index e.2) e.1
  | .record _ members => members.listing.map fun e => .part (.key e.1) e.2
  | .map entries => entries.map Child.ofEntry
  | .adapter a => (s.entriesAt a.backing).map Child.ofEntry
  | .numberBox .. | .charBox _ | .date _ | .foreign .. | .derived _ => []

/-- The stops that a walk makes for what it finds in an object, given the stops for a part. -/
def childStops (stops : Path → Value → List Stop) (path : Path) (around : List Ref) (r : Ref) :
    Child → List Stop
  | .part step v => stops (path ++ [step]) v
  | .badKey k => [⟨path, around, .key r k⟩]

/-- The stops for a value at the end of a way. -/
def stopsWithin (s : Store) (path : Path) (around : List Ref) (v : Value) : List Stop :=
  ⟨path, around, .value v⟩ ::
    match v with
    | .object r =>
      match h : s.get? r with
      | none => []
      | some o =>
        if hr : r ∈ around then []
        else
          have := unvisited_cons_lt (mem_refs_of_get? h) hr
          (s.children o).flatMap
            (childStops (fun path v => stopsWithin s path (r :: around) v) path around r)
    | _ => []
termination_by unvisited s.refs around

/-- What the walk of a value meets, in order. -/
def stops (s : Store) (root : Value) : List Stop := s.stopsWithin [] [] root

/-- What an object holds at a step. -/
def held? (s : Store) : Object → Step → Option Value
  | .array slots, .index i => (slotItems slots)[i]?
  | .record _ members, .key key => members.get? key
  | .map entries, .key key => entries.get? (.text key)
  | .adapter a, .key key => (s.entriesAt a.backing).get? (.text key)
  | _, _ => none

/-- What a way leads to. -/
def follow? (s : Store) : Value → Path → Option Value
  | v, [] => some v
  | .object r, step :: path => do
    let o ← s.get? r
    let v ← s.held? o step
    follow? s v path
  | _, _ :: _ => none

/-- A value is an item, and has its keys that are no texts as items. -/
inductive ItemAt (s : Store) : Value → Item → Prop
  | value (v : Value) : ItemAt s v (.value v)
  | key {r : Ref} {o : Object} {es : Entries Value Value} {k v : Value} (hr : s.get? r = some o)
      (ho : s.mapEntries? o = some es) (hmem : (k, v) ∈ es) (hk : ∀ t, k ≠ .text t) :
      ItemAt s (.object r) (.key r k)

/-- A stop that stands where it says. -/
structure Located (s : Store) (root : Value) (stop : Stop) : Prop where
  /-- Its way leads to what is met there. -/
  leads : ∃ v, s.follow? root stop.path = some v ∧ s.ItemAt v stop.item
  /-- The objects around it are those that its way leads through. -/
  around_iff : ∀ r, r ∈ stop.around ↔
    ∃ before step after, stop.path = before ++ step :: after ∧
      s.follow? root before = some (.object r)

variable {s : Store}

section Children

/-- What a walk finds in an object, by what is encoded of it. -/
theorem children_eq (o : Object) :
    s.children o =
      match s.contents o with
      | .items vs => vs.zipIdx.map fun e => .part (.index e.2) e.1
      | .entries es => es.map Child.ofEntry
      | _ => [] := by
  cases o with
  | record bare members => simp [children, contents, Child.ofEntry, Function.comp_def]
  | numberBox kind x => rcases kind with k | _ | _ <;> rfl
  | _ => rfl

/-- The parts that a walk finds are those one step inwards. -/
theorem part_mem_children_iff {r : Ref} {o : Object} (hr : s.get? r = some o) {step : Step}
    {v : Value} : .part step v ∈ s.children o ↔ s.PartAt r step v := by
  rw [children_eq]
  constructor
  · intro h
    cases ho : s.contents o with
    | items vs =>
      rw [ho] at h
      obtain ⟨⟨w, i⟩, hmem, heq⟩ := List.mem_map.mp h
      cases heq
      exact .item hr ho (List.mem_zipIdx_iff_getElem?.mp hmem)
    | entries es =>
      rw [ho] at h
      obtain ⟨⟨key, w⟩, hmem, heq⟩ := List.mem_map.mp h
      -- An entry is walked to its value only if its key is a text.
      cases key with
      | text key =>
        cases heq
        obtain ⟨i, hi⟩ := List.mem_iff_getElem?.mp hmem
        exact .entry hr ho hi
      | _ => cases heq
    | _ =>
      rw [ho] at h
      cases h
  · intro h
    cases h with
    | item hr' ho hi =>
      cases hr.symm.trans hr'
      rw [ho]
      exact List.mem_map.mpr ⟨(v, _), List.mem_zipIdx_iff_getElem?.mpr hi, rfl⟩
    | entry hr' ho hi =>
      cases hr.symm.trans hr'
      rw [ho]
      exact List.mem_map.mpr ⟨_, List.mem_of_getElem? hi, rfl⟩

/-- The keys that a walk finds are keys of a map, and no texts. -/
theorem itemAt_of_badKey {r : Ref} {o : Object} (hr : s.get? r = some o) {k : Value}
    (h : .badKey k ∈ s.children o) : s.ItemAt (.object r) (.key r k) := by
  -- Only a map or an adapter has entries to find a key in.
  have hentries : ∃ es, s.mapEntries? o = some es ∧ .badKey k ∈ es.map Child.ofEntry := by
    cases o with
    | map es => exact ⟨_, rfl, h⟩
    | adapter a => exact ⟨_, rfl, h⟩
    | array items =>
      obtain ⟨_, -, heq⟩ := List.mem_map.mp h
      cases heq
    | record bare members =>
      obtain ⟨_, -, heq⟩ := List.mem_map.mp h
      cases heq
    | _ => cases h
  obtain ⟨es, ho, hk⟩ := hentries
  obtain ⟨⟨key, v⟩, hmem, heq⟩ := List.mem_map.mp hk
  cases key with
  | text key => cases heq
  | _ =>
    cases heq
    exact .key hr ho hmem nofun

end Children

section Ways

/-- What is one step inwards is held at the step. -/
theorem PartAt.held (hs : s.WellFormed) {r : Ref} {step : Step} {v : Value}
    (h : s.PartAt r step v) : ∃ o, s.get? r = some o ∧ s.held? o step = some v := by
  cases h with
  | item hr ho hi =>
    obtain ⟨slots, rfl, rfl⟩ := array_of_contents ho
    exact ⟨_, hr, hi⟩
  | @entry o es i key v hr ho hi =>
    have hmem := List.mem_of_getElem? hi
    refine ⟨o, hr, ?_⟩
    -- No key is repeated, so the value found under it is this one.
    cases o with
    | record bare members =>
      cases ho
      obtain ⟨e, he, heq⟩ := List.mem_map.mp hmem
      cases heq
      have hnodup : members.keys.Nodup := hs r _ hr
      exact (Entries.get?_eq_some_iff hnodup).mpr ((Entries.listing_perm members).mem_iff.mp he)
    | map entries =>
      cases ho
      exact (Entries.get?_eq_some_iff (hs r _ hr)).mpr hmem
    | adapter a =>
      cases ho
      exact (Entries.get?_eq_some_iff (hs.nodup_entriesAt a.backing)).mpr hmem
    | numberBox kind x => exact absurd ho contents_numberBox_ne
    | _ => cases ho

/-- A way leads on from where its first part leads. -/
theorem follow?_append (v : Value) (path way : Path) :
    s.follow? v (path ++ way) = (s.follow? v path).bind fun w => s.follow? w way := by
  induction path generalizing v with
  | nil => rfl
  | cons step path ih =>
    cases v with
    | object r =>
      simp only [List.cons_append, follow?, Option.bind_eq_bind, Option.bind_assoc, ih]
    | _ => rfl

variable {root v : Value} {path : Path} {rs : List Ref}

/-- A way leads to what it is the way to. -/
theorem Trail.follow_eq (hs : s.WellFormed) (h : s.Trail root path rs v) :
    s.follow? root path = some v := by
  induction h with
  | root => rfl
  | step _ hv ih =>
    obtain ⟨o, hr, hheld⟩ := hv.held hs
    rw [follow?_append, ih]
    simp [follow?, hr, hheld]

/-- The objects passed on a way are those that it leads through. -/
theorem Trail.mem_iff (hs : s.WellFormed) (h : s.Trail root path rs v) (r : Ref) :
    r ∈ rs ↔ ∃ before step after, path = before ++ step :: after ∧
      s.follow? root before = some (.object r) := by
  induction h with
  | root => simp
  | @step path rs r' step v htrail hv ih =>
    rw [List.mem_cons, ih]
    constructor
    · rintro (rfl | ⟨before, step', after, rfl, hfollow⟩)
      · exact ⟨path, step, [], rfl, htrail.follow_eq hs⟩
      · exact ⟨before, step', after ++ [step], by simp, hfollow⟩
    · rintro ⟨before, step', after, heq, hfollow⟩
      obtain rfl | ⟨after, last, rfl⟩ := List.eq_nil_or_concat after
      · obtain ⟨rfl, -⟩ := List.append_inj' heq rfl
        rw [htrail.follow_eq hs] at hfollow
        cases hfollow
        exact .inl rfl
      · rw [List.concat_eq_append, ← List.cons_append, ← List.append_assoc] at heq
        exact .inr ⟨before, step', after, (List.append_inj' heq rfl).1, hfollow⟩

end Ways

section Stops

variable {path : Path} {around : List Ref} {r : Ref} {o : Object} {v : Value}

/-- The walk of an object that it is not in goes on with what is found in the object. -/
theorem stopsWithin_object (hr : s.get? r = some o) (hfree : r ∉ around) :
    s.stopsWithin path around (.object r) =
      ⟨path, around, .value (.object r)⟩ ::
        (s.children o).flatMap
          (childStops (fun path v => s.stopsWithin path (r :: around) v) path around r) := by
  rw [stopsWithin.eq_def]
  dsimp only
  split
  · rename_i hnone
    cases hr.symm.trans hnone
  · rename_i o' ho'
    cases hr.symm.trans ho'
    rw [dif_neg hfree]

/-- The walk ends at what it does not enter. -/
theorem stopsWithin_of_not_entered (h : ∀ r o, v = .object r → s.get? r = some o → r ∈ around) :
    s.stopsWithin path around v = [⟨path, around, .value v⟩] := by
  rw [stopsWithin.eq_def]
  cases v with
  | object r =>
    dsimp only
    split
    · rfl
    · rename_i o hr
      rw [dif_pos (h r o rfl hr)]
  | _ => rfl

/-- A stop is the value walked, or it is a stop for what is found in the object walked. -/
theorem mem_stopsWithin_iff {stop : Stop} :
    stop ∈ s.stopsWithin path around v ↔
      stop = ⟨path, around, .value v⟩ ∨
        ∃ r o child, v = .object r ∧ s.get? r = some o ∧ r ∉ around ∧ child ∈ s.children o ∧
          stop ∈ childStops (fun path v => s.stopsWithin path (r :: around) v) path around r
            child := by
  by_cases hentered : ∃ r o, v = .object r ∧ s.get? r = some o ∧ r ∉ around
  · obtain ⟨r, o, rfl, hr, hfree⟩ := hentered
    rw [stopsWithin_object hr hfree, List.mem_cons, List.mem_flatMap]
    refine or_congr_right ⟨?_, ?_⟩
    · rintro ⟨child, hchild, hstop⟩
      exact ⟨r, o, child, rfl, hr, hfree, hchild, hstop⟩
    · rintro ⟨r', o', child, heq, hr', -, hchild, hstop⟩
      cases heq
      cases hr.symm.trans hr'
      exact ⟨child, hchild, hstop⟩
  · rw [stopsWithin_of_not_entered fun r o hv hr => by_contra fun hfree =>
      hentered ⟨r, o, hv, hr, hfree⟩, List.mem_singleton]
    refine (or_iff_left ?_).symm
    rintro ⟨r, o, child, hv, hr, hfree, -⟩
    exact hentered ⟨r, o, hv, hr, hfree⟩

/-- A stop of a walk at the end of a way stands at the end of a way itself. -/
theorem trail_of_mem_stopsWithin {root v : Value} {path : Path} {around : List Ref} {stop : Stop}
    (h : s.Trail root path around v) (hstop : stop ∈ s.stopsWithin path around v) :
    ∃ w, s.Trail root stop.path stop.around w ∧ s.ItemAt w stop.item := by
  -- By induction on the places that the walk may still enter.
  obtain rfl | ⟨r, o, child, rfl, hr, hfree, hchild, hstop⟩ := mem_stopsWithin_iff.mp hstop
  · exact ⟨v, h, .value v⟩
  · cases child with
    | part step part =>
      have := unvisited_cons_lt (mem_refs_of_get? hr) hfree
      exact trail_of_mem_stopsWithin (h.step ((part_mem_children_iff hr).mp hchild)) hstop
    | badKey k =>
      cases List.mem_singleton.mp hstop
      exact ⟨.object r, h, itemAt_of_badKey hr hchild⟩
termination_by unvisited s.refs around

/-- Every stop of the walk of a value stands where it says. -/
theorem located_of_mem_stops (hs : s.WellFormed) {root : Value} {stop : Stop}
    (h : stop ∈ s.stops root) : s.Located root stop := by
  obtain ⟨w, htrail, hitem⟩ := trail_of_mem_stopsWithin .root h
  exact ⟨⟨w, htrail.follow_eq hs, hitem⟩, htrail.mem_iff hs⟩

/-- The walk stops at the parts of every object that it meets and is not in. -/
theorem part_mem_stopsWithin {v part : Value} {path way : Path} {around passed : List Ref}
    {r : Ref} {step : Step}
    (h : ⟨way, passed, .value (.object r)⟩ ∈ s.stopsWithin path around v) (hfree : r ∉ passed)
    (hpart : s.PartAt r step part) :
    ⟨way ++ [step], r :: passed, .value part⟩ ∈ s.stopsWithin path around v := by
  -- The object is the one walked, or it is met further in.
  obtain ⟨o, hr, -⟩ := hpart.part.container
  obtain heq | ⟨r', o', child, rfl, hr', hfree', hchild, hstop⟩ := mem_stopsWithin_iff.mp h
  · cases heq
    have hchild := (part_mem_children_iff hr).mpr hpart
    refine mem_stopsWithin_iff.mpr (.inr ⟨r, o, _, rfl, hr, hfree, hchild, ?_⟩)
    exact mem_stopsWithin_iff.mpr (.inl rfl)
  · cases child with
    | part step' part' =>
      have := unvisited_cons_lt (mem_refs_of_get? hr') hfree'
      exact mem_stopsWithin_iff.mpr (.inr ⟨r', o', _, rfl, hr', hfree', hchild,
        part_mem_stopsWithin hstop hfree hpart⟩)
    | badKey k => cases List.mem_singleton.mp hstop
termination_by unvisited s.refs around

/-- Every way that enters no object twice leads to a stop. -/
theorem Trail.mem_stops {root : Value} (h : s.Trail root path around v) (hnodup : around.Nodup) :
    ⟨path, around, .value v⟩ ∈ s.stops root := by
  induction h with
  | root => exact mem_stopsWithin_iff.mpr (.inl rfl)
  | step _ hv ih =>
    obtain ⟨hfree, hrest⟩ := List.nodup_cons.mp hnodup
    exact part_mem_stopsWithin (ih hrest) hfree hv

end Stops

end Store

end TypedReads
