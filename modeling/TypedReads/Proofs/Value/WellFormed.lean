import TypedReads.Adapter.Basic
import TypedReads.Proofs.Json.Normal
import TypedReads.Proofs.Value.Loading

/-!
# Stores as they are built

No map and no record repeats a key, and an adapter looks at a map: `Store.WellFormed`. A new object
of this kind keeps a store well formed, and so does every operation of an adapter, every document
opened and every map wrapped, since all of them change a map by writing, erasing or clearing.
-/

namespace TypedReads

/-- Whether an object is a map. -/
def Object.isMap : Object → Bool
  | .map _ => true
  | _ => false

namespace Store

/-- An object as it is built: the entries of a map and the members of a record repeat no key, and an
adapter looks at a map. -/
def WellFormedObject (s : Store) : Object → Prop
  | .map es => es.keys.Nodup
  | .record _ members => members.keys.Nodup
  | .adapter a => ∃ es, s.get? a.backing = some (.map es)
  | _ => True

/-- A store of such objects. -/
def WellFormed (s : Store) : Prop := ∀ r o, s.get? r = some o → s.WellFormedObject o

variable {s : Store}

/-- What holds at every place of a store holds of the object that stands there. -/
theorem forall_objects {P : Ref → Object → Prop} (h : ∀ i : Fin s.objects.size, P i.val s.objects[i])
    (r : Ref) (o : Object) (hr : s.get? r = some o) : P r o := by
  obtain ⟨hlt, rfl⟩ := Array.getElem?_eq_some_iff.mp hr
  exact h ⟨r, hlt⟩

section Decidability

/-- There is a map at a place if what stands there is one. -/
theorem exists_map_iff {r : Ref} :
    (s.get? r).any Object.isMap = true ↔ ∃ es, s.get? r = some (.map es) := by
  cases s.get? r with
  | none => simp
  | some o => cases o <;> simp [Object.isMap]

/-- It is decided by the keys of the object. -/
instance : DecidablePred s.WellFormedObject := fun o =>
  match o with
  | .map es => inferInstanceAs (Decidable es.keys.Nodup)
  | .record _ members => inferInstanceAs (Decidable members.keys.Nodup)
  | .adapter _ => decidable_of_iff _ exists_map_iff
  | .array _ | .numberBox .. | .charBox _ | .date _ | .foreign .. | .derived _ => isTrue trivial

/-- A store is well formed if the objects at its places are. -/
theorem wellFormed_iff :
    (∀ i : Fin s.objects.size, s.WellFormedObject s.objects[i]) ↔ s.WellFormed :=
  ⟨fun h => forall_objects h, fun h i => h i.val _ (Array.getElem?_eq_getElem i.isLt)⟩

/-- It is enough to look at the objects of a store. -/
instance : Decidable s.WellFormed := decidable_of_iff _ wellFormed_iff

end Decidability

/-- The entries of a map are those it was made of. -/
theorem entriesAt_of_get? {r : Ref} {es : Entries Value Value} (h : s.get? r = some (.map es)) :
    s.entriesAt r = es := by
  unfold entriesAt
  rw [h]

/-- The entries of a map repeat no key. -/
theorem WellFormed.nodup_entriesAt (h : s.WellFormed) (r : Ref) :
    (s.entriesAt r).keys.Nodup := by
  unfold entriesAt
  split
  · rename_i es hr
    exact h r _ hr
  · exact List.nodup_nil

/-- The entries behind a map or an adapter repeat no key. -/
theorem WellFormed.nodup_mapEntries (h : s.WellFormed) {r : Ref} {x : Object}
    {es : Entries Value Value} (hr : s.get? r = some x) (hes : s.mapEntries? x = some es) :
    es.keys.Nodup := by
  cases x with
  | map entries =>
    cases hes
    exact h r _ hr
  | adapter a =>
    cases hes
    exact h.nodup_entriesAt a.backing
  | _ => cases hes

/-- The empty store is well-formed. -/
theorem wellFormed_empty : Store.empty.WellFormed := by
  intro r o hr
  simp [Store.empty, get?] at hr

section Allocation

/-- What an object needs is still there in a greater store. -/
theorem WellFormedObject.mono {s' : Store} (hs : s.Extends s') {o : Object}
    (h : s.WellFormedObject o) : s'.WellFormedObject o := by
  cases o with
  | adapter a =>
    obtain ⟨es, hes⟩ := h
    exact ⟨es, hs _ _ hes⟩
  | _ => exact h

/-- A well-formed object may be added. -/
theorem WellFormed.alloc (h : s.WellFormed) {o : Object} (ho : s.WellFormedObject o) :
    (s.alloc o).2.WellFormed := by
  intro r o' hr
  have hext := s.extends_alloc o
  obtain hold | ⟨-, rfl⟩ := of_get?_alloc hr
  · exact (h r o' hold).mono hext
  · exact ho.mono hext

/-- A map and an adapter on it may be added. -/
theorem WellFormed.openMap (h : s.WellFormed) {es : Entries Value Value} (hes : es.keys.Nodup)
    (narrowing : Narrowing) : (s.openMap es narrowing).2.WellFormed :=
  (h.alloc (o := .map es) hes).alloc (o := .adapter ⟨_, narrowing⟩) ⟨es, s.get?_alloc (.map es)⟩

/-- The keys of loaded members are those of the members. -/
theorem keys_loadMembers (s : Store) (members : List (Text × Json)) :
    Entries.keys (s.loadMembers members).1 = Entries.keys members := by
  induction members generalizing s with
  | nil => rfl
  | cons e rest ih => exact congrArg (e.1 :: ·) (ih _)

mutual

/-- A normal value may be loaded. -/
theorem WellFormed.load {s : Store} (h : s.WellFormed) :
    ∀ {j : Json}, j.Normal → (s.load j).2.WellFormed
  | .null, _ | .bool _, _ | .number _, _ | .integer _, _ | .text _, _ => h
  | .array items, hj =>
    (WellFormed.loadItems h hj).alloc (o := .ofItems (s.loadItems items).1) trivial
  | .object members, ⟨hkeys, _, hmembers⟩ => by
    refine (WellFormed.loadMembers h hmembers).alloc
      (o := .record false (s.loadMembers members).1) ?_
    change (Entries.keys (s.loadMembers members).1).Nodup
    rw [keys_loadMembers]
    exact hkeys

/-- Loading items keeps a store well-formed. -/
theorem WellFormed.loadItems {s : Store} (h : s.WellFormed) :
    ∀ {items : List Json}, Json.NormalItems items → (s.loadItems items).2.WellFormed
  | [], _ => h
  | _ :: _, ⟨hj, hrest⟩ => WellFormed.loadItems (WellFormed.load h hj) hrest

/-- So does loading members. -/
theorem WellFormed.loadMembers {s : Store} (h : s.WellFormed) :
    ∀ {members : List (Text × Json)}, Json.NormalMembers members →
      (s.loadMembers members).2.WellFormed
  | [], _ => h
  | (_, _) :: _, ⟨hj, hrest⟩ => WellFormed.loadMembers (WellFormed.load h hj) hrest

end

/-- A document may be opened. -/
theorem WellFormed.openDocument (h : s.WellFormed) {t : Text} {narrowing : Narrowing} {r : Ref}
    {s' : Store} (hopen : s.openDocument t narrowing = .ok (r, s')) : s'.WellFormed := by
  unfold Store.openDocument at hopen
  cases hentries : Document.entries t with
  | error e =>
    rw [hentries] at hopen
    cases hopen
  | ok members =>
    rw [hentries] at hopen
    cases hopen
    have hloaded := h.loadMembers (Document.normal_of_entries hentries)
    exact hloaded.openMap (Entries.nodup_keys_ofPairs _) narrowing

/-- A map may be wrapped. -/
theorem WellFormed.wrap (h : s.WellFormed) {container : Ref} {es : Entries Value Value}
    (hmap : s.get? container = some (.map es)) {narrowing : Narrowing} {r : Ref} {s' : Store}
    (hwrap : s.wrap (.object container) narrowing = .ok (r, s')) : s'.WellFormed := by
  unfold Store.wrap adapter? at hwrap
  dsimp only at hwrap
  rw [hmap] at hwrap
  cases hwrap
  exact h.alloc ⟨es, hmap⟩

end Allocation

section Writing

/-- The object at a place after a map was changed. -/
theorem get?_setEntries {r r' : Ref} {es : Entries Value Value} {o : Object}
    (h : (s.setEntries r es).get? r' = some o) :
    s.get? r' = some o ∧ r' ≠ r ∨ r' = r ∧ o = .map es := by
  unfold setEntries Store.set get? at *
  by_cases heq : r = r'
  · subst heq
    rw [Array.getElem?_setIfInBounds_self] at h
    split_ifs at h with hlt
    · cases h
      exact .inr ⟨rfl, rfl⟩
  · rw [Array.getElem?_setIfInBounds_ne heq] at h
    exact .inl ⟨h, Ne.symm heq⟩

/-- A changed map has its new entries. -/
theorem get?_setEntries_self {r : Ref} {o : Object} (hr : s.get? r = some o)
    (es : Entries Value Value) : (s.setEntries r es).get? r = some (.map es) := by
  have hlt := lt_size_of_get? hr
  unfold Store.setEntries Store.set get? size at *
  rw [Array.getElem?_setIfInBounds_self, if_pos hlt]

/-- The map of an adapter may be changed to entries that repeat no key. -/
theorem WellFormed.setEntries (h : s.WellFormed) {r : Ref} {es₀ es : Entries Value Value}
    (hr : s.get? r = some (.map es₀)) (hes : es.keys.Nodup) : (s.setEntries r es).WellFormed := by
  intro r' o hr'
  rcases get?_setEntries hr' with ⟨hold, -⟩ | ⟨rfl, rfl⟩
  · have ho := h r' o hold
    cases o with
    | adapter a =>
      -- The map looked at is still a map, be it the one changed or another.
      obtain ⟨es', hbacking⟩ := ho
      by_cases heq : r = a.backing
      · exact ⟨es, heq ▸ get?_setEntries_self hr es⟩
      · refine ⟨es', ?_⟩
        unfold Store.setEntries Store.set get? at *
        rwa [Array.getElem?_setIfInBounds_ne heq]
    | _ => exact ho
  · exact hes

variable {a : Adapter}

/-- Writing through an adapter keeps a store well-formed. -/
theorem WellFormed.write (h : s.WellFormed) {es : Entries Value Value}
    (ha : s.get? a.backing = some (.map es)) (key value : Value) :
    (a.write s key value).WellFormed :=
  h.setEntries ha (Entries.nodup_keys_put (h.nodup_entriesAt a.backing) key value)

/-- So does removing a key. -/
theorem WellFormed.remove (h : s.WellFormed) {es : Entries Value Value}
    (ha : s.get? a.backing = some (.map es)) (key : Text) : (a.remove s key).2.WellFormed :=
  h.setEntries ha (Entries.nodup_keys_erase (h.nodup_entriesAt a.backing) _)

/-- So does removing all. -/
theorem WellFormed.clear (h : s.WellFormed) {es : Entries Value Value}
    (ha : s.get? a.backing = some (.map es)) : (a.clear s).WellFormed :=
  h.setEntries ha List.nodup_nil

/-- The map of an adapter after a write. -/
theorem get?_write {es : Entries Value Value} (ha : s.get? a.backing = some (.map es))
    (key value : Value) :
    (a.write s key value).get? a.backing = some (.map ((a.entries s).put key value)) :=
  get?_setEntries_self ha _

/-- So does writing pairs. -/
theorem WellFormed.putAll (h : s.WellFormed) {es : Entries Value Value}
    (ha : s.get? a.backing = some (.map es)) (pairs : List (Text × Value)) :
    (a.putAll s pairs).WellFormed := by
  unfold Adapter.putAll
  induction pairs generalizing s es with
  | nil => exact h
  | cons pair pairs ih => exact ih (h.write ha _ _) (get?_write ha _ _)

/-- So does copying a map. -/
theorem WellFormed.copyAll (h : s.WellFormed) {es : Entries Value Value}
    (ha : s.get? a.backing = some (.map es)) (source : Ref) : (a.copyAll s source).WellFormed := by
  -- The source may be the map written to, so the store and the position both change.
  have hall : ∀ s i, s.WellFormed → (∃ es, s.get? a.backing = some (.map es)) →
      (a.copyFrom s source i).WellFormed := by
    intro s i
    fun_induction Adapter.copyFrom a s source i with
    | case1 s i hnone => exact fun h _ => h
    | case2 s i key value hsome _ _ ih =>
      rintro h ⟨es, ha⟩
      exact ih (h.write ha key value) ⟨_, get?_write ha key value⟩
  exact hall s 0 h ⟨es, ha⟩

end Writing

end Store

end TypedReads
