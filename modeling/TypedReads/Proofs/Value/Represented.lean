import TypedReads.Proofs.Json.Rereading
import TypedReads.Proofs.Value.Encoding
import TypedReads.Proofs.Value.Loading

/-!
# Encoding what was loaded

A value that represents a normal JSON value is encoded as that value, if its numbers are finite
(`Store.encodeWithin_represents`), and as nothing else (`Store.eq_of_encodeWithin_represents`). Its
objects stand below a bound, so none of them is among the containers that are being encoded if those
stand at the bound or above it.
-/

namespace TypedReads

namespace Store

variable {s : Store}

/-- Members and the entries that represent them have the same keys. -/
theorem RepresentsMembers.keys {bound : Ref} {es : Entries Text Value}
    {members : Entries Text Json} (h : s.RepresentsMembers bound es members) :
    es.keys = members.keys := by
  induction members generalizing es with
  | nil =>
    cases h
    rfl
  | cons member members ih =>
    cases h with
    | cons key h hrest => exact congrArg (key :: ·) (ih hrest)

/-- A record that represents a normal object lists its members as they are. -/
theorem contents_represents {bound : Ref} {es : Entries Text Value} {members : List (Text × Json)}
    (h : s.RepresentsMembers bound es members) (hnormal : (Json.object members).Normal) :
    s.contents (.record false es) = .entries (es.map fun e => (.text e.1, e.2)) := by
  obtain ⟨hkeys, hlisting, -⟩ := hnormal
  have hlisted := Entries.listing_of_keys h.keys hkeys hlisting
  change Contents.entries (es.listing.map fun e => (.text e.1, e.2)) = _
  rw [hlisted]

/-- A place below all containers that are being encoded is none of them. -/
theorem not_mem_ancestors {bound r : Ref} {ancestors : List Ref}
    (hancestors : ∀ a ∈ ancestors, bound ≤ a) (hlt : r < bound) : r ∉ ancestors :=
  fun hr => absurd (hancestors r hr) (not_le.mpr hlt)

/-- What stands below a place stands below it and all containers around it. -/
theorem le_ancestors {bound r : Ref} {ancestors : List Ref}
    (hancestors : ∀ a ∈ ancestors, bound ≤ a) (hlt : r < bound) : ∀ a ∈ r :: ancestors, r ≤ a :=
  List.forall_mem_cons.mpr ⟨le_rfl, fun a ha => hlt.le.trans (hancestors a ha)⟩

mutual

/-- A value that represents a normal and finite one is encoded as it. -/
theorem encodeWithin_represents {bound : Ref} {v : Value} {j : Json} (h : s.Represents bound v j)
    (hnormal : j.Normal) (hfinite : j.Finite) {ancestors : List Ref}
    (hancestors : ∀ a ∈ ancestors, bound ≤ a) : s.encodeWithin ancestors v = .ok j := by
  cases h with
  | null => exact encodeWithin_leaf (by nofun) _
  | bool b => exact encodeWithin_leaf (by nofun) _
  | integer n => exact encodeWithin_leaf (by nofun) _
  | text t => exact encodeWithin_leaf (by nofun) _
  | number x =>
    have hx : x.isFinite = true := hfinite
    rw [encodeWithin_leaf (v := .number x) nofun, encodeLeaf, if_pos hx]
  | @array _ r vs js hlt hr hitems =>
    -- The place of the array is below all that are being encoded, so it is none of them.
    have hjs := encodeItems_represents hitems hnormal hfinite (le_ancestors hancestors hlt) 0
    rw [encodeWithin_object hr]
    dsimp only [contents]
    rw [slotItems_map_some, if_neg (not_mem_ancestors hancestors hlt), hjs]
    rfl
  | @object _ r es members hlt hr hmembers =>
    have hes := encodeEntries_represents hmembers hnormal.2.2 hfinite (le_ancestors hancestors hlt)
    rw [encodeWithin_object hr, contents_represents hmembers hnormal]
    dsimp only
    rw [if_neg (not_mem_ancestors hancestors hlt), hes]
    rfl

/-- Items are encoded as what they represent. -/
theorem encodeItems_represents {bound : Ref} {vs : List Value} {js : List Json}
    (h : s.RepresentsItems bound vs js) (hnormal : Json.NormalItems js)
    (hfinite : Json.FiniteItems js) {ancestors : List Ref}
    (hancestors : ∀ a ∈ ancestors, bound ≤ a) (i : ℕ) :
    encodeItems (s.encodeWithin ancestors) i vs = .ok js := by
  cases h with
  | nil => rfl
  | cons h hrest =>
    rw [encodeItems, encodeWithin_represents h hnormal.1 hfinite.1 hancestors]
    dsimp only
    rw [encodeItems_represents hrest hnormal.2 hfinite.2 hancestors]

/-- So are members. -/
theorem encodeEntries_represents {bound : Ref} {es : List (Text × Value)}
    {members : List (Text × Json)} (h : s.RepresentsMembers bound es members)
    (hnormal : Json.NormalMembers members) (hfinite : Json.FiniteMembers members)
    {ancestors : List Ref} (hancestors : ∀ a ∈ ancestors, bound ≤ a) :
    encodeEntries (s.encodeWithin ancestors) (es.map fun e => (.text e.1, e.2)) = .ok members := by
  cases h with
  | nil => rfl
  | cons key h hrest =>
    rw [List.map_cons, encodeEntries,
      encodeWithin_represents h hnormal.1 hfinite.1 hancestors]
    dsimp only
    rw [encodeEntries_represents hrest hnormal.2 hfinite.2 hancestors]

end

mutual

/-- A value that represents a normal one is encoded as nothing else. -/
theorem eq_of_encodeWithin_represents {bound : Ref} {v : Value} {j j' : Json}
    (h : s.Represents bound v j) (hnormal : j.Normal) {ancestors : List Ref}
    (hencode : s.encodeWithin ancestors v = .ok j') : j' = j := by
  cases h with
  | null =>
    rw [encodeWithin_leaf (v := .null) nofun] at hencode
    exact (Except.ok.inj hencode).symm
  | bool b =>
    rw [encodeWithin_leaf (v := .bool b) nofun] at hencode
    exact (Except.ok.inj hencode).symm
  | integer n =>
    rw [encodeWithin_leaf (v := .integer n) nofun] at hencode
    exact (Except.ok.inj hencode).symm
  | text t =>
    rw [encodeWithin_leaf (v := .text t) nofun] at hencode
    exact (Except.ok.inj hencode).symm
  | number x =>
    rw [encodeWithin_leaf (v := .number x) nofun] at hencode
    exact (finite_of_encodeLeaf hencode).2
  | @array _ r vs js hlt hr hitems =>
    obtain ⟨js', rfl, -, hjs⟩ := encodeWithin_items hr (contents_ofItems s vs) hencode
    rw [eq_of_encodeItems_represents hitems hnormal hjs]
  | @object _ r es members hlt hr hmembers =>
    obtain ⟨members', rfl, -, hms⟩ :=
      encodeWithin_entries hr (contents_represents hmembers hnormal) hencode
    rw [List.forall₂_map_left_iff] at hms
    rw [eq_of_encodeEntries_represents hmembers hnormal.2.2 hms]

/-- Items that are encoded one by one give what they represent. -/
theorem eq_of_encodeItems_represents {bound : Ref} {vs : List Value} {js js' : List Json}
    (h : s.RepresentsItems bound vs js) (hnormal : Json.NormalItems js) {ancestors : List Ref}
    (hencode : List.Forall₂ (fun v j => s.encodeWithin ancestors v = .ok j) vs js') : js' = js := by
  cases h with
  | nil =>
    cases hencode
    rfl
  | cons h hrest =>
    cases hencode with
    | cons hj hjs =>
      rw [eq_of_encodeWithin_represents h hnormal.1 hj,
        eq_of_encodeItems_represents hrest hnormal.2 hjs]

/-- So do members. -/
theorem eq_of_encodeEntries_represents {bound : Ref} {es : List (Text × Value)}
    {members members' : List (Text × Json)} (h : s.RepresentsMembers bound es members)
    (hnormal : Json.NormalMembers members) {ancestors : List Ref}
    (hencode : List.Forall₂ (fun e member => Value.text e.1 = .text member.1 ∧
      s.encodeWithin ancestors e.2 = .ok member.2) es members') : members' = members := by
  cases h with
  | nil =>
    cases hencode
    rfl
  | cons key h hrest =>
    cases hencode with
    | @cons _ member _ _ hj hjs =>
      obtain ⟨key', j'⟩ := member
      obtain ⟨hkey, hj⟩ := hj
      cases hkey
      dsimp only at hj
      rw [eq_of_encodeWithin_represents h hnormal.1 hj,
        eq_of_encodeEntries_represents hrest hnormal.2 hjs]

end

end Store

end TypedReads
