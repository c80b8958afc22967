import TypedReads.Json.Document
import TypedReads.Proofs.Json.Listing

/-!
# Normal JSON values

A JSON value is normal if every object in it has each key once and its members in listing order:
`Json.Normal`. Normalizing makes a value normal (`Json.normalize_normal`) and leaves a normal one as
it is (`Json.normalize_of_normal`), so normalizing twice is normalizing once.
-/

namespace TypedReads

namespace Json

mutual

/-- A value whose objects have each key once and list their members in order. -/
def Normal : Json → Prop
  | .array items => NormalItems items
  | .object members =>
    (Entries.keys members).Nodup ∧ Entries.listing members = members ∧ NormalMembers members
  | _ => True

/-- Items that are all normal. -/
def NormalItems : List Json → Prop
  | [] => True
  | j :: rest => j.Normal ∧ NormalItems rest

/-- Members whose values are all normal. -/
def NormalMembers : List (Text × Json) → Prop
  | [] => True
  | (_, j) :: rest => j.Normal ∧ NormalMembers rest

end

/-- Members are in normal form if their values are. -/
theorem normalMembers_iff {members : List (Text × Json)} :
    NormalMembers members ↔ ∀ e ∈ members, e.2.Normal := by
  induction members with
  | nil => simp [NormalMembers]
  | cons e rest ih => simp [NormalMembers, ih]

/-- What members with normal values leave has normal values. -/
theorem NormalMembers.ofPairs {members : List (Text × Json)} (h : NormalMembers members) :
    NormalMembers (Entries.ofPairs members) :=
  normalMembers_iff.mpr fun e he => normalMembers_iff.mp h e (Entries.mem_of_mem_ofPairs he)

/-- The object that members with normal values define is normal. -/
theorem record_normal {members : List (Text × Json)} (h : NormalMembers members) :
    (record members).Normal := by
  refine ⟨Entries.nodup_keys_listing (Entries.nodup_keys_ofPairs members),
    Entries.listing_listing _, normalMembers_iff.mpr fun e he => ?_⟩
  have hmem := (Entries.listing_perm _).mem_iff.mp he
  exact normalMembers_iff.mp h e (Entries.mem_of_mem_ofPairs hmem)

/-- An object whose members are normal already is what its members define. -/
theorem record_of_normal {members : List (Text × Json)}
    (hkeys : (Entries.keys members).Nodup) (hlisting : Entries.listing members = members) :
    record members = .object members := by
  unfold record
  rw [Entries.ofPairs_of_nodup hkeys, hlisting]

mutual

/-- What is normalized is in normal form. -/
theorem normalize_normal : ∀ j : Json, j.normalize.Normal
  | .null | .bool _ | .number _ | .integer _ | .text _ => trivial
  | .array items => normalizeItems_normal items
  | .object members => record_normal (normalizeMembers_normal members)

/-- So are items. -/
theorem normalizeItems_normal : ∀ items : List Json, NormalItems (normalizeItems items)
  | [] => trivial
  | j :: rest => ⟨normalize_normal j, normalizeItems_normal rest⟩

/-- So are the values of members. -/
theorem normalizeMembers_normal : ∀ members : List (Text × Json),
    NormalMembers (normalizeMembers members)
  | [] => trivial
  | (_, j) :: rest => ⟨normalize_normal j, normalizeMembers_normal rest⟩

end

mutual

/-- Normalizing changes nothing in normal form. -/
theorem normalize_of_normal : ∀ {j : Json}, j.Normal → j.normalize = j
  | .null, _ | .bool _, _ | .number _, _ | .integer _, _ | .text _, _ => rfl
  | .array _, h => congrArg Json.array (normalizeItems_of_normal h)
  | .object _, ⟨hkeys, hlisting, hmembers⟩ => by
    rw [normalize, normalizeMembers_of_normal hmembers, record_of_normal hkeys hlisting]

/-- Nor does normalizing items. -/
theorem normalizeItems_of_normal : ∀ {items : List Json}, NormalItems items →
    normalizeItems items = items
  | [], _ => rfl
  | _ :: _, ⟨h, hrest⟩ => by
    rw [normalizeItems, normalize_of_normal h, normalizeItems_of_normal hrest]

/-- Nor does normalizing members. -/
theorem normalizeMembers_of_normal : ∀ {members : List (Text × Json)}, NormalMembers members →
    normalizeMembers members = members
  | [], _ => rfl
  | (_, _) :: _, ⟨h, hrest⟩ => by
    rw [normalizeMembers, normalize_of_normal h, normalizeMembers_of_normal hrest]

end

/-- Normalizing keeps the keys of members. -/
theorem keys_normalizeMembers (members : List (Text × Json)) :
    Entries.keys (normalizeMembers members) = Entries.keys members := by
  induction members with
  | nil => rfl
  | cons e rest ih => exact congrArg (e.1 :: ·) ih

end Json

namespace Document

/-- The members of a document are those of the object read, each normalized. -/
theorem read_of_entries {t : Text} {members : List (Text × Json)} (h : entries t = .ok members) :
    ∃ raw, Json.read t = .ok (.object raw) ∧ members = Json.normalizeMembers raw := by
  unfold entries Document.members at h
  cases hread : Json.read t with
  | error flaw =>
    rw [hread] at h
    cases h
  | ok root =>
    rw [hread] at h
    cases root with
    | object raw =>
      cases h
      exact ⟨raw, rfl, rfl⟩
    | _ => cases h

/-- The members of a document have normal values. -/
theorem normal_of_entries {t : Text} {members : List (Text × Json)} (h : entries t = .ok members) :
    Json.NormalMembers members := by
  obtain ⟨raw, -, rfl⟩ := read_of_entries h
  exact Json.normalizeMembers_normal raw

end Document

end TypedReads
