import TypedReads.Adapter.Content
import TypedReads.Proofs.Value.Loading

/-!
# Adapters on documents

Opening a document gives an adapter on a new map. Its entries are what the members of the document
leave when they are written one after the other, each key with a value that represents what its last
member denotes (`Store.openDocument_ok`). What an adapter answers for a key is a read of the value
that is stored there (`Store.read_of_entry`), and nothing if there is none.
-/

namespace TypedReads

namespace Store

/-- A map entry that represents a member. -/
abbrev RepresentsEntry (s : Store) (bound : Ref) : Text × Json → Value × Value → Prop :=
  Entries.Corresponds Value.text fun j v => Represents s bound v j

/-- An adapter in a store whose map has an entry for each of the given members, in order. -/
structure Opened (s : Store) (a : Adapter) (members : Entries Text Json) : Prop where
  /-- The map. -/
  backing : s.get? a.backing = some (.map (a.entries s))
  /-- Its entries. -/
  entries : List.Forall₂ (RepresentsEntry s a.backing) members (a.entries s)

/-- Values that represent members, as the pairs of a map. -/
theorem RepresentsMembers.pairs {s : Store} {bound : Ref} {es : List (Text × Value)}
    {members : List (Text × Json)} (h : RepresentsMembers s bound es members) :
    List.Forall₂ (RepresentsEntry s bound) members
      (es.map fun e => (Value.text e.1, e.2)) := by
  rw [List.forall₂_map_right_iff]
  refine h.forall₂.imp fun member e he => ?_
  exact ⟨congrArg Value.text he.1, he.2⟩

/-- A new map and an adapter on it. -/
theorem openMap_opened {s : Store} {es : Entries Value Value} {members : Entries Text Json}
    (h : List.Forall₂ (RepresentsEntry s s.size) members es) (narrowing : Narrowing) :
    ∃ a, (s.openMap es narrowing).2.adapter? (s.openMap es narrowing).1 = some a ∧
      a.narrowing = narrowing ∧ (s.openMap es narrowing).2.Opened a members ∧
      s.Extends (s.openMap es narrowing).2 := by
  have hmap := s.extends_alloc (.map es)
  have hadapter := (s.alloc (.map es)).2.extends_alloc (.adapter ⟨s.size, narrowing⟩)
  have hbacking := hadapter _ _ (s.get?_alloc (.map es))
  have hentries : Adapter.entries ⟨s.size, narrowing⟩ (s.openMap es narrowing).2 = es := by
    unfold Adapter.entries entriesAt
    rw [show (s.openMap es narrowing).2.get? s.size = some (.map es) from hbacking]
  refine ⟨⟨s.size, narrowing⟩, ?_, rfl, ⟨?_, ?_⟩, hmap.trans hadapter⟩
  · unfold adapter?
    rw [show (s.openMap es narrowing).2.get? (s.openMap es narrowing).1 =
      some (.adapter ⟨s.size, narrowing⟩) from (s.alloc (.map es)).2.get?_alloc _]
  · rw [hentries]
    exact hbacking
  · rw [hentries]
    exact h.imp fun member e he => ⟨he.1, he.2.mono (hmap.trans hadapter) le_rfl⟩

/-- A document that can be read is opened, on the entries that its members leave. -/
theorem openDocument_ok (s : Store) {t : Text} {members : List (Text × Json)}
    (h : Document.entries t = .ok members) (narrowing : Narrowing) :
    ∃ r s' a, s.openDocument t narrowing = .ok (r, s') ∧ s'.adapter? r = some a ∧
      a.narrowing = narrowing ∧ s'.Opened a (Entries.ofPairs members) ∧ s.Extends s' := by
  obtain ⟨hext, -, hmembers⟩ := loadMembers_represents s members
  have hpairs := Entries.forall₂_ofPairs Value.text_injective hmembers.pairs
  obtain ⟨a, hadapter, hmode, hopened, hext'⟩ := openMap_opened hpairs narrowing
  refine ⟨_, _, a, ?_, hadapter, hmode, hopened, hext.trans hext'⟩
  unfold openDocument
  rw [h]

/-- What was opened is a document, under an adapter of the mode asked for. -/
theorem exists_adapter_of_openDocument {s₀ s : Store} {t : Text} {mode : Narrowing} {r : Ref}
    (hopen : s₀.openDocument t mode = .ok (r, s)) :
    ∃ members a, Document.entries t = .ok members ∧ s.adapter? r = some a ∧ a.narrowing = mode ∧
      s.Opened a (Entries.ofPairs members) := by
  cases hentries : Document.entries t with
  | error e =>
    unfold openDocument at hopen
    rw [hentries] at hopen
    cases hopen
  | ok members =>
    obtain ⟨r', s', a, hopen', ha, hmode, hopened, -⟩ := s₀.openDocument_ok hentries mode
    rw [hopen] at hopen'
    cases hopen'
    exact ⟨members, a, rfl, ha, hmode, hopened⟩

/-- The adapter holds what the members of the document leave. -/
theorem entries_of_openDocument {s₀ s : Store} {t : Text} {mode : Narrowing} {r : Ref} {a : Adapter}
    (hopen : s₀.openDocument t mode = .ok (r, s)) (ha : s.adapter? r = some a) :
    ∃ members, Document.entries t = .ok members ∧ a.narrowing = mode ∧
      s.Opened a (Entries.ofPairs members) := by
  obtain ⟨members, a', hentries, ha', hmode, hopened⟩ := exists_adapter_of_openDocument hopen
  rw [ha] at ha'
  cases ha'
  exact ⟨members, hentries, hmode, hopened⟩

end Store

namespace Adapter

/-- The value under a key of an opened document represents the member of that key. -/
theorem get?_opened {a : Adapter} {s : Store} {members : Entries Text Json}
    (h : s.Opened a members) {key : Text} {j : Json} (hkey : members.get? key = some j) :
    ∃ v, (a.entries s).get? (.text key) = some v ∧ s.Represents a.backing v j := by
  have hrel := Entries.get?_of_forall₂ Value.text_injective h.entries key
  rw [hkey] at hrel
  generalize (a.entries s).get? (.text key) = found at hrel
  cases hrel with
  | some hv => exact ⟨_, rfl, hv⟩

end Adapter

namespace Store

section Reads

variable {s : Store} {a : Adapter}

/-- What counts as absent is read as nothing. -/
theorem read_of_isNullish {v : Value} (h : v.isNullish = true) (target : Target)
    (mode : Narrowing) : s.read target v mode = .ok none := by
  have habsent : Scalar.classify s v = .absent := by
    cases v with
    | null => rfl
    | undefined => rfl
    | _ => cases h
  unfold read readIntegral readFloating readChar readBoolean readString
  rw [habsent]
  cases target <;> rfl

/-- A key is read as the value stored under it. -/
theorem read_of_entry {key : Text} {v : Value} (hv : (a.entries s).get? (.text key) = some v)
    (target : Target) : a.read s target key = s.read target v a.narrowing := by
  unfold Adapter.read Adapter.get? Adapter.lookup
  rw [hv, Option.filter_some]
  cases hnullish : v.isNullish with
  | true => exact (read_of_isNullish hnullish target a.narrowing).symm
  | false => rfl

/-- A value that is there is found under its key. -/
theorem get?_of_entry {key : Text} {v : Value} (hv : (a.entries s).get? (.text key) = some v)
    (hpresent : v.isNullish = false) : a.get? s key = some v := by
  unfold Adapter.get? Adapter.lookup
  rw [hv, Option.filter_some, hpresent]
  rfl

/-- A value that a read finds under a key is what is stored there. -/
theorem entry_of_get? {key : Text} {v w : Value} (hv : (a.entries s).get? (.text key) = some v)
    (hw : a.get? s key = some w) : v = w := by
  unfold Adapter.get? Adapter.lookup at hw
  rw [hv] at hw
  exact Option.some.inj (Option.filter_eq_some_iff.mp hw).1

variable {members : Entries Text Json}

/-- The keys of an opened document are those of its members. -/
theorem Opened.keys (h : s.Opened a members) : a.keys s = members.keys.map Value.text := by
  unfold Entries.keys
  rw [List.map_map]
  exact Entries.keys_of_forall₂ h.entries

/-- A number of an opened document is found under its key. -/
theorem Opened.get?_number (h : s.Opened a members) {key : Text} {x : Double}
    (hkey : members.get? key = some (.number x)) : a.get? s key = some (.number x) := by
  obtain ⟨v, hv, hrep⟩ := Adapter.get?_opened h hkey
  cases hrep
  exact get?_of_entry hv rfl

/-- A key that no member has is read as nothing. -/
theorem Opened.read_none (h : s.Opened a members) {key : Text} (hkey : members.get? key = none)
    (target : Target) : a.get? s key = none ∧ a.read s target key = .ok none := by
  have hrel := Entries.get?_of_forall₂ Value.text_injective h.entries key
  rw [hkey] at hrel
  have hnone : (a.entries s).get? (.text key) = none := by
    generalize (a.entries s).get? (.text key) = found at hrel
    cases hrel
    rfl
  have hget : a.get? s key = none := by
    unfold Adapter.get? Adapter.lookup
    rw [hnone]
    rfl
  unfold Adapter.read
  rw [hget]
  exact ⟨rfl, rfl⟩

end Reads

end Store

end TypedReads
