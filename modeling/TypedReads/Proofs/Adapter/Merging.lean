import TypedReads.Proofs.Adapter.Opening
import TypedReads.Proofs.Json.Decoding
import TypedReads.Proofs.Json.Overflow
import TypedReads.Proofs.Json.Written

/-!
# Members of a document, merged and listed

A document is opened as a map and denotes an object. Both start from one merge of its members: each key
stands at its first place with the value of its last member (`Tree.Merges`). The map keeps this order, and
the object lists array indices in front (`Entries.Lists`). Within the document every object is merged and
listed in the same way (`Tree.denotes_object_iff`), whichever of the two it is in
(`map_and_object_of_document`).
-/

namespace TypedReads

/-- Where a list is in the order of a relation, what is found earlier is related to what is found later. -/
theorem rel_of_idxOf_lt {α : Type} [BEq α] [LawfulBEq α] {R : α → α → Prop} {l : List α}
    (h : l.Pairwise R) {a b : α} (hb : b ∈ l) (hlt : l.idxOf a < l.idxOf b) : R a b := by
  have hlength := List.idxOf_lt_length_iff.mpr hb
  have hrel := List.pairwise_iff_getElem.mp h _ _ (hlt.trans hlength) hlength hlt
  rwa [List.getElem_idxOf, List.getElem_idxOf] at hrel

/-- Without repetitions a list is in the order in which its elements are found. -/
theorem pairwise_idxOf {α : Type} [BEq α] [LawfulBEq α] {l : List α} (h : l.Nodup) :
    l.Pairwise fun a b => l.idxOf a < l.idxOf b := by
  refine List.pairwise_iff_getElem.mpr fun i j hi hj hlt => ?_
  rw [h.idxOf_getElem i hi, h.idxOf_getElem j hj]
  exact hlt

/-- What precedes with respect to some names does so with respect to others, if the order in which two
keys are found among the ones is that among the others. -/
theorem Precedes.of_idxOf {names names' : List Text} {a b : Text} (h : Precedes names a b)
    (hnames : names.idxOf a < names.idxOf b → names'.idxOf a < names'.idxOf b) :
    Precedes names' a b :=
  h.imp_right fun h => h.imp_right fun ⟨ha, hb, hlt⟩ => ⟨ha, hb, hnames hlt⟩

namespace Entries

variable {ν : Type}

/-- Entries in listing order: the same ones, those with array-index keys first and ascending, and the
others in their order. -/
structure Lists (es listed : Entries Text ν) : Prop where
  perm : listed.Perm es
  order : listed.keys.Pairwise (Precedes es.keys)

/-- Listing puts entries that repeat no key into listing order. -/
theorem lists_listing {es : Entries Text ν} (h : es.keys.Nodup) : es.Lists es.listing :=
  ⟨es.listing_perm, listing_precedes h (pairwise_idxOf h)⟩

end Entries

namespace Tree

/-- What the members of an object leave once they are merged: each key at the place of its first
occurrence, with the value that the last member of that key denotes. -/
structure Merges (members : List (Text × Tree)) (es : Entries Text Json) : Prop where
  keys : es.keys = (Entries.keys members).eraseDups
  values : ∀ key j, (key, j) ∈ es → ∃ tree, LastMember members key tree ∧ tree.Denotes j

variable {members : List (Text × Tree)} {es listed : Entries Text Json}

/-- Merged members have the keys that were written. -/
theorem Merges.mem_keys_iff (h : Merges members es) (key : Text) :
    key ∈ es.keys ↔ key ∈ Entries.keys members := by
  rw [h.keys, List.mem_eraseDups]

/-- Members that are written one after the other are merged. -/
theorem merges_ofPairs (members : List (Text × Tree)) :
    Merges members (Entries.ofPairs (Json.normalizeMembers (toJsonMembers members))) := by
  have hnames : Entries.keys (Json.normalizeMembers (toJsonMembers members)) = Entries.keys members := by
    rw [Json.keys_normalizeMembers, keys_toJsonMembers]
  have hkeys := Entries.keys_ofPairs_eq (Json.normalizeMembers (toJsonMembers members))
  rw [hnames] at hkeys
  refine ⟨hkeys, fun key j hentry => ?_⟩
  have hmem : key ∈ Entries.keys members := by
    rw [← List.mem_eraseDups, ← hkeys]
    exact List.mem_map_of_mem hentry
  obtain ⟨tree, before, after, rfl, hlast⟩ := exists_lastMember hmem
  refine ⟨tree, ⟨before, after, rfl, hlast⟩, ?_⟩
  -- The value that stays is the one that was written last.
  have hget := Document.get?_ofPairs_members before after tree hlast
  rw [(Entries.get?_eq_some_iff (Entries.nodup_keys_ofPairs _)).mpr hentry] at hget
  cases hget
  exact tree.denotes

/-- Keys in the order of merged members are in the order of the members. -/
theorem Merges.precedes (h : Merges members es) {a b : Text} (hb : b ∈ es.keys)
    (hab : Precedes es.keys a b) : Precedes (Entries.keys members) a b := by
  obtain ⟨-, horder⟩ := Entries.keys_ofPairs members
  rw [Entries.keys_ofPairs_eq, ← h.keys] at horder
  exact hab.of_idxOf (rel_of_idxOf_lt horder hb)

/-- An object stands for its members merged and then listed. -/
theorem denotes_object_iff {j : Json} : (Tree.object members).Denotes j ↔
    ∃ es listed, Merges members es ∧ es.Lists listed ∧ j = .object listed := by
  constructor
  · -- What an object stands for is unique, and it is built by merging and listing.
    intro h
    exact ⟨_, _, merges_ofPairs members, Entries.lists_listing (Entries.nodup_keys_ofPairs _),
      denotes_iff.mp h⟩
  · rintro ⟨es, listed, hmerges, hlists, rfl⟩
    have hkeys (key : Text) : key ∈ listed.keys ↔ key ∈ es.keys :=
      (hlists.perm.map Prod.fst).mem_iff
    refine .object (fun key => (hkeys key).trans (hmerges.mem_keys_iff key)) ?_ ?_
    · exact hlists.order.imp_of_mem fun _ hb hab => hmerges.precedes ((hkeys _).mp hb) hab
    · intro key j tree hentry hlast
      obtain ⟨tree', hlast', hdenotes⟩ := hmerges.values key j (hlists.perm.mem_iff.mp hentry)
      rwa [hlast.unique hlast']

end Tree

/-- A document opened as a map and the object that it denotes agree. Either both are there, or both fail
with the same error. The map has the names of the root members as keys in the order of first occurrence,
each with a value that represents what its last member denotes; the object has the same entries, listed
with the array indices in front. Every object within the document is merged and listed alike. -/
theorem map_and_object_of_document (s : Store) (t : Text) (mode : Narrowing) :
    (∀ e, s.openDocument t mode = .error e ↔ Document.object t = .error e) ∧
    (∀ j, Document.object t = .ok j →
      ∃ members r s' a es listed, DocumentText t (.object members) ∧
        s.openDocument t mode = .ok (r, s') ∧ s'.adapter? r = some a ∧ a.narrowing = mode ∧
        Tree.Merges members es ∧
        a.keys s' = (Entries.keys members).eraseDups.map .text ∧ s'.Opened a es ∧
        j = .object listed ∧ es.Lists listed) ∧
    ∀ members j, (Tree.object members).Denotes j ↔
      ∃ es listed, Tree.Merges members es ∧ es.Lists listed ∧ j = .object listed := by
  -- Both are made of the entries of the document, and fail where it has none.
  refine ⟨fun e => ?_, fun j hj => ?_, fun members j => Tree.denotes_object_iff⟩
  · unfold Store.openDocument Document.object
    cases Document.entries t with
    | error e' => exact ⟨fun h => by cases h; rfl, fun h => by cases h; rfl⟩
    | ok members => exact iff_of_false (fun h => by cases h) fun h => by cases h
  · unfold Document.object at hj
    cases hentries : Document.entries t with
    | error e =>
      rw [hentries] at hj
      cases hj
    | ok ms =>
      rw [hentries] at hj
      cases hj
      obtain ⟨members, htext, rfl⟩ := Document.exists_text_of_entries hentries
      obtain ⟨r, s', a, hopen, ha, hmode, hopened, -⟩ := s.openDocument_ok hentries mode
      have hmerges := Tree.merges_ofPairs members
      refine ⟨members, r, s', a, _, _, htext, hopen, ha, hmode, hmerges, ?_, hopened, rfl,
        Entries.lists_listing (Entries.nodup_keys_ofPairs _)⟩
      rw [← hmerges.keys]
      exact hopened.keys

/-- A document with a repeated key, an array index, the key `__proto__`, and the same within it. -/
def repeatingDocument : Text :=
  units "\x7b\"b\":null,\"__proto__\":\x7b\"x\":null,\"0\":true,\"x\":false\x7d,\"1\":[],\"b\":\"c\"\x7d"

/-- Its members as they are written. -/
def repeatingMembers : List (Text × Json) :=
  [(units "b", .null),
    (units "__proto__", .object
      [(units "x", .null), (units "0", .bool true), (units "x", .bool false)]),
    (units "1", .array []), (units "b", .text (units "c"))]

/-- The document is read with all its members. -/
theorem read_repeatingDocument : Json.read repeatingDocument = .ok (.object repeatingMembers) := by
  have hfinite : (Json.object repeatingMembers).Finite := by
    simp [repeatingMembers, Json.Finite, Json.Numbers, Json.NumbersMembers, Json.NumbersItems]
  have hread := Json.read_write hfinite 0
  rwa [show (Json.object repeatingMembers).write 0 = repeatingDocument by decide +kernel] at hread

/-- What the members are merged and listed as. -/
theorem normalize_repeatingMembers : (Json.object repeatingMembers).normalize = .object
    [(units "1", .array []), (units "b", .text (units "c")),
      (units "__proto__", .object [(units "0", .bool true), (units "x", .bool false)])] := by
  have hzero : indexKey? (units "0") = some 0 := by decide +kernel
  have hone : indexKey? (units "1") = some 1 := by decide +kernel
  have hb : indexKey? (units "b") = none := by decide
  have hproto : indexKey? (units "__proto__") = none := by decide
  have hx : indexKey? (units "x") = none := by decide
  simp +decide [repeatingMembers, Json.normalize, Json.normalizeMembers, Json.normalizeItems,
    Json.record, Entries.listing, Entries.ofPairs, Entries.putAll, Entries.put, hzero, hone, hb,
    hproto, hx]

/-- The map has its keys in the order of first occurrence, and the object the array index in front. -/
theorem repeatingDocument_merged :
    Document.object repeatingDocument = .ok (.object
      [(units "1", .array []), (units "b", .text (units "c")),
        (units "__proto__", .object [(units "0", .bool true), (units "x", .bool false)])]) ∧
    ∃ r s' a, Store.empty.openDocument repeatingDocument .strict = .ok (r, s') ∧
      s'.adapter? r = some a ∧
      a.keys s' = [.text (units "b"), .text (units "__proto__"), .text (units "1")] := by
  have hobject : Document.object repeatingDocument = .ok (Json.object repeatingMembers).normalize := by
    unfold Document.object Document.entries Document.members
    rw [read_repeatingDocument]
    rfl
  rw [normalize_repeatingMembers] at hobject
  obtain ⟨-, hopens, -⟩ := map_and_object_of_document Store.empty repeatingDocument .strict
  obtain ⟨members, r, s', a, es, listed, htext, hopen, ha, -, -, hkeys, -⟩ := hopens _ hobject
  refine ⟨hobject, r, s', a, hopen, ha, ?_⟩
  -- The tree of the text has the members that were read.
  have hread := htext.read
  rw [read_repeatingDocument, Except.ok.injEq] at hread
  have hnames := Tree.keys_toJsonMembers members
  rw [← Json.object.inj hread] at hnames
  rw [hkeys, ← hnames]
  decide

end TypedReads
