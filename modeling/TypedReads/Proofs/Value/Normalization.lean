import TypedReads.Proofs.Json.SameContent
import TypedReads.Proofs.Value.EqualDocuments
import TypedReads.Proofs.Value.FirstOffence

/-!
# Normalizing and encoding

A value is normalized by encoding it and putting the JSON value into normal form. The form does not
depend on when it is made: a value put into normal form before it is written and read is the same as one
put into it afterwards (`Json.reread_normalize`). So the normal form of a value, loaded as a value again,
normalizes to itself and has a text that denotes what the text of the value denotes, although the two
texts list the members in different orders (`normalization_projects`).
-/

namespace TypedReads

namespace Json

/-- Members are reread one by one. -/
theorem rereadMembers_eq_map (members : List (Text × Json)) :
    rereadMembers members = members.map fun e => (e.1, e.2.reread) := by
  induction members with
  | nil => rfl
  | cons e members ih => exact congrArg ((e.1, e.2.reread) :: ·) ih

/-- Neither merging nor listing looks at the values that rereading changes. -/
theorem reread_record (members : List (Text × Json)) :
    (record members).reread = record (rereadMembers members) := by
  unfold record
  rw [reread, rereadMembers_eq_map, rereadMembers_eq_map, Entries.ofPairs_map, Entries.listing_map]

mutual

/-- Rereading a normalized value is normalizing the reread one. -/
theorem reread_normalize : ∀ j : Json, j.normalize.reread = j.reread.normalize
  | .null | .bool _ | .text _ => rfl
  | .number x => by rw [normalize, reread, Double.normalize_canonical] <;> nofun
  | .integer n => by
    unfold normalize reread
    split_ifs <;> rfl
  | .array items => congrArg Json.array (rereadItems_normalizeItems items)
  | .object members => by
    rw [normalize, reread_record, rereadMembers_normalizeMembers, reread, normalize]

/-- Items may be normalized before they are read again, or after. -/
theorem rereadItems_normalizeItems : ∀ items : List Json,
    rereadItems (normalizeItems items) = normalizeItems (rereadItems items)
  | [] => rfl
  | j :: rest => congrArg₂ List.cons (reread_normalize j) (rereadItems_normalizeItems rest)

/-- So may members. -/
theorem rereadMembers_normalizeMembers : ∀ members : List (Text × Json),
    rereadMembers (normalizeMembers members) = normalizeMembers (rereadMembers members)
  | [] => rfl
  | (key, j) :: rest =>
    congrArg₂ List.cons (congrArg (key, ·) (reread_normalize j)) (rereadMembers_normalizeMembers rest)

end

/-- What a normalized value is read back as is what the value itself is read back as. -/
theorem normalize_reread_normalize (j : Json) :
    j.normalize.reread.normalize = j.reread.normalize := by
  rw [reread_normalize, normalize_of_normal (normalize_normal _)]

/-- Only an object is normalized to one. -/
theorem object_of_normalize {j : Json} {members : List (Text × Json)}
    (h : j.normalize = .object members) : ∃ raw, j = .object raw := by
  cases j with
  | object raw => exact ⟨raw, rfl⟩
  | _ => cases h

end Json

namespace Store

variable {s : Store} {v : Value} {j : Json} {width : Double} {indent : ℕ}

/-- No value without parts is encoded as an object. -/
theorem encodeLeaf_ne_object {members : List (Text × Json)} :
    encodeLeaf v ≠ .ok (.object members) := by
  intro h
  cases v with
  | number x =>
    unfold encodeLeaf at h
    dsimp only at h
    split_ifs at h
    cases h
  | _ => cases h

/-- Encoded entries keep their keys, which are texts. -/
theorem keys_of_encoded {encode : Value → Except Obstacle Json} {es : List (Value × Value)}
    {members : List (Text × Json)}
    (h : List.Forall₂ (fun e m => e.1 = .text m.1 ∧ encode e.2 = .ok m.2) es members) :
    Entries.keys es = (Entries.keys members).map .text := by
  have hkeys := Entries.keys_of_forall₂ (f := fun m : Text × Json => Value.text m.1)
    (R := fun m e => encode e.2 = .ok m.2) h.flip
  rw [hkeys, Entries.keys, List.map_map]
  rfl

/-- Only a container with keys is encoded as an object, with its keys in order. -/
theorem keys_of_encode_object {members : List (Text × Json)} (h : s.encode v = .ok (.object members)) :
    ∃ r o es, v = .object r ∧ s.get? r = some o ∧ s.contents o = .entries es ∧
      Entries.keys es = (Entries.keys members).map .text := by
  by_cases hobject : ∃ r, v = .object r
  swap
  · rw [encode, encodeWithin_leaf fun r hv => hobject ⟨r, hv⟩] at h
    exact absurd h encodeLeaf_ne_object
  obtain ⟨r, rfl⟩ := hobject
  obtain ⟨o, hr⟩ := get?_of_encodeWithin h
  cases ho : s.contents o with
  | leaf v =>
    rw [encode, encodeWithin_object hr, ho] at h
    exact absurd h encodeLeaf_ne_object
  | none cause =>
    rw [encode, encodeWithin_object hr, ho] at h
    cases h
  | items vs =>
    obtain ⟨js, hjs, -⟩ := encodeWithin_items hr ho h
    cases hjs
  | entries es =>
    obtain ⟨members', hmembers', -, hes⟩ := encodeWithin_entries hr ho h
    cases hmembers'
    exact ⟨r, o, es, rfl, hr, ho, keys_of_encoded hes⟩

/-- A normal and finite JSON value is encoded as itself where it is loaded. -/
theorem encode_load (u : Store) (hnormal : j.Normal) (hfinite : j.Finite) :
    (u.load j).2.encode (u.load j).1 = .ok j := by
  obtain ⟨-, -, hloaded⟩ := u.load_represents j
  exact encodeWithin_represents hloaded hnormal hfinite fun a ha => absurd ha List.not_mem_nil

end Store

/-- Normalizing is a projection, and compatible with texts. A value is refused by both or by neither, with
the same path and message, and at a width that there is indentation of both fail alike. What a value is
normalized to has each key once and in listing order, at every depth, and normalizes to itself wherever it
is loaded. If it is an object, the value is a container with keys, and both have texts at every such width:
the one lists the keys of the container in order and the other those of the normal form, but they denote
one object. -/
theorem normalization_projects (s : Store) (v : Value) :
    (∀ e width, s.normalize v = .error (.refused e) ↔ s.encodeText v width = .error (.refused e)) ∧
    (∀ e width indent, spacesOf width = .ok indent →
      (s.normalize v = .error e ↔ s.encodeText v width = .error e)) ∧
    ∀ j, s.normalize v = .ok j → j.Normal ∧
      (∀ u : Store, (u.load j).2.normalize (u.load j).1 = .ok j) ∧
      ∀ listed, j = .object listed →
        ∃ r o es, v = .object r ∧ s.get? r = some o ∧ s.contents o = .entries es ∧
          ∀ (u : Store) (width width' : Double) (indent indent' : ℕ), spacesOf width = .ok indent →
            spacesOf width' = .ok indent' →
            ∃ t t' members members' d,
              s.encodeText v width = .ok t ∧ (u.load j).2.encodeText (u.load j).1 width' = .ok t' ∧
              Document.entries t = .ok members ∧
              (Entries.keys members).map Value.text = Entries.keys es ∧
              Document.entries t' = .ok members' ∧ Entries.keys members' = Entries.keys listed ∧
              Document.object t = .ok d ∧ Document.object t' = .ok d := by
  refine ⟨fun e width => ?_, fun e width indent hwidth => Store.normalize_eq_error_iff hwidth e, ?_⟩
  -- Both are refused by what the walk meets.
  · rw [Store.normalize_refused_iff, Store.encodeText_refused_iff]
  · intro j hj
    obtain ⟨raw, hraw, rfl⟩ := Store.normalize_eq_ok_iff.mp hj
    obtain ⟨hfinite, -⟩ := Store.canonical_of_encodeWithin s [] hraw
    have hfinite' : raw.normalize.Finite := hfinite.normalize
    have hnormal := Json.normalize_normal raw
    -- The normal form has finite numbers only, so that it is encoded as itself once it is loaded.
    have hloaded (u : Store) := Store.encode_load u hnormal hfinite'
    refine ⟨hnormal, fun u => ?_, fun listed hlisted => ?_⟩
    · exact Store.normalize_eq_ok_iff.mpr ⟨_, hloaded u, Json.normalize_of_normal hnormal⟩
    · -- Both texts are layouts of objects, one of what the value is encoded as and one of its normal form.
      obtain ⟨members, rfl⟩ := Json.object_of_normalize hlisted
      obtain ⟨r, o, es, hv, hr, ho, hkeys⟩ := Store.keys_of_encode_object hraw
      refine ⟨r, o, es, hv, hr, ho, fun u width width' indent indent' hwidth hwidth' => ?_⟩
      have ht := Store.encodeText_of_encode hraw hwidth
      have ht' := Store.encodeText_of_encode (hloaded u) hwidth'
      have hentries := Document.entries_write (show Json.FiniteMembers members from hfinite) indent
      have hsame := Json.normalize_reread_normalize (.object members)
      rw [hlisted] at hfinite' hsame ht'
      have hentries' := Document.entries_write (show Json.FiniteMembers listed from hfinite') indent'
      refine ⟨_, _, _, _, (Json.object members).reread.normalize, ht, hlisted ▸ ht', hentries, ?_,
        hentries', ?_, ?_, ?_⟩
      -- Reading again keeps the keys of either text in their order.
      · rw [Json.keys_normalizeMembers, Json.keys_rereadMembers, hkeys]
      · rw [Json.keys_normalizeMembers, Json.keys_rereadMembers]
      -- The object of either text is the normal form of what is read again.
      · unfold Document.object
        rw [hentries]
        rfl
      · unfold Document.object
        rw [hentries', ← hsame]
        rfl

/-- A map whose second key is an array index, with a boxed character. -/
def shelf : Store :=
  ⟨#[.charBox (units "x"), .map [(.text (units "b"), .object 0), (.text (units "1"), .null)]], 0⟩

/-- What it is normalized to. -/
theorem normalize_shelf : shelf.normalize (.object 1) =
    .ok (.object [(units "1", .null), (units "b", .text (units "x"))]) := by
  have hbox : shelf.encodeWithin [1] (.object 0) = .ok (.text (units "x")) := by
    rw [Store.encodeWithin_object (o := .charBox (units "x")) rfl]
    rfl
  have hmap : shelf.encode (.object 1) =
      .ok (.object [(units "b", .text (units "x")), (units "1", .null)]) := by
    unfold Store.encode
    rw [Store.encodeWithin_object (o := .map [(.text (units "b"), .object 0),
      (.text (units "1"), .null)]) rfl]
    simp [Store.contents, Store.encodeEntries, Store.encodeWithin_leaf, Store.encodeLeaf, hbox,
      Except.map]
  have hb : indexKey? (units "b") = none := by decide
  have hone : indexKey? (units "1") = some 1 := by decide +kernel
  refine Store.normalize_eq_ok_iff.mpr ⟨_, hmap, ?_⟩
  simp +decide [Json.normalize, Json.normalizeMembers, Json.record, Entries.listing, Entries.ofPairs,
    Entries.putAll, Entries.put, hb, hone]

/-- The map and its normal form have different texts, which denote one object. -/
theorem shelf_normalized :
    shelf.normalize (.object 1) =
      .ok (.object [(units "1", .null), (units "b", .text (units "x"))]) ∧
    spacesOf (.ofInt 0) = .ok 0 ∧
    ∃ t t' d, t ≠ t' ∧ shelf.encodeText (.object 1) (.ofInt 0) = .ok t ∧
      (shelf.load (.object [(units "1", .null), (units "b", .text (units "x"))])).2.encodeText
        (shelf.load (.object [(units "1", .null), (units "b", .text (units "x"))])).1 (.ofInt 0) =
          .ok t' ∧
      Document.object t = .ok d ∧ Document.object t' = .ok d := by
  have hspaces : spacesOf (.ofInt 0) = .ok 0 := spacesOf_ofInt (by decide)
  obtain ⟨-, -, hnormalized⟩ := normalization_projects shelf (.object 1)
  obtain ⟨-, -, htexts⟩ := hnormalized _ normalize_shelf
  obtain ⟨r, o, es, hv, hr, ho, hdocuments⟩ := htexts _ rfl
  cases hv
  cases hr
  cases ho
  obtain ⟨t, t', members, members', d, ht, ht', hentries, hkeys, hentries', hkeys', hd, hd'⟩ :=
    hdocuments shelf _ _ _ _ hspaces hspaces
  refine ⟨normalize_shelf, hspaces, t, t', d, ?_, ht, ht', hd, hd'⟩
  -- The texts list their keys in different orders.
  rintro rfl
  rw [hentries, Except.ok.injEq] at hentries'
  rw [hentries', hkeys'] at hkeys
  revert hkeys
  decide

end TypedReads
