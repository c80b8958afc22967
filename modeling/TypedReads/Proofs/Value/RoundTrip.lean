import TypedReads.Proofs.Value.Encoding
import TypedReads.Proofs.Value.Texts

/-!
# Decoding undoes encoding

The text of a container with entries is a document, and its members are the entries of the container
with canonical values, under the same keys and in the same order, whatever the width of the indentation
(`Store.entries_of_encodeText`).
-/

namespace TypedReads

namespace Store

variable {s : Store}

/-- The text of a container with entries, at any width, is a document whose members are the entries in
canonical form. -/
theorem entries_of_encodeText {r : Ref} {o : Object} {es : List (Value × Value)}
    (hr : s.get? r = some o) (ho : s.contents o = .entries es) {width₀ : Double} {t₀ : Text}
    (h : s.encodeText (.object r) width₀ = .ok t₀) :
    ∃ members, s.CanonicalEntries es members ∧
      ∀ width t, s.encodeText (.object r) width = .ok t → Document.entries t = .ok members := by
  obtain ⟨j, -, hj, -⟩ := encode_of_encodeText h
  obtain ⟨members, rfl, -, hmembers⟩ := encodeWithin_entries hr ho hj
  obtain ⟨hfinite, hcanonical⟩ := canonicalEntries_of_forall₂
    (fun hv => canonical_of_encodeWithin s [r] hv) hmembers
  refine ⟨_, hcanonical, fun width t ht => ?_⟩
  -- Another width changes the layout, not what is laid out.
  obtain ⟨j', indent, hj', rfl⟩ := encode_of_encodeText ht
  rw [hj] at hj'
  cases hj'
  exact Document.entries_write hfinite indent

/-- A map with an integer that no double is safe for and an array. -/
def ledger : Store :=
  ⟨#[.ofItems [.null, .text (units "x")],
    .map [(.text (units "id"), .integer 9007199254740993), (.text (units "tags"), .object 0)]], 0⟩

/-- What is encoded of it. -/
theorem encode_ledger :
    ledger.encode (.object 1) = .ok (.object [(units "id", .integer 9007199254740993),
      (units "tags", .array [.null, .text (units "x")])]) := by
  have harray : ledger.encodeWithin [1] (.object 0) = .ok (.array [.null, .text (units "x")]) := by
    rw [encodeWithin_object (o := .ofItems [.null, .text (units "x")]) rfl]
    simp [contents, encodeItems, encodeWithin_leaf, encodeLeaf, Except.map]
  unfold encode
  rw [encodeWithin_object (o := .map [(.text (units "id"), .integer 9007199254740993),
    (.text (units "tags"), .object 0)]) rfl]
  simp [contents, encodeEntries, encodeWithin_leaf, encodeLeaf, harray, Except.map]

/-- The text of the map, at any width, lists its keys with the values they had. -/
theorem entries_of_ledger :
    (∃ t, ledger.encodeText (.object 1) (.ofInt 2) = .ok t) ∧
      ∀ width t, ledger.encodeText (.object 1) width = .ok t →
        Document.entries t = .ok [(units "id", .integer 9007199254740993),
          (units "tags", .array [.null, .text (units "x")])] := by
  have htext : ledger.encodeText (.object 1) (.ofInt 2) = .ok (Json.write 2
      (.object [(units "id", .integer 9007199254740993),
        (units "tags", .array [.null, .text (units "x")])])) := by
    have htrunc : (Double.ofInt 2).trunc? = some 2 :=
      Double.trunc?_of_toInt? (Double.toInt?_ofInt (by decide))
    unfold encodeText toJson
    rw [encode_ledger]
    dsimp only
    rw [spacesOf_of_trunc? htrunc (by decide)]
    rfl
  obtain ⟨members, hmembers, hread⟩ := entries_of_encodeText (s := ledger) (r := 1) rfl rfl htext
  have harray : ledger.Canonical (.object 0) (.array [.null, .text (units "x")]) :=
    .array rfl (.cons .null (.cons (.text _) .nil))
  have hsame := hmembers.unique
    (.cons (.long (by decide) (by decide)) (.cons harray .nil))
  subst hsame
  exact ⟨⟨_, htext⟩, hread⟩

end Store

end TypedReads
