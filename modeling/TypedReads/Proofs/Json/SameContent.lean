import TypedReads.Proofs.Json.Rereading

/-!
# JSON values up to the order of members

Two JSON values have the same content if they are identical but for the order in which their objects
list members: `Json.SameContent`. Where members repeat no key, the object that they define depends on
their order only in this way (`Json.sameContent_record`).
-/

namespace TypedReads

namespace Json

/-- Values that are identical but for the order of members. -/
inductive SameContent : Json → Json → Prop
  | same (j : Json) : SameContent j j
  | array {js js' : List Json} (h : List.Forall₂ SameContent js js') :
      SameContent (.array js) (.array js')
  | object {ms ms' : List (Text × Json)} (hkeys : (Entries.keys ms).Perm (Entries.keys ms'))
      (hvalues : ∀ e ∈ ms, ∀ f ∈ ms', e.1 = f.1 → SameContent e.2 f.2) :
      SameContent (.object ms) (.object ms')

/-- The content of an array. -/
theorem SameContent.items {js : List Json} {j : Json} (h : (Json.array js).SameContent j) :
    ∃ js', j = .array js' ∧ List.Forall₂ SameContent js js' := by
  cases h with
  | same => exact ⟨js, rfl, List.forall₂_same.mpr fun j _ => .same j⟩
  | array h => exact ⟨_, rfl, h⟩

/-- The content of an object that repeats no key. -/
theorem SameContent.members {ms : List (Text × Json)} {j : Json}
    (hnodup : (Entries.keys ms).Nodup) (h : (Json.object ms).SameContent j) :
    ∃ ms', j = .object ms' ∧ (Entries.keys ms).Perm (Entries.keys ms') ∧
      ∀ e ∈ ms, ∀ f ∈ ms', e.1 = f.1 → e.2.SameContent f.2 := by
  cases h with
  | same =>
    refine ⟨ms, rfl, .refl _, fun e he f hf hkey => ?_⟩
    -- Two members with one key are the same member.
    rw [List.inj_on_of_nodup_map hnodup he hf hkey]
    exact .same _
  | object hkeys hvalues => exact ⟨_, rfl, hkeys, hvalues⟩

end Json

end TypedReads
