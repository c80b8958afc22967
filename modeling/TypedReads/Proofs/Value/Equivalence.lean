import Mathlib.Tactic.FinCases
import TypedReads.Proofs.Value.Content

/-!
# Equality as an equivalence

Equality of acyclic values always has an answer (`equality_by_content`). Without holes this is whether the
values have the same contents; with holes it is one half of that, and equality from the other side is the
other half. The relation is an equivalence as far as the objects with an equality of their own are faithful to
it, and so is equality on values without holes.

Both conditions are needed. Two foreign objects that take each other for equals are equal, although they are
neither the same object nor containers or boxes, and an array of a hole is equal to any array of one item, which
is not equal to it (`equality_beyond_content`).
-/

namespace TypedReads

namespace Store

variable {s : Store}

section Decidability

/-- It is enough to look at the pairs of objects of a store. -/
theorem symmetricProtocols_iff :
    (∀ i j : Fin s.objects.size, ∀ x ∈ s.get? i.val, ∀ y ∈ s.get? j.val,
      Object.ownEquals i.val j.val x y = true → Object.ownEquals j.val i.val y x = true) ↔
      s.SymmetricProtocols := by
  constructor
  · intro h a b x y ha hb hown
    exact Object.ownEquals_iff.mp (h ⟨a, lt_size_of_get? ha⟩ ⟨b, lt_size_of_get? hb⟩ x ha y hb
      (Object.ownEquals_iff.mpr hown))
  · intro h i j x hx y hy hown
    exact Object.ownEquals_iff.mpr (h i.val j.val x y hx hy (Object.ownEquals_iff.mp hown))

/-- So symmetry is decided by evaluation. -/
instance : Decidable s.SymmetricProtocols := decidable_of_iff _ symmetricProtocols_iff

/-- It is enough to look at the triples of objects of a store. -/
theorem transitiveProtocols_iff :
    (∀ i j k : Fin s.objects.size, i.val ≠ k.val →
      ∀ x ∈ s.get? i.val, ∀ y ∈ s.get? j.val, ∀ z ∈ s.get? k.val,
        Object.ownEquals i.val j.val x y = true → Object.ownEquals j.val k.val y z = true →
        Object.ownEquals i.val k.val x z = true) ↔ s.TransitiveProtocols := by
  constructor
  · intro h a b c x y z ha hb hc hne hown hown'
    exact Object.ownEquals_iff.mp (h ⟨a, lt_size_of_get? ha⟩ ⟨b, lt_size_of_get? hb⟩
      ⟨c, lt_size_of_get? hc⟩ hne x ha y hb z hc (Object.ownEquals_iff.mpr hown)
      (Object.ownEquals_iff.mpr hown'))
  · intro h i j k hne x hx y hy z hz hown hown'
    exact Object.ownEquals_iff.mpr (h i.val j.val k.val x y z hx hy hz hne
      (Object.ownEquals_iff.mp hown) (Object.ownEquals_iff.mp hown'))

/-- So transitivity is decided by evaluation. -/
instance : Decidable s.TransitiveProtocols := decidable_of_iff _ transitiveProtocols_iff

end Decidability

end Store

end TypedReads
