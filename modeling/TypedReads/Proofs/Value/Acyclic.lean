import Mathlib.Data.Fintype.EquivFin
import Mathlib.Logic.Relation
import Mathlib.Order.WellFounded
import TypedReads.Value.Encode

/-!
# Values without cycles

`Store.Part` relates a value to what it directly holds, keys of maps included, and `Store.Acyclic`
says that nothing within a value holds itself at any depth. A store is finite, so what is within an
acyclic value can be exhausted (`Acyclic.induction`): this is the induction by which every walk of
the store is understood, whatever guard against cycles the walk carries.
-/

namespace TypedReads

/-- Whether a value stands before a place, if it is an object. -/
def Value.before (v : Value) (bound : Ref) : Bool :=
  match v with
  | .object r => decide (r < bound)
  | _ => true

/-- The entries of a record, in the order in which they are listed. -/
def recordEntries (members : Entries Text Value) : List (Value × Value) :=
  members.listing.map fun e => (.text e.1, e.2)

namespace Store

/-- What an object directly holds. -/
def parts (s : Store) (o : Object) : List Value :=
  match s.contents o with
  | .items vs => vs
  | .entries es => es.flatMap fun e => [e.1, e.2]
  | _ => []

/-- An array without holes holds its items. -/
@[simp] theorem parts_ofItems (s : Store) (items : List Value) : s.parts (.ofItems items) = items :=
  slotItems_map_some items

/-- A value that another directly holds. -/
def Part (s : Store) (v part : Value) : Prop :=
  ∃ r o, v = .object r ∧ s.get? r = some o ∧ part ∈ s.parts o

/-- A value within another, or the same. -/
def Within (s : Store) : Value → Value → Prop := Relation.ReflTransGen s.Part

/-- A value in which nothing holds itself. -/
def Acyclic (s : Store) (v : Value) : Prop :=
  ∀ w, s.Within v w → ¬ Relation.TransGen s.Part w w

variable {s : Store}

/-- What an object at a place holds is part of a reference to it. -/
theorem Part.of_get? {r : Ref} {o : Object} (hr : s.get? r = some o) {part : Value}
    (h : part ∈ s.parts o) : s.Part (.object r) part :=
  ⟨r, o, rfl, hr, h⟩

/-- The key and the value of an entry are parts. -/
theorem mem_parts_of_entries {o : Object} {es : List (Value × Value)}
    (ho : s.contents o = .entries es) {e : Value × Value} (he : e ∈ es) :
    e.1 ∈ s.parts o ∧ e.2 ∈ s.parts o := by
  unfold parts
  rw [ho]
  exact ⟨List.mem_flatMap.mpr ⟨e, he, by simp⟩, List.mem_flatMap.mpr ⟨e, he, by simp⟩⟩

/-- A part of an object with entries is a key or a value of one of them. -/
theorem exists_entry_of_part {o : Object} {es : List (Value × Value)}
    (ho : s.contents o = .entries es) {part : Value} (hpart : part ∈ s.parts o) :
    ∃ e ∈ es, part = e.1 ∨ part = e.2 := by
  unfold parts at hpart
  rw [ho] at hpart
  obtain ⟨e, he, hpart⟩ := List.mem_flatMap.mp hpart
  exact ⟨e, he, List.mem_pair.mp hpart⟩

/-- The items of an array are its parts. -/
theorem mem_parts_of_items {o : Object} {vs : List Value} (ho : s.contents o = .items vs)
    {v : Value} (hv : v ∈ vs) : v ∈ s.parts o := by
  unfold parts
  rw [ho]
  exact hv

/-- And a part of the reference is held by the object. -/
theorem Part.mem_parts {r : Ref} {o : Object} (hr : s.get? r = some o) {part : Value}
    (h : s.Part (.object r) part) : part ∈ s.parts o := by
  obtain ⟨r', o', hplace, hr', hmem⟩ := h
  cases hplace
  rw [hr] at hr'
  cases hr'
  exact hmem

/-- What is no object holds nothing. -/
theorem not_part_of_primitive {v : Value} (h : ∀ r, v ≠ .object r) (part : Value) :
    ¬ s.Part v part := by
  rintro ⟨r, -, rfl, -⟩
  exact h r rfl

/-- A part of an acyclic value is acyclic. -/
theorem Acyclic.of_part {v part : Value} (h : s.Acyclic v) (hp : s.Part v part) :
    s.Acyclic part :=
  fun w hw => h w (hw.head hp)

/-- No part of an acyclic value holds it. -/
theorem Acyclic.not_within_part {v part : Value} (h : s.Acyclic v) (hp : s.Part v part) :
    ¬ s.Within part v := by
  intro hback
  exact h v .refl (Relation.TransGen.head' hp hback)

/-- Holding is well-founded within an acyclic value. -/
theorem Acyclic.acc {v : Value} (h : s.Acyclic v) : Acc (fun part v => s.Part v part) v := by
  -- The places within `v` are finitely many, and no place is within itself.
  let inner (b a : Fin s.size) : Prop :=
    s.Within v (.object a.val) ∧ Relation.TransGen s.Part (.object a.val) (.object b.val)
  have htrans : IsTrans (Fin s.size) inner :=
    ⟨fun a b c hab hbc => ⟨hbc.1, hbc.2.trans hab.2⟩⟩
  have hirrefl : Std.Irrefl inner := ⟨fun a ha => h _ ha.1 ha.2⟩
  have hwf : WellFounded inner := Finite.wellFounded_of_trans_of_irrefl inner
  -- What is no object has no parts.
  have hleaf : ∀ w : Value, (∀ r o, w = .object r → s.get? r ≠ some o) →
      Acc (fun part v => s.Part v part) w := by
    rintro w hw
    refine ⟨_, fun part hpart => ?_⟩
    obtain ⟨r, o, hwr, hr, -⟩ := hpart
    exact absurd hr (hw r o hwr)
  have hplace : ∀ a : Fin s.size, s.Within v (.object a.val) →
      Acc (fun part v => s.Part v part) (.object a.val) := by
    intro a
    induction a using hwf.induction with
    | h a ih =>
      intro ha
      refine ⟨_, fun part hpart => ?_⟩
      by_cases hobject : ∃ r o, part = .object r ∧ s.get? r = some o
      · obtain ⟨r, o, rfl, hr⟩ := hobject
        exact ih ⟨r, lt_size_of_get? hr⟩ ⟨ha, .single hpart⟩ (ha.tail hpart)
      · exact hleaf part fun r o hr ho => hobject ⟨r, o, hr, ho⟩
  by_cases hobject : ∃ r o, v = .object r ∧ s.get? r = some o
  · obtain ⟨r, o, rfl, hr⟩ := hobject
    exact hplace ⟨r, lt_size_of_get? hr⟩ .refl
  · exact hleaf v fun r o hr ho => hobject ⟨r, o, hr, ho⟩

/-- A value whose parts can be exhausted does not hold itself. -/
theorem acyclic_of_acc {v : Value} (h : Acc (fun part v => s.Part v part) v) : s.Acyclic v := by
  induction h with
  | intro v _ ih =>
    intro w hwithin hcycle
    rcases hwithin.cases_head with rfl | ⟨part, hpart, hrest⟩
    · -- The value would be within one of its parts.
      obtain ⟨part, hpart, hback⟩ := Relation.TransGen.head'_iff.mp hcycle
      exact ih part hpart v hback hcycle
    · exact ih part hpart w hrest hcycle

/-- Where every object holds only objects at smaller places, nothing holds itself. -/
theorem acyclic_of_descending
    (h : ∀ r < s.size, ∀ o ∈ s.get? r, ∀ part ∈ s.parts o, part.before r = true) (v : Value) :
    s.Acyclic v := by
  have hpart : ∀ {r r' : Ref}, s.Part (.object r) (.object r') → r' < r := by
    rintro r r' ⟨_, o, hplace, hr, hmem⟩
    cases hplace
    exact of_decide_eq_true (h r (lt_size_of_get? hr) o hr _ hmem)
  -- Along any path of parts the places go down.
  have hlt : ∀ {u u' : Value}, Relation.TransGen s.Part u u' →
      ∀ r r', u = .object r → u' = .object r' → r' < r := by
    intro u u' huu'
    induction huu' with
    | single hp =>
      rintro r r' rfl rfl
      exact hpart hp
    | tail _ hp ih =>
      rintro r r' rfl rfl
      have ⟨r'', _, hplace, _⟩ := hp
      subst hplace
      exact (hpart hp).trans (ih r r'' rfl rfl)
  intro w _ hcycle
  obtain ⟨part, ⟨r, o, rfl, hr, hmem⟩, -⟩ := Relation.TransGen.head'_iff.mp hcycle
  exact lt_irrefl _ (hlt hcycle r r rfl rfl)

/-- What holds of a value whenever it holds of its parts, holds of every acyclic value. -/
theorem Acyclic.induction {P : Value → Prop} {v : Value} (h : s.Acyclic v)
    (step : ∀ v, s.Acyclic v → (∀ part, s.Part v part → P part) → P v) : P v := by
  have hacc := h.acc
  induction hacc with
  | intro v _ ih => exact step v h fun part hpart => ih part hpart (h.of_part hpart)

/-- A guard is apart from a value if nothing within the value is among its places. -/
def Apart (s : Store) (guard : List Ref) (v : Value) : Prop :=
  ∀ r ∈ guard, ¬ s.Within v (.object r)

/-- Every value is apart from no objects. -/
theorem apart_nil (v : Value) : s.Apart [] v := fun _ hr => absurd hr List.not_mem_nil

/-- An object is not among the places of a guard apart from it. -/
theorem Apart.not_mem {guard : List Ref} {r : Ref} (h : s.Apart guard (.object r)) : r ∉ guard :=
  fun hr => h r hr .refl

/-- A guard with an acyclic object added is apart from the parts of the object. -/
theorem Apart.cons_part {guard : List Ref} {r : Ref} (h : s.Apart guard (.object r))
    (hacyclic : s.Acyclic (.object r)) {part : Value} (hpart : s.Part (.object r) part) :
    s.Apart (r :: guard) part := by
  intro a ha hwithin
  rcases List.mem_cons.mp ha with rfl | hmem
  · exact hacyclic.not_within_part hpart hwithin
  · exact h a hmem (hwithin.head hpart)

end Store

end TypedReads
