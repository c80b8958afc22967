import Mathlib.Data.Int.Notation
import Mathlib.Order.Nat
import TypedReads.Proofs.Entries
import TypedReads.Value.Basic

/-!
# Loading JSON values

`Store.Represents` says that a value of the store is a JSON value, and that every object in it stands
below a bound, the inner ones below the outer ones, so that no object is inside itself. A loaded
value represents what was loaded (`Store.load_represents`), and still does in every store that
extends the one it was loaded into.
-/

namespace TypedReads

/-- Different texts are different keys. -/
theorem Value.text_injective : Function.Injective Value.text := by
  intro a b h
  cases h
  rfl

namespace Store

section Extension

/-- A store that has every object of another at its place. -/
def Extends (s s' : Store) : Prop := ∀ r o, s.get? r = some o → s'.get? r = some o

/-- A store extends itself. -/
theorem Extends.refl (s : Store) : s.Extends s := fun _ _ h => h

/-- Extending a larger store extends the store. -/
theorem Extends.trans {s s' s'' : Store} (h : s.Extends s') (h' : s'.Extends s'') :
    s.Extends s'' :=
  fun r o hr => h' r o (h r o hr)

/-- A new object leaves the others where they are. -/
theorem extends_alloc (s : Store) (o : Object) : s.Extends (s.alloc o).2 := by
  intro r o' h
  have hlt := lt_size_of_get? h
  have hne : r ≠ s.size := hlt.ne
  unfold get? alloc size at *
  rw [Array.getElem?_push, if_neg hne]
  exact h

/-- A new object stands at its place. -/
theorem get?_alloc (s : Store) (o : Object) : (s.alloc o).2.get? (s.alloc o).1 = some o :=
  Array.getElem?_push_size

/-- What stands in a store with a new object stood there before, or is the new object. -/
theorem of_get?_alloc {s : Store} {o o' : Object} {r : Ref} (h : (s.alloc o).2.get? r = some o') :
    s.get? r = some o' ∨ r = s.size ∧ o' = o := by
  unfold get? alloc size at *
  rw [Array.getElem?_push] at h
  split_ifs at h with hr
  · cases h
    exact .inr ⟨hr, rfl⟩
  · exact .inl h

/-- A new object takes one place. -/
theorem size_alloc (s : Store) (o : Object) : (s.alloc o).2.size = s.size + 1 :=
  Array.size_push o

end Extension

section Representation

mutual

/-- A value that is a JSON value, with its objects below a bound. -/
inductive Represents (s : Store) : Ref → Value → Json → Prop
  | null {bound : Ref} : Represents s bound .null .null
  | bool {bound : Ref} (b : Bool) : Represents s bound (.bool b) (.bool b)
  | number {bound : Ref} (x : Double) : Represents s bound (.number x) (.number x)
  | integer {bound : Ref} (n : ℤ) : Represents s bound (.integer n) (.integer n)
  | text {bound : Ref} (t : Text) : Represents s bound (.text t) (.text t)
  | array {bound r : Ref} {vs : List Value} {js : List Json} (hlt : r < bound)
      (hr : s.get? r = some (.ofItems vs)) (h : RepresentsItems s r vs js) :
      Represents s bound (.object r) (.array js)
  | object {bound r : Ref} {es : List (Text × Value)} {members : List (Text × Json)}
      (hlt : r < bound) (hr : s.get? r = some (.record false es))
      (h : RepresentsMembers s r es members) :
      Represents s bound (.object r) (.object members)

/-- Items that are JSON values. -/
inductive RepresentsItems (s : Store) : Ref → List Value → List Json → Prop
  | nil {bound : Ref} : RepresentsItems s bound [] []
  | cons {bound : Ref} {v : Value} {j : Json} {vs : List Value} {js : List Json}
      (h : Represents s bound v j) (hrest : RepresentsItems s bound vs js) :
      RepresentsItems s bound (v :: vs) (j :: js)

/-- Members that are JSON values under the same keys. -/
inductive RepresentsMembers (s : Store) : Ref → List (Text × Value) → List (Text × Json) → Prop
  | nil {bound : Ref} : RepresentsMembers s bound [] []
  | cons {bound : Ref} {v : Value} {j : Json} {es : List (Text × Value)}
      {members : List (Text × Json)} (key : Text) (h : Represents s bound v j)
      (hrest : RepresentsMembers s bound es members) :
      RepresentsMembers s bound ((key, v) :: es) ((key, j) :: members)

end

mutual

/-- What is represented stays so in a greater store and below a greater bound. -/
theorem Represents.mono {s s' : Store} (hs : s.Extends s') {bound bound' : Ref}
    (hbound : bound ≤ bound') {v : Value} {j : Json} :
    Represents s bound v j → Represents s' bound' v j
  | .null => .null
  | .bool b => .bool b
  | .number x => .number x
  | .integer n => .integer n
  | .text t => .text t
  | .array hlt hr h => .array (hlt.trans_le hbound) (hs _ _ hr) (h.mono hs le_rfl)
  | .object hlt hr h => .object (hlt.trans_le hbound) (hs _ _ hr) (h.mono hs le_rfl)

/-- Items are represented in a larger store as well, below a higher bound. -/
theorem RepresentsItems.mono {s s' : Store} (hs : s.Extends s') {bound bound' : Ref}
    (hbound : bound ≤ bound') {vs : List Value} {js : List Json} :
    RepresentsItems s bound vs js → RepresentsItems s' bound' vs js
  | .nil => .nil
  | .cons h hrest => .cons (h.mono hs hbound) (hrest.mono hs hbound)

/-- So are members. -/
theorem RepresentsMembers.mono {s s' : Store} (hs : s.Extends s') {bound bound' : Ref}
    (hbound : bound ≤ bound') {es : List (Text × Value)} {members : List (Text × Json)} :
    RepresentsMembers s bound es members → RepresentsMembers s' bound' es members
  | .nil => .nil
  | .cons key h hrest => .cons key (h.mono hs hbound) (hrest.mono hs hbound)

end

/-- Items represent one by one. -/
theorem RepresentsItems.forall₂ {s : Store} {bound : Ref} {vs : List Value} {js : List Json}
    (h : RepresentsItems s bound vs js) : List.Forall₂ (Represents s bound) vs js := by
  induction js generalizing vs with
  | nil =>
    cases h
    exact .nil
  | cons j js ih =>
    cases h with
    | cons h hrest => exact .cons h (ih hrest)

/-- Members represent as entries with corresponding keys. -/
theorem RepresentsMembers.forall₂ {s : Store} {bound : Ref} {es : List (Text × Value)}
    {members : List (Text × Json)} (h : RepresentsMembers s bound es members) :
    List.Forall₂ (Entries.Corresponds id fun j v => Represents s bound v j) members es := by
  induction members generalizing es with
  | nil =>
    cases h
    exact .nil
  | cons member members ih =>
    cases h with
    | cons key h hrest => exact .cons ⟨rfl, h⟩ (ih hrest)

end Representation

section Load

mutual

/-- A loaded value represents what was loaded. -/
theorem load_represents (s : Store) (j : Json) :
    s.Extends (s.load j).2 ∧ s.size ≤ (s.load j).2.size ∧
      (s.load j).2.Represents (s.load j).2.size (s.load j).1 j := by
  cases j with
  | null => exact ⟨.refl s, le_rfl, .null⟩
  | bool b => exact ⟨.refl s, le_rfl, .bool b⟩
  | number x => exact ⟨.refl s, le_rfl, .number x⟩
  | integer n => exact ⟨.refl s, le_rfl, .integer n⟩
  | text t => exact ⟨.refl s, le_rfl, .text t⟩
  | array items =>
    obtain ⟨hext, hsize, hitems⟩ := loadItems_represents s items
    unfold load
    dsimp only
    generalize (s.loadItems items).1 = vs at *
    generalize (s.loadItems items).2 = s' at *
    -- The items were loaded before the array, so they stand below it.
    have halloc := s'.extends_alloc (.ofItems vs)
    have hlt := s'.size_alloc (.ofItems vs)
    exact ⟨hext.trans halloc, by omega,
      .array (by rw [hlt]; exact Nat.lt_succ_self _) (s'.get?_alloc _) (hitems.mono halloc le_rfl)⟩
  | object members =>
    obtain ⟨hext, hsize, hmembers⟩ := loadMembers_represents s members
    unfold load
    dsimp only
    generalize (s.loadMembers members).1 = es at *
    generalize (s.loadMembers members).2 = s' at *
    have halloc := s'.extends_alloc (.record false es)
    have hlt := s'.size_alloc (.record false es)
    exact ⟨hext.trans halloc, by omega,
      .object (by rw [hlt]; exact Nat.lt_succ_self _) (s'.get?_alloc _)
        (hmembers.mono halloc le_rfl)⟩

/-- Loading items extends the store by values that represent them. -/
theorem loadItems_represents (s : Store) (items : List Json) :
    s.Extends (s.loadItems items).2 ∧ s.size ≤ (s.loadItems items).2.size ∧
      (s.loadItems items).2.RepresentsItems (s.loadItems items).2.size (s.loadItems items).1
        items := by
  cases items with
  | nil => exact ⟨.refl s, le_rfl, .nil⟩
  | cons j rest =>
    obtain ⟨hext, hsize, h⟩ := load_represents s j
    obtain ⟨hext', hsize', hrest⟩ := loadItems_represents (s.load j).2 rest
    exact ⟨hext.trans hext', hsize.trans hsize', .cons (h.mono hext' hsize') hrest⟩

/-- Loaded members represent what was loaded under their keys. -/
theorem loadMembers_represents (s : Store) (members : List (Text × Json)) :
    s.Extends (s.loadMembers members).2 ∧ s.size ≤ (s.loadMembers members).2.size ∧
      (s.loadMembers members).2.RepresentsMembers (s.loadMembers members).2.size
        (s.loadMembers members).1 members := by
  cases members with
  | nil => exact ⟨.refl s, le_rfl, .nil⟩
  | cons member rest =>
    obtain ⟨key, j⟩ := member
    obtain ⟨hext, hsize, h⟩ := load_represents s j
    obtain ⟨hext', hsize', hrest⟩ := loadMembers_represents (s.load j).2 rest
    exact ⟨hext.trans hext', hsize.trans hsize', .cons key (h.mono hext' hsize') hrest⟩

end

end Load

end Store

end TypedReads
