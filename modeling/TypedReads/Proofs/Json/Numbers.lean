import Mathlib.Data.Int.Notation
import TypedReads.Number.Kind
import TypedReads.Proofs.Json.Listing

/-!
# The numbers in a JSON value

`Json.Numbers` asks something of every number in a value, however deep: of its doubles and of its exact
integers. `Json.Finite` values are those that can be written, and in a `Json.Kept` value every exact
integer is one that the reader keeps exact. Normalizing drops members and moves them, so it keeps any
such property (`Json.Numbers.normalize`).
-/

namespace TypedReads

namespace Json

mutual

/-- A value whose doubles and exact integers all have a property. -/
def Numbers (P : Double → Prop) (Q : ℤ → Prop) : Json → Prop
  | .number x => P x
  | .integer n => Q n
  | .array items => NumbersItems P Q items
  | .object members => NumbersMembers P Q members
  | _ => True

/-- Items whose doubles and exact integers all have a property. -/
def NumbersItems (P : Double → Prop) (Q : ℤ → Prop) : List Json → Prop
  | [] => True
  | j :: rest => j.Numbers P Q ∧ NumbersItems P Q rest

/-- Members whose doubles and exact integers all have a property. -/
def NumbersMembers (P : Double → Prop) (Q : ℤ → Prop) : List (Text × Json) → Prop
  | [] => True
  | (_, j) :: rest => j.Numbers P Q ∧ NumbersMembers P Q rest

end

/-- A value whose doubles are all finite. -/
abbrev Finite (j : Json) : Prop := j.Numbers (fun x => x.isFinite = true) fun _ => True

/-- Items whose doubles are all finite. -/
abbrev FiniteItems (items : List Json) : Prop :=
  NumbersItems (fun x => x.isFinite = true) (fun _ => True) items

/-- Members whose doubles are all finite. -/
abbrev FiniteMembers (members : List (Text × Json)) : Prop :=
  NumbersMembers (fun x => x.isFinite = true) (fun _ => True) members

/-- An integer that the reader keeps exact: one of 64 bits that is not safe. -/
def KeptInt (n : ℤ) : Prop :=
  ¬ (-Double.safeBound ≤ n ∧ n ≤ Double.safeBound) ∧ IntegralKind.long.holds n = true

/-- A value whose exact integers are all kept by the reader. -/
abbrev Kept (j : Json) : Prop := j.Numbers (fun _ => True) KeptInt

/-- Items whose exact integers are all kept by the reader. -/
abbrev KeptItems (items : List Json) : Prop := NumbersItems (fun _ => True) KeptInt items

/-- Members whose exact integers are all kept by the reader. -/
abbrev KeptMembers (members : List (Text × Json)) : Prop :=
  NumbersMembers (fun _ => True) KeptInt members

variable {P : Double → Prop} {Q : ℤ → Prop}

/-- The numbers of items are those of each. -/
theorem numbersItems_iff {items : List Json} :
    NumbersItems P Q items ↔ ∀ j ∈ items, j.Numbers P Q := by
  induction items with
  | nil => simp [NumbersItems]
  | cons j rest ih => simp [NumbersItems, ih]

/-- The numbers of members are those of each value. -/
theorem numbersMembers_iff {members : List (Text × Json)} :
    NumbersMembers P Q members ↔ ∀ e ∈ members, e.2.Numbers P Q := by
  induction members with
  | nil => simp [NumbersMembers]
  | cons e rest ih => simp [NumbersMembers, ih]

/-- The object that members define has no numbers but theirs. -/
theorem numbers_record {members : List (Text × Json)} (h : NumbersMembers P Q members) :
    (record members).Numbers P Q := by
  refine numbersMembers_iff.mpr fun e he => ?_
  have hmem := (Entries.listing_perm _).mem_iff.mp he
  exact numbersMembers_iff.mp h e (Entries.mem_of_mem_ofPairs hmem)

mutual

/-- Normalizing adds no numbers. -/
theorem Numbers.normalize : ∀ {j : Json}, j.Numbers P Q → j.normalize.Numbers P Q
  | .null, h | .bool _, h | .number _, h | .integer _, h | .text _, h => h
  | .array _, h => NumbersItems.normalize h
  | .object _, h => numbers_record (NumbersMembers.normalize h)

/-- Normalizing items adds no numbers. -/
theorem NumbersItems.normalize : ∀ {items : List Json}, NumbersItems P Q items →
    NumbersItems P Q (normalizeItems items)
  | [], _ => trivial
  | _ :: _, ⟨h, hrest⟩ => ⟨h.normalize, NumbersItems.normalize hrest⟩

/-- Nor does normalizing members. -/
theorem NumbersMembers.normalize : ∀ {members : List (Text × Json)}, NumbersMembers P Q members →
    NumbersMembers P Q (normalizeMembers members)
  | [], _ => trivial
  | (_, _) :: _, ⟨h, hrest⟩ => ⟨h.normalize, NumbersMembers.normalize hrest⟩

end

end Json

end TypedReads
