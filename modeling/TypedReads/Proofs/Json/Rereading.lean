import TypedReads.Proofs.Json.Normal
import TypedReads.Proofs.Json.Written

/-!
# Writing what was reread

Writing a value that was read, reading it and writing it again gives the same text
(`Json.writeAt_reread`): a number that the second reading takes for an exact integer is written by the
digits it was shown with. Rereading also keeps a value normal, finite and kept, so nothing changes from
the second reading on.
-/

namespace TypedReads

namespace Json

/-- Rereading keeps the keys of members. -/
theorem keys_rereadMembers (members : List (Text × Json)) :
    Entries.keys (rereadMembers members) = Entries.keys members := by
  induction members with
  | nil => rfl
  | cons e rest ih => exact congrArg (e.1 :: ·) ih

/-- The member under a key is reread. -/
theorem get?_rereadMembers (members : List (Text × Json)) (key : Text) :
    Entries.get? (rereadMembers members) key = (Entries.get? members key).map reread := by
  induction members with
  | nil => rfl
  | cons e rest ih =>
    obtain ⟨k, j⟩ := e
    rw [rereadMembers, Entries.get?, Entries.get?]
    by_cases hk : k = key
    · rw [if_pos hk, if_pos hk]
      rfl
    · rw [if_neg hk, if_neg hk, ih]

mutual

/-- Reading again keeps the normal form. -/
theorem reread_normal : ∀ {j : Json}, j.Normal → j.reread.Normal
  | .null, _ | .bool _, _ | .text _, _ => trivial
  | .number x, _ => by
    rw [reread, ← Double.normalize_canonical]
    exact normalize_normal _
  | .integer n, _ => by
    unfold reread
    split_ifs <;> trivial
  | .array _, h => rereadItems_normal h
  | .object members, ⟨hkeys, hlisting, hmembers⟩ => by
    have hsame := keys_rereadMembers members
    exact ⟨by rw [hsame]; exact hkeys, Entries.listing_of_keys hsame hkeys hlisting,
      rereadMembers_normal hmembers⟩

/-- So does reading items again. -/
theorem rereadItems_normal : ∀ {items : List Json}, NormalItems items →
    NormalItems (rereadItems items)
  | [], _ => trivial
  | _ :: _, ⟨h, hrest⟩ => ⟨reread_normal h, rereadItems_normal hrest⟩

/-- So does reading members again. -/
theorem rereadMembers_normal : ∀ {members : List (Text × Json)}, NormalMembers members →
    NormalMembers (rereadMembers members)
  | [], _ => trivial
  | (_, _) :: _, ⟨h, hrest⟩ => ⟨reread_normal h, rereadMembers_normal hrest⟩

end

/-- A finite number is reread as a finite one. -/
theorem canonical_finite {x : Double} (h : x.isFinite = true) : x.canonical.Finite := by
  by_cases hwide : x.Wide
  · rw [Double.canonical_of_wide hwide]
    trivial
  · rw [Double.canonical_of_not_wide hwide]
    exact (Double.isFinite_withoutNegativeZero _).trans h

/-- A kept integer is reread as it is. -/
theorem reread_of_keptInt {n : ℤ} (h : KeptInt n) : (Json.integer n).reread = .integer n := by
  unfold reread
  rw [if_neg (not_or.mpr ⟨h.1, not_not.mpr h.2⟩)]

mutual

/-- Reading again keeps numbers finite, if the integers are kept. -/
theorem reread_finite : ∀ {j : Json}, j.Kept → j.Finite → j.reread.Finite
  | .null, _, _ | .bool _, _, _ | .text _, _, _ => trivial
  | .number _, _, h => canonical_finite h
  | .integer _, hkept, _ => by
    rw [reread_of_keptInt hkept]
    trivial
  | .array _, hkept, h => rereadItems_finite hkept h
  | .object _, hkept, h => rereadMembers_finite hkept h

/-- So does reading items again. -/
theorem rereadItems_finite : ∀ {items : List Json}, KeptItems items → FiniteItems items →
    FiniteItems (rereadItems items)
  | [], _, _ => trivial
  | _ :: _, ⟨hkept, hrest⟩, ⟨h, hrest'⟩ => ⟨reread_finite hkept h, rereadItems_finite hrest hrest'⟩

/-- So does reading members again. -/
theorem rereadMembers_finite : ∀ {members : List (Text × Json)}, KeptMembers members →
    FiniteMembers members → FiniteMembers (rereadMembers members)
  | [], _, _ => trivial
  | (_, _) :: _, ⟨hkept, hrest⟩, ⟨h, hrest'⟩ =>
    ⟨reread_finite hkept h, rereadMembers_finite hrest hrest'⟩

end

/-- A number is written as before once it is reread. -/
theorem writeAt_canonical (indent depth : ℕ) (x : Double) :
    x.canonical.writeAt indent depth = x.toText := by
  by_cases hwide : x.Wide
  · -- The integer has the digits that the number was shown with.
    have hread := Double.canonical_of_wide hwide
    rw [hread]
    exact (Double.of_canonical_integer hread).2
  · rw [Double.canonical_of_not_wide hwide]
    exact Double.toText_withoutNegativeZero x

mutual

/-- A kept value is written as before once it is reread. -/
theorem writeAt_reread (indent depth : ℕ) : ∀ {j : Json}, j.Kept →
    j.reread.writeAt indent depth = j.writeAt indent depth
  | .null, _ | .bool _, _ | .text _, _ => rfl
  | .number x, _ => writeAt_canonical indent depth x
  | .integer _, h => by rw [reread_of_keptInt h]
  | .array _, h => by rw [reread, writeAt, writeAt, writeItems_reread indent _ h]
  | .object _, h => by rw [reread, writeAt, writeAt, writeMembers_reread indent _ h]

/-- Items are written alike before and after they are read again. -/
theorem writeItems_reread (indent depth : ℕ) : ∀ {items : List Json}, KeptItems items →
    writeItems indent depth (rereadItems items) = writeItems indent depth items
  | [], _ => rfl
  | _ :: _, ⟨h, hrest⟩ => by
    rw [rereadItems, writeItems, writeItems, writeAt_reread indent depth h,
      writeItems_reread indent depth hrest]

/-- So are members. -/
theorem writeMembers_reread (indent depth : ℕ) : ∀ {members : List (Text × Json)},
    KeptMembers members →
    writeMembers indent depth (rereadMembers members) = writeMembers indent depth members
  | [], _ => rfl
  | (_, _) :: _, ⟨h, hrest⟩ => by
    rw [rereadMembers, writeMembers, writeMembers, writeAt_reread indent depth h,
      writeMembers_reread indent depth hrest]

end

end Json

end TypedReads
