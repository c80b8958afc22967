import TypedReads.Proofs.Json.Grammar
import TypedReads.Text.Quoted

/-!
# Quoted texts are strings of the grammar

What `Text.escape` writes spells the text it was given (`stringText_escape`), whatever the text holds:
quotes, backslashes and controls are escaped, a pair of surrogates stands as it is, and a surrogate
without a partner is written by its digits.
-/

namespace TypedReads

/-- The hexadecimal digits are read as written. -/
theorem hexDigit?_hexUnit {d : ℕ} (h : d < 16) : CodeUnit.hexDigit? (hexUnit d) = some d := by
  have hall : ∀ d < 16, CodeUnit.hexDigit? (hexUnit d) = some d := by decide
  exact hall d h

/-- Four hexadecimal digits spell the unit they are taken from. -/
theorem unitText_hexEscape (u : CodeUnit) : UnitText (hexEscape u) u := by
  have hlt : u.toNat < 65536 := u.toNat_lt
  have h := UnitText.hex (hexDigit?_hexUnit (show u.toNat / 0x1000 < 16 by omega))
    (hexDigit?_hexUnit (show u.toNat / 0x100 % 0x10 < 16 by omega))
    (hexDigit?_hexUnit (show u.toNat / 0x10 % 0x10 < 16 by omega))
    (hexDigit?_hexUnit (show u.toNat % 0x10 < 16 by omega))
  have hvalue : 16 * (16 * (16 * (16 * 0 + u.toNat / 0x1000) + u.toNat / 0x100 % 0x10) +
      u.toNat / 0x10 % 0x10) + u.toNat % 0x10 = u.toNat := by omega
  rw [hvalue, Nat.toUInt16, UInt16.ofNat_toNat] at h
  exact h

/-- The letter of an escape stands for the unit it escapes. -/
theorem unescape?_of_shortEscape? {u c : CodeUnit} (h : shortEscape? u = some c) :
    CodeUnit.unescape? c = some u := by
  unfold shortEscape? at h
  split_ifs at h with hself
  · -- The quote and the backslash escape themselves.
    cases h
    rcases hself with rfl | rfl <;> rfl
  all_goals
    subst_vars
    cases h
    rfl

/-- The quoted form of a unit spells it. -/
theorem unitText_escapeUnit (u : CodeUnit) : UnitText (escapeUnit u) u := by
  unfold escapeUnit
  cases hshort : shortEscape? u with
  | some c => exact .letter (unescape?_of_shortEscape? hshort)
  | none =>
    dsimp only
    by_cases hhex : u < 0x20 ∨ CodeUnit.isSurrogate u
    · rw [if_pos hhex]
      exact unitText_hexEscape u
    · -- What has no escape at all may stand as it is.
      rw [if_neg hhex]
      unfold shortEscape? at hshort
      have hself : ¬ (u = unit '"' ∨ u = unit '\\') := fun h => by
        rw [if_pos h] at hshort
        cases hshort
      exact .raw (fun h => hself (.inl h)) (fun h => hself (.inr h)) fun h => hhex (.inl h)

/-- A surrogate may stand in a string as it is. -/
theorem unitText_of_surrogate {u : CodeUnit} (h : 0xD800 ≤ u) : UnitText [u] u := by
  refine .raw ?_ ?_ ?_
  · rintro rfl
    exact absurd h (by decide)
  · rintro rfl
    exact absurd h (by decide)
  · intro hlt
    exact absurd (UInt16.lt_of_le_of_lt h hlt) (by decide)

/-- An escaped text is a string that spells the text. -/
theorem stringText_escape (t : Text) : StringText t.escape t := by
  fun_induction Text.escape t with
  | case1 => exact .nil
  | case2 u =>
    have h := StringText.cons (unitText_escapeUnit u) .nil
    rw [List.append_nil] at h
    exact h
  | case3 u v rest hpair ih =>
    -- Both halves of a pair are surrogates.
    obtain ⟨hhigh, hlow⟩ := Bool.and_eq_true_iff.mp hpair
    unfold CodeUnit.isHigh at hhigh
    unfold CodeUnit.isLow at hlow
    rw [Bool.and_eq_true, decide_eq_true_iff, decide_eq_true_iff] at hhigh hlow
    have hv : (0xD800 : CodeUnit) ≤ v := UInt16.le_trans (by decide) hlow.1
    exact .cons (unitText_of_surrogate hhigh.1) (.cons (unitText_of_surrogate hv) ih)
  | case4 u v rest hpair ih => exact .cons (unitText_escapeUnit u) ih

/-- The quoted form of a text. -/
theorem quote_eq (t : Text) : t.quote = quoted t.escape := rfl

end TypedReads
