import TypedReads.Proofs.Number.Double
import TypedReads.Value.JsonText

/-!
# The text of a value

The JSON form, the normal form and the text of a value are settled by how the value is encoded: what is
made of it if it is, and the obstacle as it is explained if it is not. Indentation matters only to the text
of a value that is encoded.
-/

namespace TypedReads

/-- A width of a whole number of spaces. -/
theorem spacesOf_of_trunc? {width : Double} {n : ℤ} (h : width.trunc? = some n)
    (hn : 0 ≤ n ∧ n ≤ maxTextLength) : spacesOf width = .ok n.toNat := by
  unfold spacesOf
  split
  · cases h
  · rw [h]
    dsimp only
    rw [if_pos hn]

/-- A natural number that a text has room for is that many spaces. -/
theorem spacesOf_ofInt {n : ℕ} (h : n ≤ maxTextLength) : spacesOf (.ofInt n) = .ok n := by
  have hsafe : (n : ℤ).natAbs ≤ 2 ^ 53 := by
    rw [Int.natAbs_natCast]
    exact h.trans (by decide)
  have htrunc : (Double.ofInt n).trunc? = some (n : ℤ) :=
    Double.trunc?_of_toInt? (Double.toInt?_ofInt hsafe)
  exact spacesOf_of_trunc? htrunc ⟨Int.natCast_nonneg n, by exact_mod_cast h⟩

namespace Store

variable {s : Store} {v w : Value} {j : Json} {e : EncodeError} {f : Fault} {width : Double} {t : Text}

/-- The JSON form of a value is what it is encoded as. -/
theorem toJson_eq_ok_iff : s.toJson v = .ok j ↔ s.encode v = .ok j := by
  unfold toJson
  cases s.encode v with
  | ok j => simp
  | error obstacle => cases hexplain : s.explain obstacle <;> simp [hexplain]

/-- The error of a value is its obstacle, explained. -/
theorem toJson_refused_iff :
    s.toJson v = .error (.refused e) ↔
      ∃ cause, s.encode v = .error ⟨e.path, cause⟩ ∧
        cause.message (s.objectText [] []) = .ok e.message := by
  unfold toJson
  cases s.encode v with
  | ok j => simp
  | error obstacle =>
    obtain ⟨path, cause⟩ := obstacle
    obtain ⟨path', m⟩ := e
    unfold explain Obstacle.explain
    dsimp only
    cases hmessage : cause.message (s.objectText [] []) with
    | ok m' => simp [Except.map, hmessage, and_assoc]
    | error f => simp [Except.map, hmessage]

/-- A value is normalized if it is encoded. -/
theorem normalize_eq_ok_iff :
    s.normalize v = .ok j ↔ ∃ raw, s.encode v = .ok raw ∧ raw.normalize = j := by
  unfold normalize
  simp only [← toJson_eq_ok_iff]
  cases s.toJson v <;> simp [Except.map]

/-- Normalizing refuses what has no JSON form. -/
theorem normalize_refused_iff :
    s.normalize v = .error (.refused e) ↔ s.toJson v = .error (.refused e) := by
  unfold normalize
  cases s.toJson v <;> simp [Except.map]

/-- The text of a value is its JSON form, written with the indentation asked for. -/
theorem encodeText_eq_ok_iff :
    s.encodeText v width = .ok t ↔
      ∃ j indent, s.encode v = .ok j ∧ spacesOf width = .ok indent ∧ j.write indent = t := by
  unfold encodeText
  simp only [← toJson_eq_ok_iff]
  cases s.toJson v with
  | error failure => simp
  | ok j => cases spacesOf width <;> simp

/-- The text of an encoded value. -/
theorem encodeText_of_encode {indent : ℕ} (h : s.encode v = .ok j)
    (hwidth : spacesOf width = .ok indent) : s.encodeText v width = .ok (j.write indent) :=
  encodeText_eq_ok_iff.mpr ⟨j, indent, h, hwidth, rfl⟩

/-- A text of a value is a layout of its encoding. -/
theorem encode_of_encodeText (h : s.encodeText v width = .ok t) :
    ∃ j indent, s.encode v = .ok j ∧ t = j.write indent := by
  obtain ⟨j, indent, hj, -, ht⟩ := encodeText_eq_ok_iff.mp h
  exact ⟨j, indent, hj, ht.symm⟩

/-- No width is refused, so the text is refused where the JSON form is. -/
theorem encodeText_refused_iff :
    s.encodeText v width = .error (.refused e) ↔ s.toJson v = .error (.refused e) := by
  unfold encodeText
  cases s.toJson v with
  | error failure => simp
  | ok j => cases spacesOf width <;> simp

/-- At a width that there is indentation of, a value fails to have a text as it fails to be normalized. -/
theorem normalize_eq_error_iff {indent : ℕ} (hwidth : spacesOf width = .ok indent)
    (failure : Failure EncodeError) :
    s.normalize v = .error failure ↔ s.encodeText v width = .error failure := by
  unfold normalize encodeText
  rw [hwidth]
  cases s.toJson v <;> simp [Except.map]

/-- Values that are encoded alike, or refused for the same, have the same text. -/
theorem encodeText_congr (h : s.encode v = s.encode w) (width : Double) :
    s.encodeText v width = s.encodeText w width := by
  unfold encodeText toJson
  rw [h]

end Store

end TypedReads
