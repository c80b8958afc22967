import TypedReads.Json.Document
import TypedReads.Json.Writer
import TypedReads.Proofs.Json.Acceptance
import TypedReads.Proofs.Json.Numbers
import TypedReads.Proofs.Number.Canonical
import TypedReads.Proofs.Text.Quoting

/-!
# Written values are read back

What `Json.write` lays out is a text of the grammar, whatever the indentation: the indentation only
chooses the blanks. `Json.reread` is the value such a text spells. It keeps the shape, the keys and the
texts of a value and changes numbers alone, as `Double.canonical` says for doubles; an exact integer
stays exact only where the reader keeps integers exact. `Json.read_write` puts writer and reader
together.
-/

namespace TypedReads

namespace Json

mutual

/-- The value that is read where a value was written. -/
def reread : Json → Json
  | .number x => x.canonical
  | .integer n =>
    if (-Double.safeBound ≤ n ∧ n ≤ Double.safeBound) ∨ ¬ IntegralKind.long.holds n then
      .number (Double.ofInt n)
    else .integer n
  | .array items => .array (rereadItems items)
  | .object members => .object (rereadMembers members)
  | j => j

/-- The items that are read where items were written. -/
def rereadItems : List Json → List Json
  | [] => []
  | j :: rest => j.reread :: rereadItems rest

/-- The members that are read where members were written. -/
def rereadMembers : List (Text × Json) → List (Text × Json)
  | [] => []
  | (key, j) :: rest => (key, j.reread) :: rereadMembers rest

end

end Json

section Layout

/-- Spaces are blank. -/
theorem blank_spaces (n : ℕ) : Blank (spaces n) := by
  intro u hu
  rw [List.eq_of_mem_replicate hu]
  decide

/-- A space in front keeps a text blank. -/
theorem Blank.cons {u : CodeUnit} {blank : Text} (hu : CodeUnit.isSpace u = true)
    (h : Blank blank) : Blank (u :: blank) :=
  List.forall_mem_cons.mpr ⟨hu, h⟩

/-- A layout puts the same blanks in front of every part, and blanks behind the last. -/
theorem layoutParts_eq (first last : Char) (indent depth : ℕ) {parts : List Text}
    (hne : parts ≠ []) :
    ∃ before after, Blank before ∧ Blank after ∧
      layoutParts first last indent depth parts =
        unit first :: (before ++ List.intercalate (unit ',' :: before) parts ++ after) ++
          [unit last] := by
  unfold layoutParts
  rw [if_neg (by rw [List.isEmpty_iff]; exact hne)]
  by_cases hzero : indent = 0
  · -- On one line there are no blanks at all.
    rw [if_pos hzero]
    exact ⟨[], [], blank_nil, blank_nil, by rw [List.append_nil]; rfl⟩
  · have hnewline : CodeUnit.isSpace (unit '\n') = true := by decide
    rw [if_neg hzero]
    refine ⟨unit '\n' :: spaces (depth + indent), unit '\n' :: spaces depth,
      (blank_spaces _).cons hnewline, (blank_spaces _).cons hnewline, ?_⟩
    simp only [List.append_assoc, List.cons_append]

/-- Parts with commas between them are the texts of a container, if every part with the blanks around
it is the text of a place in it. -/
theorem parts_text {α : Type} {Part Place : Text → α → Prop} {Places : Text → List α → Prop}
    (hlast : ∀ {t a}, Place t a → Places t [a])
    (hcons : ∀ {t rest a as}, Place t a → Places rest as →
      Places (t ++ unit ',' :: rest) (a :: as))
    {before after : Text}
    (hplace : ∀ {t a after}, Blank after → Part t a → Place (before ++ t ++ after) a)
    (hafter : Blank after) {parts : List Text} {as : List α} (h : List.Forall₂ Part parts as)
    (hne : parts ≠ []) :
    Places (before ++ List.intercalate (unit ',' :: before) parts ++ after) as := by
  induction h with
  | nil => exact absurd rfl hne
  | @cons t a parts as ht hparts ih =>
    -- The last part takes the blanks behind it, and every other one the comma.
    cases hparts with
    | nil =>
      have hsingle : List.intercalate (unit ',' :: before) [t] = t := by simp [List.intercalate]
      rw [hsingle]
      exact hlast (hplace hafter ht)
    | @cons t' a' parts as ht' hparts =>
      have hmore := hcons (hplace blank_nil ht) (ih (List.cons_ne_nil _ _))
      have hsplit : List.intercalate (unit ',' :: before) (t :: t' :: parts) =
          t ++ unit ',' :: (before ++ List.intercalate (unit ',' :: before) (t' :: parts)) := by
        simp [List.intercalate]
      rw [List.append_nil] at hmore
      rw [hsplit]
      simpa using hmore

end Layout

/-- A member as it is written, without the blanks around it. -/
def MemberPart (t : Text) (member : Text × Tree) : Prop :=
  ∃ gap value, Blank gap ∧ ValueText value member.2 ∧
    t = quoted member.1.escape ++ unit ':' :: (gap ++ value)

/-- Blanks around a written member do not matter. -/
theorem MemberPart.text {t before after : Text} {member : Text × Tree} (hbefore : Blank before)
    (h : MemberPart t member) (hafter : Blank after) : MemberText (before ++ t ++ after) member := by
  obtain ⟨key, tree⟩ := member
  obtain ⟨gap, value, hgap, hvalue, rfl⟩ := h
  have htext := MemberText.mk hbefore (stringText_escape key) blank_nil (.mk hgap hvalue hafter)
  rw [List.append_nil] at htext
  simpa using htext

/-- Items in a layout are the text of an array. -/
theorem valueText_items (indent depth : ℕ) {parts : List Text} {trees : List Tree}
    (h : List.Forall₂ ValueText parts trees) :
    ValueText (layoutParts '[' ']' indent depth parts) (.array trees) := by
  cases parts with
  | nil =>
    cases h
    exact .emptyArray blank_nil
  | cons t parts =>
    obtain ⟨before, after, hbefore, hafter, heq⟩ :=
      layoutParts_eq '[' ']' indent depth (List.cons_ne_nil t parts)
    rw [heq]
    exact .array (parts_text .last .cons (fun hblank ht => .mk hbefore ht hblank) hafter h
      (List.cons_ne_nil t parts))

/-- Members in a layout are the text of an object. -/
theorem valueText_members (indent depth : ℕ) {parts : List Text} {members : List (Text × Tree)}
    (h : List.Forall₂ MemberPart parts members) :
    ValueText (layoutParts '\x7b' '\x7d' indent depth parts) (.object members) := by
  cases parts with
  | nil =>
    cases h
    exact .emptyObject blank_nil
  | cons t parts =>
    obtain ⟨before, after, hbefore, hafter, heq⟩ :=
      layoutParts_eq '\x7b' '\x7d' indent depth (List.cons_ne_nil t parts)
    rw [heq]
    exact .object (parts_text .last .cons (fun hblank ht => ht.text hbefore hblank) hafter h
      (List.cons_ne_nil t parts))

/-- The numeral of an integer. -/
def intNumeral (n : ℤ) : Numeral := ⟨decide (n < 0), decimalDigits n.natAbs, none, none⟩

/-- The numeral of an integer has its value. -/
theorem toInt?_intNumeral (n : ℤ) : (intNumeral n).toInt? = some n := by
  unfold Numeral.toInt? intNumeral
  rw [if_pos ⟨rfl, rfl⟩]
  dsimp only
  rw [ofDigits_decimalDigits]
  simp only [decide_eq_true_eq, Option.some.injEq]
  split_ifs <;> omega

/-- The digits of an integer are its numeral. -/
theorem numeralText_ofInt (n : ℤ) : NumeralText (Text.ofInt n) (intNumeral n) := by
  have hwhole : WholeDigits (decimalDigits n.natAbs) := by
    rcases Nat.eq_zero_or_pos n.natAbs with hzero | hpos
    · rw [hzero, decimalDigits_of_lt (by decide)]
      exact ⟨by decide, by decide, fun _ => rfl⟩
    · exact wholeDigits_of_head (decimalDigits_ne_nil _) (fun d hd => lt_ten_of_mem_decimalDigits hd)
        (head?_decimalDigits_ne hpos)
  have htext := @NumeralText.mk (decide (n < 0)) _ _ _ _ _ hwhole .absent .absent
  rw [List.append_nil, List.append_nil] at htext
  have heq : Text.ofInt n = minusText (decide (n < 0)) ++ digitText (decimalDigits n.natAbs) := by
    unfold Text.ofInt minusText
    simp only [decide_eq_true_eq]
    split_ifs <;> rfl
  rw [heq]
  exact htext

/-- What the reader makes of the digits of an integer. -/
theorem toJson_intNumeral (n : ℤ) : (intNumeral n).toJson = (Json.integer n).reread := by
  have hdouble : (intNumeral n).toDouble = Double.ofInt n :=
    (Numeral.toDouble_of_toInt? (toInt?_intNumeral n)).1
  unfold Numeral.toJson
  rw [toInt?_intNumeral, hdouble, Json.reread]

namespace Json

mutual

/-- A written value is a text of the grammar and spells the value reread. -/
theorem writeAt_text (indent depth : ℕ) : ∀ {j : Json}, j.Finite →
    ∃ tree, ValueText (j.writeAt indent depth) tree ∧ tree.toJson = j.reread
  | .null, _ => ⟨_, .null, rfl⟩
  | .bool false, _ => ⟨_, .false, rfl⟩
  | .bool true, _ => ⟨_, .true, rfl⟩
  | .number (.finite negative rank), _ =>
    ⟨_, .number (Double.numeralText_toText negative rank), Double.toJson_numeral negative rank⟩
  | .number .nan, h | .number (.infinite _), h => nomatch h
  | .integer n, _ => ⟨_, .number (numeralText_ofInt n), toJson_intNumeral n⟩
  | .text t, _ => ⟨_, .text (stringText_escape t), rfl⟩
  | .array items, h => by
    obtain ⟨trees, htexts, htrees⟩ := writeItems_text indent (depth + indent) h
    exact ⟨_, valueText_items indent depth htexts, congrArg Json.array htrees⟩
  | .object members, h => by
    obtain ⟨trees, htexts, htrees⟩ := writeMembers_text indent (depth + indent) h
    exact ⟨_, valueText_members indent depth htexts, congrArg Json.object htrees⟩

/-- Items are written as texts of what they are read again as. -/
theorem writeItems_text (indent depth : ℕ) : ∀ {items : List Json}, FiniteItems items →
    ∃ trees, List.Forall₂ ValueText (writeItems indent depth items) trees ∧
      Tree.toJsonItems trees = rereadItems items
  | [], _ => ⟨[], .nil, rfl⟩
  | _ :: _, ⟨h, hrest⟩ => by
    obtain ⟨tree, htext, htree⟩ := writeAt_text indent depth h
    obtain ⟨trees, htexts, htrees⟩ := writeItems_text indent depth hrest
    exact ⟨tree :: trees, .cons htext htexts, by
      rw [Tree.toJsonItems, htree, htrees, rereadItems]⟩

/-- So are members. -/
theorem writeMembers_text (indent depth : ℕ) : ∀ {members : List (Text × Json)},
    FiniteMembers members →
    ∃ trees, List.Forall₂ MemberPart (writeMembers indent depth members) trees ∧
      Tree.toJsonMembers trees = rereadMembers members
  | [], _ => ⟨[], .nil, rfl⟩
  | (key, j) :: _, ⟨h, hrest⟩ => by
    obtain ⟨tree, htext, htree⟩ := writeAt_text indent depth h
    obtain ⟨trees, htexts, htrees⟩ := writeMembers_text indent depth hrest
    refine ⟨(key, tree) :: trees, .cons ?_ htexts, by
      rw [Tree.toJsonMembers, htree, htrees, rereadMembers]⟩
    unfold layoutKey
    rw [quote_eq]
    split_ifs
    · -- Without indentation no blank stands behind the colon.
      exact ⟨[], _, blank_nil, htext, by simp [units, unitsOf]⟩
    · exact ⟨[unit ' '], _, by intro u hu; simp at hu; subst hu; decide, htext, by simp; rfl⟩

end

/-- A written value is read as the value reread, with any indentation. -/
theorem read_write {j : Json} (h : j.Finite) (indent : ℕ) :
    Json.read (j.write indent) = .ok j.reread := by
  obtain ⟨tree, htext, htree⟩ := writeAt_text indent 0 h
  have hdocument : DocumentText ([] ++ j.write indent ++ []) tree :=
    .mk blank_nil htext blank_nil
  rw [List.nil_append, List.append_nil] at hdocument
  rw [hdocument.read, htree]

end Json

/-- The members of a written object. -/
theorem Document.entries_write {members : List (Text × Json)} (h : Json.FiniteMembers members)
    (indent : ℕ) :
    Document.entries ((Json.object members).write indent) =
      .ok (Json.normalizeMembers (Json.rereadMembers members)) := by
  unfold Document.entries Document.members
  rw [Json.read_write (j := .object members) h]
  rfl

end TypedReads
