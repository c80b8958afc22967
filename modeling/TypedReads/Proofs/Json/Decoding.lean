import TypedReads.Proofs.Json.Denotation
import TypedReads.Proofs.Json.Soundness

/-!
# Documents are exactly the objects of the grammar

Reading accepts the grammar and nothing else, and what it gives is what the text denotes
(`entries_exact`): the members of the root in order, with every repetition of a key, each with the
value that its own text stands for. The units that the grammar leaves to the lexer are listed here,
so that nothing about a document depends on how they are tested for.
-/

namespace TypedReads

section Units

/-- The letters behind a backslash and the units they stand for. -/
def escapes : List (CodeUnit × CodeUnit) :=
  [(unit '"', unit '"'), (unit '\\', unit '\\'), (unit '/', unit '/'), (unit 'b', 0x08),
    (unit 'f', 0x0C), (unit 'n', 0x0A), (unit 'r', 0x0D), (unit 't', 0x09)]

/-- The hexadecimal digits and their values. -/
def hexDigits : List (CodeUnit × ℕ) :=
  (units "0123456789abcdef").zipIdx ++ (units "ABCDEF").zipIdx 10

/-- The units that separate tokens. -/
theorem isSpace_iff (u : CodeUnit) :
    CodeUnit.isSpace u = true ↔ u = 0x20 ∨ u = 0x09 ∨ u = 0x0A ∨ u = 0x0D := by
  simp [CodeUnit.isSpace, or_assoc]

/-- The escapes are those of the table. -/
theorem unescape?_eq_some_iff (c u : CodeUnit) :
    CodeUnit.unescape? c = some u ↔ (c, u) ∈ escapes := by
  constructor
  · intro h
    unfold CodeUnit.unescape? at h
    split_ifs at h with hself
    all_goals cases h
    · rcases hself with rfl | rfl | rfl <;> decide
    all_goals subst_vars; decide
  · intro hmem
    have hall : (escapes.all fun e => CodeUnit.unescape? e.1 = some e.2) = true := by decide
    exact of_decide_eq_true (List.all_eq_true.mp hall (c, u) hmem)

/-- The hexadecimal digits are those of the table. -/
theorem hexDigit?_eq_some_iff (c : CodeUnit) (d : ℕ) :
    CodeUnit.hexDigit? c = some d ↔ (c, d) ∈ hexDigits := by
  constructor
  · intro h
    -- All digits are among the first units, which are few enough to look at.
    have hall : ∀ n < 128, ∀ d ∈ CodeUnit.hexDigit? (UInt16.ofNat n),
        (UInt16.ofNat n, d) ∈ hexDigits := by decide
    have hlt : c.toNat < 128 := by
      by_contra hge
      have hgreater : ∀ u : CodeUnit, u.toNat < 128 → ¬ c ≤ u := fun u hu hle =>
        hge ((UInt16.le_iff_toNat_le.mp hle).trans_lt hu)
      have hnone : CodeUnit.hexDigit? c = none := by
        unfold CodeUnit.hexDigit?
        rw [if_neg (fun h => hgreater (unit '9') (by decide) h.2),
          if_neg (fun h => hgreater (unit 'f') (by decide) h.2),
          if_neg (fun h => hgreater (unit 'F') (by decide) h.2)]
      rw [hnone] at h
      cases h
    have hc : UInt16.ofNat c.toNat = c := UInt16.ofNat_toNat
    exact hc ▸ hall c.toNat hlt d (by rwa [hc])
  · have hall : ∀ e ∈ hexDigits, CodeUnit.hexDigit? e.1 = some e.2 := by decide
    exact hall (c, d)

end Units

namespace Document

/-- The members of a document are listed with the values they denote. -/
theorem forall₂_denotes_iff {members : List (Text × Tree)} {ms : List (Text × Json)} :
    List.Forall₂ (fun m e => e.1 = m.1 ∧ m.2.Denotes e.2) members ms ↔
      ms = Json.normalizeMembers (Tree.toJsonMembers members) := by
  rw [Tree.normalizeMembers_toJsonMembers]
  induction members generalizing ms with
  | nil => simp
  | cons m rest ih =>
    rw [List.forall₂_cons_left_iff, List.map_cons]
    constructor
    · rintro ⟨⟨key, j⟩, ms, ⟨hkey, hj⟩, hrest, rfl⟩
      dsimp only at hkey hj
      rw [Tree.denotes_iff.mp hj, hkey, ih.mp hrest]
    · rintro rfl
      exact ⟨_, _, ⟨rfl, m.2.denotes⟩, ih.mpr rfl, rfl⟩

/-- A document is the text of an object. -/
theorem exists_text_of_entries {t : Text} {ms : List (Text × Json)} (h : entries t = .ok ms) :
    ∃ members, DocumentText t (.object members) ∧
      ms = Json.normalizeMembers (Tree.toJsonMembers members) := by
  obtain ⟨raw, hread, rfl⟩ := read_of_entries h
  obtain ⟨tree, htext, htree⟩ := exists_text_of_read hread
  cases tree with
  | object members =>
    cases htree
    exact ⟨members, htext, rfl⟩
  | number n =>
    unfold Tree.toJson Numeral.toJson at htree
    split at htree <;> (try split at htree) <;> cases htree
  | _ => cases htree

end Document

/-- A text is a document exactly if the grammar has it with an object at its root, and otherwise
gives an error. The entries of a document are its members in order, each under its key with the
value that it denotes; another spelling of the same tree has the same entries. Only four units
separate tokens, eight letters may stand behind a backslash, and the digits of a unit are those of
either case. -/
theorem entries_exact (t : Text) :
    (∀ ms, Document.entries t = .ok ms ↔ ∃ members, DocumentText t (.object members) ∧
      List.Forall₂ (fun m e => e.1 = m.1 ∧ m.2.Denotes e.2) members ms) ∧
    ((∃ e, Document.entries t = .error e) ↔ ¬ ∃ members, DocumentText t (.object members)) ∧
    (∀ t' tree, DocumentText t tree → DocumentText t' tree →
      Document.entries t' = Document.entries t) ∧
    (∀ u, CodeUnit.isSpace u = true ↔ u = 0x20 ∨ u = 0x09 ∨ u = 0x0A ∨ u = 0x0D) ∧
    (∀ c u, CodeUnit.unescape? c = some u ↔ (c, u) ∈ escapes) ∧
    ∀ c d, CodeUnit.hexDigit? c = some d ↔ (c, d) ∈ hexDigits := by
  -- What is accepted has a text of the grammar, and what has one is read as its tree.
  refine ⟨fun ms => ?_, ?_, ?_, isSpace_iff, unescape?_eq_some_iff, hexDigit?_eq_some_iff⟩
  · simp only [Document.forall₂_denotes_iff]
    constructor
    · exact Document.exists_text_of_entries
    · rintro ⟨members, htext, rfl⟩
      exact Document.entries_of_text htext
  · constructor
    · rintro ⟨e, he⟩ ⟨members, htext⟩
      rw [Document.entries_of_text htext] at he
      cases he
    · intro hnone
      cases hentries : Document.entries t with
      | error e => exact ⟨e, rfl⟩
      | ok ms =>
        obtain ⟨members, htext, -⟩ := Document.exists_text_of_entries hentries
        exact absurd ⟨members, htext⟩ hnone
  · intro t' tree htext htext'
    unfold Document.entries Document.members
    rw [htext.read, htext'.read]
    generalize tree.toJson = root
    cases root <;> rfl

/-- A document with one member. -/
def plainDocument : Text := units "\x7b\"a\":\"A\"\x7d"

/-- The same document with blanks between its tokens and an escape. -/
def spacedDocument : Text := units "\x7b \"a\"\n: \"\\u0041\"\t\x7d "

/-- The tree that both spell. -/
def plainTree : Tree := .object [(units "a", .text (units "A"))]

/-- The two have the same entries, and a text without content is no document. -/
theorem entries_of_plain_and_spaced :
    DocumentText plainDocument plainTree ∧ DocumentText spacedDocument plainTree ∧
    Document.entries plainDocument = .ok [(units "a", .text (units "A"))] ∧
    Document.entries spacedDocument = Document.entries plainDocument ∧
    (∃ e, Document.entries [] = .error e) ∧
    ¬ ∃ members, DocumentText [] (.object members) := by
  have hkey : StringText (units "a") (units "a") :=
    .cons (.raw (by decide) (by decide) (by decide)) .nil
  have hplain : DocumentText plainDocument plainTree :=
    .single hkey (.text (.cons (.raw (by decide) (by decide) (by decide)) .nil))
  -- The spaced document has a blank at every place that the grammar has one.
  have hspaced : DocumentText spacedDocument plainTree := by
    have hblank : ∀ u, CodeUnit.isSpace u = true → Blank [u] := by
      rintro u hu v hv
      rwa [List.mem_singleton.mp hv]
    have hunit : UnitText (units "\\u0041") (unit 'A') :=
      @UnitText.hex _ _ _ _ 0 0 4 1 rfl rfl rfl rfl
    have hvalue := ElementText.mk (hblank 0x20 (by decide)) (.text (.cons hunit .nil))
      (hblank 0x09 (by decide))
    have hmember := MemberText.mk (hblank 0x20 (by decide)) hkey (hblank 0x0A (by decide)) hvalue
    have hroot := ElementText.mk blank_nil (.object (.last hmember)) (hblank 0x20 (by decide))
    have htext : [] ++ (unit '\x7b' :: ([0x20] ++ quoted (units "a") ++ [0x0A] ++ unit ':' ::
        ([0x20] ++ quoted (units "\\u0041" ++ []) ++ [0x09])) ++ [unit '\x7d']) ++ [0x20] =
          spacedDocument := by decide
    rwa [htext] at hroot
  -- In the empty text a value is missing.
  have hnone : ∃ e, Document.entries [] = .error e := by
    refine ⟨.malformed .valueExpected 0, ?_⟩
    unfold Document.entries Document.members Json.read
    rw [Text.tokens.eq_def]
    rfl
  obtain ⟨hentries, -, hspelling, -⟩ := entries_exact plainDocument
  obtain ⟨-, herror, -⟩ := entries_exact []
  refine ⟨hplain, hspaced, ?_, hspelling _ _ hplain hspaced, hnone, herror.mp hnone⟩
  exact (hentries _).mpr ⟨_, hplain, .cons ⟨rfl, .text _⟩ .nil⟩

end TypedReads
