import TypedReads.Proofs.Read.Rereading
import TypedReads.Proofs.Value.RoundTrip

/-!
# Reformatting a document

A document is opened, its text is written at some width and opened again. The second adapter has the
keys of the first in the same order and answers the same reads (`reads_of_reformatted`), except integral
reads of a wide number, which is a double in the first and the exact integer that its text spells in
the second. That integer has the digits that the double is shown with, so the second adapter has the
text of the first at every width (`text_of_reformatted`) and nothing is left of the width between.
-/

namespace TypedReads

namespace Store

variable {s : Store} {a : Adapter} {members : Entries Text Json}

/-- An adapter that a document was opened as holds its members, of which each has a key of its own and
is in normal form. -/
theorem opened_of_openDocument {t : Text} {mode : Narrowing} {r : Ref} {s₀ : Store}
    (h : s₀.openDocument t mode = .ok (r, s)) (ha : s.adapter? r = some a) :
    ∃ es : Entries Text Json, a.narrowing = mode ∧ s.Opened a es ∧ es.keys.Nodup ∧
      Json.NormalMembers es ∧ Json.KeptMembers es := by
  obtain ⟨members, hentries, hmode, hopened⟩ := entries_of_openDocument h ha
  refine ⟨Entries.ofPairs members, hmode, hopened, Entries.nodup_keys_ofPairs members,
    (Document.normal_of_entries hentries).ofPairs, Json.numbersMembers_iff.mpr fun e he => ?_⟩
  exact Json.numbersMembers_iff.mp (Document.kept_of_entries hentries) e
    (Entries.mem_of_mem_ofPairs he)

/-- Encoded entries that represent normal members are encoded as these. -/
theorem eq_of_encoded_entries {bound : Ref} {ancestors : List Ref} {ms : List (Text × Json)}
    {es : Entries Value Value} (h : List.Forall₂ (RepresentsEntry s bound) ms es)
    (hnormal : Json.NormalMembers ms) {ms' : List (Text × Json)}
    (hencode : List.Forall₂ (fun e member => e.1 = .text member.1 ∧
      s.encodeWithin ancestors e.2 = .ok member.2) es ms') : ms' = ms := by
  induction h generalizing ms' with
  | nil =>
    cases hencode
    rfl
  | @cons member e ms es he hes ih =>
    cases hencode with
    | @cons _ member' _ _ he' hes' =>
      obtain ⟨key, j⟩ := member
      obtain ⟨key', j'⟩ := member'
      have hkey : key' = key := Value.text_injective (he'.1.symm.trans he.1)
      have hj : j' = j := eq_of_encodeWithin_represents he.2 hnormal.1 he'.2
      rw [hkey, hj, ih hnormal.2 hes']

/-- Entries that represent normal and finite members are encoded as these. -/
theorem encoded_entries {bound : Ref} {ancestors : List Ref} {ms : List (Text × Json)}
    {es : Entries Value Value} (h : List.Forall₂ (RepresentsEntry s bound) ms es)
    (hnormal : Json.NormalMembers ms) (hfinite : Json.FiniteMembers ms)
    (hancestors : ∀ a ∈ ancestors, bound ≤ a) :
    encodeEntries (s.encodeWithin ancestors) es = .ok ms := by
  induction h with
  | nil => rfl
  | @cons member e ms es he hes ih =>
    obtain ⟨key, j⟩ := member
    obtain ⟨key', v⟩ := e
    obtain ⟨rfl, hrep⟩ := he
    rw [encodeEntries, encodeWithin_represents hrep hnormal.1 hfinite.1 hancestors]
    dsimp only
    rw [ih hnormal.2 hfinite.2]

/-- The text of an opened document is a layout of its members, whose numbers are finite. -/
theorem Opened.toText (h : s.Opened a members) (hnormal : Json.NormalMembers members)
    {width : Double} {t : Text} (ht : a.toText s width = .ok t) :
    Json.FiniteMembers members ∧ ∃ indent, t = (Json.object members).write indent := by
  obtain ⟨j, indent, hj, rfl⟩ := encode_of_encodeText ht
  obtain ⟨ms, rfl, -, hms⟩ := encodeWithin_entries h.backing rfl hj
  have hsame := eq_of_encoded_entries h.entries hnormal hms
  subst hsame
  exact ⟨(canonicalEntries_of_forall₂
    (fun hv => canonical_of_encodeWithin s [a.backing] hv) hms).1, indent, rfl⟩

section Reread

variable {es : Entries Text Json} (hnormal : Json.NormalMembers es)
include hnormal

/-- An opened document with finite numbers is encoded as its members. -/
theorem Opened.encode_of_finite (h : s.Opened a es) (hfinite : Json.FiniteMembers es) :
    s.encode (.object a.backing) = .ok (.object es) := by
  unfold encode
  rw [encodeWithin_object h.backing]
  change (if a.backing ∈ [] then _ else _) = _
  rw [if_neg List.not_mem_nil, encoded_entries h.entries hnormal hfinite fun b hb =>
    (List.mem_singleton.mp hb).ge]
  rfl

/-- The text of an opened document with finite numbers, at a width of whole spaces. -/
theorem Opened.toText_of_finite (h : s.Opened a es) (hfinite : Json.FiniteMembers es)
    {width : Double} {indent : ℕ} (hwidth : spacesOf width = .ok indent) :
    a.toText s width = .ok ((Json.object es).write indent) :=
  encodeText_of_encode (h.encode_of_finite hnormal hfinite) hwidth

/-- The text of an opened document is a document of the same members, reread. -/
theorem Opened.reopen (h : s.Opened a es) (hnodup : es.keys.Nodup) {width : Double} {t : Text}
    (ht : a.toText s width = .ok t) (s₁ : Store) (mode : Narrowing) :
    ∃ r s' a', s₁.openDocument t mode = .ok (r, s') ∧ s'.adapter? r = some a' ∧
      a'.narrowing = mode ∧ s'.Opened a' (Json.rereadMembers es) := by
  obtain ⟨hfinite, indent, rfl⟩ := h.toText hnormal ht
  have hentries : Document.entries ((Json.object es).write indent) =
      .ok (Json.rereadMembers es) := by
    rw [Document.entries_write hfinite,
      Json.normalizeMembers_of_normal (Json.rereadMembers_normal hnormal)]
  obtain ⟨r, s', a', hopen, ha', hmode, hopened, -⟩ := s₁.openDocument_ok hentries mode
  rw [Entries.ofPairs_of_nodup (by rw [Json.keys_rereadMembers]; exact hnodup)] at hopened
  exact ⟨r, s', a', hopen, ha', hmode, hopened⟩

variable {s' : Store} {a' : Adapter} (hfinite : Json.FiniteMembers es)
  (hkept : Json.KeptMembers es) (h : s.Opened a es) (h' : s'.Opened a' (Json.rereadMembers es))
include hfinite hkept h h'

/-- Reread members have the text they had, or the fault, at every width. -/
theorem Opened.toText_reread (width : Double) : a'.toText s' width = a.toText s width := by
  have hencode := h.encode_of_finite hnormal hfinite
  have hencode' := h'.encode_of_finite (Json.rereadMembers_normal hnormal)
    (Json.rereadMembers_finite hkept hfinite)
  have hwrite : ∀ indent, (Json.object (Json.rereadMembers es)).write indent =
      (Json.object es).write indent := fun indent =>
    Json.writeAt_reread indent 0 (j := .object es) hkept
  unfold Adapter.toText encodeText toJson
  rw [hencode, hencode']
  dsimp only
  simp only [hwrite]

variable (hmode : a'.narrowing = a.narrowing)
include hmode

/-- A key of reread members is read as before, unless its number was a wide one. -/
theorem Opened.read_reread {key : Text} {target : Target}
    (hwide : ∀ kind : IntegralKind, target = kind.target →
      ∀ x, a.get? s key = some (.number x) → ¬ x.Wide) :
    a'.read s' target key = a.read s target key := by
  have hget := Json.get?_rereadMembers es key
  cases hkey : es.get? key with
  | none =>
    rw [hkey] at hget
    rw [(h.read_none hkey target).2, (h'.read_none hget target).2]
  | some j =>
    rw [hkey] at hget
    have hmem := Entries.mem_of_get? hkey
    obtain ⟨v, hv, hrep⟩ := Adapter.get?_opened h hkey
    obtain ⟨v', hv', hrep'⟩ := Adapter.get?_opened h' hget
    rw [read_of_entry hv, read_of_entry hv', hmode]
    by_cases hx : ∃ x, v = .number x ∧ x.Wide
    · -- The number has become an integer, which only an integral read can tell.
      obtain ⟨x, rfl, hx⟩ := hx
      obtain ⟨n, hn, hlow, hhigh⟩ := id hx
      cases hrep
      rw [Json.reread, Double.canonical_of_wide hx] at hrep'
      cases hrep'
      have hstored : a.get? s key = some (.number x) := get?_of_entry hv rfl
      exact (@read_wide s s' x n hn hlow hhigh target a.narrowing).2 fun kind hkind =>
        hwide kind hkind x hstored hx
    -- Every other value is represented by its rereading as well.
    · exact Store.read_reread hrep hrep' (Json.normalMembers_iff.mp hnormal _ hmem)
        (Json.numbersMembers_iff.mp hfinite _ hmem) (Json.numbersMembers_iff.mp hkept _ hmem)
        target a.narrowing fun x hv hxw => hx ⟨x, hv, hxw⟩

omit hfinite hkept hnormal in
/-- A wide number of a key is read as itself at first, and once reread as the integer that its text
spells. -/
theorem Opened.read_of_wide {key : Text} {x : Double} {n : ℤ} (hx : a.get? s key = some (.number x))
    (hn : x.toInt? = some n) (hlow : 2 ^ 53 ≤ n.natAbs) (hhigh : n.natAbs < 2 ^ 63)
    (kind : IntegralKind) :
    a.read s kind.target key =
        .ok ((kind.wideRead a.narrowing n (clampedInt n)).map kind.answer) ∧
      a'.read s' kind.target key =
        .ok ((kind.wideRead a.narrowing x.toText.spelled x.toText.spelled).map kind.answer) := by
  have hget := Json.get?_rereadMembers es key
  cases hkey : es.get? key with
  | none =>
    rw [(h.read_none hkey kind.target).1] at hx
    cases hx
  | some j =>
    rw [hkey] at hget
    obtain ⟨v, hv, hrep⟩ := Adapter.get?_opened h hkey
    obtain ⟨v', hv', hrep'⟩ := Adapter.get?_opened h' hget
    cases entry_of_get? hv hx
    rw [read_of_entry hv, read_of_entry hv', hmode]
    -- The member was a number, and its rereading is an integer.
    cases hrep
    rw [Json.reread, Double.canonical_of_wide ⟨n, hn, hlow, hhigh⟩] at hrep'
    cases hrep'
    exact (@read_wide s s' x n hn hlow hhigh kind.target a.narrowing).1 kind rfl

end Reread

end Store

/-- A document that is opened, written and opened again has the same keys in the same order, and every
read of it is as before, but for integral reads of wide numbers. Such a number is read as itself, or as
what it is clamped to, and afterwards as the integer that its text spells. -/
theorem reads_of_reformatted {s₀ s : Store} {t : Text} {mode : Narrowing} {r : Ref} {a : Adapter}
    (hopen : s₀.openDocument t mode = .ok (r, s)) (ha : s.adapter? r = some a) {width : Double}
    {t' : Text} (htext : a.toText s width = .ok t') (s₁ : Store) :
    ∃ r' s' a', s₁.openDocument t' mode = .ok (r', s') ∧ s'.adapter? r' = some a' ∧
      a'.keys s' = a.keys s ∧
      ∀ key target,
        ((∀ kind : IntegralKind, target = kind.target →
            ∀ x, a.get? s key = some (.number x) → ¬ x.Wide) →
          a'.read s' target key = a.read s target key) ∧
        ∀ (kind : IntegralKind) (x : Double) (n : ℤ), target = kind.target →
          a.get? s key = some (.number x) → x.toInt? = some n → 2 ^ 53 ≤ n.natAbs →
          n.natAbs < 2 ^ 63 →
          a.read s target key = .ok ((kind.wideRead mode n (clampedInt n)).map kind.answer) ∧
            a'.read s' target key =
              .ok ((kind.wideRead mode x.toText.spelled x.toText.spelled).map kind.answer) := by
  -- The text is decoded to the members of the first document, each of them reread.
  obtain ⟨es, rfl, hopened, hnodup, hnormal, hkept⟩ := Store.opened_of_openDocument hopen ha
  obtain ⟨hfinite, -⟩ := hopened.toText hnormal htext
  obtain ⟨r', s', a', hopen', ha', hmode', hopened'⟩ :=
    hopened.reopen hnormal hnodup htext s₁ a.narrowing
  refine ⟨r', s', a', hopen', ha', ?_, fun key target => ⟨fun hwide => ?_, ?_⟩⟩
  · rw [hopened'.keys, hopened.keys, Json.keys_rereadMembers]
  · exact Store.Opened.read_reread hnormal hfinite hkept hopened hopened' hmode' hwide
  · rintro kind x n rfl hx hn hlow hhigh
    exact Store.Opened.read_of_wide hopened hopened' hmode' hx hn hlow hhigh kind

/-- A document that is opened, written at some width and opened again in any mode has at every width
the text it had before; there is one at every width that a text has room for, and at the width between
it is the text between. -/
theorem text_of_reformatted {s₀ s : Store} {t : Text} {mode : Narrowing} {r : Ref} {a : Adapter}
    (hopen : s₀.openDocument t mode = .ok (r, s)) (ha : s.adapter? r = some a) {width : Double}
    {t' : Text} (htext : a.toText s width = .ok t') (s₁ : Store) (mode' : Narrowing) :
    ∃ r' s' a', s₁.openDocument t' mode' = .ok (r', s') ∧ s'.adapter? r' = some a' ∧
      (∀ width', a'.toText s' width' = a.toText s width') ∧ a'.toText s' width = .ok t' ∧
      ∀ indent : ℕ, indent ≤ maxTextLength → ∃ t'', a'.toText s' (.ofInt indent) = .ok t'' := by
  obtain ⟨es, -, hopened, hnodup, hnormal, hkept⟩ := Store.opened_of_openDocument hopen ha
  obtain ⟨hfinite, -⟩ := hopened.toText hnormal htext
  obtain ⟨r', s', a', hopen', ha', -, hopened'⟩ := hopened.reopen hnormal hnodup htext s₁ mode'
  have hsame : ∀ width', a'.toText s' width' = a.toText s width' :=
    Store.Opened.toText_reread hnormal hfinite hkept hopened hopened'
  refine ⟨r', s', a', hopen', ha', hsame, (hsame width).trans htext, fun indent hindent => ?_⟩
  have htext' := hopened.toText_of_finite hnormal hfinite (spacesOf_ofInt hindent)
  exact ⟨_, (hsame _).trans htext'⟩

/-- A whole number that is not safe, written with an exponent. -/
def wideNumeral : Numeral := ⟨false, [1], none, some 16⟩

/-- A document of the number. -/
def wideDocument : Text := units "\x7b\"a\":1e16\x7d"

/-- The members of the document. -/
def wideMembers : Entries Text Json := [(units "a", .number wideNumeral.toDouble)]

/-- The number that the numeral is read as. -/
theorem toInt?_wideNumeral : wideNumeral.toDouble.toInt? = some (10 ^ 16) := by decide +kernel

/-- The integer that the text of that number spells. -/
theorem spelled_wideNumeral : wideNumeral.toDouble.toText.spelled = 10 ^ 16 := by decide +kernel

/-- The members are in normal form. -/
theorem wideMembers_normal : Json.NormalMembers wideMembers := ⟨trivial, trivial⟩

/-- The grammar has the document. -/
theorem wideDocument_text :
    DocumentText wideDocument (.object ([] ++ (units "a", .number wideNumeral) :: [])) := by
  have hkey : StringText (units "a") (units "a") :=
    .cons (.raw (by decide) (by decide) (by decide)) .nil
  have hwhole : WholeDigits wideNumeral.whole := ⟨by decide, by decide, by decide⟩
  have hexponent : ExponentText (unit 'e' :: [] ++ digitText [1, 6]) (some 16) :=
    @ExponentText.power _ [] false [1, 6] (.inl rfl) .absent (by decide) (by decide)
  have hnumeral := @NumeralText.mk false _ _ _ _ _ hwhole .absent hexponent
  have htext : unit '\x7b' :: (quoted (units "a") ++ unit ':' ::
      (minusText false ++ digitText wideNumeral.whole ++ [] ++
        (unit 'e' :: [] ++ digitText [1, 6]))) ++ [unit '\x7d'] = wideDocument := by decide
  rw [← htext]
  exact .single hkey (.number hnumeral)

/-- The document, opened to be truncated, has a text and holds the number. -/
theorem wideDocument_opened : ∃ r s a t,
    Store.empty.openDocument wideDocument .truncate = .ok (r, s) ∧ s.adapter? r = some a ∧
      a.narrowing = .truncate ∧ s.Opened a wideMembers ∧ a.toText s (.ofInt 0) = .ok t ∧
      a.get? s (units "a") = some (.number wideNumeral.toDouble) := by
  obtain ⟨r, s, a, hopen, ha, hmode, hopened, -⟩ :=
    Store.empty.openDocument_ok (Document.entries_of_text wideDocument_text) .truncate
  have hmembers : Entries.ofPairs (Json.normalizeMembers (Tree.toJsonMembers
      ([] ++ (units "a", .number wideNumeral) :: []))) = wideMembers := by
    have hjson : (Tree.number wideNumeral).toJson = .number wideNumeral.toDouble := by
      rw [Tree.toJson, Numeral.toJson]
      rfl
    rw [List.nil_append, Tree.toJsonMembers, hjson, wideMembers]
    generalize wideNumeral.toDouble = x
    rfl
  rw [hmembers] at hopened
  have hfinite : wideNumeral.toDouble.isFinite = true := by decide +kernel
  have hwidth : spacesOf (.ofInt 0) = .ok 0 := spacesOf_ofInt (Nat.zero_le _)
  have hkey : wideMembers.get? (units "a") = some (.number wideNumeral.toDouble) := rfl
  have htext := hopened.toText_of_finite wideMembers_normal ⟨hfinite, trivial⟩ hwidth
  exact ⟨r, s, a, _, hopen, ha, hmode, hopened, htext, hopened.get?_number hkey⟩

/-- The number is read as the byte `-1`, from the bits of what it is clamped to, and from the text of
the document as the byte `0`, from its own. -/
theorem byte_of_reformatted : ∃ r s a t' r' s' a',
    Store.empty.openDocument wideDocument .truncate = .ok (r, s) ∧ s.adapter? r = some a ∧
      a.toText s (.ofInt 0) = .ok t' ∧ s.openDocument t' .truncate = .ok (r', s') ∧
      s'.adapter? r' = some a' ∧
      a.read s .byte (units "a") = .ok (some (.number (.ofInt (-1)))) ∧
      a'.read s' .byte (units "a") = .ok (some (.number (.ofInt 0))) ∧
      a'.read s' .byte (units "a") ≠ a.read s .byte (units "a") := by
  obtain ⟨r, s, a, t', hopen, ha, hmode, hopened, htext, hget⟩ := wideDocument_opened
  obtain ⟨r', s', a', hopen', ha', hmode', hopened'⟩ :=
    hopened.reopen wideMembers_normal (List.nodup_singleton _) htext s .truncate
  obtain ⟨hread, hread'⟩ := Store.Opened.read_of_wide hopened hopened' (hmode'.trans hmode.symm)
    hget toInt?_wideNumeral (by decide) (by decide) .byte
  rw [hmode] at hread hread'
  rw [spelled_wideNumeral] at hread'
  refine ⟨r, s, a, t', r', s', a', hopen, ha, htext, hopen', ha', hread, hread', ?_⟩
  intro hsame
  have hanswers := hread'.symm.trans (hsame.trans hread)
  have hne : Double.ofInt (IntegralKind.byte.wrap (10 ^ 16)) ≠
      Double.ofInt (IntegralKind.byte.wrap (clampedInt (10 ^ 16))) := by decide +kernel
  exact hne (Coerced.number.inj (Option.some.inj (Except.ok.inj hanswers)))

/-- Once reformatted the document has the same keys and answers the same reads as a double, and as a
long gives the integer that the double is. -/
theorem wideDocument_reformatted : ∃ r s a t' r' s' a',
    Store.empty.openDocument wideDocument .truncate = .ok (r, s) ∧ s.adapter? r = some a ∧
      a.toText s (.ofInt 0) = .ok t' ∧ s.openDocument t' .truncate = .ok (r', s') ∧
      s'.adapter? r' = some a' ∧ a'.keys s' = a.keys s ∧
      a'.read s' .double (units "a") = a.read s .double (units "a") ∧
      a'.read s' .long (units "a") = .ok (some (.integer (10 ^ 16))) := by
  obtain ⟨r, s, a, t', hopen, ha, -, -, htext, hget⟩ := wideDocument_opened
  obtain ⟨r', s', a', hopen', ha', hkeys, hreads⟩ := reads_of_reformatted hopen ha htext s
  obtain ⟨hdouble, -⟩ := hreads (units "a") .double
  obtain ⟨-, hlong⟩ := hreads (units "a") .long
  obtain ⟨-, hlong⟩ := hlong .long _ _ rfl hget toInt?_wideNumeral (by decide) (by decide)
  rw [spelled_wideNumeral] at hlong
  refine ⟨r, s, a, t', r', s', a', hopen, ha, htext, hopen', ha', hkeys, hdouble ?_, hlong⟩
  intro kind hkind
  cases kind <;> cases hkind

/-- Once reformatted on one line the document still has the text that it had with two spaces for each
level, although its number is an integer now. -/
theorem wideDocument_text_reformatted : ∃ r s a t' r' s' a' t'',
    Store.empty.openDocument wideDocument .truncate = .ok (r, s) ∧ s.adapter? r = some a ∧
      a.toText s (.ofInt 0) = .ok t' ∧ s.openDocument t' .strict = .ok (r', s') ∧
      s'.adapter? r' = some a' ∧ a'.toText s' (.ofInt 0) = .ok t' ∧
      a.toText s (.ofInt 2) = .ok t'' ∧ a'.toText s' (.ofInt 2) = .ok t'' := by
  obtain ⟨r, s, a, t', hopen, ha, -, -, htext, -⟩ := wideDocument_opened
  obtain ⟨r', s', a', hopen', ha', hsame, hagain, htexts⟩ :=
    text_of_reformatted hopen ha htext s .strict
  obtain ⟨t'', htext''⟩ := htexts 2 (by decide)
  exact ⟨r, s, a, t', r', s', a', t'', hopen, ha, htext, hopen', ha', hagain,
    (hsame _).symm.trans htext'', htext''⟩

end TypedReads
