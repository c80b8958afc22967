import TypedReads.Proofs.Json.Overflow
import TypedReads.Proofs.Read.Literal
import TypedReads.Proofs.Value.Positions

/-!
# Documents that cannot be written again

Everything in a document can be written again but a number that was too large for a double. An opened
document is encoded up to its first infinite number (`Opened.encode_of_firstInfinite`), which stands where
the first literal of the document overflows (`Tree.FirstOverflow`), so that its text fails exactly if there
is such a literal, and for it alone (`text_fails_at_first_overflow`).
-/

namespace TypedReads

namespace Store

variable {s : Store} {bound : Ref} {ancestors : List Ref}

section Encoding

variable (hancestors : ∀ a ∈ ancestors, bound ≤ a)

include hancestors

/-- Items are encoded up to one in front of which all are finite. -/
theorem encodeItems_until {vs : List Value} {js : List Json} (h : s.RepresentsItems bound vs js)
    (hnormal : Json.NormalItems js) {i : ℕ} {j : Json} (hbefore : Json.FiniteItems (js.take i))
    (hi : js[i]? = some j) (k : ℕ) :
    ∃ v js', vs[i]? = some v ∧ s.Represents bound v j ∧ j.Normal ∧
      encodeItems (s.encodeWithin ancestors) k (vs.take i) = .ok js' := by
  induction i generalizing vs js k with
  | zero =>
    cases h with
    | nil => cases hi
    | @cons _ v _ _ _ h _ =>
      cases hi
      exact ⟨v, [], rfl, h, hnormal.1, rfl⟩
  | succ i ih =>
    cases h with
    | nil => cases hi
    | @cons _ v j' vs js h hrest =>
      obtain ⟨w, js', hw, hrep, hj, hok⟩ := ih hrest hnormal.2 hbefore.2 hi (k + 1)
      refine ⟨w, j' :: js', hw, hrep, hj, ?_⟩
      rw [List.take_succ_cons, encodeItems, encodeWithin_represents h hnormal.1 hbefore.1 hancestors]
      dsimp only
      rw [hok]

/-- Entries are encoded up to one in front of which all are finite. -/
theorem encodeEntries_until {es : Entries Value Value} {ms : List (Text × Json)}
    (h : List.Forall₂ (RepresentsEntry s bound) ms es) (hnormal : Json.NormalMembers ms) {i : ℕ}
    {key : Text} {j : Json} (hbefore : Json.FiniteMembers (ms.take i))
    (hi : ms[i]? = some (key, j)) :
    ∃ v ms', es[i]? = some (.text key, v) ∧ s.Represents bound v j ∧ j.Normal ∧
      encodeEntries (s.encodeWithin ancestors) (es.take i) = .ok ms' := by
  induction i generalizing es ms with
  | zero =>
    cases h with
    | nil => cases hi
    | @cons _ e _ _ he hes =>
      obtain ⟨key', v⟩ := e
      obtain ⟨rfl, hrep⟩ := he
      cases hi
      exact ⟨v, [], rfl, hrep, hnormal.1, rfl⟩
  | succ i ih =>
    cases h with
    | nil => cases hi
    | @cons member e ms es he hes =>
      obtain ⟨key', j'⟩ := member
      obtain ⟨key'', v⟩ := e
      obtain ⟨rfl, hrep⟩ := he
      obtain ⟨w, ms', hw, hrep', hj, hok⟩ := ih hes hnormal.2 hbefore.2 hi
      refine ⟨w, (key', j') :: ms', hw, hrep', hj, ?_⟩
      rw [List.take_succ_cons, encodeEntries,
        encodeWithin_represents hrep hnormal.1 hbefore.1 hancestors]
      dsimp only
      rw [hok]

end Encoding

/-- A value is refused for the first number in it that is not finite. -/
theorem encodeWithin_of_firstInfinite {j : Json} {path : Path} {x : Double}
    (h : j.FirstInfinite path x) {v : Value} (hv : s.Represents bound v j) (hnormal : j.Normal)
    (hancestors : ∀ a ∈ ancestors, bound ≤ a) :
    s.encodeWithin ancestors v = .error ⟨path, .number x⟩ := by
  induction h generalizing bound v ancestors with
  | @here x hx =>
    cases hv
    have hleaf : ∀ r, Value.number x ≠ .object r := fun r hr => by cases hr
    rw [encodeWithin_leaf hleaf, encodeLeaf, if_neg (Bool.eq_false_iff.mp hx)]
    rfl
  -- Whatever stands before the part on the path is encoded.
  | item hbefore hi _ ih =>
    cases hv with
    | array hlt hr hitems =>
      have hinner := le_ancestors hancestors hlt
      obtain ⟨part, js, hpart, hrep, hj, hok⟩ :=
        encodeItems_until hinner hitems hnormal hbefore hi 0
      exact (Enters.item hr (contents_ofItems s _) (not_mem_ancestors hancestors hlt) hok
        hpart).encodeWithin_under (ih hrep hj hinner)
  | member hbefore hi _ ih =>
    cases hv with
    | object hlt hr hmembers =>
      have hinner := le_ancestors hancestors hlt
      obtain ⟨part, ms, hpart, hrep, hj, hok⟩ :=
        encodeEntries_until hinner hmembers.pairs hnormal.2.2 hbefore hi
      exact (Enters.entry hr (contents_represents hmembers hnormal)
        (not_mem_ancestors hancestors hlt) hok hpart).encodeWithin_under (ih hrep hj hinner)

/-- An opened document is refused for the first number in it that is not finite. -/
theorem Opened.encode_of_firstInfinite {a : Adapter} {es : Entries Text Json} (h : s.Opened a es)
    (hnormal : Json.NormalMembers es) {path : Path} {x : Double}
    (hfirst : (Json.object es).FirstInfinite path x) :
    s.encode (.object a.backing) = .error ⟨path, .number x⟩ := by
  cases hfirst with
  | member hbefore hi hfirst =>
    have hinner : ∀ b ∈ [a.backing], a.backing ≤ b := fun b hb => (List.mem_singleton.mp hb).ge
    obtain ⟨part, ms, hpart, hrep, hj, hok⟩ :=
      encodeEntries_until hinner h.entries hnormal hbefore hi
    exact (Enters.entry h.backing rfl List.not_mem_nil hok hpart).encodeWithin_under
      (encodeWithin_of_firstInfinite hfirst hrep hj hinner)

/-- The text of such a document fails for that number. -/
theorem Opened.toText_of_firstInfinite {a : Adapter} {es : Entries Text Json} (h : s.Opened a es)
    (hnormal : Json.NormalMembers es) {path : Path} {x : Double}
    (hfirst : (Json.object es).FirstInfinite path x) (width : Double) :
    a.toText s width = .error (.refused
      ⟨path, x.toText ++ units " is not representable in JSON"⟩) :=
  encodeText_refused_iff.mpr
    (toJson_refused_iff.mpr ⟨_, h.encode_of_firstInfinite hnormal hfirst, rfl⟩)

end Store

namespace Tree

variable {members : List (Text × Tree)}

/-- The entries of an opened document stand in the order in which their keys were first written. -/
theorem stands_root (members : List (Text × Tree)) :
    Stands (fun a b => (Entries.keys members).idxOf a < (Entries.keys members).idxOf b) members
      (Entries.ofPairs (Json.normalizeMembers (toJsonMembers members))) := by
  obtain ⟨hkeys, horder⟩ := Entries.keys_ofPairs (Json.normalizeMembers (toJsonMembers members))
  rw [Json.keys_normalizeMembers, keys_toJsonMembers] at hkeys horder
  refine ⟨hkeys, horder, fun key j tree hmem hlast => ?_⟩
  have hget := Document.get?_of_lastMember hlast
  rw [(Entries.get?_eq_some_iff (Entries.nodup_keys_ofPairs _)).mpr hmem] at hget
  cases hget
  exact tree.denotes

/-- A numeral that overflows at a place of a document, before all others that do. -/
structure FirstOverflow (members : List (Text × Tree)) (path : Path) (n : Numeral) : Prop where
  /-- It is left in the document. -/
  survives : (Tree.object members).Survives path n
  /-- It overflows. -/
  overflows : n.Overflows
  /-- All others that are left and overflow stand behind it. -/
  first : ∀ path' n', (Tree.object members).Survives path' n' → n'.Overflows →
    path' = path ∨ RootBefore members path path'

/-- A document has one such place and numeral. -/
theorem FirstOverflow.unique {path path' : Path} {n n' : Numeral} (h : FirstOverflow members path n)
    (h' : FirstOverflow members path' n') : path = path' ∧ n = n' := by
  have hpath : path = path' := by
    rcases h.first path' n' h'.survives h'.overflows with heq | hbefore
    · exact heq.symm
    · rcases h'.first path n h.survives h.overflows with heq | hbefore'
      · exact heq
      · exact absurd hbefore' hbefore.asymm
  subst hpath
  exact ⟨rfl, h.survives.unique h'.survives⟩

variable {es : Entries Text Json}
  (hes : Stands (fun a b => (Entries.keys members).idxOf a < (Entries.keys members).idxOf b) members es)

include hes

/-- The first infinite number of the entries stands where the first numeral overflows. -/
theorem Stands.firstOverflow {path : Path} {x : Double}
    (h : (Json.object es).FirstInfinite path x) :
    ∃ n, FirstOverflow members path n ∧ x = .infinite n.negative := by
  cases h with
  | @member _ i key j path _ hbefore hi h =>
    obtain ⟨tree, hlast, hj⟩ := hes.exists_tree hi
    obtain ⟨n, hn, hover, hx⟩ := h.survives hj
    refine ⟨n, ⟨.member hlast hn, hover, fun q n' hq hover' => ?_⟩, hx⟩
    cases hq with
    | @member _ key' tree' q _ hlast' hq =>
      rcases hes.first hbefore hi hlast' hq hover' with hlt | ⟨rfl, hj'⟩
      · exact .inr (.members hlt)
      · rcases h.first hj' hq hover' with rfl | hq
        · exact .inl rfl
        · exact .inr (.member hlast' hq)

/-- Where a numeral overflows, the entries are not finite. -/
theorem Stands.not_finite {path : Path} {n : Numeral} (h : (Tree.object members).Survives path n)
    (hn : n.Overflows) : ¬ Json.FiniteMembers es := by
  cases h with
  | member hlast h =>
    obtain ⟨i, j, hi, hj⟩ := hes.exists_entry hlast
    intro hfinite
    exact h.not_finite hn hj (Json.numbersMembers_iff.mp hfinite _ (List.mem_of_getElem? hi))

end Tree

/-- A document that was opened is a text of the grammar. Its adapter fails to give a text, at any width
that a text has room for, exactly if a literal that is left in the document overflows. The error is that
of the first such literal in listing order: it has the path to the literal and names the infinity of its
sign. -/
theorem text_fails_at_first_overflow {s₀ s : Store} {t : Text} {mode : Narrowing} {r : Ref}
    {a : Adapter} (hopen : s₀.openDocument t mode = .ok (r, s)) (ha : s.adapter? r = some a) :
    (∃ members, DocumentText t (.object members)) ∧
    ∀ members, DocumentText t (.object members) → ∀ indent : ℕ, indent ≤ maxTextLength →
      ((∃ e, a.toText s (.ofInt indent) = .error e) ↔
        ∃ path n, (Tree.object members).Survives path n ∧ n.Overflows) ∧
      ∀ e, a.toText s (.ofInt indent) = .error e ↔
        ∃ path n, Tree.FirstOverflow members path n ∧ e = .refused ⟨path,
          (if n.negative then units "-Infinity" else units "Infinity") ++
            units " is not representable in JSON"⟩ := by
  obtain ⟨-, htext, hopened⟩ := Store.opened_of_text hopen ha
  refine ⟨htext, fun members hmembers indent hindent => ?_⟩
  have hopened := hopened members hmembers
  have hstands := Tree.stands_root members
  have hnormal := (Json.normalizeMembers_normal (Tree.toJsonMembers members)).ofPairs
  -- Of the members read, only that the tree stands in them matters from here on.
  generalize Entries.ofPairs (Json.normalizeMembers (Tree.toJsonMembers members)) = es at *
  by_cases hfinite : Json.FiniteMembers es
  · -- Everything is written, and no literal overflows.
    have hok := hopened.toText_of_finite hnormal hfinite (spacesOf_ofInt hindent)
    have hnone : ∀ path n, (Tree.object members).Survives path n → ¬ n.Overflows :=
      fun path n h hn => hstands.not_finite h hn hfinite
    rw [hok]
    refine ⟨⟨nofun, ?_⟩, fun e => ⟨nofun, ?_⟩⟩
    · rintro ⟨path, n, h, hn⟩
      exact absurd hn (hnone path n h)
    · rintro ⟨path, n, h, -⟩
      exact absurd h.overflows (hnone path n h.survives)
  · -- The first number that is not finite is that of the first literal that overflows.
    obtain ⟨path, x, hfirst⟩ := Json.exists_firstInfinite (j := .object es) hfinite
    obtain ⟨n, hn, rfl⟩ := hstands.firstOverflow hfirst
    have herror := hopened.toText_of_firstInfinite hnormal hfirst (.ofInt indent)
    rw [herror]
    refine ⟨⟨fun _ => ⟨path, n, hn.survives, hn.overflows⟩, fun _ => ⟨_, rfl⟩⟩, fun e => ⟨?_, ?_⟩⟩
    · intro he
      exact ⟨path, n, hn, (Except.error.inj he).symm⟩
    · rintro ⟨path', n', hn', rfl⟩
      obtain ⟨rfl, rfl⟩ := hn.unique hn'
      rfl

/-- A literal below all doubles, written in a document. -/
def overflowingDocument : Text := units "\x7b\"a\":-1e400\x7d"

/-- Its numeral. -/
def overflowingNumeral : Numeral := ⟨true, [1], none, some 400⟩

/-- The grammar has the document. -/
theorem overflowingDocument_text :
    DocumentText overflowingDocument (.object [(units "a", .number overflowingNumeral)]) := by
  have hkey : StringText (units "a") (units "a") :=
    .cons (.raw (by decide) (by decide) (by decide)) .nil
  have hwhole : WholeDigits overflowingNumeral.whole := ⟨by decide, by decide, by decide⟩
  have hexponent : ExponentText (unit 'e' :: [] ++ digitText [4, 0, 0]) (some 400) :=
    @ExponentText.power _ [] false [4, 0, 0] (.inl rfl) .absent (by decide) (by decide)
  have hnumeral := @NumeralText.mk true _ _ _ _ _ hwhole .absent hexponent
  have htext : unit '\x7b' :: (quoted (units "a") ++ unit ':' ::
      (minusText true ++ digitText overflowingNumeral.whole ++ [] ++
        (unit 'e' :: [] ++ digitText [4, 0, 0]))) ++ [unit '\x7d'] = overflowingDocument := by decide
  rw [← htext]
  exact .single hkey (.number hnumeral)

/-- The document is opened and has no text, with spaces or without. -/
theorem overflowingDocument_fails : ∃ r s a,
    Store.empty.openDocument overflowingDocument .truncate = .ok (r, s) ∧ s.adapter? r = some a ∧
      ∀ indent : ℕ, indent ≤ 10 → a.toText s (.ofInt indent) = .error (.refused
        ⟨[.key (units "a")], units "-Infinity is not representable in JSON"⟩) := by
  have hentries := Document.entries_of_text overflowingDocument_text
  obtain ⟨r, s, a, hopen, ha, -⟩ := Store.empty.openDocument_ok hentries .truncate
  have hlast : LastMember [(units "a", .number overflowingNumeral)] (units "a")
      (.number overflowingNumeral) := ⟨[], [], rfl, fun e he => absurd he List.not_mem_nil⟩
  have hover : overflowingNumeral.Overflows := Numeral.overflows_iff.mpr (by decide +kernel)
  have hsurvives : (Tree.object [(units "a", .number overflowingNumeral)]).Survives
      [.key (units "a")] overflowingNumeral := .member hlast (.here _)
  obtain ⟨-, hfails⟩ := text_fails_at_first_overflow hopen ha
  refine ⟨r, s, a, hopen, ha, fun indent hindent => ?_⟩
  have hroom : indent ≤ maxTextLength := hindent.trans (by decide)
  obtain ⟨⟨-, hfailure⟩, herror⟩ := hfails _ overflowingDocument_text indent hroom
  obtain ⟨e, he⟩ := hfailure ⟨_, _, hsurvives, hover⟩
  obtain ⟨path, n, hfirst, rfl⟩ := (herror e).mp he
  obtain ⟨rfl, rfl⟩ : path = [.key (units "a")] ∧ n = overflowingNumeral := by
    cases hfirst.survives with
    | member hlast' h =>
      obtain rfl := List.mem_singleton.mp hlast'.mem_keys
      cases hlast.unique hlast'
      cases h
      exact ⟨rfl, rfl⟩
  exact he

end TypedReads
