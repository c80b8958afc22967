import TypedReads.Proofs.Json.Scanning
import TypedReads.Proofs.Text.Quoting
import TypedReads.Proofs.Value.FirstOffence

/-!
# Paths are told apart by their texts

The text of a path is its steps one behind the other, so where one ends has to show. A key that is an
identifier ends at the next unit that belongs to none, an index at its bracket, and a quoted key at its
closing quote, every quote inside being escaped. `Step.read?` reads a step from the front of a text by
these rules and finds the step that was written there, whatever the key holds
(`Step.read?_toText_append`). So two paths with one text are the same path (`Path.toText_injective`),
and what an error says stands at a path stands nowhere else.
-/

namespace TypedReads

/-- Whether a code unit may stand behind the first in an identifier. -/
def CodeUnit.continuesIdentifier (u : CodeUnit) : Bool :=
  CodeUnit.startsIdentifier u || CodeUnit.isDigit u

/-- Reads a step from the front of the text of a path, and what stands behind it. -/
def Step.read? : Text → Option (Step × Text)
  | [] => none
  | first :: rest =>
    if first = unit '.' then
      some (.key (rest.takeWhile CodeUnit.continuesIdentifier),
        rest.dropWhile CodeUnit.continuesIdentifier)
    else if rest.head? = some (unit '"') then
      let key := Text.scanString rest.tail
      some (.key key.value, key.rest.tail)
    else
      let index := Text.scanDigits rest
      some (.index (ofDigits index.1), index.2.tail)

section Steps

/-- A text that starts with a step, or with nothing. -/
def StartsStep (t : Text) : Prop := ∀ u ∈ t.head?, u = unit '.' ∨ u = unit '['

/-- A key that is an identifier stands behind a point. -/
theorem Step.toText_identifier {k : Text} (h : Text.isIdentifier k = true) :
    (Step.key k).toText = unit '.' :: k := if_pos h

/-- Any other key stands between quotes and brackets. -/
theorem Step.toText_quoted {k : Text} (h : ¬ Text.isIdentifier k = true) :
    (Step.key k).toText = unit '[' :: unit '"' :: (k.escape ++ [unit '"', unit ']']) := by
  simp [Step.toText, h, Text.quote, units, unitsOf]

/-- An index stands in brackets by its digits. -/
theorem Step.toText_index (i : ℕ) :
    (Step.index i).toText = unit '[' :: (digitText (decimalDigits i) ++ [unit ']']) := by
  simp [Step.toText, Text.ofNat_eq, units, unitsOf]

/-- The text of a path is empty or begins with a step. -/
theorem startsStep_flatMap (p : Path) : StartsStep (p.flatMap Step.toText) := by
  intro u hu
  cases p with
  | nil => cases hu
  | cons step p =>
    rw [List.flatMap_cons] at hu
    cases step with
    | key k =>
      by_cases hk : Text.isIdentifier k = true
      · rw [Step.toText_identifier hk] at hu
        cases hu
        exact .inl rfl
      · rw [Step.toText_quoted hk] at hu
        cases hu
        exact .inr rfl
    | index i =>
      rw [Step.toText_index] at hu
      cases hu
      exact .inr rfl

/-- No step starts with a unit that could go on an identifier. -/
theorem StartsStep.continuesIdentifier {t : Text} (h : StartsStep t) :
    ∀ u ∈ t.head?, CodeUnit.continuesIdentifier u = false := by
  intro u hu
  obtain rfl | rfl := h u hu <;> decide

/-- The units of an identifier go on one. -/
theorem continuesIdentifier_of_mem {k : Text} (h : Text.isIdentifier k = true) :
    ∀ u ∈ k, CodeUnit.continuesIdentifier u = true := by
  cases k with
  | nil => cases h
  | cons first rest =>
    obtain ⟨hfirst, hrest⟩ := Bool.and_eq_true_iff.mp h
    refine List.forall_mem_cons.mpr ⟨?_, List.all_eq_true.mp hrest⟩
    unfold CodeUnit.continuesIdentifier
    rw [hfirst, Bool.true_or]

/-- An identifier is read up to the unit that does not go on it. -/
theorem takeWhile_identifier {k rest : Text} (hk : Text.isIdentifier k = true)
    (hrest : StartsStep rest) :
    (k ++ rest).takeWhile CodeUnit.continuesIdentifier = k ∧
      (k ++ rest).dropWhile CodeUnit.continuesIdentifier = rest := by
  have hunits := continuesIdentifier_of_mem hk
  rw [List.takeWhile_append_of_pos hunits, List.dropWhile_append_of_pos hunits]
  cases rest with
  | nil => simp
  | cons u rest =>
    have hu := hrest.continuesIdentifier u rfl
    rw [List.takeWhile_cons_of_neg (ne_true_of_eq_false hu),
      List.dropWhile_cons_of_neg (ne_true_of_eq_false hu), List.append_nil]
    exact ⟨rfl, rfl⟩

/-- A step is read back, and what was written behind it is left over. -/
theorem Step.read?_toText_append (step : Step) {rest : Text} (hrest : StartsStep rest) :
    Step.read? (step.toText ++ rest) = some (step, rest) := by
  cases step with
  | key k =>
    by_cases hk : Text.isIdentifier k = true
    · obtain ⟨htake, hdrop⟩ := takeWhile_identifier hk hrest
      rw [Step.toText_identifier hk, List.cons_append, Step.read?, if_pos rfl, htake, hdrop]
    · -- The quote that ends the key is the first that is not escaped; the bracket is behind it.
      have hscan := (stringText_escape k).scanString (unit ']' :: rest)
      rw [Step.toText_quoted hk, List.cons_append, List.cons_append, List.append_assoc, Step.read?,
        if_neg (by decide), if_pos List.head?_cons, List.tail_cons]
      dsimp only [List.cons_append, List.nil_append]
      rw [hscan]
      rfl
  | index i =>
    have hdigits : ∀ d ∈ decimalDigits i, d < 10 := fun d hd => lt_ten_of_mem_decimalDigits hd
    have hscan : Text.scanDigits (digitText (decimalDigits i) ++ unit ']' :: rest) =
        (decimalDigits i, unit ']' :: rest) := by
      refine scanDigits_digitText hdigits fun u hu => ?_
      obtain rfl := Option.some.inj hu
      decide
    -- A digit is no quote, so the brackets hold no key.
    have hquote : (digitText (decimalDigits i) ++ unit ']' :: rest).head? ≠ some (unit '"') := by
      obtain ⟨d, ds, hds⟩ := List.exists_cons_of_ne_nil (decimalDigits_ne_nil i)
      have hall : ∀ d < 10, digitUnit d ≠ unit '"' := by decide
      rw [hds] at hdigits ⊢
      exact fun h => hall d (hdigits d List.mem_cons_self) (Option.some.inj h)
    rw [Step.toText_index, List.cons_append, List.append_assoc, List.singleton_append, Step.read?,
      if_neg (by decide), if_neg hquote, hscan]
    dsimp only [List.tail_cons]
    rw [ofDigits_decimalDigits]

end Steps

/-- Paths with one text are the same. -/
theorem Path.toText_injective : Function.Injective Path.toText := by
  intro p q h
  have hsteps := List.tail_eq_of_cons_eq h
  clear h
  -- The first step of each is read from the text that they share.
  induction p generalizing q with
  | nil =>
    cases q with
    | nil => rfl
    | cons step q =>
      have hread := step.read?_toText_append (startsStep_flatMap q)
      rw [← List.flatMap_cons, ← hsteps] at hread
      cases hread
  | cons step p ih =>
    have hread := step.read?_toText_append (startsStep_flatMap p)
    rw [← List.flatMap_cons, hsteps] at hread
    cases q with
    | nil => cases hread
    | cons step' q =>
      rw [List.flatMap_cons, step'.read?_toText_append (startsStep_flatMap q)] at hread
      obtain ⟨rfl, hrest⟩ := Prod.mk.inj (Option.some.inj hread)
      rw [ih hrest.symm]

namespace Store

variable {s : Store} {root : Value} {e : EncodeError}

/-- The path of an error leads somewhere. -/
theorem exists_follow?_of_refused (hs : s.WellFormed) (h : s.toJson root = .error (.refused e)) :
    ∃ v, s.follow? root e.path = some v := by
  obtain ⟨cause, hencode, -⟩ := toJson_refused_iff.mp h
  -- The walk stops there, and every stop is at the end of its way.
  obtain ⟨stop, hstop, hobstacle⟩ :=
    List.exists_of_findSome?_eq_some (encode_error_iff_findSome?.mp hencode)
  obtain ⟨cause', -, heq⟩ := Option.map_eq_some_iff.mp hobstacle
  obtain ⟨v, hv, -⟩ := (located_of_mem_stops hs hstop).leads
  rw [(Obstacle.mk.inj heq).1] at hv
  exact ⟨v, hv⟩

end Store

/-- Access paths have different texts, whatever keys are on them. So the path of an error leads to one
position of the value, and no other position has a path with this text. -/
theorem error_path_names_one_position {s : Store} (hs : s.WellFormed) (root : Value) :
    (∀ p q : Path, p.foldl childText (units "$") = q.foldl childText (units "$") ↔ p = q) ∧
    ∀ e, (s.normalize root = .error (.refused e) ∨
        ∃ width, s.encodeText root width = .error (.refused e)) →
      ∃ v, s.follow? root e.path = some v ∧
        ∀ p w, s.follow? root p = some w →
          p.foldl childText (units "$") = e.path.foldl childText (units "$") →
          p = e.path ∧ w = v := by
  have htexts (p q : Path) :
      p.foldl childText (units "$") = q.foldl childText (units "$") ↔ p = q := by
    rw [← Path.toText_eq_foldl, ← Path.toText_eq_foldl]
    exact Path.toText_injective.eq_iff
  refine ⟨htexts, fun e he => ?_⟩
  -- Both encoders are refused for the same error, whose path can be followed.
  have hrefused : s.toJson root = .error (.refused e) := by
    obtain he | ⟨width, he⟩ := he
    · exact Store.normalize_refused_iff.mp he
    · exact Store.encodeText_refused_iff.mp he
  obtain ⟨v, hv⟩ := Store.exists_follow?_of_refused hs hrefused
  refine ⟨v, hv, fun p w hw htext => ?_⟩
  obtain rfl := (htexts p e.path).mp htext
  exact ⟨rfl, Option.some.inj (hw.symm.trans hv)⟩

/-- A record with a key that looks like the way to a member of its member. -/
def lookalikes : Store :=
  ⟨#[.record false [(units "a", .object 1), (units "a.b", .undefined)],
    .record false [(units "b", .null)]], 0⟩

/-- The error is at the key with the point in it, and the way through both members has another text. -/
theorem lookalikes_told_apart :
    lookalikes.WellFormed ∧
    lookalikes.encodeText (.object 0) (.ofInt 0) = .error (.refused
      ⟨[.key (units "a.b")], units "undefined is not representable in JSON"⟩) ∧
    (∀ p w, lookalikes.follow? (.object 0) p = some w →
      p.foldl childText (units "$") = units "$[\"a.b\"]" →
        p = [.key (units "a.b")] ∧ w = .undefined) ∧
    lookalikes.follow? (.object 0) [.key (units "a"), .key (units "b")] = some .null ∧
    [Step.key (units "a"), Step.key (units "b")].foldl childText (units "$") = units "$.a.b" := by
  have hwell : lookalikes.WellFormed := by decide
  have hinner : lookalikes.encodeWithin [0] (.object 1) = .ok (.object [(units "b", .null)]) := by
    rw [Store.encodeWithin_object (o := .record false [(units "b", .null)]) rfl]
    simp +decide [Store.contents, Entries.listing, Store.encodeEntries, Store.encodeWithin_leaf,
      Store.encodeLeaf, Except.map]
  -- The record within is encoded, so the second key is to blame.
  have hencode : lookalikes.encode (.object 0) =
      .error ⟨[.key (units "a.b")], .ofType "undefined"⟩ := by
    unfold Store.encode
    rw [Store.encodeWithin_object (o := .record false [(units "a", .object 1),
      (units "a.b", .undefined)]) rfl]
    simp +decide [Store.contents, Entries.listing, Store.encodeEntries, Store.encodeWithin_leaf,
      Store.encodeLeaf, hinner, Except.map, Obstacle.under, Obstacle.here, Value.typeName]
  have hrefused : lookalikes.encodeText (.object 0) (.ofInt 0) = .error (.refused
      ⟨[.key (units "a.b")], units "undefined is not representable in JSON"⟩) :=
    Store.encodeText_refused_iff.mpr (Store.toJson_refused_iff.mpr ⟨_, hencode, rfl⟩)
  obtain ⟨-, hposition⟩ := error_path_names_one_position hwell (.object 0)
  obtain ⟨v, hv, hunique⟩ := hposition _ (.inr ⟨_, hrefused⟩)
  cases hv
  exact ⟨hwell, hrefused, hunique, rfl, by decide⟩

end TypedReads
