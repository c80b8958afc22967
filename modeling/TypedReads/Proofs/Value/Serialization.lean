import TypedReads.Proofs.Text.CodePoints
import TypedReads.Proofs.Value.TreeCopy
import TypedReads.Proofs.Value.Texts

/-!
# The standard serialization

`Store.serialize` is the standard serialization of values as JSON, step by step: it walks the value and
writes the text at once, with the indentation of the current line as its state. Going into a container it
adds the gap to the indentation, and coming out it steps back. What has no JSON form is left out of an
object, is null in an array, and has no text on its own.

The writer goes another way. It makes a JSON value first, and then lays it out counting spaces. On a value
built from null, booleans, finite numbers, texts, arrays and plain objects both give the same text
(`Store.encodeText_eq_serialize`). The induction is on how the value is built; a step leaves the indentation
as it was, so that the state of the one is the depth of the other.
-/

namespace TypedReads

/-- Why a value is not serialized. -/
inductive SerializeFault where
  /-- An object inside itself. -/
  | cycle
  /-- An integer that is kept exact. -/
  | exactInteger
  /-- An object whose text is up to its class, or to a function that it holds. -/
  | custom

/-- Serializing, with the indentation of the current line as the state. -/
abbrev Serialization (α : Type) : Type := StateT Text (Except SerializeFault) α

/-- The parts of a container between two marks. With a gap each part has a line of its own, which starts with
`indent`, and the last mark one that starts with `stepback`. -/
def bracketed (first last : Char) (gap stepback indent : Text) (parts : List Text) : Text :=
  if parts.isEmpty then [unit first, unit last]
  else if gap.isEmpty then
    [unit first] ++ List.intercalate (units ",") parts ++ [unit last]
  else
    let separator := units ",\n" ++ indent
    [unit first] ++ units "\n" ++ indent ++ List.intercalate separator parts ++ units "\n" ++ stepback ++
      [unit last]

/-- Serializes the parts of a container with more indentation, and puts them together. -/
def serializeParts (first last : Char) (gap : Text) (parts : Serialization (List Text)) :
    Serialization Text := do
  let stepback ← get
  set (stepback ++ gap)
  let texts ← parts
  -- The parts step back themselves, so this is the indentation that they began with.
  let indent ← get
  set stepback
  return bracketed first last gap stepback indent texts

/-- Serializes the items of an array. One without a text stands as null. -/
def serializeItems (serialize : Value → Serialization (Option Text)) :
    List Value → Serialization (List Text)
  | [] => return []
  | v :: rest => do
    let text? ← serialize v
    let texts ← serializeItems serialize rest
    return text?.getD (units "null") :: texts

/-- Serializes the members of an object. One without a text is left out. -/
def serializeMembers (gap : Text) (serialize : Value → Serialization (Option Text)) :
    List (Text × Value) → Serialization (List Text)
  | [] => return []
  | (key, v) :: rest => do
    let text? ← serialize v
    let texts ← serializeMembers gap serialize rest
    match text? with
    | none => return texts
    | some text =>
      let colon := if gap.isEmpty then units ":" else units ":" ++ units " "
      return (key.quotePoints ++ colon ++ text) :: texts

/-- The gap of a width: at most ten spaces, and none for what is no number or less than one. -/
def gapOf (width : Double) : Text :=
  match width with
  | .nan | .infinite true => []
  | .infinite false => spaces 10
  | .finite .. => spaces (min 10 (width.trunc?.getD 0).toNat)

/-- Whether an object has a function that is asked for what to serialize in its place. -/
def customized (members : Entries Text Value) : Bool :=
  match members.get? (units "toJSON") with
  | some (.function _) => true
  | _ => false

namespace Store

/-- Serializes a value inside the objects on a stack. Values of types that JSON lacks have no text. -/
def serializeProperty (s : Store) (gap : Text) (stack : List Ref) (v : Value) :
    Serialization (Option Text) :=
  match v with
  | .null => return some (units "null")
  | .bool true => return some (units "true")
  | .bool false => return some (units "false")
  | .text t => return some t.quotePoints
  | .number x => return some (if x.isFinite then x.toText else units "null")
  | .integer _ => throw .exactInteger
  | .undefined | .symbol .. | .function _ => return none
  | .object r =>
    match h : s.get? r with
    | none => return none
    | some o =>
      match o with
      | .array slots =>
        if hr : r ∈ stack then throw .cycle
        else
          have := unvisited_cons_lt (mem_refs_of_get? h) hr
          some <$> serializeParts '[' ']' gap
            (serializeItems (serializeProperty s gap (r :: stack)) (slotItems slots))
      | .record _ members =>
        -- The function is asked before anything else is looked at, a cycle included.
        if customized members then throw .custom
        else if hr : r ∈ stack then throw .cycle
        else
          have := unvisited_cons_lt (mem_refs_of_get? h) hr
          some <$> serializeParts '\x7b' '\x7d' gap
            (serializeMembers gap (serializeProperty s gap (r :: stack)) members.listing)
      | _ => throw .custom
termination_by unvisited s.refs stack

/-- The text of a value with a width of indentation, if it has one. -/
def serialize (s : Store) (v : Value) (width : Double) : Except SerializeFault (Option Text) :=
  ((s.serializeProperty (gapOf width) [] v).run []).map Prod.fst

/-- A value built from null, booleans, finite numbers, texts, arrays and plain objects. -/
inductive Built (s : Store) : Value → Prop
  | null : Built s .null
  | bool (b : Bool) : Built s (.bool b)
  | number {x : Double} (hx : x.isFinite = true) : Built s (.number x)
  | text (t : Text) : Built s (.text t)
  | array {r : Ref} {vs : List Value} (hr : s.get? r = some (.ofItems vs))
      (h : ∀ v ∈ vs, Built s v) : Built s (.object r)
  | record {r : Ref} {bare : Bool} {members : Entries Text Value}
      (hr : s.get? r = some (.record bare members)) (h : ∀ e ∈ members, Built s e.2) :
      Built s (.object r)

end Store

/-- What follows a step that succeeds goes on with its result and its indentation. -/
theorem run_bind_of_ok {α β : Type} {x : Serialization α} {f : α → Serialization β} {a : α}
    {indent indent' : Text} (h : x.run indent = .ok (a, indent')) :
    (x >>= f).run indent = (f a).run indent' := by
  rw [StateT.run_bind, h]
  rfl

section Layout

variable {n depth : ℕ} {first last : Char} {texts : List Text}

/-- Spaces behind spaces are as many together. -/
theorem spaces_append (depth n : ℕ) : spaces depth ++ spaces n = spaces (depth + n) :=
  List.replicate_append_replicate

/-- No spaces are empty. -/
theorem isEmpty_spaces : (spaces n).isEmpty = true ↔ n = 0 := by
  simp [spaces]

/-- Indentation that is a number of spaces is counted. -/
theorem bracketed_spaces (texts : List Text) :
    bracketed first last (spaces n) (spaces depth) (spaces (depth + n)) texts =
      layoutParts first last n depth texts := by
  have hcomma : units "," = [unit ','] := by decide
  have hline : units "\n" = [unit '\n'] := by decide
  have hseparator : units ",\n" = [unit ',', unit '\n'] := by decide
  unfold bracketed layoutParts
  simp only [isEmpty_spaces, hcomma, hline, hseparator, List.append_assoc, List.cons_append,
    List.nil_append]

/-- Parts that are serialized one level down make the container, and the indentation is as it was. -/
theorem run_serializeParts {parts : Serialization (List Text)}
    (h : parts.run (spaces (depth + n)) = .ok (texts, spaces (depth + n))) :
    (serializeParts first last (spaces n) parts).run (spaces depth) =
      .ok (layoutParts first last n depth texts, spaces depth) := by
  unfold serializeParts
  simp only [StateT.run_bind, StateT.run_get, StateT.run_set, spaces_append, pure_bind, h]
  rw [← bracketed_spaces]
  rfl

end Layout

namespace Store

section Agreement

variable {n : ℕ} {encode : Value → Except Obstacle Json}
  {serialize : Value → Serialization (Option Text)}

/-- A value that is encoded, and serialized at every depth as its encoding is written there. The indentation
is left as it was. -/
def Agrees (n : ℕ) (encode : Value → Except Obstacle Json)
    (serialize : Value → Serialization (Option Text)) (v : Value) : Prop :=
  ∃ j, encode v = .ok j ∧
    ∀ depth, (serialize v).run (spaces depth) = .ok (some (j.writeAt n depth), spaces depth)

/-- Items on which the two agree have parts on which they agree. -/
theorem agrees_items {vs : List Value} (h : ∀ v ∈ vs, Agrees n encode serialize v) (i : ℕ) :
    ∃ js, encodeItems encode i vs = .ok js ∧
      ∀ depth, (serializeItems serialize vs).run (spaces depth) =
        .ok (Json.writeItems n depth js, spaces depth) := by
  induction vs generalizing i with
  | nil => exact ⟨[], rfl, fun depth => rfl⟩
  | cons v rest ih =>
    obtain ⟨⟨j, hj, htext⟩, hrest⟩ := List.forall_mem_cons.mp h
    obtain ⟨js, hjs, htexts⟩ := ih hrest (i + 1)
    refine ⟨j :: js, ?_, fun depth => ?_⟩
    · rw [encodeItems, hj]
      dsimp only
      rw [hjs]
    · rw [serializeItems, run_bind_of_ok (htext depth), run_bind_of_ok (htexts depth)]
      rfl

/-- A key is written as it is serialized. -/
theorem layoutKey_eq (n : ℕ) (key : Text) :
    layoutKey n key =
      key.quotePoints ++ if (spaces n).isEmpty then units ":" else units ":" ++ units " " := by
  have hcolon : units ": " = units ":" ++ units " " := by decide
  simp only [layoutKey, Text.quote_eq_quotePoints, isEmpty_spaces, hcolon]

/-- Members on whose values the two agree have parts on which they agree. -/
theorem agrees_members {es : List (Text × Value)} (h : ∀ e ∈ es, Agrees n encode serialize e.2) :
    ∃ members, encodeEntries encode (es.map fun e => (.text e.1, e.2)) = .ok members ∧
      ∀ depth, (serializeMembers (spaces n) serialize es).run (spaces depth) =
        .ok (Json.writeMembers n depth members, spaces depth) := by
  induction es with
  | nil => exact ⟨[], rfl, fun depth => rfl⟩
  | cons e rest ih =>
    obtain ⟨key, v⟩ := e
    obtain ⟨⟨j, hj, htext⟩, hrest⟩ := List.forall_mem_cons.mp h
    obtain ⟨members, hmembers, htexts⟩ := ih hrest
    refine ⟨(key, j) :: members, ?_, fun depth => ?_⟩
    · rw [List.map_cons, encodeEntries, hj]
      dsimp only
      rw [hmembers]
    · rw [serializeMembers, run_bind_of_ok (htext depth), run_bind_of_ok (htexts depth),
        Json.writeMembers, layoutKey_eq]
      rfl

end Agreement

variable {s : Store} {v : Value}

/-- Nothing that is built holds itself. -/
theorem Built.acyclic (h : s.Built v) : s.Acyclic v := by
  refine acyclic_of_acc ?_
  have hleaf : ∀ {w : Value}, (∀ r, w ≠ .object r) → Acc (fun part v => s.Part v part) w :=
    fun hw => ⟨_, fun part hpart => absurd hpart (not_part_of_primitive hw part)⟩
  induction h with
  | null | bool _ | number _ | text _ => exact hleaf (by simp)
  | array hr _ ih => exact ⟨_, fun part hpart => ih part (by simpa using hpart.mem_parts hr)⟩
  | record hr _ ih =>
    refine ⟨_, fun part hpart => ?_⟩
    obtain ⟨e, he, rfl | rfl⟩ := exists_entry_of_part rfl (hpart.mem_parts hr)
    · obtain ⟨d, -, rfl⟩ := List.mem_map.mp he
      exact hleaf (by simp)
    · obtain ⟨d, hd, rfl⟩ := List.mem_map.mp he
      exact ih d ((Entries.listing_perm _).mem_iff.mp hd)

variable {n : ℕ} {stack : List Ref} {r : Ref}

/-- How an object is serialized, by what stands at its place. -/
theorem serializeProperty_object {o : Object} (gap : Text) (hr : s.get? r = some o) (stack : List Ref) :
    s.serializeProperty gap stack (.object r) =
      match o with
      | .array slots =>
        if r ∈ stack then throw .cycle
        else
          some <$> serializeParts '[' ']' gap
            (serializeItems (s.serializeProperty gap (r :: stack)) (slotItems slots))
      | .record _ members =>
        if customized members then throw .custom
        else if r ∈ stack then throw .cycle
        else
          some <$> serializeParts '\x7b' '\x7d' gap
            (serializeMembers gap (s.serializeProperty gap (r :: stack)) members.listing)
      | _ => throw .custom := by
  -- As for encoding, the match on the lookup is split.
  rw [serializeProperty.eq_def]
  dsimp only
  split
  · rename_i hnone
    rw [hr] at hnone
    cases hnone
  · rename_i o' ho
    rw [hr] at ho
    cases ho
    cases o <;> rfl

/-- A built value is no function, so nothing is asked for in the place of an object of built values. -/
theorem customized_eq_false {members : Entries Text Value} (h : ∀ e ∈ members, s.Built e.2) :
    customized members = false := by
  unfold customized
  split
  · rename_i mark hmark
    nomatch h _ (Entries.mem_of_get? hmark)
  · rfl

/-- What is no object is encoded and serialized on its own. -/
theorem agrees_leaf (hv : ∀ r, v ≠ .object r) {j : Json} (hj : encodeLeaf v = .ok j)
    (htext : ∀ depth, s.serializeProperty (spaces n) stack v = pure (some (j.writeAt n depth))) :
    Agrees n (s.encodeWithin stack) (s.serializeProperty (spaces n) stack) v := by
  refine ⟨j, ?_, fun depth => ?_⟩
  · rw [encodeWithin_leaf hv, hj]
  · rw [htext depth]
    rfl

/-- A built value is serialized as its encoding is written, inside any objects that it does not hold. -/
theorem Built.agrees (h : s.Built v) : ∀ stack, s.Apart stack v →
    Agrees n (s.encodeWithin stack) (s.serializeProperty (spaces n) stack) v := by
  induction h with
  | null =>
    intro stack _
    exact agrees_leaf (by simp) rfl fun depth => by rw [serializeProperty, Json.writeAt]
  | bool b =>
    intro stack _
    refine agrees_leaf (by simp) rfl fun depth => ?_
    cases b <;> rw [serializeProperty, Json.writeAt] <;> rfl
  | @number x hx =>
    intro stack _
    refine agrees_leaf (by simp) (if_pos hx) fun depth => ?_
    rw [serializeProperty, if_pos hx, Json.writeAt]
  | text t =>
    intro stack _
    refine agrees_leaf (by simp) rfl fun depth => ?_
    rw [serializeProperty, Json.writeAt, Text.quote_eq_quotePoints]
  | @array r vs hr hvs ih =>
    intro stack hstack
    -- The array joins the stack, and none of its items holds it.
    have hacyclic := Built.acyclic (.array hr hvs)
    obtain ⟨js, hjs, htexts⟩ := agrees_items (n := n)
      (fun w hw => ih w hw (r :: stack) (hstack.cons_part hacyclic (.of_get? hr (by simpa using hw)))) 0
    refine ⟨.array js, ?_, fun depth => ?_⟩
    · rw [encodeWithin_object hr]
      simp only [contents_ofItems, if_neg hstack.not_mem, hjs]
      rfl
    · rw [serializeProperty_object (spaces n) hr]
      simp only [slotItems_map_some, if_neg hstack.not_mem, StateT.run_map,
        run_serializeParts (htexts (depth + n))]
      rfl
  | @record r bare members hr hmembers ih =>
    intro stack hstack
    have hacyclic := Built.acyclic (.record hr hmembers)
    -- The members are taken in listing order, which changes their places but not what they are.
    have hlisted : ∀ e ∈ members.listing,
        Agrees n (s.encodeWithin (r :: stack)) (s.serializeProperty (spaces n) (r :: stack)) e.2 := by
      intro e he
      obtain ⟨-, hpart⟩ := mem_parts_of_entries (s := s) (o := .record bare members) rfl
        (List.mem_map_of_mem he)
      exact ih e ((Entries.listing_perm _).mem_iff.mp he) (r :: stack)
        (hstack.cons_part hacyclic (.of_get? hr hpart))
    obtain ⟨js, hjs, htexts⟩ := agrees_members hlisted
    refine ⟨.object js, ?_, fun depth => ?_⟩
    · rw [encodeWithin_object hr]
      simp only [contents, if_neg hstack.not_mem, hjs]
      rfl
    · rw [serializeProperty_object (spaces n) hr]
      simp only [customized_eq_false hmembers, Bool.false_eq_true, if_false, if_neg hstack.not_mem,
        StateT.run_map, run_serializeParts (htexts (depth + n))]
      rfl

/-- A width of up to ten spaces is a gap of as many. -/
theorem gapOf_of_trunc? {width : Double} (hwidth : width.trunc? = some (n : ℤ)) (hn : n ≤ 10) :
    gapOf width = spaces n := by
  cases width with
  | finite negative rank =>
    rw [gapOf, hwidth]
    simp only [Option.getD_some, Int.toNat_natCast, Nat.min_eq_right hn]
  | _ => cases hwidth

/-- A built value is written, and as it is serialized, at every width whose whole part is from zero to ten. -/
theorem encodeText_eq_serialize (hv : s.Built v) {width : Double} (hwidth : width.trunc? = some (n : ℤ))
    (hn : n ≤ 10) :
    ∃ t, s.encodeText v width = .ok t ∧ s.serialize v width = .ok (some t) := by
  obtain ⟨j, hj, htext⟩ := hv.agrees (n := n) [] (apart_nil v)
  have hspaces : spacesOf width = .ok n := by
    have hroom : n ≤ maxTextLength := hn.trans (by decide)
    exact spacesOf_of_trunc? hwidth ⟨Int.natCast_nonneg n, by exact_mod_cast hroom⟩
  refine ⟨j.write n, encodeText_of_encode hj hspaces, ?_⟩
  have hrun : (s.serializeProperty (spaces n) [] v).run [] = .ok (some (j.write n), []) := htext 0
  rw [serialize, gapOf_of_trunc? hwidth hn, hrun]
  rfl

end Store

/-- A store where a record lists a key that is an index before one that needs an escape, and holds empty
containers. -/
def crates : Store :=
  ⟨#[.ofItems [], .record true [], .ofItems [.null, .bool true, .number (.ofInt 7), .object 0],
    .record false [(units "b\"", .object 2), (units "1", .object 1)]], 0⟩

/-- The lines of the record. -/
def cratesText : Text := units
  "\x7b\n  \"1\": \x7b\x7d,\n  \"b\\\"\": [\n    null,\n    true,\n    7,\n    []\n  ]\n\x7d"

/-- What the record is encoded as. -/
theorem encode_crates : crates.encode (.object 3) =
    .ok (.object [(units "1", .object []),
      (units "b\"", .array [.null, .bool true, .number (.ofInt 7), .array []])]) := by
  have harray : crates.encodeWithin [2, 3] (.object 0) = .ok (.array []) := by
    rw [Store.encodeWithin_object (o := .ofItems []) rfl]
    simp [Store.contents_ofItems, Store.encodeItems, Except.map]
  have hrecord : crates.encodeWithin [3] (.object 1) = .ok (.object []) := by
    rw [Store.encodeWithin_object (o := .record true []) rfl]
    simp [Store.contents, Entries.listing, Store.encodeEntries, Except.map]
  have hfinite : (Double.ofInt 7).isFinite = true :=
    Double.isFinite_of_toInt? (Double.toInt?_ofInt (by decide))
  have hitems : crates.encodeWithin [3] (.object 2) =
      .ok (.array [.null, .bool true, .number (.ofInt 7), .array []]) := by
    rw [Store.encodeWithin_object
      (o := .ofItems [.null, .bool true, .number (.ofInt 7), .object 0]) rfl]
    simp [Store.contents_ofItems, Store.encodeItems, Store.encodeWithin_leaf, Store.encodeLeaf,
      hfinite, harray, Except.map]
  -- The array index is listed in front, although it was written last.
  have hlisting : Entries.listing [(units "b\"", Value.object 2), (units "1", .object 1)] =
      [(units "1", .object 1), (units "b\"", .object 2)] := by decide +kernel
  unfold Store.encode
  rw [Store.encodeWithin_object (o := .record false [(units "b\"", .object 2), (units "1", .object 1)])
    rfl]
  simp [Store.contents, hlisting, Store.encodeEntries, hrecord, hitems, Except.map]

/-- The record is built from what JSON has. -/
theorem built_crates : crates.Built (.object 3) := by
  have hfinite : (Double.ofInt 7).isFinite = true :=
    Double.isFinite_of_toInt? (Double.toInt?_ofInt (by decide))
  have hempty : crates.get? 0 = some (.ofItems []) := rfl
  have hbare : crates.get? 1 = some (.record true []) := rfl
  have hlist : crates.get? 2 =
      some (.ofItems [.null, .bool true, .number (.ofInt 7), .object 0]) := rfl
  have hroot : crates.get? 3 =
      some (.record false [(units "b\"", .object 2), (units "1", .object 1)]) := rfl
  have hitems : crates.Built (.object 2) := by
    refine .array hlist ?_
    simp only [List.forall_mem_cons]
    exact ⟨.null, .bool true, .number hfinite, .array hempty nofun, nofun⟩
  refine .record hroot ?_
  simp only [List.forall_mem_cons]
  exact ⟨hitems, .record hbare nofun, nofun⟩

/-- Both give the lines of the record. -/
theorem crates_serialized :
    (Double.ofInt 2).trunc? = some ((2 : ℕ) : ℤ) ∧ crates.Built (.object 3) ∧
    crates.encodeText (.object 3) (.ofInt 2) = .ok cratesText ∧
    crates.serialize (.object 3) (.ofInt 2) = .ok (some cratesText) := by
  have htrunc : (Double.ofInt 2).trunc? = some ((2 : ℕ) : ℤ) :=
    Double.trunc?_of_toInt? (Double.toInt?_ofInt (by decide))
  obtain ⟨t, ht, hserialized⟩ := Store.encodeText_eq_serialize built_crates htrunc (by decide)
  have htext : t = cratesText := by
    have hwritten := Store.encodeText_of_encode encode_crates (spacesOf_of_trunc? htrunc (by decide))
    rw [hwritten] at ht
    rw [← Except.ok.inj ht]
    decide +kernel
  subst htext
  exact ⟨htrunc, built_crates, ht, hserialized⟩

end TypedReads
