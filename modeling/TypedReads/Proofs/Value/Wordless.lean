import Mathlib.Logic.Relation
import TypedReads.Proofs.Value.Extension

/-!
# Objects without a text

The text of an array asks for those of the objects in it, and the text of an adapter without a JSON form
for that of the object which names the class of the obstacle. `Store.Asks` is this relation, and
`Store.Speechless` an object that has no text whatever the others say: one that denies it by its members
or by its own answer, an array with an item that is no object and has none, an adapter whose obstacle has
no name, and an adapter that shows itself in the end. The text of an object faults exactly if it asks, at
any remove, for such an object (`Store.objectText_error_iff`).

The walk cuts an array inside itself, and the relation does not. That makes no difference: what the walk
meets behind the inner array it also meets behind the outer one (`WordlessOutside.cut`).
-/

namespace TypedReads

open Relation

/-- Members that leave an object without a text. The member `toString` throws or answers a symbol; or it
is no function or answers an object, none is inherited in its place, and the member `valueOf` is no
function that answers a text. -/
def SaysNothing (inherits : Bool) (members : Entries Text Value) : Prop :=
  (∃ f, members.get? (units "toString") = some (.function f) ∧
    (f.answer = .throws ∨ f.answer = .symbol)) ∨
  (∀ f, members.get? (units "toString") = some (.function f) → f.answer = .object) ∧
    (inherits = true → members.get? (units "toString") ≠ none) ∧
    ∀ f, members.get? (units "valueOf") = some (.function f) → f.answer.isText = false

/-- The member `valueOf` gives no text unless it is a function that answers one. -/
theorem valueOfText_error_iff {called : Option Value} :
    (∃ fault, valueOfText called = .error fault) ↔
      ∀ f, called = some (.function f) → f.answer.isText = false := by
  unfold valueOfText
  split <;> simp_all [Answer.toText_error_iff]

/-- The text of an object with named members fails exactly if they leave it without one. -/
theorem membersText_error_iff {inherits : Bool} {members : Entries Text Value} :
    (∃ fault, membersText inherits members = .error fault) ↔ SaysNothing inherits members := by
  unfold SaysNothing membersText
  split
  · -- A function is called, and `valueOf` after it where it answers an object.
    rename_i f hstring
    cases hanswer : f.answer <;>
      simp [hstring, hanswer, valueOfText_error_iff, Answer.toText]
  · -- What is no function hides what would be inherited.
    rename_i called hcalled hstring
    have hfunction : ∀ f, called ≠ .function f := fun f hf => hcalled f hf
    simp [hstring, hfunction, valueOfText_error_iff]
  · rename_i hstring
    cases inherits <;> simp [hstring, valueOfText_error_iff]

/-- An object that has no text whatever the others say, by its members or by its own answer. -/
def Object.SaysNothing : Object → Prop
  | .record bare members => TypedReads.SaysNothing (!bare) members
  | .derived members => TypedReads.SaysNothing true members
  | .foreign _ manner => manner.answer.isText = false
  | _ => False

/-- A value without a text within another, given the objects without one. -/
def Value.Textless (wordless : Ref → Prop) : Value → Prop
  | .symbol .. => True
  | .function f => f.text.isText = false
  | .object r => wordless r
  | _ => False

/-- A value without a text is no object or an object without one. -/
theorem Value.textless_iff {wordless : Ref → Prop} {v : Value} :
    v.Textless wordless ↔ (v.Textless fun _ => False) ∨ ∃ r, v = .object r ∧ wordless r := by
  cases v <;> simp [Textless]

/-- More objects without a text leave more values without one. -/
theorem Value.Textless.imp {p q : Ref → Prop} (hpq : ∀ r, p r → q r) {v : Value}
    (h : v.Textless p) : v.Textless q :=
  textless_iff.mpr ((textless_iff.mp h).imp_right fun ⟨r, hr, hp⟩ => ⟨r, hr, hpq r hp⟩)

/-- A cause that cannot be told of, given the objects without a text. -/
def Unencodable.Unspeakable (wordless : Ref → Prop) : Unencodable → Prop
  | .classless => True
  | .foreign className => className.Textless wordless
  | _ => False

namespace Unencodable

/-- A cause that cannot be told of has no name or names an object without a text. -/
theorem unspeakable_iff {wordless : Ref → Prop} {cause : Unencodable} :
    cause.Unspeakable wordless ↔ (cause.Unspeakable fun _ => False) ∨
      ∃ r, cause = .foreign (.object r) ∧ wordless r := by
  cases cause with
  | foreign className => simpa [Unspeakable] using Value.textless_iff
  | _ => simp [Unspeakable]

/-- More objects without a text leave more causes that cannot be told of. -/
theorem Unspeakable.imp {p q : Ref → Prop} (hpq : ∀ r, p r → q r) {cause : Unencodable}
    (h : cause.Unspeakable p) : cause.Unspeakable q :=
  unspeakable_iff.mpr ((unspeakable_iff.mp h).imp_right fun ⟨r, hr, hp⟩ => ⟨r, hr, hpq r hp⟩)

end Unencodable

/-- A mapped result fails with what it is mapped from. -/
theorem exists_map_error_iff {α β : Type} {x : Except Fault α} {g : α → β} :
    (∃ f, x.map g = .error f) ↔ ∃ f, x = .error f := by
  cases x <;> simp [Except.map]

section Parts

variable {text : Ref → Except Fault Text}

/-- A value within a text fails exactly if it has none there. -/
theorem Value.textWithin_error_iff {v : Value} :
    (∃ f, v.textWithin text = .error f) ↔ v.Textless fun r => ∃ f, text r = .error f := by
  cases v <;> simp [textWithin, Textless, Answer.toText_error_iff]

/-- An obstacle is left without an explanation exactly if its cause cannot be told of. -/
theorem Obstacle.explain_error_iff {e : Obstacle} :
    (∃ f, e.explain text = .error f) ↔
      e.cause.Unspeakable fun r => ∃ f, text r = .error f := by
  unfold explain
  rw [exists_map_error_iff]
  unfold Unencodable.message
  cases e.cause with
  | foreign className => exact exists_map_error_iff.trans Value.textWithin_error_iff
  | _ => simp [Unencodable.Unspeakable]

/-- One item of a text fails exactly if it has none there; null and undefined are empty. -/
theorem Value.itemText_error_iff {v : Value} :
    (∃ f, (if v.isNullish then .ok [] else v.textWithin text) = .error f) ↔
      v.Textless fun r => ∃ f, text r = .error f := by
  rw [← textWithin_error_iff]
  cases v <;> simp [isNullish, textWithin]

/-- The texts of items fail exactly if that of one of them does. -/
theorem Store.itemTexts_error_iff {vs : List Value} :
    (∃ f, itemTexts text vs = .error f) ↔
      ∃ v ∈ vs, v.Textless fun r => ∃ f, text r = .error f := by
  induction vs with
  | nil => simp [itemTexts]
  | cons v vs ih =>
    have hcons : (∃ f, itemTexts text (v :: vs) = .error f) ↔
        (∃ f, (if v.isNullish then .ok [] else v.textWithin text) = .error f) ∨
          ∃ f, itemTexts text vs = .error f := by
      rw [itemTexts]
      cases v.isNullish <;> cases v.textWithin text <;> cases itemTexts text vs <;>
        simp [bind, Except.bind, pure, Except.pure]
    rw [hcons, Value.itemText_error_iff, ih, List.exists_mem_cons_iff]

end Parts

namespace Store

variable {s : Store}

/-- An adapter that has no JSON form shows the object that names the class of the obstacle. -/
def Shows (s : Store) (r r' : Ref) : Prop :=
  ∃ a e, s.get? r = some (.adapter a) ∧ s.encode (.object a.backing) = .error e ∧
    e.cause = .foreign (.object r')

/-- What shows an object, at any remove, is an adapter. -/
theorem exists_adapter_of_shows {r r' : Ref} (h : TransGen s.Shows r r') :
    ∃ a, s.get? r = some (.adapter a) := by
  obtain ⟨_, ⟨a, _, hr, -⟩, -⟩ := TransGen.head'_iff.mp h
  exact ⟨a, hr⟩

/-- The text of one object asks for that of another. -/
inductive Asks (s : Store) : Ref → Ref → Prop
  | item {r r' : Ref} {slots : List (Option Value)} (hr : s.get? r = some (.array slots))
      (hmem : .object r' ∈ slotItems slots) : Asks s r r'
  | shown {r r' : Ref} (h : s.Shows r r') : Asks s r r'

/-- An object that has no text by itself. -/
inductive Speechless (s : Store) : Ref → Prop
  | own {r : Ref} {o : Object} (hr : s.get? r = some o) (h : o.SaysNothing) : Speechless s r
  | item {r : Ref} {slots : List (Option Value)} {v : Value}
      (hr : s.get? r = some (.array slots)) (hmem : v ∈ slotItems slots)
      (hv : v.Textless fun _ => False) : Speechless s r
  | unnamed {r : Ref} {a : Adapter} {e : Obstacle} (hr : s.get? r = some (.adapter a))
      (he : s.encode (.object a.backing) = .error e)
      (hcause : e.cause.Unspeakable fun _ => False) : Speechless s r
  | endless {r : Ref} (h : TransGen s.Shows r r) : Speechless s r

/-- An object whose text asks, at any remove, for one that has none. -/
def Wordless (s : Store) (r : Ref) : Prop := ∃ r', ReflTransGen s.Asks r r' ∧ s.Speechless r'

/-- What asks for a wordless object is wordless. -/
theorem Wordless.of_asks {r r' : Ref} (h : s.Asks r r') (h' : s.Wordless r') : s.Wordless r :=
  h'.imp fun _ hr => ⟨.head h hr.1, hr.2⟩

/-- A reference to no object has a text. -/
theorem objectText_dangling {r : Ref} (hr : s.get? r = none) (joining showing : List Ref) :
    s.objectText joining showing r = .ok (units "undefined") := by
  rw [objectText.eq_def]
  split
  · rfl
  · rename_i o ho
    rw [hr] at ho
    cases ho

/-- The text of an array fails if it is not being joined and an item has no text. -/
theorem objectText_array_error_iff {r : Ref} {slots : List (Option Value)}
    (hr : s.get? r = some (.array slots)) {joining showing : List Ref} :
    (∃ f, s.objectText joining showing r = .error f) ↔ r ∉ joining ∧
      ∃ v ∈ slotItems slots,
        v.Textless fun r' => ∃ f, s.objectText (r :: joining) [] r' = .error f := by
  rw [objectText_of_get? hr]
  dsimp only
  split_ifs with hmem
  · simp [hmem]
  · rw [exists_map_error_iff, itemTexts_error_iff]
    simp [hmem]

/-- The text of an adapter fails if it has no JSON form and is being shown, or cannot be told why. -/
theorem objectText_adapter_error_iff {r : Ref} {a : Adapter} (hr : s.get? r = some (.adapter a))
    {joining showing : List Ref} :
    (∃ f, s.objectText joining showing r = .error f) ↔
      ∃ e, s.encode (.object a.backing) = .error e ∧ (r ∈ showing ∨
        e.cause.Unspeakable fun r' => ∃ f, s.objectText joining (r :: showing) r' = .error f) := by
  rw [objectText_of_get? hr]
  dsimp only
  cases s.encode (.object a.backing) with
  | ok j => simp
  | error e =>
    dsimp only
    split_ifs with hmem
    · simp [hmem]
    · rw [exists_map_error_iff, Obstacle.explain_error_iff]
      simp [hmem]

/-- The text of any other object fails if it denies it. -/
theorem objectText_own_error_iff {r : Ref} {o : Object} (hr : s.get? r = some o)
    (harray : ∀ slots, o ≠ .array slots) (hadapter : ∀ a, o ≠ .adapter a)
    {joining showing : List Ref} :
    (∃ f, s.objectText joining showing r = .error f) ↔ o.SaysNothing := by
  rw [objectText_of_get? hr]
  cases o with
  | array slots => exact absurd rfl (harray slots)
  | adapter a => exact absurd rfl (hadapter a)
  | record bare members => exact membersText_error_iff
  | derived members => exact membersText_error_iff
  | foreign className manner => exact Answer.toText_error_iff
  | _ => simp [Object.SaysNothing]

/-- An object whose text fails asks for one that has none. While adapters are being shown, each of
them has come to the object. -/
theorem wordless_of_objectText (joining showing : List Ref) {r : Ref}
    (hshowing : ∀ r' ∈ showing, TransGen s.Shows r' r)
    (h : ∃ f, s.objectText joining showing r = .error f) : s.Wordless r := by
  cases hr : s.get? r with
  | none =>
    rw [objectText_dangling hr] at h
    obtain ⟨f, h⟩ := h
    cases h
  | some o =>
    by_cases harray : ∃ slots, o = .array slots
    -- An array asks for its items, and joins them with no adapter being shown.
    · obtain ⟨slots, rfl⟩ := harray
      obtain ⟨hmem, v, hitem, hv⟩ := (objectText_array_error_iff hr).mp h
      obtain htextless | ⟨r', rfl, hr'⟩ := Value.textless_iff.mp hv
      · exact ⟨r, .refl, .item hr hitem htextless⟩
      · have hlt := unvisited_cons_lt (mem_refs_of_get? hr) hmem
        have hwordless := wordless_of_objectText (r :: joining) [] (by simp) hr'
        exact .of_asks (.item hr hitem) hwordless
    by_cases hadapter : ∃ a, o = .adapter a
    -- An adapter asks for the object that its error names, and goes on forever if that leads back.
    · obtain ⟨a, rfl⟩ := hadapter
      obtain ⟨e, he, hcause⟩ := (objectText_adapter_error_iff hr).mp h
      by_cases hmem : r ∈ showing
      · exact ⟨r, .refl, .endless (hshowing r hmem)⟩
      · obtain hunnamed | ⟨r', hnamed, hr'⟩ := Unencodable.unspeakable_iff.mp (hcause.resolve_left hmem)
        · exact ⟨r, .refl, .unnamed hr he hunnamed⟩
        · have hshows : s.Shows r r' := ⟨a, e, hr, he, hnamed⟩
          have hlt := unvisited_cons_lt (mem_refs_of_get? hr) hmem
          have hwordless := wordless_of_objectText joining (r :: showing)
            (List.forall_mem_cons.mpr
              ⟨.single hshows, fun r'' hr'' => .tail (hshowing r'' hr'') hshows⟩) hr'
          exact .of_asks (.shown hshows) hwordless
    · have hsays := (objectText_own_error_iff hr (not_exists.mp harray) (not_exists.mp hadapter)).mp h
      exact ⟨r, .refl, .own hr hsays⟩
termination_by (unvisited s.refs joining, unvisited s.refs showing)

/-- An object that asks, within no array of `joining`, for one that has no text. -/
def WordlessOutside (s : Store) (joining : List Ref) (r : Ref) : Prop :=
  ∃ r', ReflTransGen (fun a b => a ∉ joining ∧ s.Asks a b) r r' ∧ r' ∉ joining ∧ s.Speechless r'

/-- So it is outside some arrays, if it is none of these. -/
theorem WordlessOutside.of_asks {joining : List Ref} {r r' : Ref} (hr : r ∉ joining)
    (h : s.Asks r r') (h' : s.WordlessOutside joining r') : s.WordlessOutside joining r :=
  h'.imp fun _ hr' => ⟨.head ⟨hr, h⟩ hr'.1, hr'.2⟩

/-- What is wordless outside some arrays is none of them. -/
theorem WordlessOutside.notMem {joining : List Ref} {r : Ref} (h : s.WordlessOutside joining r) :
    r ∉ joining := by
  obtain ⟨r', hchain, hr', -⟩ := h
  rcases hchain.cases_head with rfl | ⟨_, hstep, -⟩
  · exact hr'
  · exact hstep.1

/-- What an array asks for are its items. -/
theorem Asks.mem_items {r r' : Ref} (h : s.Asks r r') {slots : List (Option Value)}
    (hr : s.get? r = some (.array slots)) : .object r' ∈ slotItems slots := by
  cases h with
  | item hr' hmem =>
    cases hr.symm.trans hr'
    exact hmem
  | shown h =>
    obtain ⟨a, hr'⟩ := exists_adapter_of_shows (.single h)
    cases hr.symm.trans hr'

/-- An array without a text of its own has an item without one. -/
theorem Speechless.exists_item {r : Ref} (h : s.Speechless r) {slots : List (Option Value)}
    (hr : s.get? r = some (.array slots)) :
    ∃ v ∈ slotItems slots, v.Textless fun _ => False := by
  cases h with
  | own hr' hsays =>
    cases hr.symm.trans hr'
    exact hsays.elim
  | item hr' hmem hv =>
    cases hr.symm.trans hr'
    exact ⟨_, hmem, hv⟩
  | unnamed hr' => cases hr.symm.trans hr'
  | endless h =>
    obtain ⟨a, hr'⟩ := exists_adapter_of_shows h
    cases hr.symm.trans hr'

/-- A chain from an array need not come back to it: what it asks for after the last time it is there,
it asks for from an item. -/
theorem WordlessOutside.cut {joining : List Ref} {r : Ref} {slots : List (Option Value)}
    (hr : s.get? r = some (.array slots)) (h : s.WordlessOutside joining r) :
    ∃ v ∈ slotItems slots, v.Textless (s.WordlessOutside (r :: joining)) := by
  -- Either the chain from any object of it avoids the array, or the array is met on it.
  have hmeets : ∀ x, s.WordlessOutside joining x → s.WordlessOutside (r :: joining) x ∨
      ∃ v ∈ slotItems slots, v.Textless (s.WordlessOutside (r :: joining)) := by
    rintro x ⟨r', hchain, hr', hspeechless⟩
    induction hchain using ReflTransGen.head_induction_on with
    | refl =>
      by_cases heq : r' = r
      · subst heq
        obtain ⟨v, hmem, hv⟩ := hspeechless.exists_item hr
        exact .inr ⟨v, hmem, hv.imp fun _ => False.elim⟩
      · exact .inl ⟨r', .refl, List.not_mem_cons_of_ne_of_not_mem heq hr', hspeechless⟩
    | @head y z hstep _ ih =>
      obtain hz | hfound := ih
      · by_cases heq : y = r
        · subst heq
          exact .inr ⟨.object z, hstep.2.mem_items hr, hz⟩
        · exact .inl (.of_asks (List.not_mem_cons_of_ne_of_not_mem heq hstep.1) hstep.2 hz)
      · exact .inr hfound
  exact (hmeets r h).resolve_left fun hself => hself.notMem List.mem_cons_self

/-- An adapter that asks for an object without a text has no JSON form, and the obstacle has no name or
names such an object. -/
theorem WordlessOutside.adapter {joining : List Ref}
    (hjoining : ∀ r ∈ joining, ∃ slots, s.get? r = some (.array slots)) {r : Ref} {a : Adapter}
    (hr : s.get? r = some (.adapter a)) (h : s.WordlessOutside joining r) :
    ∃ e, s.encode (.object a.backing) = .error e ∧ e.cause.Unspeakable (s.WordlessOutside joining) := by
  -- It is enough that the adapter shows such an object.
  have hshown : ∀ r', s.Shows r r' → s.WordlessOutside joining r' →
      ∃ e, s.encode (.object a.backing) = .error e ∧
        e.cause.Unspeakable (s.WordlessOutside joining) := by
    rintro r' ⟨a', e, hr', he, hcause⟩ hwordless
    cases hr.symm.trans hr'
    exact ⟨e, he, Unencodable.unspeakable_iff.mpr (.inr ⟨r', hcause, hwordless⟩)⟩
  obtain ⟨r', hchain, hr', hspeechless⟩ := h
  rcases hchain.cases_head with rfl | ⟨z, hstep, hchain⟩
  · cases hspeechless with
    | own hr'' hsays =>
      cases hr.symm.trans hr''
      exact hsays.elim
    | item hr'' => cases hr.symm.trans hr''
    | unnamed hr'' he hcause =>
      cases hr.symm.trans hr''
      exact ⟨_, he, Unencodable.unspeakable_iff.mpr (.inl hcause)⟩
    | endless h =>
      -- What an adapter shows on the way back to itself comes back to itself too, and is an adapter.
      obtain ⟨z, hz, hback⟩ := TransGen.head'_iff.mp h
      have hcycle : TransGen s.Shows z z := .tail' hback hz
      obtain ⟨a', hadapter⟩ := exists_adapter_of_shows hcycle
      refine hshown z hz ⟨z, .refl, fun hmem => ?_, .endless hcycle⟩
      obtain ⟨slots, harray⟩ := hjoining z hmem
      cases hadapter.symm.trans harray
  · cases hstep.2 with
    | shown h => exact hshown z h ⟨r', hchain, hr', hspeechless⟩
    | item hr'' => cases hr.symm.trans hr''

/-- An object that asks for nothing has no text if it denies it. -/
theorem WordlessOutside.saysNothing {joining : List Ref} {r : Ref} {o : Object}
    (hr : s.get? r = some o) (harray : ∀ slots, o ≠ .array slots) (hadapter : ∀ a, o ≠ .adapter a)
    (h : s.WordlessOutside joining r) : o.SaysNothing := by
  have hshows : ∀ r', ¬ TransGen s.Shows r r' := by
    intro r' h
    obtain ⟨a, hr'⟩ := exists_adapter_of_shows h
    exact hadapter a (Option.some.inj (hr.symm.trans hr'))
  obtain ⟨r', hchain, -, hspeechless⟩ := h
  rcases hchain.cases_head with rfl | ⟨z, ⟨-, hstep⟩, -⟩
  · cases hspeechless with
    | own hr' hsays =>
      cases hr.symm.trans hr'
      exact hsays
    | item hr' => exact absurd (Option.some.inj (hr.symm.trans hr')) (harray _)
    | unnamed hr' => exact absurd (Option.some.inj (hr.symm.trans hr')) (hadapter _)
    | endless h => exact absurd h (hshows r)
  · cases hstep with
    | item hr' => exact absurd (Option.some.inj (hr.symm.trans hr')) (harray _)
    | shown h => exact absurd (.single h) (hshows z)

/-- The objects that are asked for are there. -/
theorem WordlessOutside.exists_get? {joining : List Ref} {r : Ref}
    (h : s.WordlessOutside joining r) : ∃ o, s.get? r = some o := by
  obtain ⟨r', hchain, -, hspeechless⟩ := h
  rcases hchain.cases_head with rfl | ⟨z, ⟨-, hstep⟩, -⟩
  · cases hspeechless with
    | own hr | item hr | unnamed hr => exact ⟨_, hr⟩
    | endless h =>
      obtain ⟨a, hr⟩ := exists_adapter_of_shows h
      exact ⟨_, hr⟩
  · cases hstep with
    | item hr => exact ⟨_, hr⟩
    | shown h =>
      obtain ⟨a, hr⟩ := exists_adapter_of_shows (.single h)
      exact ⟨_, hr⟩

/-- The text of an object fails if it asks for one that has none. -/
theorem objectText_of_wordless (joining showing : List Ref)
    (hjoining : ∀ r ∈ joining, ∃ slots, s.get? r = some (.array slots)) {r : Ref}
    (h : s.WordlessOutside joining r) : ∃ f, s.objectText joining showing r = .error f := by
  obtain ⟨o, hr⟩ := h.exists_get?
  by_cases harray : ∃ slots, o = .array slots
  · obtain ⟨slots, rfl⟩ := harray
    have hlt := unvisited_cons_lt (mem_refs_of_get? hr) h.notMem
    obtain ⟨v, hitem, hv⟩ := h.cut hr
    refine (objectText_array_error_iff hr).mpr ⟨h.notMem, v, hitem, hv.imp fun r' => ?_⟩
    exact objectText_of_wordless (r :: joining) [] (List.forall_mem_cons.mpr ⟨⟨slots, hr⟩, hjoining⟩)
  by_cases hadapter : ∃ a, o = .adapter a
  · obtain ⟨a, rfl⟩ := hadapter
    obtain ⟨e, he, hcause⟩ := h.adapter hjoining hr
    refine (objectText_adapter_error_iff hr).mpr ⟨e, he, ?_⟩
    by_cases hmem : r ∈ showing
    · exact .inl hmem
    · have hlt := unvisited_cons_lt (mem_refs_of_get? hr) hmem
      exact .inr (hcause.imp fun r' => objectText_of_wordless joining (r :: showing) hjoining)
  · rw [not_exists] at harray hadapter
    exact (objectText_own_error_iff hr harray hadapter).mpr (h.saysNothing hr harray hadapter)
termination_by (unvisited s.refs joining, unvisited s.refs showing)

/-- The text of an object fails exactly if it asks, at any remove, for one that has none. -/
theorem objectText_error_iff {r : Ref} :
    (∃ f, s.objectText [] [] r = .error f) ↔ s.Wordless r := by
  constructor
  · exact wordless_of_objectText [] [] (by simp)
  · rintro ⟨r', hchain, hspeechless⟩
    refine objectText_of_wordless [] [] (by simp) ⟨r', ?_, List.not_mem_nil, hspeechless⟩
    exact ReflTransGen.mono (fun a b hab => ⟨List.not_mem_nil, hab⟩) _ _ hchain

end Store

end TypedReads
