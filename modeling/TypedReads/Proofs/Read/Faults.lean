import TypedReads.Proofs.Read.Rereading
import TypedReads.Proofs.Value.Wordless

/-!
# Reads that fault

A read of a text is the only one that can fault (`Store.exists_read`), and it is absent for null and
undefined alone. Values without a JSON form are read by their display text, after it has been found out why
they have none: `read_text_faults_iff` says for which of them one of the two has no answer.
-/

namespace TypedReads

namespace Store

variable {s : Store}

/-- A read of any target but a text has an answer. -/
theorem exists_read {target : Target} (h : target ≠ .string) (v : Value) (mode : Narrowing) :
    ∃ c, s.read target v mode = .ok c := by
  cases target with
  | string => exact absurd rfl h
  | _ => exact ⟨_, rfl⟩

/-- A box has a scalar reading. -/
theorem ofBox_ne_other (kind : NumericKind) (x : Double) (w : Value) :
    Scalar.ofBox kind x ≠ .other w := by
  unfold Scalar.ofBox
  split
  · nofun
  · split <;> nofun

/-- Only null and undefined are absent. -/
theorem classify_absent_iff {v : Value} :
    Scalar.classify s v = .absent ↔ v = .null ∨ v = .undefined := by
  unfold Scalar.classify Scalar.ofNumber Scalar.ofInteger Scalar.ofBox
  cases v with
  | number x =>
    dsimp only
    split <;> simp
  | integer n =>
    dsimp only
    split <;> simp
  | object r =>
    dsimp only
    split
    · split
      · simp
      · split <;> simp
    · simp
    · simp
  | _ => simp

/-- What has no scalar reading is handed on as it is. -/
theorem other_of_classify {v w : Value} (h : Scalar.classify s v = .other w) : w = v := by
  unfold Scalar.classify at h
  cases v with
  | number x => exact absurd h (ofNumber_ne_other x w)
  | integer n =>
    simp only [Scalar.ofInteger] at h
    split_ifs at h
  | object r =>
    dsimp only at h
    split at h
    · exact absurd h (ofBox_ne_other _ _ w)
    · cases h
    · exact (Scalar.other.inj h).symm
  | symbol mark description => exact (Scalar.other.inj h).symm
  | function mark => exact (Scalar.other.inj h).symm
  | _ => cases h

/-- A value that is present has a text or a fault. -/
theorem read_text_none_iff {v : Value} {mode : Narrowing} :
    s.read .string v mode = .ok none ↔ v = .null ∨ v = .undefined := by
  rw [← classify_absent_iff (s := s)]
  unfold read readString
  dsimp only
  cases Scalar.classify s v with
  | floating kind x => cases kind <;> simp [scalarText, Except.map]
  | other w => cases hother : s.otherText w <;> simp [scalarText, hother, Except.map]
  | _ => simp [scalarText, Except.map]

/-- A read of a text faults where the value has no scalar reading, no JSON form and no other text. -/
theorem read_text_error_iff {v : Value} {mode : Narrowing} :
    (∃ f, s.read .string v mode = .error f) ↔
      Scalar.classify s v = .other v ∧ ∃ f, s.otherText v = .error f := by
  unfold read readString
  dsimp only
  rw [exists_map_error_iff]
  cases hclass : Scalar.classify s v with
  | floating kind x => cases kind <;> simp [scalarText]
  | other w =>
    have hw : w = v := other_of_classify hclass
    subst hw
    rw [scalarText, exists_map_error_iff]
    simp
  | _ => simp [scalarText]

/-- It cannot be told of a cause exactly if it names an object that asks for one without a text. -/
theorem unspeakable_congr {cause : Unencodable} :
    (cause.Unspeakable fun r => ∃ f, s.objectText [] [] r = .error f) ↔
      cause.Unspeakable s.Wordless := by
  simp only [objectText_error_iff]

/-- A value is not displayed exactly if it is an object that asks for one without a text, or a function
that answers none. -/
theorem display_error_iff {v : Value} :
    (∃ f, s.display v = .error f) ↔
      (∃ f, v = .function f ∧ f.text.isText = false) ∨ ∃ r, v = .object r ∧ s.Wordless r := by
  cases v with
  | object r => simp [display, objectText_error_iff]
  | function f => simp [display, Answer.toText_error_iff]
  | _ => simp [display]

/-- What is left of a value without a JSON form is the reason and the display text. -/
theorem otherText_error_iff {v : Value} :
    (∃ f, s.otherText v = .error f) ↔ ∃ e, s.encode v = .error e ∧
      (e.cause.Unspeakable s.Wordless ∨ (∃ f, v = .function f ∧ f.text.isText = false) ∨
        ∃ r, v = .object r ∧ s.Wordless r) := by
  rw [← display_error_iff]
  unfold otherText encodeLine toJson
  cases s.encode v with
  | ok j => simp [Except.map]
  | error e =>
    have hexplain : (∃ f, s.explain e = .error f) ↔ e.cause.Unspeakable s.Wordless :=
      Obstacle.explain_error_iff.trans unspeakable_congr
    dsimp only
    cases h : s.explain e with
    | ok error => simp [Except.map, ← hexplain, h]
    | error f => simp [Except.map, ← hexplain, h]

/-- A leaf that has no JSON form can be told of. -/
theorem not_unspeakable_of_encodeLeaf {v : Value} {e : Obstacle} (h : encodeLeaf v = .error e)
    (wordless : Ref → Prop) : ¬ e.cause.Unspeakable wordless := by
  cases v with
  | number x =>
    simp only [encodeLeaf] at h
    split_ifs at h
    cases h
    exact not_false
  | integer n => cases h
  | null => cases h
  | bool b => cases h
  | text t => cases h
  | _ =>
    cases h
    exact not_false

/-- An object without a JSON form that has no other text, or of which it cannot be told why, is no
box. -/
theorem classify_of_wordless {r : Ref} {e : Obstacle} (he : s.encode (.object r) = .error e)
    (h : e.cause.Unspeakable s.Wordless ∨ s.Wordless r) :
    Scalar.classify s (.object r) = .other (.object r) := by
  -- A box is encoded as a leaf, and its display text is that of any object.
  have hbox : ∀ o v, s.get? r = some o → s.contents o = .leaf v →
      (∃ t, s.objectText [] [] r = .ok t) → False := by
    rintro o v hr ho ⟨t, ht⟩
    unfold encode at he
    rw [encodeWithin_object hr, ho] at he
    rcases h with hcause | hwordless
    · exact not_unspeakable_of_encodeLeaf he _ hcause
    · obtain ⟨f, hf⟩ := objectText_error_iff.mpr hwordless
      rw [ht] at hf
      cases hf
  unfold Scalar.classify
  dsimp only
  split
  · rename_i kind x hr
    have htext := objectText_of_get? hr [] []
    rcases kind with k | _ | _ <;> exact (hbox _ _ hr rfl ⟨_, htext⟩).elim
  · rename_i t hr
    exact (hbox _ _ hr rfl ⟨_, objectText_of_get? hr [] []⟩).elim
  · rfl

end Store

/-- A read of any target but a text has an answer for every value. A read of a text is absent exactly
for null and undefined. It faults exactly for a function that answers no text, and for an object without
a JSON form of which it cannot be told why it has none, or that asks, at any remove, for an object
without a text. -/
theorem read_text_faults_iff (s : Store) (v : Value) (mode : Narrowing) :
    (∀ target, target ≠ .string → ∃ c, s.read target v mode = .ok c) ∧
    (s.read .string v mode = .ok none ↔ v = .null ∨ v = .undefined) ∧
    ((∃ f, s.read .string v mode = .error f) ↔
      (∃ f, v = .function f ∧ f.text.isText = false) ∨
      ∃ r e, v = .object r ∧ s.encode v = .error e ∧
        (e.cause.Unspeakable s.Wordless ∨ s.Wordless r)) := by
  refine ⟨fun target h => Store.exists_read h v mode, Store.read_text_none_iff, ?_⟩
  rw [Store.read_text_error_iff, Store.otherText_error_iff]
  constructor
  · rintro ⟨-, e, he, hcause | hfunction | ⟨r, rfl, hwordless⟩⟩
    · -- Only an object has an obstacle that cannot be told of.
      by_cases hobject : ∃ r, v = .object r
      · obtain ⟨r, rfl⟩ := hobject
        exact .inr ⟨r, e, rfl, he, .inl hcause⟩
      · rw [not_exists] at hobject
        unfold Store.encode at he
        rw [Store.encodeWithin_leaf hobject] at he
        exact absurd hcause (Store.not_unspeakable_of_encodeLeaf he _)
    · exact .inl hfunction
    · exact .inr ⟨r, e, rfl, he, .inr hwordless⟩
  -- Neither is read as a scalar, so that the text of the object itself is asked for.
  · rintro (⟨f, rfl, hf⟩ | ⟨r, e, rfl, he, h⟩)
    · refine ⟨rfl, ⟨[], .ofType "function"⟩, ?_, .inr (.inl ⟨f, rfl, hf⟩)⟩
      unfold Store.encode
      rw [Store.encodeWithin_leaf (by simp)]
      rfl
    · exact ⟨Store.classify_of_wordless he h, e, he, h.imp_right fun hr => .inr ⟨r, rfl, hr⟩⟩

/-- A bare record with a member that JSON cannot hold. -/
def bareStore : Store := ⟨#[.record true [(units "a", .undefined)]], 0⟩

/-- The record is read as no text at all, although it is neither null nor undefined; as a byte it is
absent. -/
theorem bareStore_faults :
    (Target.byte ≠ .string ∧ ∃ c, bareStore.read .byte (.object 0) .truncate = .ok c) ∧
    bareStore.read .string (.object 0) .truncate ≠ .ok none ∧
    ∃ f, bareStore.read .string (.object 0) .truncate = .error f := by
  obtain ⟨hother, hnone, hfault⟩ := read_text_faults_iff bareStore (.object 0) .truncate
  have hr : bareStore.get? 0 = some (.record true [(units "a", .undefined)]) := rfl
  refine ⟨⟨by decide, hother .byte (by decide)⟩, fun h => ?_, hfault.mpr (.inr ⟨0, ?_⟩)⟩
  · rcases hnone.mp h with h | h <;> cases h
  · refine ⟨⟨[.key (units "a")], .ofType "undefined"⟩, rfl, ?_, .inr ⟨0, .refl, .own hr ?_⟩⟩
    · unfold Store.encode
      rw [Store.encodeWithin_object hr]
      simp +decide [Store.contents, Entries.listing, Store.encodeEntries, Store.encodeWithin_leaf,
        Store.encodeLeaf, Except.map]
    · have hstring : Entries.get? [(units "a", Value.undefined)] (units "toString") = none := rfl
      have hvalue : Entries.get? [(units "a", Value.undefined)] (units "valueOf") = none := rfl
      simp [Object.SaysNothing, SaysNothing, hstring, hvalue]

end TypedReads
