import TypedReads.Proofs.Value.Loading
import TypedReads.Proofs.Value.Positions
import TypedReads.Value.JsonText

/-!
# Values in a greater store

A store is closed if no object of it mentions a place where nothing stands. Whatever is put into a
closed store later, the values that were there are encoded as before (`Extends.encodeWithin`), and
the objects that were there have the same display text (`Extends.objectText`), so that an obstacle
is explained as before too.
-/

namespace TypedReads

/-- The values that an object mentions, at any place in it. -/
def Object.mentioned : Object → List Value
  | .array slots => slotItems slots
  | .record _ members | .derived members => members.values
  | .map entries => entries.flatMap fun e => [e.1, e.2]
  | .adapter a => [.object a.backing]
  | _ => []

namespace Store

/-- A value of a store: if it is a reference, then to an object. -/
def Has (s : Store) (v : Value) : Prop := ∀ r, v = .object r → ∃ o, s.get? r = some o

/-- A store where every reference leads to an object. -/
def Closed (s : Store) : Prop := ∀ r o, s.get? r = some o → ∀ v ∈ o.mentioned, s.Has v

variable {s t : Store} {r : Ref} {o : Object}

/-- A reference to an object is in the store. -/
theorem Has.of_get? (hr : s.get? r = some o) : s.Has (.object r) := by
  rintro _ ⟨⟩
  exact ⟨o, hr⟩

/-- What is in a store is in a larger one. -/
theorem Has.mono {v : Value} (hext : s.Extends t) (h : s.Has v) : t.Has v := by
  intro r hr
  obtain ⟨o, ho⟩ := h r hr
  exact ⟨o, hext r o ho⟩

/-- The empty store is closed. -/
theorem closed_empty : Store.empty.Closed := by
  intro r o hr
  simp [Store.empty, get?] at hr

/-- An object that mentions values of the store may be added. -/
theorem Closed.alloc (hs : s.Closed) (ho : ∀ v ∈ o.mentioned, s.Has v) :
    (s.alloc o).2.Closed := by
  intro r o' hr v hv
  have hext := s.extends_alloc o
  obtain hold | ⟨-, rfl⟩ := of_get?_alloc hr
  · exact (hs r o' hold v hv).mono hext
  · exact (ho v hv).mono hext

/-- No object is missing from undefined. -/
theorem has_undefined : s.Has .undefined := by rintro _ ⟨⟩

/-- Nor from a text. -/
theorem has_text (t : Text) : s.Has (.text t) := by rintro _ ⟨⟩

section Mentions

variable (hs : s.Closed)

include hs

/-- A closed store has the values of members. -/
theorem Closed.has_of_members {members : Entries Text Value}
    (ho : o = .derived members ∨ ∃ bare, o = .record bare members) (hr : s.get? r = some o)
    {key : Text} {v : Value} (h : (key, v) ∈ members) : s.Has v := by
  have hv : v ∈ members.values := List.mem_map.mpr ⟨_, h, rfl⟩
  obtain rfl | ⟨bare, rfl⟩ := ho
  · exact hs r _ hr v hv
  · exact hs r _ hr v hv

/-- A closed store has the keys and values of entries. -/
theorem Closed.has_of_entriesAt {v : Value} (h : v ∈ (s.entriesAt r).flatMap fun e => [e.1, e.2]) :
    s.Has v := by
  unfold entriesAt at h
  split at h
  · rename_i es hr
    exact hs r _ hr v h
  · simp at h

/-- The parts of an object are values of the store. -/
theorem Closed.has_of_parts (hr : s.get? r = some o) {v : Value} (h : v ∈ s.parts o) : s.Has v := by
  cases o with
  | array slots => exact hs r _ hr v h
  | record bare members =>
    obtain ⟨e, he, hv⟩ := List.mem_flatMap.mp h
    obtain ⟨⟨key, w⟩, hmem, rfl⟩ := List.mem_map.mp he
    rw [List.mem_pair] at hv
    obtain rfl | rfl := hv
    · exact has_text key
    · exact hs.has_of_members (.inr ⟨bare, rfl⟩) hr ((Entries.listing_perm members).mem_iff.mp hmem)
  | map entries => exact hs r _ hr v h
  | adapter a => exact hs.has_of_entriesAt h
  | numberBox kind x => rcases kind with k | _ | _ <;> cases h
  | _ => cases h

/-- What stands under a key of an object with members, if anything does. -/
theorem Closed.has_of_getD {members : Entries Text Value}
    (ho : o = .derived members ∨ ∃ bare, o = .record bare members) (hr : s.get? r = some o)
    (key : Text) : s.Has ((members.get? key).getD .undefined) := by
  cases hv : members.get? key with
  | none => exact has_undefined
  | some v => exact hs.has_of_members ho hr (Entries.mem_of_get? hv)

/-- The name that a constructor answers with is a value of the store. -/
theorem Closed.has_of_nameOf? {v name : Value} (h : s.nameOf? v = some name) : s.Has name := by
  cases v with
  | null | undefined => cases h
  | function f =>
    cases h
    exact has_text f.name
  -- A record and a derived object answer with a member, or with undefined.
  | object r =>
    unfold nameOf? at h
    dsimp only at h
    split at h
    · rename_i bare members hr
      cases h
      exact hs.has_of_getD (.inr ⟨bare, rfl⟩) hr _
    · rename_i members hr
      cases h
      exact hs.has_of_getD (.inl rfl) hr _
    · cases h
      exact has_undefined
  | _ =>
    cases h
    exact has_undefined

/-- What an object names as its class is a value of the store. -/
theorem Closed.has_of_contents (hr : s.get? r = some o) {name : Value}
    (h : s.contents o = .none (.foreign name)) : s.Has name := by
  cases o with
  | derived members =>
    have hcause : s.derivedCause members = .foreign name := Contents.none.inj h
    unfold derivedCause at hcause
    split at hcause
    · cases hcause
      exact has_text _
    · rename_i v _
      cases hname : s.nameOf? v with
      | none =>
        rw [hname] at hcause
        cases hcause
      | some name' =>
        rw [hname] at hcause
        cases hcause
        exact hs.has_of_nameOf? hname
  | date _ | foreign _ _ =>
    cases h
    exact has_text _
  | numberBox kind x => rcases kind with k | _ | _ <;> cases h
  | _ => cases h

/-- An obstacle names a value of the store. -/
theorem Closed.has_of_encode {v name : Value} {e : Obstacle} (h : s.encode v = .error e)
    (hname : e.cause = .foreign name) : s.Has name := by
  obtain ⟨rs, w, -, hw⟩ := Visits.root.of_error h
  rw [hname] at hw
  obtain hplain | ⟨hcycle, -⟩ | ⟨r, o, -, hr, ho⟩ := here_of_encodeWithin hw
  · cases hplain
  · cases hcycle
  · exact hs.has_of_contents hr ho

end Mentions

section Encoding

/-- Items are encoded alike where each of them is. -/
theorem encodeItems_congr {encode encode' : Value → Except Obstacle Json} {vs : List Value}
    (h : ∀ v ∈ vs, encode v = encode' v) (i : ℕ) :
    encodeItems encode i vs = encodeItems encode' i vs := by
  induction vs generalizing i with
  | nil => rfl
  | cons v vs ih =>
    obtain ⟨hv, hrest⟩ := List.forall_mem_cons.mp h
    rw [encodeItems, encodeItems, hv, ih hrest]

/-- Entries with the same key are encoded alike if their values and what follows them are. -/
theorem encodeEntries_cons_congr {encode encode' : Value → Except Obstacle Json} {key v v' : Value}
    {es es' : List (Value × Value)} (hv : encode v = encode' v')
    (hrest : encodeEntries encode es = encodeEntries encode' es') :
    encodeEntries encode ((key, v) :: es) = encodeEntries encode' ((key, v') :: es') := by
  cases key with
  | text key => rw [encodeEntries, encodeEntries, hv, hrest]
  | _ => rfl

/-- Entries are encoded alike where each of their values is. -/
theorem encodeEntries_congr {encode encode' : Value → Except Obstacle Json}
    {es : List (Value × Value)} (h : ∀ e ∈ es, encode e.2 = encode' e.2) :
    encodeEntries encode es = encodeEntries encode' es := by
  induction es with
  | nil => rfl
  | cons e es ih =>
    obtain ⟨hv, hrest⟩ := List.forall_mem_cons.mp h
    exact encodeEntries_cons_congr hv (ih hrest)

variable (hext : s.Extends t)

include hext

/-- A larger store has the same object at a place of the store. -/
theorem Extends.get?_eq (h : s.Has (.object r)) : t.get? r = s.get? r := by
  obtain ⟨o, hr⟩ := h r rfl
  rw [hr, hext r o hr]

/-- And the same entries. -/
theorem Extends.entriesAt (h : s.Has (.object r)) : t.entriesAt r = s.entriesAt r := by
  unfold Store.entriesAt
  rw [hext.get?_eq h]

/-- And a constructor answers with the same name. -/
theorem Extends.nameOf? {v : Value} (h : s.Has v) : t.nameOf? v = s.nameOf? v := by
  cases v with
  | object r =>
    unfold Store.nameOf?
    dsimp only
    rw [hext.get?_eq h]
  | _ => rfl

variable (hs : s.Closed)

include hs

/-- An object holds what it held. -/
theorem Extends.contents (hr : s.get? r = some o) : t.contents o = s.contents o := by
  cases o with
  | adapter a =>
    exact congrArg Contents.entries (hext.entriesAt (hs r _ hr _ (List.mem_singleton_self _)))
  | derived members =>
    refine congrArg Contents.none ?_
    unfold derivedCause
    split
    · rfl
    · rename_i v hv
      rw [hext.nameOf? (hs.has_of_members (.inl rfl) hr (Entries.mem_of_get? hv))]
  | numberBox kind x => rcases kind with k | _ | _ <;> rfl
  | _ => rfl

/-- A value of a closed store is encoded as before. -/
theorem Extends.encodeWithin (ancestors : List Ref) {v : Value} (hv : s.Has v) :
    t.encodeWithin ancestors v = s.encodeWithin ancestors v := by
  by_cases hobject : ∃ r, v = .object r
  swap
  · have hleaf : ∀ r, v ≠ .object r := fun r hv => hobject ⟨r, hv⟩
    rw [encodeWithin_leaf hleaf, encodeWithin_leaf hleaf]
  obtain ⟨r, rfl⟩ := hobject
  obtain ⟨o, hr⟩ := hv r rfl
  rw [encodeWithin_object hr, encodeWithin_object (hext r o hr), hext.contents hs hr]
  cases ho : s.contents o with
  | leaf v => rfl
  | none cause => rfl
  -- The parts of what the store holds are held by it.
  | items vs =>
    dsimp only
    split_ifs with hmem
    · rfl
    · have hlt := unvisited_cons_lt (mem_refs_of_get? hr) hmem
      rw [encodeItems_congr fun v hv =>
        Extends.encodeWithin (r :: ancestors) (hs.has_of_parts hr (mem_parts_of_items ho hv))]
  | entries es =>
    dsimp only
    split_ifs with hmem
    · rfl
    · have hlt := unvisited_cons_lt (mem_refs_of_get? hr) hmem
      rw [encodeEntries_congr fun e he =>
        Extends.encodeWithin (r :: ancestors) (hs.has_of_parts hr (mem_parts_of_entries ho he).2)]
termination_by unvisited s.refs ancestors

end Encoding

section Texts

variable {text text' : Ref → Except Fault Text}

/-- The text of a value depends on the text of the object that it is. -/
theorem textWithin_congr {v : Value} (h : ∀ r, v = .object r → text r = text' r) :
    v.textWithin text = v.textWithin text' := by
  cases v with
  | object r => exact h r rfl
  | _ => rfl

/-- The texts of items depend on the texts of the objects among them. -/
theorem itemTexts_congr (vs : List Value) (h : ∀ r, .object r ∈ vs → text r = text' r) :
    itemTexts text vs = itemTexts text' vs := by
  induction vs with
  | nil => rfl
  | cons v vs ih =>
    have hv : v.textWithin text = v.textWithin text' := by
      refine textWithin_congr fun r hr => h r ?_
      rw [hr]
      exact List.mem_cons_self
    rw [itemTexts, itemTexts, hv, ih fun r hr => h r (List.mem_cons_of_mem _ hr)]

/-- An explanation depends on the text of the object that the obstacle names. -/
theorem explain_congr {e : Obstacle} (h : ∀ r, e.cause = .foreign (.object r) → text r = text' r) :
    e.explain text = e.explain text' := by
  unfold Obstacle.explain Unencodable.message
  cases hcause : e.cause with
  | foreign name =>
    dsimp only
    rw [textWithin_congr fun r hr => h r (by rw [hcause, hr])]
  | _ => rfl

/-- The text of an object, by what it is. -/
theorem objectText_of_get? (hr : s.get? r = some o) (joining showing : List Ref) :
    s.objectText joining showing r =
      match o with
      | .array slots =>
        if r ∈ joining then .ok []
        else (itemTexts (s.objectText (r :: joining) []) (slotItems slots)).map
          (List.intercalate (units ","))
      | .adapter a =>
        match s.encode (.object a.backing) with
        | .ok j => .ok (j.write 0)
        | .error e =>
          if r ∈ showing then .error .endless
          else (e.explain (s.objectText joining (r :: showing))).map EncodeError.note
      | .record bare members => membersText (!bare) members
      | .derived members => membersText true members
      | .map _ => .ok (units "[object Map]")
      | .date date => .ok date.localText
      | .foreign _ manner => manner.answer.toText
      | _ => .ok (units "[object Object]") := by
  -- The definition keeps the lookup as a hypothesis of its recursion, so the match on it is split.
  rw [Store.objectText.eq_def]
  split
  · rename_i hnone
    rw [hr] at hnone
    cases hnone
  · rename_i o' hr'
    rw [hr] at hr'
    cases hr'
    cases o with
    | array slots =>
      dsimp only
      split_ifs <;> rfl
    | adapter a =>
      dsimp only
      cases s.encode (.object a.backing) with
      | ok j => rfl
      | error e =>
        dsimp only
        split_ifs <;> rfl
    | _ => rfl

/-- An object of a closed store has the text it had. -/
theorem Extends.objectText (hext : s.Extends t) (hs : s.Closed) (joining showing : List Ref)
    {r : Ref} (hr : s.Has (.object r)) :
    t.objectText joining showing r = s.objectText joining showing r := by
  -- By induction on the arrays not being joined yet and, among these, the adapters not being shown.
  obtain ⟨o, hr⟩ := hr r rfl
  rw [objectText_of_get? hr, objectText_of_get? (hext r o hr)]
  cases o with
  | array slots =>
    -- The items are at places of the store.
    dsimp only
    split_ifs with hmem
    · rfl
    · have hlt := unvisited_cons_lt (mem_refs_of_get? hr) hmem
      have hitems := itemTexts_congr (slotItems slots) fun r' hr' =>
        Extends.objectText hext hs (r :: joining) [] (hs r _ hr _ hr')
      rw [hitems]
  | adapter a =>
    -- So is the backing map, and with it whatever the error of encoding it is about.
    have hbacking := hs r _ hr _ (List.mem_singleton_self _)
    have hencode : t.encode (.object a.backing) = s.encode (.object a.backing) :=
      hext.encodeWithin hs [] hbacking
    dsimp only
    rw [hencode]
    cases he : s.encode (.object a.backing) with
    | ok j => rfl
    | error e =>
      dsimp only
      split_ifs with hmem
      · rfl
      · have hlt := unvisited_cons_lt (mem_refs_of_get? hr) hmem
        have hexplain := explain_congr (e := e) fun r' hcause =>
          Extends.objectText hext hs joining (r :: showing) (hs.has_of_encode he hcause)
        rw [hexplain]
  | _ => rfl
termination_by (unvisited s.refs joining, unvisited s.refs showing)

end Texts

end Store

end TypedReads
