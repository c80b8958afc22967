import TypedReads.Proofs.Json.Normal
import TypedReads.Proofs.Json.Written
import TypedReads.Proofs.Number.Floating
import TypedReads.Value.Encode

/-!
# Encoded values read back

`Store.Canonical` describes, value by value and without the encoder, what is left of a value when it is
written as JSON and read again: primitives stay but for numbers, boxes become what is in them, and
every container with keys becomes a plain object. `Store.canonical_of_encodeWithin` says that this is what
the reader gives: an encoded value has finite numbers only, so its text is read as the value reread.
The induction is on the places that the walk may still enter.
-/

namespace TypedReads

namespace Store

mutual

/-- What a value is once it has been written as JSON and read again. -/
inductive Canonical (s : Store) : Value → Json → Prop
  | null : Canonical s .null .null
  | bool (b : Bool) : Canonical s (.bool b) (.bool b)
  | text (t : Text) : Canonical s (.text t) (.text t)
  | number {x : Double} (h : x.isFinite = true) : Canonical s (.number x) x.canonical
  /-- A safe integer becomes a double. -/
  | safe {n : ℤ} (h : -Double.safeBound ≤ n ∧ n ≤ Double.safeBound) :
      Canonical s (.integer n) (.number (Double.ofInt n))
  /-- An integer of 64 bits that no double is safe for stays exact. -/
  | long {n : ℤ} (hwide : ¬ (-Double.safeBound ≤ n ∧ n ≤ Double.safeBound))
      (hlong : IntegralKind.long.holds n = true) : Canonical s (.integer n) (.integer n)
  /-- An integer of more than 64 bits becomes the nearest double. -/
  | beyond {n : ℤ} (hlong : IntegralKind.long.holds n = false) :
      Canonical s (.integer n) (.number (Double.ofInt n))
  | char {r : Ref} {t : Text} (hr : s.get? r = some (.charBox t)) : Canonical s (.object r) (.text t)
  /-- A 32-bit number becomes what its shortest text reads as. -/
  | single {r : Ref} {x y : Double} {j : Json}
      (hr : s.get? r = some (.numberBox (.floating .float) x))
      (hy : x.toSingleText.floating? = some y) (h : Canonical s (.number y) j) :
      Canonical s (.object r) j
  | box {r : Ref} {kind : NumericKind} {x : Double} {j : Json} (hkind : kind ≠ .floating .float)
      (hr : s.get? r = some (.numberBox kind x)) (h : Canonical s (.number x) j) :
      Canonical s (.object r) j
  | array {r : Ref} {slots : List (Option Value)} {js : List Json}
      (hr : s.get? r = some (.array slots)) (h : CanonicalItems s (slotItems slots) js) :
      Canonical s (.object r) (.array js)
  /-- A record, a map or an adapter becomes the object of its entries. -/
  | object {r : Ref} {o : Object} {es : List (Value × Value)} {members : List (Text × Json)}
      (hr : s.get? r = some o) (ho : s.contents o = .entries es)
      (h : CanonicalEntries s es members) : Canonical s (.object r) (Json.record members)

/-- What items are once they have been written and read again. -/
inductive CanonicalItems (s : Store) : List Value → List Json → Prop
  | nil : CanonicalItems s [] []
  | cons {v : Value} {j : Json} {vs : List Value} {js : List Json} (h : Canonical s v j)
      (hrest : CanonicalItems s vs js) : CanonicalItems s (v :: vs) (j :: js)

/-- What entries are once they have been written and read again: they keep their keys, which are
texts, and their order. -/
inductive CanonicalEntries (s : Store) : List (Value × Value) → List (Text × Json) → Prop
  | nil : CanonicalEntries s [] []
  | cons {key : Text} {v : Value} {j : Json} {es : List (Value × Value)}
      {members : List (Text × Json)} (h : Canonical s v j) (hrest : CanonicalEntries s es members) :
      CanonicalEntries s ((.text key, v) :: es) ((key, j) :: members)

end

section Uniqueness

variable {s : Store}

/-- The canonical form of an object, by what stands at its place. -/
theorem Canonical.cases_object {r : Ref} {o : Object} {j : Json} (hr : s.get? r = some o)
    (h : s.Canonical (.object r) j) :
    (∃ t, o = .charBox t ∧ j = .text t) ∨
      (∃ kind x y, o = .numberBox kind x ∧ s.Canonical (.number y) j ∧
        if kind = .floating .float then x.toSingleText.floating? = some y else y = x) ∨
      (∃ slots js, o = .array slots ∧ s.CanonicalItems (slotItems slots) js ∧ j = .array js) ∨
      (∃ es members, s.contents o = .entries es ∧ s.CanonicalEntries es members ∧
        j = Json.record members) := by
  cases h with
  | char hr' =>
    rw [hr] at hr'
    exact .inl ⟨_, Option.some.inj hr', rfl⟩
  | single hr' hy h =>
    rw [hr] at hr'
    exact .inr (.inl ⟨_, _, _, Option.some.inj hr', h, by rw [if_pos rfl]; exact hy⟩)
  | box hkind hr' h =>
    rw [hr] at hr'
    exact .inr (.inl ⟨_, _, _, Option.some.inj hr', h, by rw [if_neg hkind]⟩)
  | array hr' h =>
    rw [hr] at hr'
    exact .inr (.inr (.inl ⟨_, _, Option.some.inj hr', h, rfl⟩))
  | object hr' ho h =>
    rw [hr] at hr'
    cases hr'
    exact .inr (.inr (.inr ⟨_, _, ho, h, rfl⟩))

/-- A box has no entries. -/
theorem contents_numberBox_ne {kind : NumericKind} {x : Double} {es : List (Value × Value)} :
    s.contents (.numberBox kind x) ≠ .entries es := by
  rcases kind with k | _ | _ <;> exact fun h => nomatch h

mutual

/-- A value has one canonical form only. -/
theorem Canonical.unique {v : Value} {j j' : Json} :
    s.Canonical v j → s.Canonical v j' → j = j'
  | .null, h => by cases h; rfl
  | .bool _, h => by cases h; rfl
  | .text _, h => by cases h; rfl
  | .number _, h => by cases h; rfl
  | .safe hsafe, h => by
    -- The ranges of integers exclude each other, but for the forms that agree.
    cases h with
    | safe _ => rfl
    | long hwide _ => exact absurd hsafe hwide
    | beyond _ => rfl
  | .long hwide hlong, h => by
    cases h with
    | safe hsafe => exact absurd hsafe hwide
    | long _ _ => rfl
    | beyond hout => rw [hlong] at hout; cases hout
  | .beyond hout, h => by
    cases h with
    | safe _ => rfl
    | long _ hlong => rw [hlong] at hout; cases hout
    | beyond _ => rfl
  -- The second form is of an object too, and the object at the place decides of which.
  | .char hr, h => by
    obtain ⟨t, ho, rfl⟩ | ⟨_, _, _, ho, -⟩ | ⟨_, _, ho, -⟩ | ⟨_, _, ho, -⟩ := h.cases_object hr <;>
      cases ho
    rfl
  | .single hr hy hj, h => by
    -- Taken before the second form is named, which may stand at the place of the first.
    have ih := fun j' (h' : _) => (hj.unique h' : _ = j')
    obtain ⟨_, ho, -⟩ | ⟨_, _, y, ho, hj', hy'⟩ | ⟨_, _, ho, -⟩ | ⟨_, _, ho, -⟩ :=
      h.cases_object hr <;> cases ho
    rw [if_pos rfl, hy] at hy'
    cases hy'
    exact ih _ hj'
  | .box hkind hr hj, h => by
    have ih := fun j' (h' : _) => (hj.unique h' : _ = j')
    obtain ⟨_, ho, -⟩ | ⟨_, _, y, ho, hj', hy'⟩ | ⟨_, _, ho, -⟩ | ⟨_, _, ho, -⟩ :=
      h.cases_object hr
    · cases ho
    · cases ho
      rw [if_neg hkind] at hy'
      subst hy'
      exact ih _ hj'
    · cases ho
    · exact absurd ho (contents_numberBox_ne)
  -- Containers hold the canonical forms of their parts.
  | .array hr hj, h => by
    have ih := fun j' (h' : _) => (hj.unique h' : _ = j')
    obtain ⟨_, ho, -⟩ | ⟨_, _, _, ho, -⟩ | ⟨_, _, ho, hj', rfl⟩ | ⟨_, _, ho, -⟩ :=
      h.cases_object hr <;> cases ho
    rw [ih _ hj']
  | .object hr ho hj, h => by
    have ih := fun j' (h' : _) => (hj.unique h' : _ = j')
    obtain ⟨_, rfl, -⟩ | ⟨_, _, _, rfl, -⟩ | ⟨_, _, rfl, -⟩ | ⟨_, _, ho', hj', rfl⟩ :=
      h.cases_object hr
    · cases ho
    · exact absurd ho contents_numberBox_ne
    · cases ho
    · rw [ho] at ho'
      cases ho'
      rw [ih _ hj']

/-- Items have one canonical form. -/
theorem CanonicalItems.unique {vs : List Value} {js js' : List Json} :
    s.CanonicalItems vs js → s.CanonicalItems vs js' → js = js'
  | .nil, h => by cases h; rfl
  | .cons h hrest, h' => by
    cases h' with
    | cons h' hrest' => rw [h.unique h', hrest.unique hrest']

/-- Entries have one canonical form. -/
theorem CanonicalEntries.unique {es : List (Value × Value)} {members members' : List (Text × Json)} :
    s.CanonicalEntries es members → s.CanonicalEntries es members' → members = members'
  | .nil, h => by cases h; rfl
  | .cons h hrest, h' => by
    cases h' with
    | cons h' hrest' => rw [h.unique h', hrest.unique hrest']

end

end Uniqueness

section Inversion

variable {encode : Value → Except Obstacle Json}

/-- What is in one of two lists that correspond has its counterpart in the other. -/
theorem exists_of_forall₂ {α β : Type} {R : α → β → Prop} {as : List α} {bs : List β}
    (h : List.Forall₂ R as bs) {a : α} (ha : a ∈ as) : ∃ b ∈ bs, R a b := by
  induction h with
  | nil => cases ha
  | cons hab _ ih =>
    rcases List.mem_cons.mp ha with rfl | hmem
    · exact ⟨_, List.mem_cons_self, hab⟩
    · obtain ⟨b, hb, hab'⟩ := ih hmem
      exact ⟨b, List.mem_cons_of_mem _ hb, hab'⟩

/-- The items encoded are the encodings of the items. -/
theorem forall₂_of_encodeItems {i : ℕ} {vs : List Value} {js : List Json}
    (h : encodeItems encode i vs = .ok js) : List.Forall₂ (fun v j => encode v = .ok j) vs js := by
  induction vs generalizing i js with
  | nil =>
    cases h
    exact .nil
  | cons v vs ih =>
    rw [encodeItems] at h
    split at h
    · cases h
    · rename_i j hj
      split at h
      · cases h
      · rename_i js' hjs
        cases h
        exact .cons hj (ih hjs)

/-- The members encoded have the keys and the encodings of the entries. -/
theorem forall₂_of_encodeEntries {es : List (Value × Value)} {members : List (Text × Json)}
    (h : encodeEntries encode es = .ok members) :
    List.Forall₂ (fun e member => e.1 = .text member.1 ∧ encode e.2 = .ok member.2) es members := by
  induction es generalizing members with
  | nil =>
    cases h
    exact .nil
  | cons e es ih =>
    obtain ⟨key, v⟩ := e
    cases key with
    | text key =>
      rw [encodeEntries] at h
      split at h
      · cases h
      · rename_i j hj
        split at h
        · cases h
        · rename_i members' hmembers
          cases h
          exact .cons ⟨rfl, hj⟩ (ih hmembers)
    | _ => cases h

/-- The encoding of an object, by what it holds. -/
theorem encodeWithin_object {s : Store} {r : Ref} {o : Object} (hr : s.get? r = some o)
    (ancestors : List Ref) :
    s.encodeWithin ancestors (.object r) =
      match s.contents o with
      | .leaf v => encodeLeaf v
      | .none cause => .error (.here cause)
      | .items vs =>
        if r ∈ ancestors then .error (.here .cycle)
        else (encodeItems (s.encodeWithin (r :: ancestors)) 0 vs).map .array
      | .entries es =>
        if r ∈ ancestors then .error (.here .cycle)
        else (encodeEntries (s.encodeWithin (r :: ancestors)) es).map .object := by
  -- The match on the lookup is split, since the recursion has the lookup as a hypothesis.
  rw [encodeWithin.eq_def]
  dsimp only
  split
  · rename_i hnone
    rw [hr] at hnone
    cases hnone
  · rename_i o' ho
    rw [hr] at ho
    cases ho
    cases s.contents o with
    | items vs =>
      dsimp only
      split_ifs <;> rfl
    | entries es =>
      dsimp only
      split_ifs <;> rfl
    | _ => rfl

/-- A reference to no object is undefined. -/
theorem encodeWithin_dangling {s : Store} {r : Ref} (hr : s.get? r = none) (ancestors : List Ref) :
    s.encodeWithin ancestors (.object r) = .error (.here (.ofType "undefined")) := by
  rw [encodeWithin.eq_def]
  dsimp only
  split
  · rfl
  · rename_i o ho
    rw [hr] at ho
    cases ho

/-- An encoded container with items is an array of the encoded items. -/
theorem encodeWithin_items {s : Store} {ancestors : List Ref} {r : Ref} {o : Object}
    (hr : s.get? r = some o) {vs : List Value} (ho : s.contents o = .items vs) {j : Json}
    (h : s.encodeWithin ancestors (.object r) = .ok j) :
    ∃ js, j = .array js ∧ r ∉ ancestors ∧
      List.Forall₂ (fun v j => s.encodeWithin (r :: ancestors) v = .ok j) vs js := by
  rw [encodeWithin_object hr, ho] at h
  dsimp only at h
  split_ifs at h with hnot
  cases hvs : encodeItems (s.encodeWithin (r :: ancestors)) 0 vs with
  | error e =>
    rw [hvs] at h
    cases h
  | ok js =>
    rw [hvs] at h
    cases h
    exact ⟨js, rfl, hnot, forall₂_of_encodeItems hvs⟩

/-- An encoded container with entries is an object of the encoded entries. -/
theorem encodeWithin_entries {s : Store} {ancestors : List Ref} {r : Ref} {o : Object}
    (hr : s.get? r = some o) {es : List (Value × Value)} (ho : s.contents o = .entries es) {j : Json}
    (h : s.encodeWithin ancestors (.object r) = .ok j) :
    ∃ members, j = .object members ∧ r ∉ ancestors ∧
      List.Forall₂ (fun e member => e.1 = .text member.1 ∧
        s.encodeWithin (r :: ancestors) e.2 = .ok member.2) es members := by
  rw [encodeWithin_object hr, ho] at h
  dsimp only at h
  split_ifs at h with hnot
  cases hes : encodeEntries (s.encodeWithin (r :: ancestors)) es with
  | error e =>
    rw [hes] at h
    cases h
  | ok members =>
    rw [hes] at h
    cases h
    exact ⟨members, rfl, hnot, forall₂_of_encodeEntries hes⟩

/-- A value that is no object is encoded as a leaf. -/
theorem encodeWithin_leaf {s : Store} {v : Value} (h : ∀ r, v ≠ .object r) (ancestors : List Ref) :
    s.encodeWithin ancestors v = encodeLeaf v := by
  rw [encodeWithin.eq_def]
  split
  · rename_i r
    exact absurd rfl (h r)
  · rfl

/-- An encoded reference is that of an object. -/
theorem get?_of_encodeWithin {s : Store} {ancestors : List Ref} {r : Ref} {j : Json}
    (h : s.encodeWithin ancestors (.object r) = .ok j) : ∃ o, s.get? r = some o := by
  rw [encodeWithin.eq_def] at h
  dsimp only at h
  split at h
  · cases h
  · rename_i o hr
    exact ⟨o, hr⟩

end Inversion

section Encode

variable {s : Store}

/-- A number that is encoded is finite. -/
theorem finite_of_encodeLeaf {x : Double} {j : Json} (h : encodeLeaf (.number x) = .ok j) :
    x.isFinite = true ∧ j = .number x := by
  by_cases hx : x.isFinite = true
  · rw [encodeLeaf, if_pos hx] at h
    cases h
    exact ⟨hx, rfl⟩
  · rw [encodeLeaf, if_neg hx] at h
    cases h

/-- A leaf that is encoded. -/
theorem canonical_of_encodeLeaf {v : Value} {j : Json} (h : encodeLeaf v = .ok j) :
    j.Finite ∧ s.Canonical v j.reread.normalize := by
  cases v with
  | null =>
    cases h
    exact ⟨trivial, .null⟩
  | bool b =>
    cases h
    exact ⟨trivial, .bool b⟩
  | text t =>
    cases h
    exact ⟨trivial, .text t⟩
  | number x =>
    obtain ⟨hx, rfl⟩ := finite_of_encodeLeaf h
    refine ⟨hx, ?_⟩
    rw [Json.reread, Double.normalize_canonical]
    exact .number hx
  | integer n =>
    cases h
    refine ⟨trivial, ?_⟩
    unfold Json.reread
    split_ifs with h
    · -- Both ends of the range are read as doubles.
      rcases h with hsafe | hlong
      · exact .safe hsafe
      · exact .beyond (Bool.eq_false_iff.mpr hlong)
    · rw [not_or, not_not] at h
      exact .long h.1 h.2
  | _ => cases h

section Parts

variable {encode : Value → Except Obstacle Json}
  (hencode : ∀ {v j}, encode v = .ok j → j.Finite ∧ s.Canonical v j.reread.normalize)

include hencode

/-- Items that are encoded one by one have finite numbers and are read again in canonical form. -/
theorem canonicalItems_of_forall₂ {vs : List Value} {js : List Json}
    (h : List.Forall₂ (fun v j => encode v = .ok j) vs js) :
    Json.FiniteItems js ∧ s.CanonicalItems vs (Json.normalizeItems (Json.rereadItems js)) := by
  induction h with
  | nil => exact ⟨trivial, .nil⟩
  | cons hv hvs ih =>
    obtain ⟨hfinite, hcanonical⟩ := hencode hv
    exact ⟨⟨hfinite, ih.1⟩, .cons hcanonical ih.2⟩

/-- So have entries. -/
theorem canonicalEntries_of_forall₂ {es : List (Value × Value)} {members : List (Text × Json)}
    (h : List.Forall₂ (fun e member => e.1 = .text member.1 ∧ encode e.2 = .ok member.2)
      es members) :
    Json.FiniteMembers members ∧
      s.CanonicalEntries es (Json.normalizeMembers (Json.rereadMembers members)) := by
  induction h with
  | nil => exact ⟨trivial, .nil⟩
  | @cons e member es members he hes ih =>
    obtain ⟨key, v⟩ := e
    obtain ⟨hkey, hv⟩ := he
    dsimp only at hkey
    subst hkey
    obtain ⟨hfinite, hcanonical⟩ := hencode hv
    exact ⟨⟨hfinite, ih.1⟩, .cons hcanonical ih.2⟩

end Parts

/-- A box that is encoded. -/
theorem canonical_of_leaf {r : Ref} {o : Object} (hr : s.get? r = some o) {v : Value}
    (ho : s.contents o = .leaf v) {j : Json} (h : encodeLeaf v = .ok j) :
    j.Finite ∧ s.Canonical (.object r) j.reread.normalize := by
  cases o with
  | charBox t =>
    cases ho
    cases h
    exact ⟨trivial, .char hr⟩
  | numberBox kind x =>
    by_cases hkind : kind = .floating .float
    · -- What is encoded is read from the text of the box.
      subst hkind
      cases ho
      obtain ⟨hfinite, rfl⟩ := finite_of_encodeLeaf h
      refine ⟨hfinite, .single hr (Double.floating?_toText hfinite) ?_⟩
      rw [Json.reread, Double.normalize_canonical, ← Double.canonical_withoutNegativeZero]
      exact .number ((Double.isFinite_withoutNegativeZero _).trans hfinite)
    -- The boxes of all other kinds are encoded as the number in them.
    · have hv : v = .number x := by
        rcases kind with k | _ | _
        · exact (Contents.leaf.inj ho).symm
        · exact absurd rfl hkind
        · exact (Contents.leaf.inj ho).symm
      obtain ⟨hfinite, hcanonical⟩ := canonical_of_encodeLeaf (s := s) h
      subst hv
      exact ⟨hfinite, .box hkind hr hcanonical⟩
  | _ => cases ho

/-- Only arrays hold items. -/
theorem array_of_contents {o : Object} {vs : List Value} (ho : s.contents o = .items vs) :
    ∃ slots, o = .array slots ∧ slotItems slots = vs := by
  cases o with
  | array slots => exact ⟨slots, rfl, Contents.items.inj ho⟩
  | numberBox kind x => rcases kind with k | _ | _ <;> cases ho
  | _ => cases ho

/-- What is encoded has finite numbers only and is read back as the canonical form of the value. -/
theorem canonical_of_encodeWithin (s : Store) (ancestors : List Ref) {v : Value} {j : Json}
    (h : s.encodeWithin ancestors v = .ok j) :
    j.Finite ∧ s.Canonical v j.reread.normalize := by
  -- By induction on the places that are not being encoded yet.
  by_cases hobject : ∃ r, v = .object r
  swap
  · rw [encodeWithin_leaf fun r hv => hobject ⟨r, hv⟩] at h
    exact canonical_of_encodeLeaf h
  obtain ⟨r, rfl⟩ := hobject
  obtain ⟨o, hr⟩ := get?_of_encodeWithin h
  cases ho : s.contents o with
  | leaf v =>
    rw [encodeWithin_object hr, ho] at h
    exact canonical_of_leaf hr ho h
  | none cause =>
    rw [encodeWithin_object hr, ho] at h
    cases h
  | items vs =>
    obtain ⟨js, rfl, hnot, hjs⟩ := encodeWithin_items hr ho h
    have hlt := unvisited_cons_lt (mem_refs_of_get? hr) hnot
    obtain ⟨hfinite, hcanonical⟩ := canonicalItems_of_forall₂
      (fun hv => canonical_of_encodeWithin s (r :: ancestors) hv) hjs
    obtain ⟨slots, rfl, rfl⟩ := array_of_contents ho
    exact ⟨hfinite, .array hr hcanonical⟩
  | entries es =>
    obtain ⟨members, rfl, hnot, hmembers⟩ := encodeWithin_entries hr ho h
    have hlt := unvisited_cons_lt (mem_refs_of_get? hr) hnot
    obtain ⟨hfinite, hcanonical⟩ := canonicalEntries_of_forall₂
      (fun hv => canonical_of_encodeWithin s (r :: ancestors) hv) hmembers
    exact ⟨hfinite, .object hr ho hcanonical⟩
termination_by unvisited s.refs ancestors

end Encode

end Store

end TypedReads
