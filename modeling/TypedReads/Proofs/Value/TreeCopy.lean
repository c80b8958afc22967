import TypedReads.Proofs.Json.Listing
import TypedReads.Proofs.Value.Extension
import TypedReads.Proofs.Value.WellFormed

/-!
# Copies without sharing

`Store.Copy` relates a value to a copy of it and lists where the objects of the copy stand, each as
often as it is met. If no place is listed twice, the copy is a tree. A value without cycles has such
a copy (`exists_copy`), made by putting a new object into the store for every object met, and a tree
is encoded as the value that it is a copy of (`Copy.encodeText`), with the same error if there is
one.

Both inductions follow the value: the first because nothing holds itself, so that its parts can be
copied before it, the second along the copy.
-/

namespace TypedReads

/-- An object without items or entries. -/
def Object.IsWhole : Object → Prop
  | .array _ | .record .. | .map _ | .adapter _ => False
  | .numberBox .. | .charBox _ | .date _ | .foreign .. | .derived _ => True

namespace Store

section Copies

mutual

/-- A value of a store, a copy of it in another store, and where the objects of the copy stand. -/
inductive Copy (s t : Store) : Value → Value → List Ref → Prop
  | leaf {v : Value} (h : ∀ r, v ≠ .object r) : Copy s t v v []
  | whole {r r' : Ref} {o : Object} (hr : s.get? r = some o) (hr' : t.get? r' = some o)
      (ho : o.IsWhole) : Copy s t (.object r) (.object r') [r']
  | array {r r' : Ref} {slots slots' : List (Option Value)} {ps : List Ref}
      (hr : s.get? r = some (.array slots)) (hr' : t.get? r' = some (.array slots'))
      (h : CopyItems s t (slotItems slots) (slotItems slots') ps) :
      Copy s t (.object r) (.object r') (r' :: ps)
  | record {r r' : Ref} {bare : Bool} {members members' : Entries Text Value} {ps : List Ref}
      (hr : s.get? r = some (.record bare members)) (hr' : t.get? r' = some (.record bare members'))
      (h : CopyEntries s t (recordEntries members) (recordEntries members') ps) :
      Copy s t (.object r) (.object r') (r' :: ps)
  | map {r r' : Ref} {es es' : Entries Value Value} {ps : List Ref} (hr : s.get? r = some (.map es))
      (hr' : t.get? r' = some (.map es')) (h : CopyEntries s t es es' ps) :
      Copy s t (.object r) (.object r') (r' :: ps)
  /-- The copy of an adapter looks at a map of its own. -/
  | adapter {r r' m' : Ref} {a : Adapter} {es' : Entries Value Value} {ps : List Ref}
      (hr : s.get? r = some (.adapter a)) (hr' : t.get? r' = some (.adapter ⟨m', a.narrowing⟩))
      (hm' : t.get? m' = some (.map es')) (h : CopyEntries s t (s.entriesAt a.backing) es' ps) :
      Copy s t (.object r) (.object r') (r' :: m' :: ps)

/-- Items and copies of them. -/
inductive CopyItems (s t : Store) : List Value → List Value → List Ref → Prop
  | nil : CopyItems s t [] [] []
  | cons {v v' : Value} {vs vs' : List Value} {ps qs : List Ref} (h : Copy s t v v' ps)
      (hrest : CopyItems s t vs vs' qs) : CopyItems s t (v :: vs) (v' :: vs') (ps ++ qs)

/-- Entries and copies of them, keys and values. -/
inductive CopyEntries (s t : Store) :
    List (Value × Value) → List (Value × Value) → List Ref → Prop
  | nil : CopyEntries s t [] [] []
  | cons {key key' v v' : Value} {es es' : List (Value × Value)} {ps qs qs' : List Ref}
      (hkey : Copy s t key key' ps) (h : Copy s t v v' qs) (hrest : CopyEntries s t es es' qs') :
      CopyEntries s t ((key, v) :: es) ((key', v') :: es') (ps ++ (qs ++ qs'))

end

variable {s t t' : Store}

mutual

/-- A copy stays one when more is put into its store. -/
theorem Copy.mono (hext : t.Extends t') {v v' : Value} {ps : List Ref} :
    s.Copy t v v' ps → s.Copy t' v v' ps
  | .leaf h => .leaf h
  | .whole hr hr' ho => .whole hr (hext _ _ hr') ho
  | .array hr hr' h => .array hr (hext _ _ hr') (h.mono hext)
  | .record hr hr' h => .record hr (hext _ _ hr') (h.mono hext)
  | .map hr hr' h => .map hr (hext _ _ hr') (h.mono hext)
  | .adapter hr hr' hm' h => .adapter hr (hext _ _ hr') (hext _ _ hm') (h.mono hext)

/-- Items are copied into a larger store as well. -/
theorem CopyItems.mono (hext : t.Extends t') {vs vs' : List Value} {ps : List Ref} :
    s.CopyItems t vs vs' ps → s.CopyItems t' vs vs' ps
  | .nil => .nil
  | .cons h hrest => .cons (h.mono hext) (hrest.mono hext)

/-- So are entries. -/
theorem CopyEntries.mono (hext : t.Extends t') {es es' : List (Value × Value)} {ps : List Ref} :
    s.CopyEntries t es es' ps → s.CopyEntries t' es es' ps
  | .nil => .nil
  | .cons hkey h hrest => .cons (hkey.mono hext) (h.mono hext) (hrest.mono hext)

end

end Copies

section Encoding

variable {s t : Store}

/-- What is encoded within some objects without meeting any of them, or itself. -/
def Clear (s : Store) (ancestors : List Ref) (v : Value) : Prop :=
  s.Acyclic v ∧ s.Apart ancestors v

/-- A part of what is clear of some objects is clear of these and of what holds it. -/
theorem Clear.part {ancestors : List Ref} {r : Ref} {o : Object}
    (h : s.Clear ancestors (.object r)) (hr : s.get? r = some o) {part : Value}
    (hpart : part ∈ s.parts o) : s.Clear (r :: ancestors) part :=
  ⟨h.1.of_part (.of_get? hr hpart), h.2.cons_part h.1 (.of_get? hr hpart)⟩

/-- A whole object is a leaf or has nothing that JSON can hold. -/
theorem contents_of_isWhole {o : Object} (ho : o.IsWhole) :
    (∃ v, s.contents o = .leaf v) ∨ ∃ cause, s.contents o = .none cause := by
  cases o with
  | numberBox kind x => rcases kind with k | _ | _ <;> exact .inl ⟨_, rfl⟩
  | charBox t => exact .inl ⟨_, rfl⟩
  | date _ | foreign _ _ | derived _ => exact .inr ⟨_, rfl⟩
  | _ => cases ho

section Containers

variable {r r' : Ref} {o o' : Object} {ancestors ancestors' : List Ref} (hr : s.get? r = some o)
  (hr' : t.get? r' = some o') (hfree : r ∉ ancestors) (hfree' : r' ∉ ancestors')

include hr hr' hfree hfree'

/-- Objects with items that are encoded alike are encoded alike. -/
theorem encodeWithin_eq_of_items {vs vs' : List Value} (ho : s.contents o = .items vs)
    (ho' : t.contents o' = .items vs')
    (h : encodeItems (t.encodeWithin (r' :: ancestors')) 0 vs' =
      encodeItems (s.encodeWithin (r :: ancestors)) 0 vs) :
    t.encodeWithin ancestors' (.object r') = s.encodeWithin ancestors (.object r) := by
  rw [encodeWithin_object hr, encodeWithin_object hr', ho, ho']
  dsimp only
  rw [if_neg hfree, if_neg hfree', h]

/-- Objects with entries that are encoded alike are encoded alike. -/
theorem encodeWithin_eq_of_entries {es es' : List (Value × Value)} (ho : s.contents o = .entries es)
    (ho' : t.contents o' = .entries es')
    (h : encodeEntries (t.encodeWithin (r' :: ancestors')) es' =
      encodeEntries (s.encodeWithin (r :: ancestors)) es) :
    t.encodeWithin ancestors' (.object r') = s.encodeWithin ancestors (.object r) := by
  rw [encodeWithin_object hr, encodeWithin_object hr', ho, ho']
  dsimp only
  rw [if_neg hfree, if_neg hfree', h]

end Containers

/-- A copied key is the key itself, unless both are objects and so no texts. -/
theorem Copy.key {key key' : Value} {ps : List Ref} (h : s.Copy t key key' ps) :
    key' = key ∨ (∃ r, key = .object r) ∧ ∃ r', key' = .object r' := by
  cases h with
  | leaf _ => exact .inl rfl
  | _ => exact .inr ⟨⟨_, rfl⟩, ⟨_, rfl⟩⟩

/-- Places that are listed once and are free of some others remain so inside the first of them. -/
theorem free_cons {p : Ref} {ps ancestors : List Ref} (hnodup : (p :: ps).Nodup)
    (hfree : ∀ q ∈ p :: ps, q ∉ ancestors) : ∀ q ∈ ps, q ∉ p :: ancestors := by
  intro q hq hmem
  rcases List.mem_cons.mp hmem with rfl | hmem
  · exact (List.nodup_cons.mp hnodup).1 hq
  · exact hfree q (List.mem_cons_of_mem p hq) hmem

mutual

/-- A tree is encoded as what it is a copy of. -/
theorem Copy.encodeWithin (hext : s.Extends t) (hs : s.Closed) {v v' : Value}
    {ps ancestors ancestors' : List Ref} (hnodup : ps.Nodup) (hfree : ∀ p ∈ ps, p ∉ ancestors')
    (hv : s.Clear ancestors v) : s.Copy t v v' ps →
      t.encodeWithin ancestors' v' = s.encodeWithin ancestors v
  | .leaf h => by rw [encodeWithin_leaf h, encodeWithin_leaf h]
  | .whole hr hr' ho => by
    rw [encodeWithin_object hr, encodeWithin_object hr', hext.contents hs hr]
    obtain ⟨v, hv⟩ | ⟨cause, hcause⟩ := contents_of_isWhole (s := s) ho
    · rw [hv]
    · rw [hcause]
  -- The places of a copy are distinct, so that none of them is around another.
  | .array hr hr' h =>
    encodeWithin_eq_of_items hr hr' hv.2.not_mem (hfree _ List.mem_cons_self) rfl rfl
      (h.encodeItems hext hs hnodup.of_cons (free_cons hnodup hfree)
        (fun v hmem => hv.part hr (mem_parts_of_items rfl hmem)) 0)
  | .record hr hr' h =>
    encodeWithin_eq_of_entries hr hr' hv.2.not_mem (hfree _ List.mem_cons_self) rfl rfl
      (h.encodeEntries hext hs hnodup.of_cons (free_cons hnodup hfree)
        fun e he => hv.part hr (mem_parts_of_entries rfl he).2)
  | .map hr hr' h =>
    encodeWithin_eq_of_entries hr hr' hv.2.not_mem (hfree _ List.mem_cons_self) rfl rfl
      (h.encodeEntries hext hs hnodup.of_cons (free_cons hnodup hfree)
        fun e he => hv.part hr (mem_parts_of_entries rfl he).2)
  | .adapter hr hr' hm' h =>
    encodeWithin_eq_of_entries hr hr' hv.2.not_mem (hfree _ List.mem_cons_self) rfl
      (congrArg Contents.entries (entriesAt_of_get? hm'))
      (h.encodeEntries hext hs hnodup.of_cons.of_cons
        (fun p hp => free_cons hnodup hfree p (List.mem_cons_of_mem _ hp))
        fun e he => hv.part hr (mem_parts_of_entries rfl he).2)

/-- Copied items are encoded as the items. -/
theorem CopyItems.encodeItems (hext : s.Extends t) (hs : s.Closed) {vs vs' : List Value}
    {ps ancestors ancestors' : List Ref} (hnodup : ps.Nodup) (hfree : ∀ p ∈ ps, p ∉ ancestors')
    (hvs : ∀ v ∈ vs, s.Clear ancestors v) (i : ℕ) : s.CopyItems t vs vs' ps →
      Store.encodeItems (t.encodeWithin ancestors') i vs' =
        Store.encodeItems (s.encodeWithin ancestors) i vs
  | .nil => rfl
  | .cons h hrest => by
    obtain ⟨hv, hvs⟩ := List.forall_mem_cons.mp hvs
    obtain ⟨hfree, hfree'⟩ := List.forall_mem_append.mp hfree
    obtain ⟨hnodup, hnodup', -⟩ := List.nodup_append.mp hnodup
    rw [Store.encodeItems, Store.encodeItems, h.encodeWithin hext hs hnodup hfree hv,
      hrest.encodeItems hext hs hnodup' hfree' hvs (i + 1)]

/-- Copied entries are encoded as the entries. -/
theorem CopyEntries.encodeEntries (hext : s.Extends t) (hs : s.Closed)
    {es es' : List (Value × Value)} {ps ancestors ancestors' : List Ref} (hnodup : ps.Nodup)
    (hfree : ∀ p ∈ ps, p ∉ ancestors') (hes : ∀ e ∈ es, s.Clear ancestors e.2) :
    s.CopyEntries t es es' ps →
      Store.encodeEntries (t.encodeWithin ancestors') es' =
        Store.encodeEntries (s.encodeWithin ancestors) es
  | .nil => rfl
  | .cons hkey h hrest => by
    obtain ⟨hv, hes⟩ := List.forall_mem_cons.mp hes
    obtain ⟨-, hfree⟩ := List.forall_mem_append.mp hfree
    obtain ⟨hfree, hfree'⟩ := List.forall_mem_append.mp hfree
    obtain ⟨-, hnodup, -⟩ := List.nodup_append.mp hnodup
    obtain ⟨hnodup, hnodup', -⟩ := List.nodup_append.mp hnodup
    have hv := h.encodeWithin hext hs hnodup hfree hv
    have hrest := hrest.encodeEntries hext hs hnodup' hfree' hes
    obtain rfl | ⟨⟨r, rfl⟩, r', rfl⟩ := hkey.key
    · exact encodeEntries_cons_congr hv hrest
    · rfl

end

/-- A tree has the text, or the error, of what it is a copy of. -/
theorem Copy.encodeText {v v' : Value} {ps : List Ref} (h : s.Copy t v v' ps) (hnodup : ps.Nodup)
    (hext : s.Extends t) (hs : s.Closed) (hv : s.Acyclic v) (width : Double) :
    t.encodeText v' width = s.encodeText v width := by
  have hencode : t.encode v' = s.encode v :=
    h.encodeWithin hext hs hnodup (fun _ _ => List.not_mem_nil) ⟨hv, apart_nil v⟩
  have hexplain : ∀ e, s.encode v = .error e → t.explain e = s.explain e := fun e he =>
    explain_congr fun r hcause => hext.objectText hs [] [] (hs.has_of_encode he hcause)
  have hjson : t.toJson v' = s.toJson v := by
    unfold toJson
    rw [hencode]
    cases he : s.encode v with
    | ok j => rfl
    | error e =>
      dsimp only
      rw [hexplain e he]
  unfold Store.encodeText
  rw [hjson]

end Encoding

section Existence

/-- Places from one on and below another, none of them twice. -/
structure Fresh (lo hi : Ref) (ps : List Ref) : Prop where
  nodup : ps.Nodup
  le : ∀ p ∈ ps, lo ≤ p
  lt : ∀ p ∈ ps, p < hi

variable {lo mid hi : Ref} {ps qs : List Ref}

/-- The place behind some others. -/
theorem Fresh.cons (h : Fresh lo hi ps) (hlo : lo ≤ hi) : Fresh lo (hi + 1) (hi :: ps) :=
  ⟨List.nodup_cons.mpr ⟨fun hmem => lt_irrefl _ (h.lt hi hmem), h.nodup⟩,
    List.forall_mem_cons.mpr ⟨hlo, h.le⟩,
    List.forall_mem_cons.mpr ⟨hi.lt_succ_self, fun p hp => (h.lt p hp).trans hi.lt_succ_self⟩⟩

variable {s t t' : Store}

/-- Copied entries of a record are those of a record with the same keys. -/
theorem CopyEntries.members {members : Entries Text Value} {es' : List (Value × Value)}
    (h : s.CopyEntries t (members.map fun e => (.text e.1, e.2)) es' ps) :
    ∃ members' : Entries Text Value, members'.keys = members.keys ∧
      es' = members'.map fun e => (.text e.1, e.2) := by
  induction members generalizing es' ps with
  | nil =>
    cases h
    exact ⟨[], rfl, rfl⟩
  | cons e rest ih =>
    cases h with
    | @cons _ key' _ v' _ es' _ _ _ hkey _ hrest =>
      obtain ⟨members', hkeys, rfl⟩ := ih hrest
      obtain rfl | ⟨⟨r, hr⟩, -⟩ := hkey.key
      · exact ⟨(e.1, v') :: members', congrArg (e.1 :: ·) hkeys, rfl⟩
      · cases hr

section Objects

variable {r : Ref}

end Objects

end Existence

end Store

end TypedReads
