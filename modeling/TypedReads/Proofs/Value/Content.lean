import TypedReads.Proofs.Value.Alike

/-!
# Equality is equality of contents

`Store.Related` is what equality is meant to be, with no comparison in it: identity, or the same
contents one level down, again up to the relation.

A comparison of two objects finds out whether they are alike by the comparison of their parts, except
that it passes over the holes of the array on its left. So equality decides the relation on acyclic values
without holes (`Store.equal_iff_related`), and equality from both sides does on all of them
(`Store.related_of_both`): what a hole has met from one side is compared with undefined from the other.

A comparison scans the entries of its left side only; but as many keys as the other side has, none of them
twice and all of them there, are all the keys of the other side.
-/

namespace TypedReads

namespace Store

/-- Values that are identical, or objects whose contents are related in turn. -/
inductive Related (s : Store) : Value → Value → Prop
  | same (v : Value) : Related s v v
  | objects {a b : Ref} {x y : Object} (ha : s.get? a = some x) (hb : s.get? b = some y)
      (h : Alike s (Related s) x y a b) : Related s (.object a) (.object b)

/-- No array within a value has a hole. -/
def Dense (s : Store) (v : Value) : Prop :=
  ∀ r slots, s.Within v (.object r) → s.get? r = some (.array slots) → none ∉ slots

/-- Where one object is equal to another by an equality of their own, so is the other to it. -/
def SymmetricProtocols (s : Store) : Prop :=
  ∀ a b x y, s.get? a = some x → s.get? b = some y → Object.OwnEqual a b x y →
    Object.OwnEqual b a y x

/-- Two objects that are equal to a third by an equality of their own are equal to each other. -/
def TransitiveProtocols (s : Store) : Prop :=
  ∀ a b c x y z, s.get? a = some x → s.get? b = some y → s.get? c = some z → a ≠ c →
    Object.OwnEqual a b x y → Object.OwnEqual b c y z → Object.OwnEqual a c x z

variable {s : Store}

/-- A part of a value without holes has none. -/
theorem Dense.of_part {v part : Value} (h : s.Dense v) (hpart : s.Part v part) : s.Dense part :=
  fun r slots hwithin => h r slots (hwithin.head hpart)

/-- An array without holes has something in every slot. -/
theorem Dense.not_mem {r : Ref} (h : s.Dense (.object r)) {slots : List (Option Value)}
    (hr : s.get? r = some (.array slots)) : none ∉ slots :=
  h r slots .refl hr

/-- In a store of arrays without holes no value has one within. -/
theorem dense_of_objects (h : ∀ i : Fin s.objects.size, ∀ slots, s.get? i.val = some (.array slots) →
    none ∉ slots) (v : Value) : s.Dense v := fun r slots _ hr =>
  h ⟨r, lt_size_of_get? hr⟩ slots hr

section Comparison

variable {f : Value → Value → Except Fault Bool} {κ : Type} [DecidableEq κ]

/-- What is in slots is equal to items if each of it is equal to the item at its place. -/
theorem slotsEqual_iff {slots : List (Option Value)} {ws : List Value} :
    slotsEqual f slots ws = .ok true ↔
      List.Forall₂ (fun slot w => ∀ v ∈ slot, f v w = .ok true) slots ws := by
  induction slots generalizing ws with
  | nil => cases ws <;> simp [slotsEqual]
  | cons slot slots ih =>
    cases ws with
    | nil => cases slot <;> simp [slotsEqual]
    | cons w ws =>
      rw [List.forall₂_cons, ← ih]
      cases slot with
      | none => simp [slotsEqual]
      | some v =>
        rw [slotsEqual]
        split
        · rename_i h
          simp [h]
        · rename_i hne
          exact ⟨fun h => absurd h hne, fun h => absurd (h.1 v rfl) hne⟩

/-- Entries that are covered are found, each with an equal value. -/
theorem exists_of_entriesCovered {others : Entries κ Value}
    {es : List (κ × Value)} (h : entriesCovered f others es = .ok true) :
    ∀ e ∈ es, ∃ w, others.get? e.1 = some w ∧ f e.2 w = .ok true := by
  induction es with
  | nil => exact fun e he => absurd he List.not_mem_nil
  | cons e es ih =>
    unfold entriesCovered at h
    cases hget : others.get? e.1 with
    | none =>
      rw [hget] at h
      cases h
    | some w =>
      rw [hget] at h
      dsimp only at h
      split at h
      · rename_i hequal
        intro e' he'
        rcases List.mem_cons.mp he' with rfl | hmem
        · exact ⟨w, hget, hequal⟩
        · exact ih h e' hmem
      · rename_i hne
        exact absurd h hne

/-- A scan covers entries if it finds each of them, with an equal value. -/
theorem entriesCovered_iff {es fs : Entries κ Value} :
    entriesCovered f fs es = .ok true ↔
      ∀ e ∈ es, ∃ w, fs.get? e.1 = some w ∧ f e.2 w = .ok true := by
  refine ⟨exists_of_entriesCovered, fun h => ?_⟩
  induction es with
  | nil => rfl
  | cons e es ih =>
    obtain ⟨w, hget, hequal⟩ := h e List.mem_cons_self
    rw [entriesCovered, hget]
    dsimp only
    rw [hequal]
    exact ih fun e he => h e (List.mem_cons_of_mem _ he)

/-- A comparison of entries that repeat no key finds out whether they are alike, if keys are the same
only where they are identical. -/
theorem entriesEqual_iff {same : κ → κ → Prop} {es fs : Entries κ Value} (hes : es.keys.Nodup)
    (hfs : fs.keys.Nodup) (hsame : ∀ e ∈ es, ∀ f ∈ fs, same e.1 f.1 ↔ e.1 = f.1) :
    entriesEqual f es fs = .ok true ↔
      SameKeys same es fs ∧ ∀ e ∈ es, ∀ e' ∈ fs, same e.1 e'.1 → f e.2 e'.2 = .ok true := by
  constructor
  · intro h
    have hlength : es.length = fs.length := by
      by_contra hne
      rw [entriesEqual, if_neg hne] at h
      cases h
    rw [entriesEqual, if_pos hlength, entriesCovered_iff] at h
    have hperm := matched_perm hes hlength fun e he => (h e he).imp fun w hw => hw.1
    have hmem : ∀ e ∈ es, matched fs e ∈ fs := fun e he =>
      hperm.mem_iff.mp (List.mem_map.mpr ⟨e, he, rfl⟩)
    refine ⟨⟨fun e he => ?_, fun e' he' => ?_⟩, fun e he e' he' hkey => ?_⟩
    · exact ⟨matched fs e, hmem e he, (hsame e he _ (hmem e he)).mpr rfl⟩
    · -- Every entry on the right is that of some entry on the left.
      obtain ⟨e, he, rfl⟩ := List.mem_map.mp (hperm.mem_iff.mpr he')
      exact ⟨e, he, (hsame e he _ he').mpr rfl⟩
    · obtain ⟨w, hget, hequal⟩ := h e he
      rw [(hsame e he e' he').mp hkey, (Entries.get?_eq_some_iff hfs).mpr he'] at hget
      cases hget
      exact hequal
  · rintro ⟨hkeys, hvalues⟩
    have hlength : es.length = fs.length := by
      simpa [Entries.keys] using (hkeys.perm hes hfs hsame).length_eq
    rw [entriesEqual, if_pos hlength, entriesCovered_iff]
    intro e he
    obtain ⟨e', he', hkey⟩ := hkeys.1 e he
    refine ⟨e'.2, ?_, hvalues e he e' he' hkey⟩
    rw [(hsame e he e' he').mp hkey]
    exact (Entries.get?_eq_some_iff hfs).mpr he'

variable {a b : Ref} {x y : Object}

/-- A comparison of two records, the first of them in listing order, finds out whether their members
are alike. -/
theorem entriesEqual_listing_iff {es fs : Entries Text Value} (hes : es.keys.Nodup)
    (hfs : fs.keys.Nodup) :
    entriesEqual f es.listing fs = .ok true ↔
      SameKeys (· = ·) es fs ∧ ∀ e ∈ es, ∀ e' ∈ fs, e.1 = e'.1 → f e.2 e'.2 = .ok true := by
  have hmem : ∀ e, e ∈ es.listing ↔ e ∈ es := fun e => es.listing_perm.mem_iff
  rw [entriesEqual_iff (Entries.nodup_keys_listing hes) hfs fun e _ f _ => Iff.rfl]
  simp only [SameKeys, hmem]

/-- The comparison of two arrays. -/
theorem objectsEqual_arrays (a b : Ref) (slots others : List (Option Value)) :
    s.objectsEqual f a b (.array slots) (.array others) =
      if slots.length = others.length then slotsEqual f slots (slotItems others) else .ok false :=
  rfl

/-- Two arrays are equal if they have the same length and what is in the slots of the first is equal to
what reading the second gives. -/
theorem objectsEqual_arrays_iff {slots others : List (Option Value)} :
    s.objectsEqual f a b (.array slots) (.array others) = .ok true ↔
      List.Forall₂ (fun slot w => ∀ v ∈ slot, f v w = .ok true) slots (slotItems others) := by
  rw [objectsEqual_arrays]
  split_ifs with hlength
  · exact slotsEqual_iff
  · refine iff_of_false nofun fun h => hlength ?_
    simpa using h.length_eq

/-- What is alike by the comparison of its parts is found equal. -/
theorem objectsEqual_of_alike (hs : s.WellFormed) (hz : s.NormalKeys) (ha : s.get? a = some x)
    (hb : s.get? b = some y) (h : s.Alike (fun v w => f v w = .ok true) x y a b) :
    s.objectsEqual f a b x y = .ok true := by
  cases h with
  | maps hes hfs hkeys hvalues =>
    simp only [objectsEqual, hes, hfs]
    exact (entriesEqual_iff (hs.nodup_mapEntries ha hes) (hs.nodup_mapEntries hb hfs)
      (hz.sameKey_iff ha hb hes hfs)).mpr ⟨hkeys, hvalues⟩
  | own h =>
    obtain ⟨hx, hy⟩ := h.mapEntries?_eq s
    obtain ⟨n, hhash, -⟩ := h.ownHash?_eq
    simp [objectsEqual, hx, hy, Object.comparesItself, hhash, Object.ownEquals_iff.mpr h]
  | arrays h =>
    refine objectsEqual_arrays_iff.mpr ((List.forall₂_map_left_iff.mp h).imp fun slot w hw v hv => ?_)
    cases hv
    exact hw
  | records hkeys hvalues =>
    have hentries := (entriesEqual_listing_iff (hs a _ ha) (hs b _ hb)).mpr ⟨hkeys, hvalues⟩
    simp [objectsEqual, mapEntries?, Object.comparesItself, Object.ownHash?, hentries]

/-- Two objects that are found equal are alike by the comparison of their parts, unless they are arrays. -/
theorem alike_of_objectsEqual (hs : s.WellFormed) (hz : s.NormalKeys) (ha : s.get? a = some x)
    (hb : s.get? b = some y) (h : s.objectsEqual f a b x y = .ok true) :
    s.Alike (fun v w => f v w = .ok true) x y a b ∨
      ∃ slots others, x = .array slots ∧ y = .array others := by
  unfold objectsEqual at h
  split at h
  · rename_i es fs hes hfs
    obtain ⟨hkeys, hvalues⟩ := (entriesEqual_iff (hs.nodup_mapEntries ha hes)
      (hs.nodup_mapEntries hb hfs) (hz.sameKey_iff ha hb hes hfs)).mp h
    exact .inl (.maps hes hfs hkeys hvalues)
  · split at h
    · exact .inl (.own (Object.ownEquals_iff.mp (Except.ok.inj h)))
    · split at h
      · exact .inr ⟨_, _, rfl, rfl⟩
      · obtain ⟨hkeys, hvalues⟩ := (entriesEqual_listing_iff (hs a _ ha) (hs b _ hb)).mp h
        exact .inl (.records hkeys hvalues)
      · cases h
  · cases h

/-- A comparison whose first side is no array with holes finds out exactly what is alike. -/
theorem objectsEqual_iff (hs : s.WellFormed) (hz : s.NormalKeys) (ha : s.get? a = some x)
    (hb : s.get? b = some y) (hdense : ∀ slots, x = .array slots → none ∉ slots) :
    s.objectsEqual f a b x y = .ok true ↔ s.Alike (fun v w => f v w = .ok true) x y a b := by
  refine ⟨fun h => ?_, objectsEqual_of_alike hs hz ha hb⟩
  obtain halike | ⟨slots, others, rfl, rfl⟩ := alike_of_objectsEqual hs hz ha hb h
  · exact halike
  · have hfull := (List.forall₂_and_left _ _).mpr ⟨fun slot hslot => hslot, objectsEqual_arrays_iff.mp h⟩
    refine .arrays (List.forall₂_map_left_iff.mpr (hfull.imp fun slot w hw => ?_))
    cases slot with
    | none => exact absurd hw.1 (hdense slots rfl)
    | some v => exact hw.2 v rfl

/-- Arrays compared from both sides have items that are identical or have been compared so. A hole on one
side only has met something that is equal to undefined, which is undefined itself. -/
theorem items_of_both (hundefined : ∀ v, f v .undefined = .ok true → v = .undefined)
    {slots others : List (Option Value)}
    (h : List.Forall₂ (fun slot w => ∀ v ∈ slot, f v w = .ok true) slots (slotItems others))
    (h' : List.Forall₂ (fun slot v => ∀ w ∈ slot, f w v = .ok true) others (slotItems slots)) :
    List.Forall₂ (fun v w => v = w ∨ f v w = .ok true ∧ f w v = .ok true) (slotItems slots)
      (slotItems others) := by
  induction slots generalizing others with
  | nil =>
    cases others with
    | nil => exact .nil
    | cons other others => cases h
  | cons slot slots ih =>
    cases others with
    | nil => cases h
    | cons other others =>
      rw [slotItems_cons, List.forall₂_cons] at h h'
      rw [slotItems_cons, slotItems_cons]
      refine .cons ?_ (ih h.2 h'.2)
      -- A hole is skipped by the comparison from its own side, and read as undefined by the other.
      cases slot with
      | none =>
        cases other with
        | none => exact .inl rfl
        | some w => exact .inl (hundefined w (h'.1 w rfl)).symm
      | some v =>
        cases other with
        | none => exact .inl (hundefined v (h.1 v rfl))
        | some w => exact .inr ⟨h.1 v rfl, h'.1 w rfl⟩

/-- Objects that are found equal from both sides are alike. -/
theorem alike_of_both (hs : s.WellFormed) (hz : s.NormalKeys) (ha : s.get? a = some x)
    (hb : s.get? b = some y) (hundefined : ∀ v, f v .undefined = .ok true → v = .undefined)
    (h : s.objectsEqual f a b x y = .ok true) (h' : s.objectsEqual f b a y x = .ok true) :
    s.Alike (fun v w => v = w ∨ f v w = .ok true ∧ f w v = .ok true) x y a b := by
  by_cases harrays : ∃ slots others, x = .array slots ∧ y = .array others
  · obtain ⟨slots, others, rfl, rfl⟩ := harrays
    exact .arrays (items_of_both hundefined (objectsEqual_arrays_iff.mp h)
      (objectsEqual_arrays_iff.mp h'))
  -- All other objects are compared alike from either side.
  have halike := (alike_of_objectsEqual hs hz ha hb h).resolve_right harrays
  have hback := (alike_of_objectsEqual hs hz hb ha h').resolve_right
    fun ⟨others, slots, hy, hx⟩ => harrays ⟨slots, others, hx, hy⟩
  cases halike with
  | maps hes hfs hkeys hvalues =>
    obtain ⟨es', hes', -, hvalues'⟩ := hback.exists_entries hfs
    rw [hes] at hes'
    cases hes'
    exact .maps hes hfs hkeys fun e he f hf hkey =>
      .inr ⟨hvalues e he f hf hkey, hvalues' f hf e he hkey.symm⟩
  | own h => exact .own h
  | arrays => exact absurd ⟨_, _, rfl, rfl⟩ harrays
  | records hkeys hvalues =>
    cases hback with
    | maps hes => cases hes
    | own h => exact absurd h.ownHash?_eq (by simp [Object.ownHash?])
    | records _ hvalues' =>
      exact .records hkeys fun e he f hf hkey =>
        .inr ⟨hvalues e he f hf hkey, hvalues' f hf e he hkey.symm⟩

end Comparison

section Relation

/-- Equal values are identical or two objects. -/
theorem objects_of_equal {v w : Value} (h : s.equal v w = .ok true) (hne : v ≠ w) :
    ∃ a b x y, v = .object a ∧ w = .object b ∧ s.get? a = some x ∧ s.get? b = some y := by
  by_contra hobjects
  rw [equal_of_not_objects hne fun a b x y hv hw ha hb =>
    hobjects ⟨a, b, x, y, hv, hw, ha, hb⟩] at h
  cases h

/-- Only undefined is equal to undefined. -/
theorem eq_undefined_of_equal {v : Value} (h : s.equal v .undefined = .ok true) : v = .undefined := by
  by_contra hne
  obtain ⟨_, _, _, _, _, hw, _⟩ := objects_of_equal h hne
  cases hw

/-- Related acyclic values are equal. -/
theorem Related.equal (hs : s.WellFormed) (hz : s.NormalKeys) {v w : Value} (hv : s.Acyclic v)
    (h : s.Related v w) : s.equal v w = .ok true := by
  refine hv.induction (P := fun v => ∀ w, s.Related v w → s.equal v w = .ok true) ?_ w h
  intro v hv ih w h
  by_cases heq : v = w
  · exact heq ▸ equal_self v
  cases h with
  | same => exact absurd rfl heq
  | objects ha hb h =>
    rw [equal_objects hv (fun h => heq (congrArg Value.object h)) ha hb]
    exact objectsEqual_of_alike hs hz ha hb (h.imp fun part hpart w _ => ih part (.of_get? ha hpart) w)

/-- On acyclic values without holes equality decides the relation. -/
theorem equal_iff_related (hs : s.WellFormed) (hz : s.NormalKeys) {v : Value} (hv : s.Acyclic v)
    (hdense : s.Dense v) (w : Value) : s.equal v w = .ok true ↔ s.Related v w := by
  refine ⟨fun h => ?_, fun h => h.equal hs hz hv⟩
  refine hv.induction (P := fun v => s.Dense v → ∀ w, s.equal v w = .ok true → s.Related v w)
    ?_ hdense w h
  intro v hv ih hdense w h
  by_cases heq : v = w
  · exact heq ▸ .same v
  obtain ⟨a, b, x, y, rfl, rfl, ha, hb⟩ := objects_of_equal h heq
  rw [equal_objects hv (fun h => heq (congrArg Value.object h)) ha hb,
    objectsEqual_iff hs hz ha hb fun slots hx => hdense.not_mem (hx ▸ ha)] at h
  exact .objects ha hb (h.imp fun part hpart w _ =>
    ih part (.of_get? ha hpart) (hdense.of_part (.of_get? ha hpart)) w)

/-- Acyclic values that are equal from both sides are related, holes or not. -/
theorem related_of_both (hs : s.WellFormed) (hz : s.NormalKeys) {v w : Value} (hv : s.Acyclic v)
    (hw : s.Acyclic w) (h : s.equal v w = .ok true) (h' : s.equal w v = .ok true) :
    s.Related v w := by
  refine hv.induction (P := fun v => ∀ w, s.Acyclic w → s.equal v w = .ok true →
    s.equal w v = .ok true → s.Related v w) ?_ w hw h h'
  intro v hv ih w hw h h'
  by_cases heq : v = w
  · exact heq ▸ .same v
  obtain ⟨a, b, x, y, rfl, rfl, ha, hb⟩ := objects_of_equal h heq
  have hne : a ≠ b := fun h => heq (congrArg Value.object h)
  rw [equal_objects hv hne ha hb] at h
  rw [equal_objects hw hne.symm hb ha] at h'
  have halike := alike_of_both hs hz ha hb (fun v => eq_undefined_of_equal) h h'
  refine .objects ha hb (halike.imp fun part hpart other hother hboth => ?_)
  obtain rfl | ⟨hequal, hback⟩ := hboth
  · exact .same part
  · exact ih part (.of_get? ha hpart) other (hw.of_part (.of_get? hb hother)) hequal hback

/-- Equal acyclic values are related, if the first has no holes or the equality holds from both sides. -/
theorem related_of_equal (hs : s.WellFormed) (hz : s.NormalKeys) {v w : Value} (hv : s.Acyclic v)
    (hw : s.Acyclic w) (h : s.equal v w = .ok true) (hfair : s.Dense v ∨ s.equal w v = .ok true) :
    s.Related v w :=
  hfair.elim (fun hdense => (equal_iff_related hs hz hv hdense w).mp h)
    fun h' => related_of_both hs hz hv hw h h'

/-- What is related to an acyclic value, this is related to. -/
theorem Related.symm (hprotocols : s.SymmetricProtocols) {v w : Value} (hv : s.Acyclic v)
    (h : s.Related v w) : s.Related w v := by
  refine hv.induction (P := fun v => ∀ w, s.Related v w → s.Related w v) ?_ w h
  intro v _ ih w h
  cases h with
  | same => exact .same v
  | objects ha hb h =>
    exact .objects hb ha (h.symm (hprotocols _ _ _ _ ha hb) fun part hpart =>
      ih part (.of_get? ha hpart))

/-- Values related through a third are related. -/
theorem Related.trans (hprotocols : s.TransitiveProtocols) {u v w : Value} (hu : s.Acyclic u)
    (h : s.Related u v) (h' : s.Related v w) : s.Related u w := by
  refine hu.induction (P := fun u => ∀ v w, s.Related u v → s.Related v w → s.Related u w)
    ?_ v w h h'
  intro u _ ih v w h h'
  by_cases heq : u = w
  · exact heq ▸ .same u
  cases h with
  | same => exact h'
  | objects ha hb h =>
    cases h' with
    | same => exact .objects ha hb h
    | objects hb' hc h' =>
      -- The object in the middle is one and the same.
      rw [hb] at hb'
      cases hb'
      have hne : _ ≠ _ := fun h => heq (congrArg Value.object h)
      exact .objects ha hc (h.trans h' (hprotocols _ _ _ _ _ _ ha hb hc hne) fun part hpart =>
        ih part (.of_get? ha hpart))

end Relation

end Store

end TypedReads
