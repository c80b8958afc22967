import TypedReads.Proofs.Value.Encoding
import TypedReads.Proofs.Value.Hash

/-!
# Rebuilt values

`Store.Rebuilt` relates a value to a deep copy of it: every object within is another object with the same
contents, in whatever order its entries stand. A copy of an acyclic value is acyclic
(`Store.Rebuilt.acyclic`) and has its hash (`Store.Rebuilt.hash_eq`).

It is equal to the value unless there is a box of NaN within (`Store.Rebuilt.equal_iff`). A box compares
what it holds as numbers, and NaN is no number's equal; the primitive NaN is identical to itself, and in a
hash a boxed NaN is like any other. Where the value has a hole the copy has one as well or is undefined, and
a comparison passes over it either way.
-/

namespace TypedReads

/-- NaN is the one number that does not equal itself. -/
theorem Double.eqv_self_iff {x : Double} : x.eqv x = true ↔ x ≠ .nan := by
  rw [Double.eqv_iff]
  cases x with
  | nan => exact iff_of_false nofun fun h => h rfl
  | infinite negative => exact iff_of_true ⟨_, rfl, rfl⟩ nofun
  | finite negative rank => exact iff_of_true ⟨_, rfl, rfl⟩ nofun

namespace Store

/-- Objects with the same contents, as far as `R` tells values apart: boxes of one kind that hold the very
same, arrays, records, and maps or adapters with primitive keys. -/
inductive RebuiltAs (s : Store) (R : Value → Value → Prop) : Object → Object → Prop
  | number (kind : NumericKind) (x : Double) : RebuiltAs s R (.numberBox kind x) (.numberBox kind x)
  | char (t : Text) : RebuiltAs s R (.charBox t) (.charBox t)
  | array {slots others : List (Option Value)} (h : List.Forall₂ R (slotItems slots) (slotItems others)) :
      RebuiltAs s R (.array slots) (.array others)
  | record {bare bare' : Bool} {es fs : Entries Text Value} (hkeys : es.keys.Perm fs.keys)
      (hvalues : ∀ e ∈ es, ∀ f ∈ fs, e.1 = f.1 → R e.2 f.2) :
      RebuiltAs s R (.record bare es) (.record bare' fs)
  | map {x y : Object} {es fs : Entries Value Value} (hes : s.mapEntries? x = some es)
      (hfs : s.mapEntries? y = some fs) (hprimitive : ∀ e ∈ es, ∀ r, e.1 ≠ .object r)
      (hkeys : es.keys.Perm fs.keys) (hvalues : ∀ e ∈ es, ∀ f ∈ fs, e.1 = f.1 → R e.2 f.2) :
      RebuiltAs s R x y

/-- A value and a copy of it, in which every object is rebuilt. -/
inductive Rebuilt (s : Store) : Value → Value → Prop
  | primitive {v : Value} (h : ∀ r, v ≠ .object r) : Rebuilt s v v
  | object {a b : Ref} {x y : Object} (hne : a ≠ b) (ha : s.get? a = some x) (hb : s.get? b = some y)
      (h : RebuiltAs s (Rebuilt s) x y) : Rebuilt s (.object a) (.object b)

/-- No box within a value holds NaN. -/
def Comparable (s : Store) (v : Value) : Prop :=
  ∀ r kind, s.Within v (.object r) → s.get? r ≠ some (.numberBox kind .nan)

variable {s : Store} {a b : Ref} {x y : Object} {v w : Value}

section Comparable

/-- A box holds no values. -/
theorem parts_numberBox (s : Store) (kind : NumericKind) (x : Double) :
    s.parts (.numberBox kind x) = [] := by
  rcases kind with _ | _ | _ <;> rfl

/-- What is no object is no box of NaN. -/
theorem comparable_of_primitive (h : ∀ r, v ≠ .object r) : s.Comparable v := by
  intro r kind hwithin
  rcases hwithin.cases_head with rfl | ⟨part, hpart, -⟩
  · exact absurd rfl (h r)
  · exact absurd hpart (not_part_of_primitive h part)

/-- An object is comparable if it is no box of NaN and its parts are comparable. -/
theorem comparable_object_iff (ha : s.get? a = some x) :
    s.Comparable (.object a) ↔
      (∀ kind, x ≠ .numberBox kind .nan) ∧ ∀ part ∈ s.parts x, s.Comparable part := by
  constructor
  · intro h
    refine ⟨fun kind hx => h a kind .refl (hx ▸ ha), fun part hpart r kind hwithin => ?_⟩
    exact h r kind (hwithin.head (.of_get? ha hpart))
  · rintro ⟨hbox, hparts⟩ r kind hwithin
    rcases hwithin.cases_head with heq | ⟨part, hpart, hrest⟩
    · cases heq
      rw [ha]
      exact fun h => hbox kind (Option.some.inj h)
    · exact hparts part (hpart.mem_parts ha) r kind hrest

end Comparable

section Acyclic

variable {R : Value → Value → Prop}

/-- A part of the copy is primitive or a copy of a part. -/
theorem RebuiltAs.exists_part (h : s.RebuiltAs R x y) (hw : w ∈ s.parts y) :
    (∀ r, w ≠ .object r) ∨ ∃ v ∈ s.parts x, R v w := by
  cases h with
  | number kind x =>
    rw [parts_numberBox] at hw
    exact absurd hw List.not_mem_nil
  | char t => exact absurd hw List.not_mem_nil
  | array h =>
    obtain ⟨v, hv, hR⟩ := exists_of_forall₂ h.flip hw
    exact .inr ⟨v, hv, hR⟩
  -- A value of the copy is a copy of the one under the same key.
  | @record bare bare' es fs hkeys hvalues =>
    obtain ⟨e, he, rfl | rfl⟩ := exists_entry_of_part rfl hw
    · obtain ⟨f, -, rfl⟩ := List.mem_map.mp he
      exact .inl nofun
    · obtain ⟨f, hf, rfl⟩ := List.mem_map.mp he
      have hf := fs.listing_perm.mem_iff.mp hf
      obtain ⟨d, hd, hkey⟩ := (SameKeys.of_perm hkeys).2 f hf
      exact .inr ⟨d.2, mem_parts_of_members d hd, hvalues d hd f hf hkey⟩
  | map hes hfs hprimitive hkeys hvalues =>
    obtain ⟨f, hf, hpart⟩ := exists_entry_of_part (contents_of_mapEntries hfs) hw
    obtain ⟨e, he, hkey⟩ := (SameKeys.of_perm hkeys).2 f hf
    obtain rfl | rfl := hpart
    · exact .inl (hkey ▸ hprimitive e he)
    · exact .inr ⟨e.2, mem_parts_of_mapEntries hes e he, hvalues e he f hf hkey⟩

/-- A copy of an acyclic value is acyclic. -/
theorem Rebuilt.acyclic (h : s.Rebuilt v w) (hv : s.Acyclic v) : s.Acyclic w := by
  refine acyclic_of_acc (hv.induction (P := fun v => ∀ w, s.Rebuilt v w →
    Acc (fun part v => s.Part v part) w) ?_ w h)
  intro v _ ih w h
  cases h with
  | primitive h => exact ⟨_, fun part hpart => absurd hpart (not_part_of_primitive h part)⟩
  | @object a b x y hne ha hb h =>
    refine ⟨_, fun part hpart => ?_⟩
    obtain hprimitive | ⟨v, hv, hrebuilt⟩ := h.exists_part (hpart.mem_parts hb)
    · exact ⟨_, fun inner hinner => absurd hinner (not_part_of_primitive hprimitive inner)⟩
    · exact ih v (.of_get? ha hv) part hrebuilt

end Acyclic

section Equality

variable {R S : Value → Value → Prop}

/-- Copies stay copies by a weaker relation, if it is weaker on the parts of the first. -/
theorem RebuiltAs.imp (h : s.RebuiltAs R x y) (hRS : ∀ v ∈ s.parts x, ∀ w, R v w → S v w) :
    s.RebuiltAs S x y := by
  cases h with
  | number kind x => exact .number kind x
  | char t => exact .char t
  | array h =>
    exact .array (forall₂_imp_mem h fun v hv w _ => hRS v (mem_parts_of_items rfl hv) w)
  | record hkeys hvalues =>
    exact .record hkeys fun e he f hf hkey =>
      hRS _ (mem_parts_of_members e he) _ (hvalues e he f hf hkey)
  | map hes hfs hprimitive hkeys hvalues =>
    exact .map hes hfs hprimitive hkeys fun e he f hf hkey =>
      hRS _ (mem_parts_of_mapEntries hes e he) _ (hvalues e he f hf hkey)

/-- A copy has the same contents, unless it is a box of NaN. -/
theorem RebuiltAs.alike (hz : s.NormalKeys) (ha : s.get? a = some x) (hb : s.get? b = some y)
    (h : s.RebuiltAs R x y) (hbox : ∀ kind, x ≠ .numberBox kind .nan) : s.Alike R x y a b := by
  cases h with
  | number kind x =>
    have heqv : x.eqv x = true := Double.eqv_self_iff.mpr fun hx => hbox kind (hx ▸ rfl)
    exact .own (.boxes (.number kind heqv))
  | char t => exact .own (.boxes (.char t))
  | array h => exact .arrays h
  | record hkeys hvalues => exact .records (.of_perm hkeys) hvalues
  | map hes hfs _ hkeys hvalues =>
    have hsame := hz.sameKey_iff ha hb hes hfs
    obtain ⟨hleft, hright⟩ := SameKeys.of_perm hkeys
    refine .maps hes hfs ⟨fun e he => ?_, fun f hf => ?_⟩ fun e he f hf hkey =>
      hvalues e he f hf ((hsame e he f hf).mp hkey)
    · obtain ⟨f, hf, hkey⟩ := hleft e he
      exact ⟨f, hf, (hsame e he f hf).mpr hkey⟩
    · obtain ⟨e, he, hkey⟩ := hright f hf
      exact ⟨e, he, (hsame e he f hf).mpr hkey⟩

/-- What is in the slots of an array is related to items and equal to them. -/
theorem exists_of_slots {f : Value → Value → Except Fault Bool} {slots : List (Option Value)}
    {ws : List Value} (h : List.Forall₂ R (slotItems slots) ws)
    (hequal : List.Forall₂ (fun slot w => ∀ v ∈ slot, f v w = .ok true) slots ws) :
    ∀ v ∈ slotItems slots, v = .undefined ∨ ∃ w, R v w ∧ f v w = .ok true := by
  intro v hv
  obtain ⟨slot, hslot, rfl⟩ := List.mem_map.mp hv
  have hboth := (List.forall₂_map_left_iff.mp h).mp (fun slot w hR hS => And.intro hR hS) hequal
  obtain ⟨w, -, hrelated, htrue⟩ := exists_of_forall₂ hboth hslot
  cases slot with
  | none => exact .inl rfl
  | some v => exact .inr ⟨w, hrelated, htrue v rfl⟩

/-- A copy that is found equal is no box of NaN, and every part that is an object is found equal to a copy of
it. -/
theorem RebuiltAs.of_objectsEqual (hs : s.WellFormed) (hz : s.NormalKeys) (ha : s.get? a = some x)
    (hb : s.get? b = some y) (h : s.RebuiltAs R x y) {f : Value → Value → Except Fault Bool}
    (hequal : s.objectsEqual f a b x y = .ok true) :
    (∀ kind, x ≠ .numberBox kind .nan) ∧
      ∀ v ∈ s.parts x, (∀ r, v ≠ .object r) ∨ ∃ w, R v w ∧ f v w = .ok true := by
  -- What is found equal is alike, or an array, which is compared slot by slot.
  have halike := alike_of_objectsEqual hs hz ha hb hequal
  cases h with
  -- NaN is not equal to itself.
  | number kind x =>
    obtain halike | ⟨_, _, hx, -⟩ := halike
    · cases halike with
      | maps hes => cases hes
      | own hown =>
        cases hown with
        | boxes hsame =>
          cases hsame with
          | number _ heqv =>
            refine ⟨fun kind' hx => ?_, fun v hv => ?_⟩
            · cases hx
              cases heqv
            · rw [parts_numberBox] at hv
              exact absurd hv List.not_mem_nil
    · cases hx
  | char t => exact ⟨by simp, fun v hv => absurd hv List.not_mem_nil⟩
  -- A hole is read as undefined, which is no object.
  | array h =>
    refine ⟨by simp, fun v hv => ?_⟩
    obtain rfl | hfound := exists_of_slots h (objectsEqual_arrays_iff.mp hequal) v hv
    · exact .inl (by simp)
    · exact .inr hfound
  | @record bare bare' es fs hkeys hvalues =>
    obtain halike | ⟨_, _, hx, -⟩ := halike
    · cases halike with
      | maps hes => cases hes
      | own hown => exact absurd hown.ownHash?_eq (by simp [Object.ownHash?])
      | records _ hvalues' =>
        refine ⟨by simp, fun v hv => ?_⟩
        -- A part is the key of a member, which is a text, or its value.
        obtain ⟨e, he, rfl | rfl⟩ := exists_entry_of_part rfl hv
        · obtain ⟨d, -, rfl⟩ := List.mem_map.mp he
          exact .inl (by simp)
        · obtain ⟨d, hd, rfl⟩ := List.mem_map.mp he
          have hd := es.listing_perm.mem_iff.mp hd
          obtain ⟨f, hf, hkey⟩ := (SameKeys.of_perm hkeys).1 d hd
          exact .inr ⟨f.2, hvalues d hd f hf hkey, hvalues' d hd f hf hkey⟩
    · cases hx
  | map hes hfs hprimitive hkeys hvalues =>
    obtain halike | ⟨_, _, rfl, -⟩ := halike
    · -- A map may be alike to an adapter, so the entries are compared, not the objects.
      obtain ⟨fs', hfs', -, hvalues'⟩ := halike.exists_entries hes
      rw [hfs] at hfs'
      cases hfs'
      refine ⟨fun kind hx => ?_, fun v hv => ?_⟩
      · rw [hx] at hes
        cases hes
      · obtain ⟨e, he, rfl | rfl⟩ := exists_entry_of_part (contents_of_mapEntries hes) hv
        · exact .inl (hprimitive e he)
        · obtain ⟨f, hf, hkey⟩ := (SameKeys.of_perm hkeys).1 e he
          have hsame : Value.SameKey e.1 f.1 := congrArg Value.asKey hkey
          exact .inr ⟨f.2, hvalues e he f hf hkey, hvalues' e he f hf hsame⟩
    · cases hes

/-- An acyclic value is equal to a copy exactly if no box within it holds NaN. -/
theorem Rebuilt.equal_iff (hs : s.WellFormed) (hz : s.NormalKeys) (hv : s.Acyclic v)
    (h : s.Rebuilt v w) : s.equal v w = .ok true ↔ s.Comparable v := by
  refine hv.induction (P := fun v => ∀ w, s.Rebuilt v w → (s.equal v w = .ok true ↔ s.Comparable v))
    ?_ w h
  intro v hv ih w h
  cases h with
  | primitive h => exact iff_of_true (equal_self v) (comparable_of_primitive h)
  | @object a b x y hne ha hb h =>
    rw [equal_objects hv hne ha hb, comparable_object_iff ha]
    constructor
    · intro hequal
      obtain ⟨hbox, hparts⟩ := h.of_objectsEqual hs hz ha hb hequal
      refine ⟨hbox, fun part hpart => ?_⟩
      obtain hprimitive | ⟨w, hrebuilt, hequal⟩ := hparts part hpart
      · exact comparable_of_primitive hprimitive
      · exact (ih part (.of_get? ha hpart) w hrebuilt).mp hequal
    · rintro ⟨hbox, hparts⟩
      have hequal := h.imp fun part hpart w hrebuilt =>
        (ih part (.of_get? ha hpart) w hrebuilt).mpr (hparts part hpart)
      exact objectsEqual_of_alike hs hz ha hb (hequal.alike hz ha hb hbox)

end Equality

section Hash

/-- A copy has the same hash, if copies of the parts have. -/
theorem RebuiltAs.objectHash_eq (hs : s.WellFormed) (hz : s.NormalKeys) (hv : s.Acyclic (.object a))
    (hw : s.Acyclic (.object b)) (ha : s.get? a = some x) (hb : s.get? b = some y)
    (h : s.RebuiltAs (fun v w => s.hash v = s.hash w) x y) :
    s.objectHash s.hash a x = s.objectHash s.hash b y := by
  by_cases hbox : ∀ kind, x ≠ .numberBox kind .nan
  · exact (h.alike hz ha hb hbox).objectHash_eq hs hz hv hw ha hb
  · -- A box of NaN has the hash of any other of its kind.
    push Not at hbox
    obtain ⟨kind, rfl⟩ := hbox
    cases h with
    | number => rfl
    | map hes => cases hes

/-- An acyclic value has the hash of a copy. -/
theorem Rebuilt.hash_eq (hs : s.WellFormed) (hz : s.NormalKeys) (hv : s.Acyclic v)
    (h : s.Rebuilt v w) : s.hash v = s.hash w := by
  refine hv.induction (P := fun v => ∀ w, s.Rebuilt v w → s.hash v = s.hash w) ?_ w h
  intro v hv ih w h
  have hw := h.acyclic hv
  cases h with
  | primitive h => rfl
  | object hne ha hb h =>
    rw [hash_object hv ha, hash_object hw hb]
    have hparts := h.imp fun part hpart w hrebuilt => ih part (.of_get? ha hpart) w hrebuilt
    exact hparts.objectHash_eq hs hz hv hw ha hb

end Hash

end Store

end TypedReads
