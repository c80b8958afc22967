import TypedReads.Proofs.Entries
import TypedReads.Proofs.Json.Listing
import TypedReads.Proofs.Value.Acyclic
import TypedReads.Value.Equality

/-!
# Equality of acyclic values

On acyclic values the guard of a comparison never fires, so equality unfolds to the comparison of
what two objects hold, with equality itself for what is within (`Store.equal_objects`). It always
has an answer there (`Store.equal_total`), whichever of the two sides is acyclic.
-/

namespace TypedReads

namespace Store

variable {s : Store}

section Congruence

variable {f g : Value → Value → Except Fault Bool}

/-- The comparison of slots with items depends on the comparison of what is in the slots alone. -/
theorem slotsEqual_congr {slots : List (Option Value)} (h : ∀ v, some v ∈ slots → ∀ w, f v w = g v w)
    (ws : List Value) : slotsEqual f slots ws = slotsEqual g slots ws := by
  induction slots generalizing ws with
  | nil => cases ws <;> rfl
  | cons slot slots ih =>
    have hrest := ih fun v hv => h v (List.mem_cons_of_mem _ hv)
    cases ws with
    | nil => cases slot <;> rfl
    | cons w ws =>
      cases slot with
      | none => exact hrest ws
      | some v =>
        unfold slotsEqual
        rw [h v List.mem_cons_self, hrest]

/-- So does the search for the entries of one side among those of the other. -/
theorem entriesCovered_congr {κ : Type} [DecidableEq κ] {es : List (κ × Value)}
    (h : ∀ e ∈ es, ∀ w, f e.2 w = g e.2 w) (others : Entries κ Value) :
    entriesCovered f others es = entriesCovered g others es := by
  induction es with
  | nil => rfl
  | cons e es ih =>
    unfold entriesCovered
    rw [ih fun e he => h e (List.mem_cons_of_mem _ he)]
    simp only [h e List.mem_cons_self]

/-- So does the comparison of entries. -/
theorem entriesEqual_congr {κ : Type} [DecidableEq κ] {es : Entries κ Value}
    (h : ∀ e ∈ es, ∀ w, f e.2 w = g e.2 w) (fs : Entries κ Value) :
    entriesEqual f es fs = entriesEqual g es fs := by
  unfold entriesEqual
  rw [entriesCovered_congr h]

/-- The values of a map or an adapter are its parts. -/
theorem mem_parts_of_mapEntries {x : Object} {es : Entries Value Value}
    (h : s.mapEntries? x = some es) : ∀ e ∈ es, e.2 ∈ s.parts x := by
  intro e he
  cases x with
  | map entries =>
    cases h
    exact (mem_parts_of_entries rfl he).2
  | adapter a =>
    cases h
    exact (mem_parts_of_entries rfl he).2
  | _ => cases h

/-- The values of a record are its parts. -/
theorem mem_parts_of_listing {bare : Bool} {members : Entries Text Value} :
    ∀ e ∈ members.listing, e.2 ∈ s.parts (.record bare members) := by
  intro e he
  have hmem : ((.text e.1, e.2) : Value × Value) ∈
      members.listing.map fun e => (Value.text e.1, e.2) := List.mem_map.mpr ⟨e, he, rfl⟩
  exact (mem_parts_of_entries (o := .record bare members) rfl hmem).2

/-- The values of a record are its parts, listed or not. -/
theorem mem_parts_of_members {bare : Bool} {members : Entries Text Value} :
    ∀ e ∈ members, e.2 ∈ s.parts (.record bare members) := fun e he =>
  mem_parts_of_listing e (members.listing_perm.mem_iff.mpr he)

/-- What is in the slots of an array are parts of it. -/
theorem mem_parts_of_slots {slots : List (Option Value)} {v : Value} (hv : some v ∈ slots) :
    v ∈ s.parts (.array slots) :=
  mem_slotItems_of_mem hv

/-- The comparison of two objects depends on the comparison of parts of the first alone. -/
theorem objectsEqual_congr {x : Object} (h : ∀ v ∈ s.parts x, ∀ w, f v w = g v w) (a b : Ref)
    (y : Object) : s.objectsEqual f a b x y = s.objectsEqual g a b x y := by
  unfold objectsEqual
  split
  · rename_i es fs hes hfs
    exact entriesEqual_congr (fun e he => h e.2 (mem_parts_of_mapEntries hes e he)) fs
  · split
    · rfl
    · split
      · rw [slotsEqual_congr fun v hv => h v (mem_parts_of_slots hv)]
      · exact entriesEqual_congr (fun e he => h e.2 (mem_parts_of_listing e he)) _
      · rfl
  · rfl

end Congruence

section Guard

/-- The comparison of an object with another, below a guard that does not have the pair. -/
theorem equalWithin_objects {within : List (Ref × Ref)} {a b : Ref} {x y : Object}
    (hne : a ≠ b) (ha : s.get? a = some x) (hb : s.get? b = some y) (hr : (a, b) ∉ within) :
    s.equalWithin within (.object a) (.object b) =
      s.objectsEqual (s.equalWithin ((a, b) :: within)) a b x y := by
  rw [equalWithin.eq_def, if_neg fun h => hne (by injection h)]
  dsimp only
  split
  · rename_i x' y' hx hy
    rw [ha] at hx
    rw [hb] at hy
    cases hx
    cases hy
    rw [dif_neg hr]
  · rename_i hnone
    exact absurd hb (hnone x y ha)

/-- The comparison of values that are not two different objects looks at no guard. -/
theorem equalWithin_of_not_objects {v w : Value} (h : ¬ ∃ a b x y, a ≠ b ∧ v = .object a ∧
    w = .object b ∧ s.get? a = some x ∧ s.get? b = some y) (within : List (Ref × Ref)) :
    s.equalWithin within v w = .ok (decide (v = w)) := by
  rw [equalWithin.eq_def]
  split
  · rename_i heq
    rw [decide_eq_true heq]
  · rename_i hne
    rw [decide_eq_false hne]
    split
    · rename_i a b
      split
      · rename_i x y ha hb
        exact absurd ⟨a, b, x, y, fun h => hne (congrArg Value.object h), rfl, rfl, ha, hb⟩ h
      · rfl
    · rfl

/-- A guard apart from an acyclic value does not change its comparisons. -/
theorem equalWithin_eq {v : Value} (hv : s.Acyclic v) {within : List (Ref × Ref)}
    (hwithin : s.Apart (within.map Prod.fst) v) (w : Value) :
    s.equalWithin within v w = s.equal v w := by
  -- The guard grows on the way inside, so the induction is over all of them.
  refine hv.induction (P := fun v => ∀ within : List (Ref × Ref),
    s.Apart (within.map Prod.fst) v → ∀ w, s.equalWithin within v w = s.equal v w)
    ?_ within hwithin w
  intro v hacyclic ih within hwithin w
  unfold equal
  by_cases hobjects : ∃ a b x y, a ≠ b ∧ v = .object a ∧ w = .object b ∧ s.get? a = some x ∧
      s.get? b = some y
  · obtain ⟨a, b, x, y, hne, rfl, rfl, ha, hb⟩ := hobjects
    have hr : (a, b) ∉ within := fun hmem =>
      hwithin.not_mem (List.mem_map.mpr ⟨_, hmem, rfl⟩)
    rw [equalWithin_objects hne ha hb hr, equalWithin_objects hne ha hb List.not_mem_nil]
    refine objectsEqual_congr (fun part hpart w => ?_) a b y
    have hp := Part.of_get? ha hpart
    rw [ih part hp ((a, b) :: within) (hwithin.cons_part hacyclic hp) w,
      ih part hp [(a, b)] ((apart_nil _).cons_part hacyclic hp) w]
  · rw [equalWithin_of_not_objects hobjects, equalWithin_of_not_objects hobjects]

/-- Two objects, the first of them acyclic, are compared by what they hold. -/
theorem equal_objects {a b : Ref} (hv : s.Acyclic (.object a)) {x y : Object} (hne : a ≠ b)
    (ha : s.get? a = some x) (hb : s.get? b = some y) :
    s.equal (.object a) (.object b) = s.objectsEqual s.equal a b x y := by
  unfold equal
  rw [equalWithin_objects hne ha hb List.not_mem_nil]
  refine objectsEqual_congr (fun part hpart w => ?_) a b y
  have hp := Part.of_get? ha hpart
  have hapart : s.Apart ([(a, b)].map Prod.fst) part := (apart_nil _).cons_part hv hp
  exact equalWithin_eq (hv.of_part hp) hapart w

/-- A value is equal to itself. -/
theorem equal_self (v : Value) : s.equal v v = .ok true := by
  unfold equal
  rw [equalWithin.eq_def, if_pos rfl]

/-- A value that is not identical to another and not an object is not equal to it. -/
theorem equal_of_not_objects {v w : Value} (hne : v ≠ w)
    (h : ∀ a b x y, v = .object a → w = .object b → s.get? a = some x → s.get? b ≠ some y) :
    s.equal v w = .ok false := by
  have hobjects : ¬ ∃ a b x y, a ≠ b ∧ v = .object a ∧ w = .object b ∧ s.get? a = some x ∧
      s.get? b = some y := by
    rintro ⟨a, b, x, y, -, hv, hw, ha, hb⟩
    exact h a b x y hv hw ha hb
  unfold equal
  rw [equalWithin_of_not_objects hobjects, decide_eq_false hne]

end Guard

section Totality

variable {f : Value → Value → Except Fault Bool}

/-- The comparison of slots with items ends if that of what they hold does. -/
theorem slotsEqual_total {slots : List (Option Value)} {ws : List Value}
    (h : ∀ v, some v ∈ slots → ∀ w ∈ ws, ∃ b, f v w = .ok b) :
    ∃ b, slotsEqual f slots ws = .ok b := by
  induction slots generalizing ws with
  | nil => cases ws <;> exact ⟨_, rfl⟩
  | cons slot slots ih =>
    cases ws with
    | nil => cases slot <;> exact ⟨_, rfl⟩
    | cons w ws =>
      obtain ⟨rest, hrest⟩ : ∃ b, slotsEqual f slots ws = .ok b := ih fun v hv w hw =>
        h v (List.mem_cons_of_mem _ hv) w (List.mem_cons_of_mem _ hw)
      cases slot with
      | none => exact ⟨rest, hrest⟩
      | some v =>
        obtain ⟨b, hb⟩ := h v List.mem_cons_self w List.mem_cons_self
        unfold slotsEqual
        rw [hb]
        cases b with
        | true => exact ⟨rest, hrest⟩
        | false => exact ⟨false, rfl⟩

/-- So does the comparison of entries. -/
theorem entriesEqual_total {κ : Type} [DecidableEq κ] {es fs : Entries κ Value}
    (h : ∀ e ∈ es, ∀ e' ∈ fs, ∃ b, f e.2 e'.2 = .ok b) : ∃ b, entriesEqual f es fs = .ok b := by
  have hcovered : ∃ b, entriesCovered f fs es = .ok b := by
    induction es with
    | nil => exact ⟨true, rfl⟩
    | cons e es ih =>
      unfold entriesCovered
      cases hget : fs.get? e.1 with
      | none => exact ⟨false, rfl⟩
      | some w =>
        obtain ⟨b, hb⟩ := h e List.mem_cons_self _ (Entries.mem_of_get? hget)
        dsimp only at hb ⊢
        rw [hb]
        cases b with
        | true => exact ih fun e he => h e (List.mem_cons_of_mem _ he)
        | false => exact ⟨false, rfl⟩
  unfold entriesEqual
  split_ifs
  · exact hcovered
  · exact ⟨false, rfl⟩

/-- The comparison of two objects ends if that of their parts does. -/
theorem objectsEqual_total {x y : Object}
    (h : ∀ v ∈ s.parts x, ∀ w ∈ s.parts y, ∃ b, f v w = .ok b) (a b : Ref) :
    ∃ answer, s.objectsEqual f a b x y = .ok answer := by
  unfold objectsEqual
  split
  · rename_i es fs hes hfs
    exact entriesEqual_total fun e he e' he' =>
      h e.2 (mem_parts_of_mapEntries hes e he) e'.2 (mem_parts_of_mapEntries hfs e' he')
  · split
    · exact ⟨_, rfl⟩
    · split
      · split_ifs
        · exact slotsEqual_total fun v hv w hw =>
            h v (mem_parts_of_slots hv) w (mem_parts_of_items rfl hw)
        · exact ⟨false, rfl⟩
      · exact entriesEqual_total fun e he e' he' =>
          h e.2 (mem_parts_of_listing e he) e'.2 (mem_parts_of_members e' he')
      · exact ⟨false, rfl⟩
  · exact ⟨false, rfl⟩

/-- The comparison of an acyclic value ends. -/
theorem equal_total {v : Value} (hv : s.Acyclic v) (w : Value) : ∃ b, s.equal v w = .ok b := by
  refine hv.induction (P := fun v => ∀ w, ∃ b, s.equal v w = .ok b) ?_ w
  intro v hacyclic ih w
  by_cases heq : v = w
  · exact ⟨true, heq ▸ equal_self v⟩
  by_cases hobjects : ∃ a b x y, v = .object a ∧ w = .object b ∧ s.get? a = some x ∧
      s.get? b = some y
  · obtain ⟨a, b, x, y, rfl, rfl, ha, hb⟩ := hobjects
    rw [equal_objects hacyclic (fun h => heq (congrArg Value.object h)) ha hb]
    exact objectsEqual_total (fun part hpart w _ => ih part (Part.of_get? ha hpart) w) a b
  · exact ⟨false, equal_of_not_objects heq fun a b x y hv hw ha hb =>
      hobjects ⟨a, b, x, y, hv, hw, ha, hb⟩⟩

/-- The answer of the comparison is what makes it true. -/
theorem equal_decides {v w : Value} (hv : s.Acyclic v) {P : Prop} (h : s.equal v w = .ok true ↔ P) :
    ∃ b, s.equal v w = .ok b ∧ (b = true ↔ P) := by
  obtain ⟨b, hb⟩ := equal_total hv w
  rw [hb, Except.ok.injEq] at h
  exact ⟨b, hb, h⟩

/-- The comparison of any value with an acyclic one ends as well. -/
theorem equal_total_right {w : Value} (hw : s.Acyclic w) (v : Value) : ∃ b, s.equal v w = .ok b := by
  -- The guard grows on the way inside, and its right sides are apart from what is still to be compared.
  refine hw.induction (P := fun w => ∀ within : List (Ref × Ref), s.Apart (within.map Prod.snd) w →
    ∀ v, ∃ b, s.equalWithin within v w = .ok b) ?_ [] (apart_nil w) v
  intro w hacyclic ih within hwithin v
  by_cases hobjects : ∃ a b x y, a ≠ b ∧ v = .object a ∧ w = .object b ∧ s.get? a = some x ∧
      s.get? b = some y
  · obtain ⟨a, b, x, y, hne, rfl, rfl, ha, hb⟩ := hobjects
    have hr : (a, b) ∉ within := fun hmem =>
      hwithin.not_mem (List.mem_map.mpr ⟨_, hmem, rfl⟩)
    rw [equalWithin_objects hne ha hb hr]
    refine objectsEqual_total (fun v _ part hpart => ?_) a b
    have hp := Part.of_get? hb hpart
    exact ih part hp ((a, b) :: within) (hwithin.cons_part hacyclic hp) v
  · exact ⟨_, equalWithin_of_not_objects hobjects within⟩

end Totality

end Store

end TypedReads
