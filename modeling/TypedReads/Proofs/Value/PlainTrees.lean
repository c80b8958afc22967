import TypedReads.Proofs.Json.Reading
import TypedReads.Proofs.Value.Normalization

/-!
# What a JSON value holds

A JSON value that was decoded or normalized holds nothing but primitives, arrays and plain records wherever
it is loaded (`Store.Plain`): no map, no adapter and no box is left. Of its exact integers the two differ.
The reader keeps an integer exact only if it has 64 bits, and normalizing keeps every integer there is. In
both directions an equivalence for an arbitrary property of integers says that none is added or lost
(`Represents.numbers_iff`, `numbers_normalize_iff`), so the integers of a normalized value are those within
the value it was made of, and all of them have 64 bits exactly if all of those do (`json_values_plain`).
-/

namespace TypedReads

/-- Lists that correspond item by item have a property together if each pair of items does. -/
theorem forall_mem_iff_of_forall₂ {α β : Type} {R : α → β → Prop} {as : List α} {bs : List β}
    (h : List.Forall₂ R as bs) {P : α → Prop} {Q : β → Prop} (hPQ : ∀ a b, R a b → (P a ↔ Q b)) :
    (∀ a ∈ as, P a) ↔ ∀ b ∈ bs, Q b := by
  induction h with
  | nil => simp
  | cons hab _ ih => rw [List.forall_mem_cons, List.forall_mem_cons, hPQ _ _ hab, ih]

namespace Store

variable {s : Store} {v : Value} {Q : ℤ → Prop}

section Integers

/-- A value in which every exact integer, at any depth, has a property. -/
def IntegersWithin (s : Store) (Q : ℤ → Prop) (v : Value) : Prop :=
  ∀ n, s.Within v (.integer n) → Q n

/-- A value that is no object holds at most itself. -/
theorem integersWithin_primitive (h : ∀ r, v ≠ .object r) :
    s.IntegersWithin Q v ↔ ∀ n, v = .integer n → Q n := by
  refine forall_congr' fun n => imp_congr_left ⟨fun hn => ?_, fun hn => hn ▸ .refl⟩
  rcases hn.cases_head with heq | ⟨part, hpart, -⟩
  · exact heq
  · exact absurd hpart (not_part_of_primitive h part)

/-- An object holds what its parts hold. -/
theorem integersWithin_object {r : Ref} {o : Object} (hr : s.get? r = some o) :
    s.IntegersWithin Q (.object r) ↔ ∀ part ∈ s.parts o, s.IntegersWithin Q part := by
  constructor
  · exact fun h part hpart n hn => h n (.head (.of_get? hr hpart) hn)
  · intro h n hn
    rcases hn.cases_head with heq | ⟨part, hpart, hrest⟩
    · cases heq
    · exact h part (hpart.mem_parts hr) n hrest

/-- A text is no integer. -/
theorem integersWithin_text (t : Text) : s.IntegersWithin Q (.text t) := by
  rw [integersWithin_primitive (by rintro _ ⟨⟩)]
  rintro n ⟨⟩

/-- An array holds what its items hold. -/
theorem integersWithin_items {r : Ref} {o : Object} (hr : s.get? r = some o) {vs : List Value}
    (ho : s.contents o = .items vs) :
    s.IntegersWithin Q (.object r) ↔ ∀ v ∈ vs, s.IntegersWithin Q v := by
  rw [integersWithin_object hr, parts, ho]

/-- A container whose keys are texts holds what stands under them. -/
theorem integersWithin_entries {r : Ref} {o : Object} (hr : s.get? r = some o)
    {es : List (Value × Value)} (ho : s.contents o = .entries es)
    (hkeys : ∀ e ∈ es, ∃ key, e.1 = .text key) :
    s.IntegersWithin Q (.object r) ↔ ∀ e ∈ es, s.IntegersWithin Q e.2 := by
  rw [integersWithin_object hr]
  constructor
  · exact fun h e he => h e.2 (mem_parts_of_entries ho he).2
  · intro h part hpart
    obtain ⟨e, he, rfl | rfl⟩ := exists_entry_of_part ho hpart
    · obtain ⟨key, hkey⟩ := hkeys e he
      rw [hkey]
      exact integersWithin_text key
    · exact h e he

end Integers

section Loaded

/-- A value that is primitive, an array without holes or a plain record. -/
inductive Plain (s : Store) : Value → Prop
  | null : Plain s .null
  | bool (b : Bool) : Plain s (.bool b)
  | number (x : Double) : Plain s (.number x)
  | integer (n : ℤ) : Plain s (.integer n)
  | text (t : Text) : Plain s (.text t)
  | array {r : Ref} {vs : List Value} (hr : s.get? r = some (.ofItems vs)) : Plain s (.object r)
  | object {r : Ref} {es : List (Text × Value)} (hr : s.get? r = some (.record false es)) :
      Plain s (.object r)

variable {bound : Ref}

/-- What represents a JSON value is plain. -/
theorem Represents.plain {j : Json} (h : s.Represents bound v j) : s.Plain v := by
  cases h with
  | null => exact .null
  | bool b => exact .bool b
  | number x => exact .number x
  | integer n => exact .integer n
  | text t => exact .text t
  | array _ hr _ => exact .array hr
  | object _ hr _ => exact .object hr

/-- Everything within a value that represents a JSON value is plain. -/
theorem Represents.plain_within {j : Json} (h : s.Represents bound v j) {w : Value}
    (hw : s.Within v w) : s.Plain w := by
  rcases Relation.reflTransGen_iff_eq_or_transGen.mp hw with rfl | hinner
  · exact h.plain
  · obtain ⟨r, j', -, -, hrep⟩ := h.within hinner
    exact hrep.plain

mutual

/-- The exact integers of a JSON value are those within a value that represents it. -/
theorem Represents.numbers_iff {bound : Ref} {v : Value} {j : Json} (h : s.Represents bound v j) :
    j.Numbers (fun _ => True) Q ↔ s.IntegersWithin Q v := by
  cases h with
  | null =>
    rw [integersWithin_primitive (v := .null) nofun]
    exact iff_of_true trivial nofun
  | bool b =>
    rw [integersWithin_primitive (v := .bool b) nofun]
    exact iff_of_true trivial nofun
  | number x =>
    rw [integersWithin_primitive (v := .number x) nofun]
    exact iff_of_true trivial nofun
  | integer n =>
    rw [integersWithin_primitive (v := .integer n) nofun]
    exact ⟨fun h _ hn => Value.integer.inj hn ▸ h, fun h => h n rfl⟩
  | text t => exact iff_of_true trivial (integersWithin_text t)
  | array _ hr h =>
    rw [integersWithin_items hr (contents_ofItems s _)]
    exact h.numbers_iff
  | @object _ r es members _ hr h =>
    -- The members are listed in another order, under the same texts.
    have hlisted : ∀ e ∈ recordEntries es, ∃ key, e.1 = .text key := by
      intro e he
      obtain ⟨d, -, rfl⟩ := List.mem_map.mp he
      exact ⟨d.1, rfl⟩
    rw [integersWithin_entries hr rfl hlisted, List.forall_mem_map]
    exact h.numbers_iff.trans
      (forall_congr' fun e => imp_congr_left (Entries.listing_perm es).mem_iff.symm)

/-- The exact integers of items are those within what represents them. -/
theorem RepresentsItems.numbers_iff {bound : Ref} {vs : List Value} {js : List Json}
    (h : s.RepresentsItems bound vs js) :
    Json.NumbersItems (fun _ => True) Q js ↔ ∀ v ∈ vs, s.IntegersWithin Q v := by
  cases h with
  | nil => simp [Json.NumbersItems]
  | cons h hrest =>
    rw [List.forall_mem_cons]
    exact and_congr h.numbers_iff hrest.numbers_iff

/-- So are those of members. -/
theorem RepresentsMembers.numbers_iff {bound : Ref} {es : List (Text × Value)}
    {members : List (Text × Json)} (h : s.RepresentsMembers bound es members) :
    Json.NumbersMembers (fun _ => True) Q members ↔ ∀ e ∈ es, s.IntegersWithin Q e.2 := by
  cases h with
  | nil => simp [Json.NumbersMembers]
  | cons _ h hrest =>
    rw [List.forall_mem_cons]
    exact and_congr h.numbers_iff hrest.numbers_iff

end

end Loaded

section Encoded

/-- The entries of a container in a well-formed store repeat no key. -/
theorem WellFormed.nodup_contents (hs : s.WellFormed) {r : Ref} {o : Object} (hr : s.get? r = some o)
    {es : List (Value × Value)} (ho : s.contents o = .entries es) : (Entries.keys es).Nodup := by
  cases o with
  | record bare members =>
    cases ho
    exact nodup_recordEntries (hs r _ hr)
  | map entries =>
    cases ho
    exact hs r _ hr
  | adapter a =>
    cases ho
    exact hs.nodup_entriesAt a.backing
  | numberBox kind x => exact absurd ho contents_numberBox_ne
  | _ => cases ho

/-- Members are normalized one by one. -/
theorem numbersMembers_normalize_iff {members : List (Text × Json)} :
    Json.NumbersMembers (fun _ => True) Q (Json.normalizeMembers members) ↔
      ∀ e ∈ members, e.2.normalize.Numbers (fun _ => True) Q := by
  induction members with
  | nil => simp [Json.normalizeMembers, Json.NumbersMembers]
  | cons e members ih =>
    rw [List.forall_mem_cons, ← ih]
    rfl

/-- The numbers of normalized items are those of each normalized one. -/
theorem numbersItems_normalize_iff {items : List Json} :
    Json.NumbersItems (fun _ => True) Q (Json.normalizeItems items) ↔
      ∀ j ∈ items, j.normalize.Numbers (fun _ => True) Q := by
  induction items with
  | nil => simp [Json.normalizeItems, Json.NumbersItems]
  | cons j items ih =>
    rw [List.forall_mem_cons, ← ih]
    rfl

/-- Normalizing an object that repeats no key drops none of its members. -/
theorem numbers_normalize_object {members : List (Text × Json)} (h : (Entries.keys members).Nodup) :
    (Json.object members).normalize.Numbers (fun _ => True) Q ↔
      ∀ e ∈ members, e.2.normalize.Numbers (fun _ => True) Q := by
  have hkeys : (Entries.keys (Json.normalizeMembers members)).Nodup := by
    rwa [Json.keys_normalizeMembers]
  rw [← numbersMembers_normalize_iff, Json.normalize, Json.record, Entries.ofPairs_of_nodup hkeys]
  have hperm := Entries.listing_perm (Json.normalizeMembers members)
  exact Json.numbersMembers_iff.trans
    ((forall_congr' fun e => imp_congr_left hperm.mem_iff).trans Json.numbersMembers_iff.symm)

/-- A value without parts is encoded as itself. -/
theorem numbers_encodeLeaf_iff {j : Json} (h : encodeLeaf v = .ok j) :
    j.normalize.Numbers (fun _ => True) Q ↔ ∀ n, v = .integer n → Q n := by
  cases v with
  | integer n =>
    cases h
    exact ⟨fun h _ hn => Value.integer.inj hn ▸ h, fun h => h n rfl⟩
  | number x =>
    obtain ⟨-, rfl⟩ := finite_of_encodeLeaf h
    exact iff_of_true trivial nofun
  | null | bool b | text t =>
    cases h
    exact iff_of_true trivial nofun
  | _ => cases h

/-- A box holds no integer that is kept exact. -/
theorem leaf_ne_integer {o : Object} {w : Value} (ho : s.contents o = .leaf w) (n : ℤ) :
    w ≠ .integer n := by
  rintro rfl
  cases o with
  | numberBox kind x => rcases kind with k | _ | _ <;> cases ho
  | _ => cases ho

/-- The exact integers of a normalized value are those within the value. -/
theorem numbers_normalize_iff (hs : s.WellFormed) (ancestors : List Ref) {v : Value} {j : Json}
    (h : s.encodeWithin ancestors v = .ok j) :
    j.normalize.Numbers (fun _ => True) Q ↔ s.IntegersWithin Q v := by
  -- By induction on the places that are not being encoded yet.
  by_cases hobject : ∃ r, v = .object r
  swap
  · have hprimitive : ∀ r, v ≠ .object r := fun r hv => hobject ⟨r, hv⟩
    rw [encodeWithin_leaf hprimitive] at h
    rw [integersWithin_primitive hprimitive]
    exact numbers_encodeLeaf_iff h
  obtain ⟨r, rfl⟩ := hobject
  obtain ⟨o, hr⟩ := get?_of_encodeWithin h
  cases ho : s.contents o with
  | leaf w =>
    rw [encodeWithin_object hr, ho] at h
    rw [numbers_encodeLeaf_iff h, integersWithin_object hr, parts, ho]
    exact iff_of_true (fun n hn => absurd hn (leaf_ne_integer ho n))
      fun part hpart => absurd hpart List.not_mem_nil
  | none cause =>
    rw [encodeWithin_object hr, ho] at h
    cases h
  | items vs =>
    -- An array is normalized item by item.
    obtain ⟨js, rfl, hnot, hjs⟩ := encodeWithin_items hr ho h
    have hlt := unvisited_cons_lt (mem_refs_of_get? hr) hnot
    rw [integersWithin_items hr ho]
    refine numbersItems_normalize_iff.trans (forall_mem_iff_of_forall₂ hjs fun w j hj => ?_).symm
    exact (numbers_normalize_iff hs (r :: ancestors) hj).symm
  | entries es =>
    obtain ⟨members, rfl, hnot, hmembers⟩ := encodeWithin_entries hr ho h
    have hlt := unvisited_cons_lt (mem_refs_of_get? hr) hnot
    -- No key comes twice, so normalizing keeps every member.
    have hnodup : (Entries.keys members).Nodup := by
      have hes := hs.nodup_contents hr ho
      rw [keys_of_encoded hmembers] at hes
      exact hes.of_map
    have htexts : ∀ e ∈ es, ∃ key, e.1 = .text key := by
      intro e he
      obtain ⟨m, -, hm, -⟩ := exists_of_forall₂ hmembers he
      exact ⟨m.1, hm⟩
    rw [integersWithin_entries hr ho htexts, numbers_normalize_object hnodup]
    refine (forall_mem_iff_of_forall₂ hmembers fun e m hm => ?_).symm
    exact (numbers_normalize_iff hs (r :: ancestors) hm.2).symm
termination_by unvisited s.refs ancestors

end Encoded

end Store

/-- A signed integer of 64 bits. -/
def FitsLong (n : ℤ) : Prop := -2 ^ 63 ≤ n ∧ n < 2 ^ 63

/-- A JSON value that is a tree of primitives, arrays and records wherever it is loaded, and whose exact
integers all have 64 bits. -/
def Json.Sound (j : Json) : Prop :=
  ∀ (u : Store) (w : Value), (u.load j).2.Within (u.load j).1 w →
    (u.load j).2.Plain w ∧ ∀ n, w = .integer n → FitsLong n

/-- Loading makes plain values, so only the integers matter. -/
theorem Json.sound_iff {j : Json} : j.Sound ↔ j.Numbers (fun _ => True) FitsLong := by
  constructor
  · intro h
    obtain ⟨-, -, hloaded⟩ := Store.empty.load_represents j
    exact hloaded.numbers_iff.mpr fun n hn => (h Store.empty _ hn).2 n rfl
  · intro h u w hw
    obtain ⟨-, -, hloaded⟩ := u.load_represents j
    refine ⟨hloaded.plain_within hw, ?_⟩
    rintro n rfl
    exact hloaded.numbers_iff.mp h n hw

/-- An integer that the reader keeps has 64 bits. -/
theorem Json.KeptInt.fitsLong {n : ℤ} (h : KeptInt n) : FitsLong n := by
  have hrange := (IntegralKind.holds_iff .long n).mp h.2
  simp only [IntegralKind.least, IntegralKind.greatest, IntegralKind.width] at hrange
  unfold FitsLong
  omega

/-- A value that keeps exact what the reader keeps exact has integers of 64 bits only. -/
theorem Json.Kept.sound {j : Json} (h : j.Kept) : j.Sound := by
  intro u w hw
  obtain ⟨-, -, hloaded⟩ := u.load_represents j
  refine ⟨hloaded.plain_within hw, ?_⟩
  rintro n rfl
  exact KeptInt.fitsLong (hloaded.numbers_iff.mp h n hw)

/-- A JSON value that a document gives, for the whole of it or under a key, is a tree of primitives, arrays
and records at every depth, and its exact integers have 64 bits. A normalized value is such a tree too. Its
exact integers are those within the value, keys and values of whatever holds them included, so that all of
them have 64 bits exactly if no integer of more bits is anywhere within the value. -/
theorem json_values_plain (t : Text) {s : Store} (hs : s.WellFormed) (v : Value) :
    (∀ members, Document.entries t = .ok members → ∀ e ∈ members, e.2.Sound) ∧
    (∀ j, Document.object t = .ok j → j.Sound) ∧
    ∀ j, s.normalize v = .ok j →
      (∀ (u : Store) w, (u.load j).2.Within (u.load j).1 w → (u.load j).2.Plain w) ∧
      (∀ (u : Store) n, (u.load j).2.Within (u.load j).1 (.integer n) ↔ s.Within v (.integer n)) ∧
      (j.Sound ↔ ∀ n, s.Within v (.integer n) → FitsLong n) := by
  refine ⟨fun members h e he => ?_, fun j h => ?_, fun j h => ?_⟩
  -- A document is read with no integer but those of 64 bits.
  · exact Json.Kept.sound (Json.numbersMembers_iff.mp (Document.kept_of_entries h) e he)
  · -- The whole document is the record of its members.
    cases hmembers : Document.entries t with
    | error e =>
      rw [Document.object, hmembers] at h
      cases h
    | ok members =>
      rw [Document.object, hmembers] at h
      obtain rfl := Except.ok.inj h
      exact Json.Kept.sound (Json.numbers_record (Document.kept_of_entries hmembers))
  · obtain ⟨raw, hraw, rfl⟩ := Store.normalize_eq_ok_iff.mp h
    refine ⟨fun u w hw => ?_, fun u n => ⟨fun hn => ?_, fun hn => ?_⟩, ?_⟩
    · obtain ⟨-, -, hloaded⟩ := u.load_represents raw.normalize
      exact hloaded.plain_within hw
    · -- Each of the two trees has a property of integers if the other has it.
      obtain ⟨-, -, hloaded⟩ := u.load_represents raw.normalize
      have hwithin : s.IntegersWithin (fun m => s.Within v (.integer m)) v := fun m hm => hm
      exact hloaded.numbers_iff.mp ((Store.numbers_normalize_iff hs [] hraw).mpr hwithin) n hn
    · obtain ⟨-, -, hloaded⟩ := u.load_represents raw.normalize
      have hwithin : (u.load raw.normalize).2.IntegersWithin
          (fun m => (u.load raw.normalize).2.Within (u.load raw.normalize).1 (.integer m))
          (u.load raw.normalize).1 := fun m hm => hm
      exact (Store.numbers_normalize_iff hs [] hraw).mp (hloaded.numbers_iff.mpr hwithin) n hn
    · rw [Json.sound_iff]
      exact Store.numbers_normalize_iff hs [] hraw

/-- An array of an integer of 65 bits, as the value of a map. -/
def wideCrate : Store :=
  ⟨#[.ofItems [.integer (2 ^ 63)], .map [(.text (units "a"), .object 0)]], 0⟩

/-- What it is normalized to. -/
theorem normalize_wideCrate : wideCrate.normalize (.object 1) =
    .ok (.object [(units "a", .array [.integer (2 ^ 63)])]) := by
  have harray : wideCrate.encodeWithin [1] (.object 0) = .ok (.array [.integer (2 ^ 63)]) := by
    rw [Store.encodeWithin_object (o := .ofItems [.integer (2 ^ 63)]) rfl]
    simp [Store.contents_ofItems, Store.encodeItems, Store.encodeWithin_leaf, Store.encodeLeaf,
      Except.map]
  have hmap : wideCrate.encode (.object 1) =
      .ok (.object [(units "a", .array [.integer (2 ^ 63)])]) := by
    unfold Store.encode
    rw [Store.encodeWithin_object (o := .map [(.text (units "a"), .object 0)]) rfl]
    simp [Store.contents, Store.encodeEntries, harray, Except.map]
  have ha : indexKey? (units "a") = none := by decide
  refine Store.normalize_eq_ok_iff.mpr ⟨_, hmap, ?_⟩
  simp [Json.normalize, Json.normalizeItems, Json.normalizeMembers, Json.record, Entries.listing,
    Entries.ofPairs, Entries.putAll, Entries.put, ha]

/-- The normal form of such a map has the integer too, and so is not sound. -/
theorem wideCrate_not_plain : wideCrate.WellFormed ∧
    wideCrate.normalize (.object 1) = .ok (.object [(units "a", .array [.integer (2 ^ 63)])]) ∧
    ¬ Json.Sound (.object [(units "a", .array [.integer (2 ^ 63)])]) := by
  have hwell : wideCrate.WellFormed := by decide
  obtain ⟨-, -, hnormal⟩ := json_values_plain [] hwell (.object 1)
  obtain ⟨-, -, hsound⟩ := hnormal _ normalize_wideCrate
  refine ⟨hwell, normalize_wideCrate, fun h => ?_⟩
  have harray : wideCrate.Part (.object 1) (.object 0) :=
    .of_get? (o := .map [(.text (units "a"), .object 0)]) rfl (by decide)
  have hinteger : wideCrate.Part (.object 0) (.integer (2 ^ 63)) :=
    .of_get? (o := .ofItems [.integer (2 ^ 63)]) rfl (by decide)
  have hfits := hsound.mp h (2 ^ 63) (.head harray (.single hinteger))
  exact absurd hfits.2 (by decide)

end TypedReads
