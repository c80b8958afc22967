import Mathlib.Tactic.FinCases
import TypedReads.Proofs.Adapter.Hash
import TypedReads.Proofs.Value.Rebuilt

/-!
# Copies of adapters and of what they hold

An adapter and a copy of it have one hash, and they are equal unless a box of NaN is within
(`rebuilt_copies`). A copy of a stored value is found among the values of an adapter under the same
condition. What stands in front of the value does not matter, and it may hold itself: a comparison with an
acyclic value always ends.

The condition is needed. Two boxes that both hold NaN are not equal (`nanBoxes_unequal`).
-/

namespace TypedReads

namespace Store

variable {s : Store} {r r' : Ref} {a : Adapter} {v : Value}

/-- What is a copy of itself is primitive. -/
theorem Rebuilt.comparable_of_self (h : s.Rebuilt v v) : s.Comparable v := by
  cases h with
  | primitive h => exact comparable_of_primitive h
  | object hne => exact absurd rfl hne

/-- An adapter and its map hold the same. -/
theorem comparable_backing_iff {es : Entries Value Value} (hr : s.get? r = some (.adapter a))
    (ha : s.get? a.backing = some (.map es)) :
    s.Comparable (.object a.backing) ↔ s.Comparable (.object r) := by
  rw [comparable_object_iff ha, comparable_object_iff hr, parts_adapter ha]
  exact and_congr_left' (iff_of_true nofun nofun)

/-- Behind a map or an adapter there is a map with its entries. -/
theorem exists_backing (hs : s.WellFormed) {y : Object} (hr : s.get? r = some y)
    {fs : Entries Value Value} (hfs : s.mapEntries? y = some fs) :
    ∃ m, Adapter.backingOf? s (.object r) = some m ∧ s.get? m = some (.map fs) := by
  cases y with
  | map entries =>
    cases hfs
    refine ⟨r, ?_, hr⟩
    unfold Adapter.backingOf?
    dsimp only
    rw [hr]
  | adapter a =>
    obtain ⟨es, hes⟩ := hs r _ hr
    have hentries : s.entriesAt a.backing = fs := Option.some.inj hfs
    rw [entriesAt_of_get? hes] at hentries
    refine ⟨a.backing, ?_, hentries ▸ hes⟩
    unfold Adapter.backingOf?
    dsimp only
    rw [hr]
  | _ => cases hfs

section Adapters

variable (hs : s.WellFormed) (hr : s.adapter? r = some a) (hv : s.Acyclic (.object r))
  (h : s.Rebuilt (.object r) (.object r'))
include hs hr hv h

/-- An adapter and a copy of it have the same hash. -/
theorem Rebuilt.adapter_hash (hz : s.NormalKeys) : ∃ n, a.hash s = .ok n ∧ s.hash (.object r') = .ok n := by
  have hr := get?_of_adapter? hr
  obtain ⟨es, hes⟩ := hs r _ hr
  obtain ⟨n, hn⟩ := hash_total hv
  exact ⟨n, (hash_adapter hr hes hv).symm.trans hn, (h.hash_eq hs hz hv).symm.trans hn⟩

/-- An adapter is equal to a copy of it exactly if no box within it holds NaN. -/
theorem Rebuilt.adapter_equals (hz : s.NormalKeys) :
    ∃ b, a.equals s (.object r') = .ok b ∧ (b = true ↔ s.Comparable (.object r)) := by
  have hr := get?_of_adapter? hr
  obtain ⟨es, hes⟩ := hs r _ hr
  have hbacking := hv.backing hr hes
  cases h with
  | primitive h => exact absurd rfl (h r)
  | @object _ _ x y hne hx hy h =>
    rw [hr] at hx
    cases hx
    cases h with
    | @map _ _ es' fs hes' hfs hprimitive hkeys hvalues =>
      obtain rfl : es = es' := (entriesAt_of_get? hes).symm.trans (Option.some.inj hes')
      obtain ⟨m, hm, hfs⟩ := exists_backing hs hy hfs
      have hequals : a.equals s (.object r') = s.equal (.object a.backing) (.object m) := by
        unfold Adapter.equals
        rw [hm]
      rw [hequals, ← comparable_backing_iff hr hes]
      by_cases hsame : a.backing = m
      · -- On one and the same map every value is a copy of itself.
        subst hsame
        rw [hes] at hfs
        cases hfs
        refine ⟨true, equal_self _, iff_of_true rfl ((comparable_object_iff hes).mpr ⟨nofun, ?_⟩)⟩
        intro part hpart
        obtain ⟨e, he, rfl | rfl⟩ := exists_entry_of_part rfl hpart
        · exact comparable_of_primitive (hprimitive e he)
        · exact (hvalues e he e he rfl).comparable_of_self
      · have hmaps : s.Rebuilt (.object a.backing) (.object m) :=
          .object hsame hes hfs (.map rfl rfl hprimitive hkeys hvalues)
        exact equal_decides hbacking (hmaps.equal_iff hs hz hbacking)

end Adapters

/-- A search finds an equal value among values whose comparison ends. -/
theorem search_of_mem {vs : List Value} {w : Value} (htotal : ∀ u ∈ vs, ∃ b, s.equal u w = .ok b)
    (hmem : v ∈ vs) (h : s.equal v w = .ok true) :
    Adapter.containsValue.search s w vs = .ok true := by
  induction vs with
  | nil => cases hmem
  | cons u vs ih =>
    obtain ⟨b, hb⟩ := htotal u List.mem_cons_self
    unfold Adapter.containsValue.search
    rw [hb]
    cases b with
    | true => rfl
    | false =>
      have hne : v ≠ u := by
        rintro rfl
        rw [h] at hb
        cases hb
      exact ih (fun u hu => htotal u (List.mem_cons_of_mem _ hu))
        ((List.mem_cons.mp hmem).resolve_left hne)

end Store

/-- An acyclic value and a copy of it have one hash, and the comparison of the two ends; they are equal
exactly if no box within the value holds NaN. So are an adapter and a copy of it, and so a copy of a value
that an adapter holds is found among its values. -/
theorem rebuilt_copies {s : Store} (hs : s.WellFormed) (hz : s.NormalKeys) :
    (∀ v w, s.Acyclic v → s.Rebuilt v w →
      (∃ n, s.hash v = .ok n ∧ s.hash w = .ok n) ∧
      ∃ b, s.equal v w = .ok b ∧ (b = true ↔ s.Comparable v)) ∧
    (∀ r a r', s.adapter? r = some a → s.Acyclic (.object r) →
      s.Rebuilt (.object r) (.object r') →
      (∃ n, a.hash s = .ok n ∧ s.hash (.object r') = .ok n) ∧
      ∃ b, a.equals s (.object r') = .ok b ∧ (b = true ↔ s.Comparable (.object r))) ∧
    ∀ (a : Adapter) v w, v ∈ a.values s → s.Acyclic v → s.Rebuilt v w → s.Comparable v →
      a.containsValue s w = .ok true := by
  refine ⟨fun v w hv h => ⟨?_, Store.equal_decides hv (h.equal_iff hs hz hv)⟩,
    fun r a r' hr hv h => ?_, fun a v w hmem hv h hcomparable => ?_⟩
  · obtain ⟨n, hn⟩ := Store.hash_total hv
    exact ⟨n, hn, (h.hash_eq hs hz hv).symm.trans hn⟩
  · exact ⟨h.adapter_hash hs hr hv hz, h.adapter_equals hs hr hv hz⟩
  · have hw := h.acyclic hv
    exact Store.search_of_mem (fun u _ => Store.equal_total_right hw u) hmem
      ((h.equal_iff hs hz hv).mpr hcomparable)

/-- Two adapters on maps that hold copies of an array, under keys in another order. The array has a box of
negative zero and the primitive NaN. -/
def copies : Store :=
  ⟨#[.numberBox (.floating .double) (.finite true ⟨0, BinaryFormat.double_ranks_pos⟩),
    .ofItems [.object 0, .number .nan],
    .map [(.text (units "a"), .object 1), (.text (units "b"), .undefined)], .adapter ⟨2, .strict⟩,
    .numberBox (.floating .double) (.finite true ⟨0, BinaryFormat.double_ranks_pos⟩),
    .ofItems [.object 4, .number .nan],
    .map [(.text (units "b"), .undefined), (.text (units "a"), .object 5)], .adapter ⟨6, .strict⟩], 0⟩

/-- The second array is a copy of the first, and the second adapter one of the first. -/
theorem copies_rebuilt :
    copies.Rebuilt (.object 1) (.object 5) ∧ copies.Rebuilt (.object 3) (.object 7) := by
  have hbox : copies.Rebuilt (.object 0) (.object 4) := .object (by decide) rfl rfl (.number _ _)
  have harray : copies.Rebuilt (.object 1) (.object 5) :=
    .object (by decide) rfl rfl (.array (.cons hbox (.cons (.primitive nofun) .nil)))
  refine ⟨harray, .object (by decide) rfl rfl (.map rfl rfl ?_ (.swap _ _ _) ?_)⟩
  · intro e he r
    rcases List.mem_pair.mp he with rfl | rfl <;> exact nofun
  · intro e he f hf hkey
    -- Of the four pairs of entries two have the same key.
    rcases List.mem_pair.mp he with rfl | rfl <;> rcases List.mem_pair.mp hf with rfl | rfl
    · exact absurd hkey (by decide)
    · exact harray
    · exact .primitive nofun
    · exact absurd hkey (by decide)

/-- The copies are equal and are found. -/
theorem copies_equal :
    copies.WellFormed ∧ copies.NormalKeys ∧ (∀ v, copies.Acyclic v) ∧
    copies.Rebuilt (.object 1) (.object 5) ∧ copies.Rebuilt (.object 3) (.object 7) ∧
    copies.equal (.object 1) (.object 5) = .ok true ∧
    Adapter.equals ⟨2, .strict⟩ copies (.object 7) = .ok true ∧
    Adapter.containsValue ⟨2, .strict⟩ copies (.object 5) = .ok true ∧
    ∃ n, Adapter.hash ⟨2, .strict⟩ copies = .ok n ∧ copies.hash (.object 7) = .ok n := by
  have hwell : copies.WellFormed := by decide
  have hnormal : copies.NormalKeys := by decide
  have hacyclic : ∀ v, copies.Acyclic v := Store.acyclic_of_descending (by decide)
  have hcomparable : ∀ v, copies.Comparable v := by
    have hobjects : ∀ r o, copies.get? r = some o → ∀ kind, o ≠ .numberBox kind .nan := by
      refine Store.forall_objects fun i => ?_
      fin_cases i <;> intro kind hbox <;> cases hbox
    exact fun v r kind _ hr => hobjects r _ hr kind rfl
  obtain ⟨harray, hadapter⟩ := copies_rebuilt
  obtain ⟨hvalues, hadapters, hfound⟩ := rebuilt_copies hwell hnormal
  obtain ⟨-, b, hb, htrue⟩ := hvalues _ _ (hacyclic _) harray
  obtain ⟨hhash, b', hb', htrue'⟩ := hadapters 3 ⟨2, .strict⟩ 7 rfl (hacyclic _) hadapter
  rw [htrue.mpr (hcomparable _)] at hb
  rw [htrue'.mpr (hcomparable _)] at hb'
  exact ⟨hwell, hnormal, hacyclic, harray, hadapter, hb, hb',
    hfound ⟨2, .strict⟩ _ _ List.mem_cons_self (hacyclic _) harray (hcomparable _), hhash⟩

/-- Two boxes of NaN. -/
def nanBoxes : Store :=
  ⟨#[.numberBox (.floating .double) .nan, .numberBox (.floating .double) .nan], 0⟩

/-- The boxes are copies of each other, and they are not equal. -/
theorem nanBoxes_unequal :
    nanBoxes.WellFormed ∧ nanBoxes.NormalKeys ∧ nanBoxes.Acyclic (.object 0) ∧
    nanBoxes.Rebuilt (.object 0) (.object 1) ∧
    nanBoxes.equal (.object 0) (.object 1) = .ok false := by
  have hacyclic : nanBoxes.Acyclic (.object 0) := Store.acyclic_of_descending (by decide) _
  refine ⟨by decide, by decide, hacyclic, .object (by decide) rfl rfl (.number _ _), ?_⟩
  rw [Store.equal_objects hacyclic (by decide) rfl rfl]
  decide

end TypedReads
