import Mathlib.Tactic.FinCases
import TypedReads.Adapter.Content
import TypedReads.Proofs.Value.Hash

/-!
# Hashes and equality of adapters

An adapter compares and hashes as the map that it looks at, and a map shares its parts with every
adapter on it. So what holds of equal acyclic values holds of equal adapters: they have the same
hash, and comparing the hashes first changes no answer (`hash_agrees_with_equality`).

This needs values without holes, or values that are equal from both sides. A hole is equal to whatever it
meets, but hashes as undefined (`hole_hash_disagrees`).
-/

namespace TypedReads

namespace Store

variable {s : Store}

/-- The object at the place of an adapter. -/
theorem get?_of_adapter? {r : Ref} {a : Adapter} (h : s.adapter? r = some a) :
    s.get? r = some (.adapter a) := by
  unfold adapter? at h
  split at h
  · rename_i b hb
    cases h
    exact hb
  · cases h

/-- An adapter holds what its map holds. -/
theorem parts_adapter {a : Adapter} {es : Entries Value Value}
    (ha : s.get? a.backing = some (.map es)) : s.parts (.adapter a) = s.parts (.map es) := by
  unfold parts contents entriesAt
  dsimp only
  rw [ha]

section Backing

variable {r : Ref} {a : Adapter} {es : Entries Value Value} (hr : s.get? r = some (.adapter a))
  (ha : s.get? a.backing = some (.map es))
include hr ha

/-- What the map of an adapter holds, the adapter holds. -/
theorem part_of_backing {part : Value} (h : s.Part (.object a.backing) part) :
    s.Part (.object r) part := by
  have hmem := h.mem_parts ha
  rw [← parts_adapter ha] at hmem
  exact .of_get? hr hmem

/-- The map of an adapter without holes has none. -/
theorem Dense.backing (hv : s.Dense (.object r)) : s.Dense (.object a.backing) := by
  intro p slots hwithin hp
  rcases hwithin.cases_head with heq | ⟨part, hhead, hrest⟩
  · cases heq
    rw [ha] at hp
    cases hp
  · exact hv p slots (hrest.head (part_of_backing hr ha hhead)) hp

/-- The map of an acyclic adapter is acyclic. -/
theorem Acyclic.backing (hv : s.Acyclic (.object r)) : s.Acyclic (.object a.backing) := by
  intro w hwithin hcycle
  rcases hwithin.cases_head with rfl | ⟨part, hhead, hrest⟩
  · -- The map would be within one of its parts, and these are within the adapter.
    obtain ⟨part, hhead, hback⟩ := Relation.TransGen.head'_iff.mp hcycle
    exact hv part (.single (part_of_backing hr ha hhead)) (Relation.TransGen.tail' hback hhead)
  · exact hv w (hrest.head (part_of_backing hr ha hhead)) hcycle

/-- An adapter has the hash of its map. -/
theorem hash_adapter (hv : s.Acyclic (.object r)) :
    s.hash (.object r) = s.hash (.object a.backing) := by
  rw [hash_object hv hr, hash_object (hv.backing hr ha) ha]
  unfold objectHash entriesAt
  dsimp only
  rw [ha]

end Backing

end Store

namespace Adapter

variable {s : Store}

/-- Two adapters are equal if their maps are. -/
theorem equals_adapter (a : Adapter) {r' : Ref} {a' : Adapter}
    (hr' : s.get? r' = some (.adapter a')) :
    a.equals s (.object r') = s.equal (.object a.backing) (.object a'.backing) := by
  have hbacking : backingOf? s (.object r') = some a'.backing := by
    unfold backingOf?
    dsimp only
    rw [hr']
  unfold equals
  rw [hbacking]

/-- Comparing by hash, once both hashes are known. -/
theorem equalsByHash_of_hashes (a : Adapter) {r r' : Ref} {a' : Adapter} {n m : UInt32}
    (hr' : s.get? r' = some (.adapter a')) (hne : r' ≠ r) (hn : a.hash s = .ok n)
    (hm : s.hash (.object r') = .ok m) :
    a.equalsByHash s r (.object r') =
      if n ≠ m then .ok false else a.equals s (.object r') := by
  have hcompares : comparesItself s (.object r') = true := by
    unfold comparesItself
    dsimp only
    rw [hr']
  have hother : (Value.object r' = .object r) = False :=
    eq_false fun h => hne (by injection h)
  unfold equalsByHash
  rw [hn, hm, hcompares]
  simp only [hother, if_false]
  -- The contents are compared only if the hashes are the same.
  by_cases h : n = m
  · simp [h, bind, Except.bind]
  · simp [h, bind, Except.bind, pure, Except.pure]

end Adapter

/-- Equal acyclic values have the same hash, if the first has no holes or they are equal from both sides. So
have equal adapters. Comparing adapters has an answer, and comparing them by their hashes first has one as well,
which is the same under that condition, and never finds equal what is not. -/
theorem hash_agrees_with_equality (s : Store) (hs : s.WellFormed) (hz : s.NormalKeys) :
    (∀ v w, s.Acyclic v → s.Acyclic w → s.equal v w = .ok true →
      s.Dense v ∨ s.equal w v = .ok true → ∃ n, s.hash v = .ok n ∧ s.hash w = .ok n) ∧
    (∀ r a r' a', s.adapter? r = some a → s.adapter? r' = some a' →
      s.Acyclic (.object r) → s.Acyclic (.object r') →
      (a.equals s (.object r') = .ok true →
        s.Dense (.object r) ∨ a'.equals s (.object r) = .ok true →
        ∃ n, a.hash s = .ok n ∧ a'.hash s = .ok n) ∧
      ∃ b b', a.equals s (.object r') = .ok b ∧ a.equalsByHash s r (.object r') = .ok b' ∧
        (b' = true → b = true) ∧
        (s.Dense (.object r) ∨ a'.equals s (.object r) = .ok true → b' = b)) := by
  have hvalues : ∀ v w, s.Acyclic v → s.Acyclic w → s.equal v w = .ok true →
      s.Dense v ∨ s.equal w v = .ok true → ∃ n, s.hash v = .ok n ∧ s.hash w = .ok n := by
    intro v w hv hw hequal hfair
    obtain ⟨n, hn⟩ := Store.hash_total hv
    exact ⟨n, hn, (Store.related_of_equal hs hz hv hw hequal hfair).hash_eq hs hz hv hw ▸ hn⟩
  refine ⟨hvalues, fun r a r' a' hr hr' hv hv' => ?_⟩
  -- The maps that the adapters look at, which are as free of cycles as these.
  have hr := Store.get?_of_adapter? hr
  have hr' := Store.get?_of_adapter? hr'
  obtain ⟨es, hes⟩ := hs r _ hr
  obtain ⟨es', hes'⟩ := hs r' _ hr'
  have hbacking := hv.backing hr hes
  have hbacking' := hv'.backing hr' hes'
  -- Adapters compare and hash as their maps, so what was shown for values holds of them.
  have hequals := a.equals_adapter hr'
  have hsame : a.equals s (.object r') = .ok true →
      s.Dense (.object r) ∨ a'.equals s (.object r) = .ok true →
      ∃ n, a.hash s = .ok n ∧ a'.hash s = .ok n := fun h hfair =>
    hvalues _ _ hbacking hbacking' (hequals ▸ h)
      (hfair.imp (·.backing hr hes) fun h' => a'.equals_adapter hr ▸ h')
  refine ⟨hsame, ?_⟩
  -- Comparing by hash first: with the adapter itself, with the same hash, and with another one.
  obtain ⟨b, hb⟩ := Store.equal_total hbacking (.object a'.backing)
  by_cases hself : r' = r
  · -- The very adapter, of which no hash is taken.
    subst hself
    rw [hr] at hr'
    cases hr'
    rw [Store.equal_self] at hb
    cases hb
    refine ⟨true, true, hequals.trans (Store.equal_self _), ?_, fun _ => rfl, fun _ => rfl⟩
    unfold Adapter.equalsByHash
    rw [if_pos rfl]
    rfl
  · obtain ⟨n, hn⟩ := Store.hash_total hbacking
    obtain ⟨m, hm⟩ := Store.hash_total hbacking'
    have hother := Store.hash_adapter hr' hes' hv'
    have hbyHash := a.equalsByHash_of_hashes hr' hself hn (hother.trans hm)
    rw [hequals, hb] at hbyHash
    by_cases hne : n = m
    · -- The same hash: the contents are compared.
      rw [if_neg (not_not_intro hne)] at hbyHash
      exact ⟨b, b, hequals.trans hb, hbyHash, id, fun _ => rfl⟩
    · -- Different hashes: the contents cannot be equal from both sides.
      rw [if_pos hne] at hbyHash
      refine ⟨b, false, hequals.trans hb, hbyHash, nofun, fun hfair => ?_⟩
      cases b with
      | false => rfl
      | true =>
        obtain ⟨k, hk, hk'⟩ := hsame (hequals.trans hb) hfair
        have hn' : a.hash s = .ok n := hn
        have hm' : a'.hash s = .ok m := hm
        rw [hk] at hn'
        rw [hk'] at hm'
        cases hn'
        cases hm'
        exact absurd rfl hne

/-- Two adapters on maps that hold the same in another order, with the two zeros in boxes. -/
def twins : Store :=
  ⟨#[.numberBox (.integral .byte) (.finite false ⟨0, BinaryFormat.double_ranks_pos⟩),
    .numberBox (.integral .byte) (.finite true ⟨0, BinaryFormat.double_ranks_pos⟩),
    .map [(.text (units "a"), .object 0), (.text (units "b"), .null)],
    .map [(.text (units "b"), .null), (.text (units "a"), .object 1)],
    .adapter ⟨2, .strict⟩, .adapter ⟨3, .truncate⟩], 0⟩

/-- Their adapters are equal and have one hash, found equal by hash as well. -/
theorem twins_hash_agrees :
    twins.WellFormed ∧ twins.NormalKeys ∧ (∀ v, twins.Acyclic v) ∧ (∀ v, twins.Dense v) ∧
    twins.equal (.object 2) (.object 3) = .ok true ∧
    (∃ n, twins.hash (.object 2) = .ok n ∧ twins.hash (.object 3) = .ok n) ∧
    twins.adapter? 4 = some ⟨2, .strict⟩ ∧ twins.adapter? 5 = some ⟨3, .truncate⟩ ∧
    Adapter.equals ⟨2, .strict⟩ twins (.object 5) = .ok true ∧
    (∃ n, Adapter.hash ⟨2, .strict⟩ twins = .ok n ∧ Adapter.hash ⟨3, .truncate⟩ twins = .ok n) ∧
    Adapter.equalsByHash ⟨2, .strict⟩ twins 4 (.object 5) = .ok true := by
  have hwell : twins.WellFormed := by decide
  have hkeys : twins.NormalKeys := by decide
  have hacyclic : ∀ v, twins.Acyclic v := Store.acyclic_of_descending (by decide)
  have hdense : ∀ v, twins.Dense v := by
    refine Store.dense_of_objects fun i slots hslots => ?_
    fin_cases i <;> cases hslots
  -- The boxes are numerically equal, and so the maps are equal entry by entry.
  have hboxes : twins.equal (.object 0) (.object 1) = .ok true := by
    rw [Store.equal_objects (hacyclic _) (by decide) rfl rfl]
    decide
  have hmaps : twins.equal (.object 2) (.object 3) = .ok true := by
    rw [Store.equal_objects (hacyclic _) (by decide) rfl rfl]
    have hentries : Store.entriesEqual twins.equal
        [(Value.text (units "a"), .object 0), (.text (units "b"), .null)]
        [(.text (units "b"), .null), (.text (units "a"), .object 1)] = .ok true := by
      simp +decide [Store.entriesEqual, Store.entriesCovered, Entries.get?, Store.equal_self,
        hboxes]
    exact hentries
  -- What follows from the general theorem, for the maps and for the adapters.
  obtain ⟨hvalues, hadapters⟩ := hash_agrees_with_equality twins hwell hkeys
  have hequals : Adapter.equals ⟨2, .strict⟩ twins (.object 5) = .ok true := hmaps
  obtain ⟨hsame, b, b', hb, hbyHash, -, hagree⟩ := hadapters 4 ⟨2, .strict⟩ 5 ⟨3, .truncate⟩ rfl rfl
    (hacyclic _) (hacyclic _)
  rw [hequals] at hb
  cases hb
  rw [hagree (.inl (hdense _))] at hbyHash
  exact ⟨hwell, hkeys, hacyclic, hdense, hmaps,
    hvalues _ _ (hacyclic _) (hacyclic _) hmaps (.inl (hdense _)), rfl, rfl, hequals,
    hsame hequals (.inl (hdense _)), hbyHash⟩

/-- An array of a hole and one of the number 5, maps that hold them, and adapters on these. -/
def patches : Store :=
  ⟨#[.array [none], .ofItems [.number (.ofInt 5)],
    .map [(.text (units "k"), .object 0)], .map [(.text (units "k"), .object 1)],
    .adapter ⟨2, .truncate⟩, .adapter ⟨3, .truncate⟩], 0⟩

/-- The hash of an array of one primitive among them. -/
theorem patches_hash_array {r : Ref} {slots : List (Option Value)} {v : Value}
    (hacyclic : patches.Acyclic (.object r)) (hr : patches.get? r = some (.array slots))
    (hitems : slotItems slots = [v]) (hv : ∀ r, v ≠ .object r) :
    patches.hash (.object r) =
      .ok (optimizeHash (combineHash (units "array").hash (Store.leafHash v))) := by
  rw [Store.hash_object hacyclic hr]
  unfold Store.objectHash
  dsimp only
  rw [hitems, Store.itemsHash, Store.hash_of_primitive hv]
  rfl

/-- The hash of a map that holds one of the arrays. -/
theorem patches_hash_map {r r' : Ref} {n : UInt32} (hacyclic : patches.Acyclic (.object r))
    (hr : patches.get? r = some (.map [(.text (units "k"), .object r')]))
    (hvalue : patches.hash (.object r') = .ok n) :
    patches.hash (.object r) = .ok (optimizeHash (combineHash (units "map").hash
      ((Store.leafHash (.text (units "k")) ^^^ n) + 0))) := by
  rw [Store.hash_object hacyclic hr]
  unfold Store.objectHash Store.entriesHash
  dsimp only
  rw [Store.entriesSum, Store.hash_of_primitive (v := .text (units "k")) (by simp), hvalue]
  rfl

/-- The first array is equal to the second, but they have different hashes, and so it is with the maps and the
adapters: these are found equal, but not by their hashes. -/
theorem hole_hash_disagrees :
    patches.equal (.object 0) (.object 1) = .ok true ∧
    patches.hash (.object 0) ≠ patches.hash (.object 1) ∧
    Adapter.equals ⟨2, .truncate⟩ patches (.object 5) = .ok true ∧
    Adapter.hash ⟨2, .truncate⟩ patches ≠ Adapter.hash ⟨3, .truncate⟩ patches ∧
    Adapter.equalsByHash ⟨2, .truncate⟩ patches 4 (.object 5) = .ok false := by
  have hacyclic : ∀ v, patches.Acyclic v := Store.acyclic_of_descending (by decide +kernel)
  have hequal : patches.equal (.object 0) (.object 1) = .ok true := by
    rw [Store.equal_objects (hacyclic _) (by decide) rfl rfl]
    decide
  have hmaps : patches.equal (.object 2) (.object 3) = .ok true := by
    rw [Store.equal_objects (hacyclic _) (by decide) rfl rfl]
    have hentries : Store.entriesEqual patches.equal [(Value.text (units "k"), .object 0)]
        [(.text (units "k"), .object 1)] = .ok true := by
      simp +decide [Store.entriesEqual, Store.entriesCovered, Entries.get?, hequal]
    exact hentries
  -- The hole hashes as undefined, the number as itself.
  have hhole := patches_hash_array (hacyclic (.object 0)) rfl rfl (by simp)
  have hnumber := patches_hash_array (hacyclic (.object 1)) rfl rfl (by simp)
  have hleft := patches_hash_map (hacyclic (.object 2)) rfl hhole
  have hright := patches_hash_map (hacyclic (.object 3)) rfl hnumber
  have hother : patches.hash (.object 5) = patches.hash (.object 3) :=
    Store.hash_adapter (a := ⟨3, .truncate⟩) rfl rfl (hacyclic _)
  have hbyHash : Adapter.equalsByHash ⟨2, .truncate⟩ patches 4 (.object 5) = _ :=
    Adapter.equalsByHash_of_hashes _ rfl (by decide) hleft (hother.trans hright)
  -- Each pair of hashes is a pair of words.
  refine ⟨hequal, ?_, hmaps, ?_, hbyHash.trans (if_pos ?_)⟩
  · rw [hhole, hnumber, Ne, Except.ok.injEq]
    decide +kernel
  · unfold Adapter.hash
    rw [hleft, hright, Ne, Except.ok.injEq]
    decide +kernel
  · decide +kernel

end TypedReads
