import Mathlib.Data.List.Nodup
import TypedReads.Json.Basic
import TypedReads.Proofs.Entries

/-!
# Listing order

Listing rearranges entries (`Entries.listing_perm`), so no key is lost or repeated by it, and entries
that are listed already stay as they are (`Entries.listing_listing`). It looks at keys alone, so whether
entries are listed depends on nothing but their keys (`Entries.listing_of_keys`).
-/

namespace TypedReads

namespace Entries

variable {ν : Type}

/-- The entries with array-index keys, each under its number. -/
def indexed (es : Entries Text ν) : List (ℕ × (Text × ν)) :=
  es.filterMap fun e => (indexKey? e.1).map fun n => (n, e)

/-- The entries with other keys. -/
def named (es : Entries Text ν) : Entries Text ν := es.filter fun e => (indexKey? e.1).isNone

/-- The order of the indexed entries. -/
def indexLe (a b : ℕ × (Text × ν)) : Bool := a.1 ≤ b.1

/-- A listing has the indices in order, and then the names. -/
theorem listing_eq (es : Entries Text ν) :
    es.listing = (es.indexed.mergeSort indexLe).map Prod.snd ++ es.named := rfl

/-- The indices of two lists of entries follow one another. -/
theorem indexed_append (es fs : Entries Text ν) : indexed (es ++ fs) = es.indexed ++ fs.indexed :=
  List.filterMap_append

/-- So do the names. -/
theorem named_append (es fs : Entries Text ν) : named (es ++ fs) = es.named ++ fs.named :=
  List.filter_append ..

/-- An entry is indexed exactly under the number of its key. -/
theorem mem_indexed {es : Entries Text ν} {a : ℕ × (Text × ν)} :
    a ∈ es.indexed ↔ a.2 ∈ es ∧ indexKey? a.2.1 = some a.1 := by
  unfold indexed
  rw [List.mem_filterMap]
  constructor
  · rintro ⟨e, he, h⟩
    obtain ⟨n, hn, rfl⟩ := Option.map_eq_some_iff.mp h
    exact ⟨he, hn⟩
  · rintro ⟨hmem, hkey⟩
    exact ⟨a.2, hmem, by rw [hkey]; rfl⟩

/-- An index in front is the first of the indices. -/
theorem cons_indexed {e : Text × ν} {n : ℕ} (h : indexKey? e.1 = some n) (rest : Entries Text ν) :
    indexed (e :: rest) = (n, e) :: rest.indexed ∧ named (e :: rest) = rest.named := by
  constructor
  · simp [indexed, h]
  · simp [named, h]

/-- A name in front is the first of the names. -/
theorem cons_named {e : Text × ν} (h : indexKey? e.1 = none) (rest : Entries Text ν) :
    indexed (e :: rest) = rest.indexed ∧ named (e :: rest) = e :: rest.named := by
  constructor
  · simp [indexed, h]
  · simp [named, h]

/-- The indexed entries and the others are all there are. -/
theorem indexed_named_perm (es : Entries Text ν) :
    (es.indexed.map Prod.snd ++ es.named).Perm es := by
  induction es with
  | nil => exact .nil
  | cons e rest ih =>
    -- A named entry moves behind the indexed ones of the rest.
    cases hkey : indexKey? e.1 with
    | some n =>
      obtain ⟨hindexed, hnamed⟩ := cons_indexed hkey rest
      rw [hindexed, hnamed]
      exact ih.cons e
    | none =>
      obtain ⟨hindexed, hnamed⟩ := cons_named hkey rest
      rw [hindexed, hnamed]
      exact List.perm_middle.trans (ih.cons e)

/-- Listing only rearranges. -/
theorem listing_perm (es : Entries Text ν) : es.listing.Perm es := by
  rw [listing_eq]
  exact (((List.mergeSort_perm _ _).map _).append_right _).trans es.indexed_named_perm

/-- Listing repeats no key. -/
theorem nodup_keys_listing {es : Entries Text ν} (h : es.keys.Nodup) : es.listing.keys.Nodup :=
  (es.listing_perm.map Prod.fst).nodup_iff.mpr h

/-- Entries that are all indexed, under their numbers. -/
theorem indexed_map_snd {as : List (ℕ × (Text × ν))}
    (h : ∀ a ∈ as, indexKey? a.2.1 = some a.1) :
    indexed (as.map Prod.snd) = as ∧ named (as.map Prod.snd) = [] := by
  induction as with
  | nil => exact ⟨rfl, rfl⟩
  | cons a as ih =>
    obtain ⟨hindexed, hnamed⟩ := ih fun b hb => h b (List.mem_cons_of_mem a hb)
    obtain ⟨hcons, hcons'⟩ := cons_indexed (h a List.mem_cons_self) (as.map Prod.snd)
    rw [List.map_cons, hcons, hcons', hindexed, hnamed]
    exact ⟨rfl, rfl⟩

/-- Entries that are all named. -/
theorem indexed_named (es : Entries Text ν) :
    es.named.indexed = [] ∧ es.named.named = es.named := by
  constructor
  · refine List.filterMap_eq_nil_iff.mpr fun e he => ?_
    have hnone : indexKey? e.1 = none := by simpa [named] using (List.mem_filter.mp he).2
    rw [hnone]
    rfl
  · exact List.filter_filter.trans (List.filter_congr fun e _ => Bool.and_self _)

/-- Where no key is an array index, listing moves nothing. -/
theorem listing_of_named {es : Entries Text ν} (h : ∀ key ∈ es.keys, indexKey? key = none) :
    es.listing = es := by
  have hnone : ∀ e ∈ es, indexKey? e.1 = none := fun e he => h e.1 (List.mem_map_of_mem he)
  have hindexed : es.indexed = [] := by
    refine List.filterMap_eq_nil_iff.mpr fun e he => ?_
    rw [hnone e he]
    rfl
  have hnamed : es.named = es := List.filter_eq_self.mpr fun e he => by rw [hnone e he]; rfl
  rw [listing_eq, hindexed, hnamed, List.mergeSort_nil, List.map_nil, List.nil_append]

/-- What is listed stays as it is. -/
theorem listing_listing (es : Entries Text ν) : es.listing.listing = es.listing := by
  have hsorted : (es.indexed.mergeSort indexLe).Pairwise fun a b => indexLe a b = true :=
    List.pairwise_mergeSort (fun a b c => by unfold indexLe; simpa using Nat.le_trans)
      (fun a b => by unfold indexLe; simpa using Nat.le_total a.1 b.1) _
  -- The listed entries fall into the sorted indexed ones and the named ones again.
  have hkeys : ∀ a ∈ es.indexed.mergeSort indexLe, indexKey? a.2.1 = some a.1 := fun a ha =>
    (mem_indexed.mp ((List.mergeSort_perm _ _).mem_iff.mp ha)).2
  obtain ⟨hindexed, hnamed⟩ := indexed_map_snd hkeys
  obtain ⟨hindexed', hnamed'⟩ := es.indexed_named
  rw [listing_eq es.listing, listing_eq es, indexed_append, named_append, hindexed, hnamed,
    hindexed', hnamed', List.append_nil, List.nil_append, List.mergeSort_of_pairwise hsorted]

/-- Listing looks at the keys alone. -/
theorem listing_map {ν' : Type} (f : ν → ν') (es : Entries Text ν) :
    Entries.listing (es.map fun e => (e.1, f e.2)) = es.listing.map fun e => (e.1, f e.2) := by
  have hindexed : indexed (es.map fun e => (e.1, f e.2)) =
      es.indexed.map fun a => (a.1, (a.2.1, f a.2.2)) := by
    unfold indexed
    rw [List.filterMap_map, List.map_filterMap]
    refine List.filterMap_congr fun e _ => ?_
    cases hkey : indexKey? e.1 <;> simp [hkey]
  have hnamed : named (es.map fun e => (e.1, f e.2)) = es.named.map fun e => (e.1, f e.2) :=
    List.filter_map ..
  have hsort := List.map_mergeSort (r := indexLe) (s := indexLe)
    (f := fun a : ℕ × (Text × ν) => (a.1, (a.2.1, f a.2.2))) (l := es.indexed) fun a _ b _ => rfl
  rw [listing_eq, listing_eq, hindexed, hnamed, ← hsort, List.map_append, List.map_map,
    List.map_map]
  rfl

/-- A permutation with the same keys in the same order, each once, moves nothing. -/
theorem eq_of_perm_of_keys {es fs : Entries Text ν} (hperm : es.Perm fs) (hkeys : es.keys = fs.keys)
    (hnodup : es.keys.Nodup) : es = fs := by
  induction es generalizing fs with
  | nil => exact (List.nil_perm.mp hperm).symm
  | cons e es ih =>
    cases fs with
    | nil => exact List.perm_nil.mp hperm
    | cons e' fs =>
      obtain ⟨hhead, htail⟩ := List.cons.inj hkeys
      obtain ⟨hnew, hnodup'⟩ := List.nodup_cons.mp hnodup
      -- The head of one list is no later entry of the other, which have other keys.
      have heq : e = e' := by
        rcases List.mem_cons.mp (hperm.mem_iff.mp List.mem_cons_self) with heq | hmem
        · exact heq
        · have hkey : e.1 ∈ Entries.keys fs := List.mem_map_of_mem hmem
          exact absurd (htail ▸ hkey) hnew
      subst heq
      rw [ih (List.perm_cons e |>.mp hperm) htail hnodup']

/-- Entries are listed if others with the same keys are. -/
theorem listing_of_keys {ν' : Type} {es : Entries Text ν} {fs : Entries Text ν'}
    (hkeys : es.keys = fs.keys) (hnodup : fs.keys.Nodup) (hfs : fs.listing = fs) :
    es.listing = es := by
  -- Without their values the two are the same entries.
  have hunits : (es.map fun e => (e.1, ())) = fs.map fun e => (e.1, ()) := by
    have hmap := congrArg (List.map fun key => (key, ())) hkeys
    unfold keys at hmap
    rwa [List.map_map, List.map_map] at hmap
  have hlisted : es.listing.map (fun e => (e.1, ())) = es.map fun e => (e.1, ()) := by
    rw [← listing_map (fun _ => ()), hunits, listing_map (fun _ => ()), hfs]
  have hkeys' : es.listing.keys = es.keys := by
    have hmap := congrArg (List.map Prod.fst) hlisted
    rw [List.map_map, List.map_map] at hmap
    exact hmap
  exact eq_of_perm_of_keys es.listing_perm hkeys' (by rw [hkeys', hkeys]; exact hnodup)

end Entries

end TypedReads
