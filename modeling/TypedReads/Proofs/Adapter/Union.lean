import TypedReads.Proofs.Adapter.Sharing

/-!
# Joining entries to a map

Writing all entries of a source through an adapter is a union of ordered maps, in which the source wins:
`Entries.Joined` says where each key stands afterwards and what it holds, and there are no two such unions
(`Entries.Joined.eq_putAll`). A source is a list, in which keys may be repeated, or what is behind a map or
another adapter, be it the very map that is written.

A map is copied by a loop that looks at the source anew at every step (`Adapter.CopyRun`). The loop ends,
since what it writes adds no entry to its own source: `copyFrom_eq` has the invariant, by which the entries
still to come are those of the source at the start.
-/

namespace TypedReads

namespace Entries

variable {κ ν : Type} [DecidableEq κ]

/-- Entries after others were joined to them. Each key of the others holds the value of its last entry
there, and every other key what it held. The keys that were there keep their places, and the new ones follow
in the order of their first occurrence. -/
structure Joined (es pairs es' : Entries κ ν) : Prop where
  last : ∀ before key v after, pairs = before ++ (key, v) :: after → key ∉ Entries.keys after →
    es'.get? key = some v
  kept : ∀ key, key ∉ pairs.keys → es'.get? key = es.get? key
  keys : es'.keys = es.keys ++ pairs.keys.eraseDups.filter fun key => key ∉ es.keys

variable {es pairs es' : Entries κ ν}

/-- Putting pairs joins them to the entries. -/
theorem joined_putAll (es pairs : Entries κ ν) : es.Joined pairs (es.putAll pairs) where
  last before key v after hsplit hlast := by
    subst hsplit
    exact get?_putAll_last es before v hlast
  kept _ hkey := get?_putAll_of_notMem hkey
  keys := keys_putAll es pairs

/-- There is one way to join entries. -/
theorem Joined.eq_putAll (h : es.Joined pairs es') (hnodup : es.keys.Nodup) :
    es' = es.putAll pairs := by
  have hjoined := joined_putAll es pairs
  have hkeys := h.keys.trans hjoined.keys.symm
  refine eq_of_get? hkeys (hkeys ▸ nodup_keys_putAll hnodup pairs) fun key => ?_
  by_cases hkey : key ∈ pairs.keys
  · obtain ⟨before, v, after, hsplit, hlast⟩ := exists_last hkey
    rw [h.last before key v after hsplit hlast, hjoined.last before key v after hsplit hlast]
  · rw [h.kept key hkey, hjoined.kept key hkey]

/-- Entries that hold the last values already are left as they are. -/
theorem putAll_eq_self (hnodup : es.keys.Nodup)
    (h : ∀ before key v after, pairs = before ++ (key, v) :: after → key ∉ Entries.keys after →
      es.get? key = some v) : es.putAll pairs = es := by
  have hkeys : ∀ key ∈ pairs.keys, key ∈ es.keys := by
    intro key hkey
    obtain ⟨before, v, after, hsplit, hlast⟩ := exists_last hkey
    exact List.mem_map.mpr ⟨_, mem_of_get? (h before key v after hsplit hlast), rfl⟩
  have hnone : pairs.keys.eraseDups.filter (fun key => key ∉ es.keys) = [] := by
    refine List.filter_eq_nil_iff.mpr fun key hkey => ?_
    simpa using hkeys key (List.mem_eraseDups.mp hkey)
  have hjoined : es.Joined pairs es := ⟨h, fun _ _ => rfl, by rw [hnone, List.append_nil]⟩
  exact (hjoined.eq_putAll hnodup).symm

/-- Joining the same entries again changes nothing. -/
theorem putAll_putAll (hnodup : es.keys.Nodup) (pairs : Entries κ ν) :
    (es.putAll pairs).putAll pairs = es.putAll pairs :=
  putAll_eq_self (nodup_keys_putAll hnodup pairs) (joined_putAll es pairs).last

/-- Joining entries to themselves changes nothing. -/
theorem putAll_self (hnodup : es.keys.Nodup) : es.putAll es = es := by
  refine putAll_eq_self hnodup fun before key v after hsplit _ => (get?_eq_some_iff hnodup).mpr ?_
  rw [hsplit]
  exact List.mem_append_right before List.mem_cons_self

end Entries

namespace Adapter

/-- The loop that writes the entries of the map at `source` through an adapter, from an index on. At each
step it takes the entry that stands at the index then, and it ends where there is none. -/
inductive CopyRun (a : Adapter) (source : Ref) : ℕ → Store → Store → Prop
  | done {i : ℕ} {s : Store} (h : (s.entriesAt source)[i]? = none) : CopyRun a source i s s
  | next {i : ℕ} {s s' : Store} {key value : Value}
    (h : (s.entriesAt source)[i]? = some (key, value))
    (hrest : CopyRun a source (i + 1) (a.write s key value) s') : CopyRun a source i s s'

variable {a : Adapter} {s s' : Store} {source : Ref} {i : ℕ}

/-- The loop ends, and in one way. -/
theorem copyRun_iff : a.CopyRun source i s s' ↔ s' = a.copyFrom s source i := by
  constructor
  · intro hrun
    -- Both look up the same entry, which is there for both or for neither.
    induction hrun with
    | done h =>
      rw [copyFrom]
      split
      · rfl
      · rename_i hsome
        rw [h] at hsome
        cases hsome
    | next h hrest ih =>
      rw [copyFrom]
      split
      · rename_i hnone
        rw [h] at hnone
        cases hnone
      · rename_i hsome
        rw [h] at hsome
        cases hsome
        exact ih
  · rintro rfl
    fun_induction copyFrom a s source i with
    | case1 s i hnone => exact .done hnone
    | case2 s i key value hsome _ _ ih => exact .next hsome ih

/-- A store after entries were joined to the map of an adapter, and nothing else was changed. -/
structure Joins (a : Adapter) (s : Store) (pairs : Entries Value Value) (s' : Store) : Prop where
  entries : (a.entries s).Joined pairs (a.entries s')
  others : s' = s.setEntries a.backing (a.entries s')

/-- Where a map is changed, what is behind a value stays. -/
theorem backingOf?_setEntries {es : Entries Value Value} (h : s.get? a.backing = some (.map es))
    (fs : Entries Value Value) {v : Value} (hv : backingOf? s v = some source) :
    backingOf? (s.setEntries a.backing fs) v = some source := by
  unfold backingOf? at hv ⊢
  cases v with
  | object r =>
    dsimp only at hv ⊢
    by_cases hr : a.backing = r
    · subst hr
      rw [h] at hv
      rw [Store.get?_setEntries_self h fs]
      exact hv
    · have hget : (s.setEntries a.backing fs).get? r = s.get? r := Array.getElem?_setIfInBounds_ne hr
      rwa [hget]
  | _ => cases hv

section Joining

variable {es : Entries Value Value} (h : s.get? a.backing = some (.map es))
include h

/-- Replacing the entries by the joined ones joins the pairs to the map. -/
theorem joins_setEntries (pairs : Entries Value Value) :
    a.Joins s pairs (s.setEntries a.backing (es.putAll pairs)) := by
  have hentries : a.entries s = es := Store.entriesAt_of_get? h
  have hjoined : a.entries (s.setEntries a.backing (es.putAll pairs)) = es.putAll pairs :=
    Store.entriesAt_of_get? (Store.get?_setEntries_self h _)
  constructor
  · rw [hentries, hjoined]
    exact Entries.joined_putAll es pairs
  · rw [hjoined]

/-- Writing pairs through an adapter puts them into its entries. -/
theorem putAll_eq (pairs : List (Text × Value)) :
    a.putAll s pairs =
      s.setEntries a.backing (es.putAll (pairs.map fun e => (.text e.1, e.2))) :=
  Store.putAll_eq a.narrowing h pairs

variable (hnodup : es.keys.Nodup)
include hnodup

/-- Copying from a map, be it the very one, puts its entries as they were. -/
theorem copyAll_eq (source : Ref) :
    a.copyAll s source = s.setEntries a.backing (es.putAll (s.entriesAt source)) :=
  Store.copyFrom_eq a.narrowing h hnodup source 0

/-- Pairs that were written are not changed by writing them again. -/
theorem putAll_again (pairs : List (Text × Value)) :
    a.putAll (a.putAll s pairs) pairs = a.putAll s pairs := by
  rw [putAll_eq h, putAll_eq (Store.get?_setEntries_self h _), Store.setEntries_setEntries,
    Entries.putAll_putAll hnodup]

/-- A map that is copied into itself stays as it is. -/
theorem copyAll_self : a.copyAll s a.backing = s := by
  rw [copyAll_eq h hnodup, Store.entriesAt_of_get? h, Entries.putAll_self hnodup]
  exact Store.setEntries_of_get? h

/-- The source of a copy stays as it is. -/
theorem entriesAt_copyAll (source : Ref) : (a.copyAll s source).entriesAt source = s.entriesAt source := by
  by_cases hsource : a.backing = source
  · subst hsource
    rw [copyAll_self h hnodup]
  · have hget : (s.setEntries a.backing (es.putAll (s.entriesAt source))).get? source = s.get? source :=
      Array.getElem?_setIfInBounds_ne hsource
    unfold Store.entriesAt
    rw [copyAll_eq h hnodup, hget]

/-- A map that was copied is not changed by copying it again. -/
theorem copyAll_again (source : Ref) : a.copyAll (a.copyAll s source) source = a.copyAll s source := by
  -- The second copy writes onto the joined entries, from a source that the first did not change.
  have hcopied := Store.get?_setEntries_self h (es.putAll (s.entriesAt source))
  rw [← copyAll_eq h hnodup] at hcopied
  have hnodup' := Entries.nodup_keys_putAll hnodup (s.entriesAt source)
  rw [copyAll_eq hcopied hnodup', entriesAt_copyAll h hnodup, Entries.putAll_putAll hnodup,
    copyAll_eq h hnodup, Store.setEntries_setEntries]

end Joining

end Adapter

/-- Writing all entries of a source through an adapter joins them to its map and changes nothing else, and
writing them again changes nothing at all. The source is a list, in which keys may be repeated, or what is
behind a map or an adapter. The loop over the latter ends, and it ends in one way, also where it writes into
its own source; that leaves the store as it was. -/
theorem put_all_joins_entries {s : Store} (hs : s.WellFormed) {r : Ref} {a : Adapter}
    (ha : s.adapter? r = some a) :
    (∀ pairs : List (Text × Value),
      a.Joins s (pairs.map fun e => (.text e.1, e.2)) (a.putAll s pairs) ∧
      a.putAll (a.putAll s pairs) pairs = a.putAll s pairs) ∧
    ∀ v source, Adapter.backingOf? s v = some source →
      (∀ s', a.CopyRun source 0 s s' ↔ s' = a.copyAll s source) ∧
      a.Joins s (s.entriesAt source) (a.copyAll s source) ∧
      Adapter.backingOf? (a.copyAll s source) v = some source ∧
      a.copyAll (a.copyAll s source) source = a.copyAll s source ∧
      (source = a.backing → a.copyAll s source = s) := by
  obtain ⟨es, hes⟩ := hs r _ (Store.get?_of_adapter? ha)
  have hnodup : es.keys.Nodup := hs a.backing _ hes
  constructor
  -- Either way the map gets the entries that writing the pairs one by one leaves.
  · intro pairs
    refine ⟨?_, Adapter.putAll_again hes hnodup pairs⟩
    rw [Adapter.putAll_eq hes]
    exact Adapter.joins_setEntries hes _
  · intro v source hv
    have hcopy := Adapter.copyAll_eq hes hnodup source
    refine ⟨fun s' => Adapter.copyRun_iff, ?_, ?_, Adapter.copyAll_again hes hnodup source, ?_⟩
    · rw [hcopy]
      exact Adapter.joins_setEntries hes _
    · rw [hcopy]
      exact Adapter.backingOf?_setEntries hes _ hv
    · rintro rfl
      exact Adapter.copyAll_self hes hnodup

/-- A map with two adapters on it. -/
def sharedMap : Store :=
  ⟨#[.map [(.text (units "a"), .bool true), (.text (units "b"), .null)], .adapter ⟨0, .strict⟩,
    .adapter ⟨0, .truncate⟩], 0⟩

/-- Pairs with a repeated key that is new and with one that is there, and the other adapter as a source. -/
theorem sharedMap_joined :
    sharedMap.WellFormed ∧ sharedMap.adapter? 1 = some ⟨0, .strict⟩ ∧
    (Adapter.mk 0 .strict).entries ((Adapter.mk 0 .strict).putAll sharedMap
        [(units "c", .null), (units "a", .bool false), (units "c", .bool true)]) =
      [(.text (units "a"), .bool false), (.text (units "b"), .null), (.text (units "c"), .bool true)] ∧
    Adapter.backingOf? sharedMap (.object 2) = some 0 ∧
    (Adapter.mk 0 .strict).copyAll sharedMap 0 = sharedMap := by
  have hwell : sharedMap.WellFormed := by decide
  obtain ⟨hpairs, hcontainers⟩ := put_all_joins_entries hwell (show sharedMap.adapter? 1 = _ from rfl)
  obtain ⟨⟨hentries, -⟩, -⟩ :=
    hpairs [(units "c", .null), (units "a", .bool false), (units "c", .bool true)]
  obtain ⟨-, -, -, -, hself⟩ := hcontainers (.object 2) 0 rfl
  exact ⟨hwell, rfl, (hentries.eq_putAll (by decide)).trans (by decide), rfl, hself rfl⟩

end TypedReads
