import TypedReads.Proofs.Adapter.Hash
import TypedReads.Proofs.Entries

/-!
# Adapters that share a map

Every adapter on a map, and the map itself, change the same entries. `Edited` says what an edit does
to a list of entries by where the key stands in it, and `Step` which edits each operation stands
for: those of any adapter on the map, of the map itself, and the opening of further adapters. A run
of such steps leaves exactly the list that its edits leave, and every adapter shows that list
(`adapters_share_entries`).

The list has no key twice before and after each step, so that an edit has one outcome
(`edited_iff`). An adapter stays at its place, since only the entries of the map are replaced.
-/

namespace TypedReads

/-- A change of a list of entries. -/
inductive Edit where
  | write (key value : Value)
  | erase (key : Value)
  | clear

namespace Edit

/-- What a list of entries is after an edit. A key that is present keeps its place when it is
written, a new one goes to the end, and an erased one leaves no trace. -/
inductive Edited : Edit → Entries Value Value → Entries Value Value → Prop
  | replaced {before after : Entries Value Value} {key old value : Value} :
    Edited (.write key value) (before ++ (key, old) :: after) (before ++ (key, value) :: after)
  | appended {es : Entries Value Value} {key value : Value} (h : key ∉ es.keys) :
    Edited (.write key value) es (es ++ [(key, value)])
  | erased {before after : Entries Value Value} {key old : Value} :
    Edited (.erase key) (before ++ (key, old) :: after) (before ++ after)
  | absent {es : Entries Value Value} {key : Value} (h : key ∉ es.keys) :
    Edited (.erase key) es es
  | cleared {es : Entries Value Value} : Edited .clear es []

/-- What a list of entries is after some edits. -/
inductive Follows : List Edit → Entries Value Value → Entries Value Value → Prop
  | nil {es : Entries Value Value} : Follows [] es es
  | cons {edit : Edit} {edits : List Edit} {es es' es'' : Entries Value Value}
    (h : Edited edit es es') (hrest : Follows edits es' es'') : Follows (edit :: edits) es es''

/-- The outcome of an edit. -/
def apply : Edit → Entries Value Value → Entries Value Value
  | write key value, es => es.put key value
  | erase key, es => es.erase key
  | clear, _ => []

end Edit

namespace Entries

variable {κ ν : Type}

/-- A key that is not repeated stands nowhere else. -/
theorem notMem_keys_of_nodup {before after : Entries κ ν} {key : κ} {v : ν}
    (h : Entries.keys (before ++ (key, v) :: after) |>.Nodup) :
    key ∉ before.keys ∧ key ∉ after.keys := by
  rw [keys_append, List.nodup_append] at h
  obtain ⟨-, hafter, hdisjoint⟩ := h
  exact ⟨fun hmem => hdisjoint key hmem key List.mem_cons_self rfl,
    (List.nodup_cons.mp hafter).1⟩

variable [DecidableEq κ]

/-- A key that is present keeps its place. -/
theorem put_append_of_notMem {before : Entries κ ν} {key : κ} (h : key ∉ before.keys)
    (old : ν) (after : Entries κ ν) (value : ν) :
    Entries.put (before ++ (key, old) :: after) key value = before ++ (key, value) :: after := by
  induction before with
  | nil => simp [put]
  | cons e rest ih =>
    obtain ⟨k, w⟩ := e
    obtain ⟨hne, hrest⟩ := List.ne_and_not_mem_of_not_mem_cons h
    simp [put, Ne.symm hne, ih hrest]

/-- A key that is absent need not be erased. -/
theorem erase_of_notMem {es : Entries κ ν} {key : κ} (h : key ∉ es.keys) : es.erase key = es := by
  refine List.filter_eq_self.mpr fun e he => decide_eq_true ?_
  rintro rfl
  exact h (List.mem_map.mpr ⟨e, he, rfl⟩)

/-- Where a key that is not repeated stands, nothing is left once it is erased. -/
theorem erase_append_of_nodup {before after : Entries κ ν} {key : κ} {v : ν}
    (h : Entries.keys (before ++ (key, v) :: after) |>.Nodup) :
    Entries.erase (before ++ (key, v) :: after) key = before ++ after := by
  obtain ⟨hbefore, hafter⟩ := notMem_keys_of_nodup h
  have hhead : Entries.erase ((key, v) :: after) key = after.erase key := by simp [erase]
  calc Entries.erase (before ++ (key, v) :: after) key
      = before.erase key ++ Entries.erase ((key, v) :: after) key := List.filter_append ..
    _ = before ++ after := by rw [hhead, erase_of_notMem hbefore, erase_of_notMem hafter]

/-- Writing what stands there already changes nothing. -/
theorem put_of_mem {es : Entries κ ν} (hnodup : es.keys.Nodup) {key : κ} {v : ν}
    (h : (key, v) ∈ es) : es.put key v = es := by
  obtain ⟨before, after, rfl⟩ := List.append_of_mem h
  exact put_append_of_notMem (notMem_keys_of_nodup hnodup).1 v after v

end Entries

namespace Edit

/-- Where no key is repeated, an edit has one outcome. -/
theorem edited_iff {edit : Edit} {es es' : Entries Value Value} (hnodup : es.keys.Nodup) :
    Edited edit es es' ↔ es' = edit.apply es := by
  constructor
  -- A key that is written or erased stands nowhere else in the list.
  · intro h
    cases h with
    | replaced =>
      exact (Entries.put_append_of_notMem (Entries.notMem_keys_of_nodup hnodup).1 _ _ _).symm
    | appended hkey => exact (Entries.put_of_notMem hkey _).symm
    | erased => exact (Entries.erase_append_of_nodup hnodup).symm
    | absent hkey => exact (Entries.erase_of_notMem hkey).symm
    | cleared => rfl
  · rintro rfl
    -- A key that is present splits the list at the place where it stands.
    have hsplit : ∀ key ∈ es.keys, ∃ before old after, es = before ++ (key, old) :: after := by
      intro key hkey
      obtain ⟨e, he, rfl⟩ := List.mem_map.mp hkey
      obtain ⟨before, after, heq⟩ := List.append_of_mem he
      exact ⟨before, e.2, after, heq⟩
    cases edit with
    | write key value =>
      by_cases hkey : key ∈ es.keys
      · obtain ⟨before, old, after, rfl⟩ := hsplit key hkey
        change Edited _ _ (Entries.put _ _ _)
        rw [Entries.put_append_of_notMem (Entries.notMem_keys_of_nodup hnodup).1]
        exact .replaced
      · change Edited _ _ (Entries.put _ _ _)
        rw [Entries.put_of_notMem hkey]
        exact .appended hkey
    | erase key =>
      by_cases hkey : key ∈ es.keys
      · obtain ⟨before, old, after, rfl⟩ := hsplit key hkey
        change Edited _ _ (Entries.erase _ _)
        rw [Entries.erase_append_of_nodup hnodup]
        exact .erased
      · change Edited _ _ (Entries.erase _ _)
        rw [Entries.erase_of_notMem hkey]
        exact .absent hkey
    | clear => exact .cleared

/-- An edit repeats no key. -/
theorem nodup_apply (edit : Edit) {es : Entries Value Value} (h : es.keys.Nodup) :
    (edit.apply es).keys.Nodup := by
  cases edit with
  | write key value => exact Entries.nodup_keys_put h key value
  | erase key => exact Entries.nodup_keys_erase h key
  | clear => exact List.nodup_nil

/-- The outcome of some edits. -/
def applyAll (edits : List Edit) (es : Entries Value Value) : Entries Value Value :=
  edits.foldl (fun es edit => edit.apply es) es

/-- Edits may be made in two parts. -/
theorem applyAll_append (edits more : List Edit) (es : Entries Value Value) :
    applyAll (edits ++ more) es = applyAll more (applyAll edits es) := List.foldl_append

/-- Edits repeat no key. -/
theorem nodup_applyAll (edits : List Edit) {es : Entries Value Value} (h : es.keys.Nodup) :
    (applyAll edits es).keys.Nodup := by
  induction edits generalizing es with
  | nil => exact h
  | cons edit edits ih => exact ih (edit.nodup_apply h)

/-- Where no key is repeated, edits have one outcome. -/
theorem follows_iff {edits : List Edit} {es es' : Entries Value Value} (hnodup : es.keys.Nodup) :
    Follows edits es es' ↔ es' = applyAll edits es := by
  induction edits generalizing es with
  | nil =>
    constructor
    · rintro ⟨⟩
      rfl
    · rintro rfl
      exact .nil
  | cons edit edits ih =>
    have hnext := edit.nodup_apply hnodup
    constructor
    · rintro (_ | ⟨h, hrest⟩)
      rw [edited_iff hnodup] at h
      subst h
      exact (ih hnext).mp hrest
    · exact fun h => .cons ((edited_iff hnodup).mpr rfl) ((ih hnext).mpr h)

/-- The edits that pairs stand for. -/
def writes (pairs : Entries Value Value) : List Edit := pairs.map fun e => .write e.1 e.2

end Edit

namespace Store

/-- One operation on the map at `m`, and the edits that it stands for: an operation of an adapter on
the map, one of the map itself, the opening of an adapter, or the making of some other object. -/
inductive Step (m : Ref) : Store → List Edit → Store → Prop
  | put {s : Store} {r : Ref} {mode : Narrowing} (h : s.adapter? r = some ⟨m, mode⟩)
    (key : Text) (value : Value) :
    Step m s [.write (.text key) value] (Adapter.put ⟨m, mode⟩ s key value).2
  | putValue {s : Store} {r : Ref} {mode : Narrowing} (h : s.adapter? r = some ⟨m, mode⟩)
    (key : Text) (value : Value) :
    Step m s [.write (.text key) value] (Adapter.write ⟨m, mode⟩ s (.text key) value)
  | putAll {s : Store} {r : Ref} {mode : Narrowing} (h : s.adapter? r = some ⟨m, mode⟩)
    (pairs : List (Text × Value)) :
    Step m s (Edit.writes (pairs.map fun e => (.text e.1, e.2)))
      (Adapter.putAll ⟨m, mode⟩ s pairs)
  | copyAll {s : Store} {r : Ref} {mode : Narrowing} (h : s.adapter? r = some ⟨m, mode⟩)
    (source : Ref) :
    Step m s (Edit.writes (s.entriesAt source)) (Adapter.copyAll ⟨m, mode⟩ s source)
  | remove {s : Store} {r : Ref} {mode : Narrowing} (h : s.adapter? r = some ⟨m, mode⟩)
    (key : Text) :
    Step m s [.erase (.text key)] (Adapter.remove ⟨m, mode⟩ s key).2
  | clear {s : Store} {r : Ref} {mode : Narrowing} (h : s.adapter? r = some ⟨m, mode⟩) :
    Step m s [.clear] (Adapter.clear ⟨m, mode⟩ s)
  | setKey {s : Store} (key value : Value) :
    Step m s [.write key.asKey value] (s.setKey m key value)
  | deleteKey {s : Store} (key : Value) : Step m s [.erase key.asKey] (s.deleteKey m key).2
  | clearMap {s : Store} : Step m s [.clear] (s.clearMap m)
  | wrap {s s' : Store} {container : Value} {mode : Narrowing} {r : Ref}
    (h : s.wrap container mode = .ok (r, s')) : Step m s [] s'
  | alloc {s : Store} (o : Object) : Step m s [] (s.alloc o).2

/-- Operations on the map at `m` one after the other, and the edits that they stand for. -/
inductive Run (m : Ref) : Store → List Edit → Store → Prop
  | refl {s : Store} : Run m s [] s
  | step {s s' s'' : Store} {edits more : List Edit} (hrun : Run m s edits s')
    (hstep : Step m s' more s'') : Run m s (edits ++ more) s''

/-- A store where the map at `m` has the entries, and where the adapters of another still stand. -/
structure Holds (s s' : Store) (m : Ref) (es : Entries Value Value) : Prop where
  map : s'.get? m = some (.map es)
  adapters : ∀ r a, s.adapter? r = some a → s'.adapter? r = some a

variable {s s' s'' : Store} {m : Ref} {es fs : Entries Value Value}

/-- What stands at a place as an adapter is the adapter there. -/
theorem adapter?_of_get? {r : Ref} {a : Adapter} (h : s.get? r = some (.adapter a)) :
    s.adapter? r = some a := by
  unfold adapter?
  rw [h]

/-- A map that is held from one store to the next and on is held throughout. -/
theorem Holds.trans (h : s.Holds s' m es) (h' : s'.Holds s'' m fs) : s.Holds s'' m fs :=
  ⟨h'.map, fun r a hr => h'.adapters r a (h.adapters r a hr)⟩

/-- A map holds its own entries. -/
theorem Holds.refl (h : s.get? m = some (.map es)) : s.Holds s m es := ⟨h, fun _ _ hr => hr⟩

/-- No adapter is lost when the entries of a map are replaced. -/
theorem holds_setEntries (h : s.get? m = some (.map es)) (fs : Entries Value Value) :
    s.Holds (s.setEntries m fs) m fs := by
  refine ⟨get?_setEntries_self h fs, fun r a hr => ?_⟩
  have hr := get?_of_adapter? hr
  have hne : m ≠ r := by
    rintro rfl
    rw [h] at hr
    cases hr
  apply adapter?_of_get?
  unfold setEntries Store.set get? at *
  rwa [Array.getElem?_setIfInBounds_ne hne]

/-- A larger store holds what the store did. -/
theorem holds_of_extends (h : s.get? m = some (.map es)) (hext : s.Extends s') :
    s.Holds s' m es :=
  ⟨hext _ _ h, fun _ _ hr => adapter?_of_get? (hext _ _ (get?_of_adapter? hr))⟩

variable {mode : Narrowing}

/-- Entries that stand there already may be written again. -/
theorem setEntries_of_get? (h : s.get? m = some (.map es)) : s.setEntries m es = s := by
  have hobjects : s.objects.setIfInBounds m (.map es) = s.objects := by
    refine Array.ext_getElem? fun i => ?_
    rw [Array.getElem?_setIfInBounds]
    split_ifs with hi hlt
    · rw [← hi]
      exact h.symm
    · rw [← hi]
      exact (Array.getElem?_eq_none (not_lt.mp hlt)).symm
    · rfl
  unfold setEntries Store.set
  rw [hobjects]

/-- Of two changes of a map the later one stays. -/
theorem setEntries_setEntries (s : Store) (m : Ref) (es fs : Entries Value Value) :
    (s.setEntries m es).setEntries m fs = s.setEntries m fs := by
  unfold setEntries Store.set
  rw [Array.setIfInBounds_setIfInBounds]

/-- Writing through an adapter writes to its map. -/
theorem write_eq (mode : Narrowing) (h : s.get? m = some (.map es)) (key value : Value) :
    Adapter.write ⟨m, mode⟩ s key value = s.setEntries m (es.put key value) := by
  change s.setEntries m ((s.entriesAt m).put key value) = _
  rw [entriesAt_of_get? h]

/-- Writing through an adapter keeps the map and every adapter. -/
theorem holds_write (mode : Narrowing) (h : s.get? m = some (.map es)) (key value : Value) :
    s.Holds (Adapter.write ⟨m, mode⟩ s key value) m (es.put key value) := by
  rw [write_eq mode h]
  exact holds_setEntries h (es.put key value)

/-- Pairs are written into the map, and nothing else is changed. -/
theorem putAll_eq (mode : Narrowing) (h : s.get? m = some (.map es)) (pairs : List (Text × Value)) :
    Adapter.putAll ⟨m, mode⟩ s pairs =
      s.setEntries m (es.putAll (pairs.map fun e => (.text e.1, e.2))) := by
  induction pairs generalizing s es with
  | nil => exact (setEntries_of_get? h).symm
  | cons pair pairs ih =>
    have hrest := ih (holds_write mode h (.text pair.1) pair.2).map
    rw [write_eq mode h] at hrest
    rw [Adapter.putAll, List.foldl_cons, write_eq mode h]
    exact hrest.trans (setEntries_setEntries s m _ _)

/-- The entries of a map that are still to be copied are those it has now: a write changes no other
map, and nothing in the map itself, since what is written stands there already. -/
theorem entriesAt_write (h : s.get? m = some (.map es)) (hnodup : es.keys.Nodup) {source : Ref}
    {key value : Value} (hmem : (key, value) ∈ s.entriesAt source) :
    (Adapter.write ⟨m, mode⟩ s key value).entriesAt source = s.entriesAt source := by
  by_cases hsource : m = source
  · subst hsource
    have hwrite := holds_write mode h key value
    rw [entriesAt_of_get? h] at hmem
    rw [entriesAt_of_get? hwrite.map, entriesAt_of_get? h, Entries.put_of_mem hnodup hmem]
  · unfold entriesAt Adapter.write setEntries Store.set get?
    dsimp only
    rw [Array.getElem?_setIfInBounds_ne hsource]

/-- What is copied is what the source has at the start, be it the map itself. -/
theorem copyFrom_eq (mode : Narrowing) (h : s.get? m = some (.map es)) (hnodup : es.keys.Nodup)
    (source : Ref) (i : Nat) :
    Adapter.copyFrom ⟨m, mode⟩ s source i =
      s.setEntries m (es.putAll ((s.entriesAt source).drop i)) := by
  fun_induction Adapter.copyFrom ⟨m, mode⟩ s source i generalizing es with
  | case1 s i hnone =>
    rw [List.drop_eq_nil_of_le (List.getElem?_eq_none_iff.mp hnone)]
    exact (setEntries_of_get? h).symm
  | case2 s i key value hsome _ _ ih =>
    obtain ⟨hlt, hget⟩ := List.getElem?_eq_some_iff.mp hsome
    have hrest := ih (holds_write mode h key value).map (Entries.nodup_keys_put hnodup key value)
    rw [entriesAt_write h hnodup (List.mem_of_getElem? hsome), write_eq mode h,
      setEntries_setEntries] at hrest
    rw [List.drop_eq_getElem_cons hlt, hget, write_eq mode h]
    exact hrest

/-- Writes of entries are the entries put one after the other. -/
theorem applyAll_writes (es pairs : Entries Value Value) :
    Edit.applyAll (Edit.writes pairs) es = es.putAll pairs := by
  unfold Edit.applyAll Edit.writes Entries.putAll
  rw [List.foldl_map]
  rfl

/-- An operation leaves in the map what its edits leave. -/
theorem Step.holds {edits : List Edit} (hstep : Step m s edits s')
    (h : s.get? m = some (.map es)) (hnodup : es.keys.Nodup) :
    s.Holds s' m (Edit.applyAll edits es) := by
  have hes := entriesAt_of_get? h
  cases hstep with
  | put _ key value | putValue _ key value => exact holds_write _ h (.text key) value
  | putAll _ pairs =>
    rw [applyAll_writes, putAll_eq _ h]
    exact holds_setEntries h _
  | copyAll _ source =>
    rw [applyAll_writes, Adapter.copyAll, copyFrom_eq _ h hnodup]
    exact holds_setEntries h _
  | remove _ key => exact hes ▸ holds_setEntries h ((s.entriesAt m).erase (.text key))
  | setKey key value => exact hes ▸ holds_setEntries h ((s.entriesAt m).put key.asKey value)
  | deleteKey key => exact hes ▸ holds_setEntries h ((s.entriesAt m).erase key.asKey)
  | clear _ | clearMap => exact holds_setEntries h []
  | alloc o => exact holds_of_extends h (s.extends_alloc o)
  | wrap hwrap =>
    unfold Store.wrap at hwrap
    split at hwrap
    · -- An adapter is returned as it is, and on a map a new one is made.
      split at hwrap
      · cases hwrap
        exact .refl h
      · cases hwrap
        exact holds_of_extends h (s.extends_alloc _)
    · cases hwrap

/-- After a run the map has the entries that its edits leave, and every adapter is where it was. -/
theorem Run.holds {edits : List Edit} (hrun : Run m s edits s') (h : s.get? m = some (.map es))
    (hnodup : es.keys.Nodup) : s.Holds s' m (Edit.applyAll edits es) := by
  induction hrun with
  | refl => exact .refl h
  | step hrun hstep ih =>
    rw [Edit.applyAll_append]
    exact ih.trans (hstep.holds ih.map (Edit.nodup_applyAll _ hnodup))

end Store

namespace Adapter

/-- An adapter shows a list of entries: it lists them and their keys and values, iterates over them, calls
back for each of them in order, counts them, finds a key that has a value other than null and undefined,
and returns what it finds before it writes or removes. -/
structure Shows (a : Adapter) (s : Store) (es : Entries Value Value) : Prop where
  entries : a.entries s = es
  keys : a.keys s = es.map Prod.fst
  values : a.values s = es.map Prod.snd
  iterate : a.iterate s = es
  forEach : ∀ (m : Type → Type) [Monad m] (callback : Value → Value → m PUnit),
    a.forEach s callback = es.forM fun e => callback e.2 e.1
  size : a.size s = es.length
  isEmpty : a.isEmpty s = true ↔ es = []
  containsKey : ∀ key, a.containsKey s key = true ↔ ∃ v, (.text key, v) ∈ es
  get : ∀ key v, a.get? s key = some v ↔ (.text key, v) ∈ es ∧ v ≠ .null ∧ v ≠ .undefined
  put : ∀ key v, (a.put s key v).1 = a.get? s key
  remove : ∀ key, (a.remove s key).1 = a.get? s key

/-- All values but null and undefined are present. -/
theorem isNullish_eq_false_iff {v : Value} :
    v.isNullish = false ↔ v ≠ .null ∧ v ≠ .undefined := by
  cases v <;> simp [Value.isNullish]

/-- An adapter shows the entries of its map, in which no key is repeated. -/
theorem shows_of_entriesAt {a : Adapter} {s : Store} {es : Entries Value Value}
    (h : s.entriesAt a.backing = es) (hnodup : es.keys.Nodup) : a.Shows s es := by
  subst h
  have hfound : ∀ key v, (s.entriesAt a.backing).get? key = some v ↔
      (key, v) ∈ s.entriesAt a.backing := fun key v => Entries.get?_eq_some_iff hnodup
  constructor
  case entries | keys | values | size => rfl
  case iterate => exact a.iterate_eq_entries s
  case forEach => exact fun _ _ callback => a.forEach_eq_forM s callback
  case isEmpty => exact List.isEmpty_iff
  case containsKey =>
    intro key
    unfold Adapter.containsKey Entries.contains
    rw [Option.isSome_iff_exists]
    exact exists_congr fun v => hfound (.text key) v
  case get =>
    intro key v
    unfold Adapter.get? Adapter.lookup Adapter.entries
    simp only [Option.filter_eq_some_iff, hfound, Bool.not_eq_true', isNullish_eq_false_iff]
  case put => exact fun _ _ => rfl
  case remove => exact fun _ => rfl

end Adapter

/-- After any operations on a map that repeats no key, by any adapters on it and on the map itself,
the map has exactly the entries that the edits leave, and every adapter on it shows them. An adapter
is never lost or replaced, and wrapping it gives it back, whatever the mode asked for; wrapping the
map gives another adapter of that mode. -/
theorem adapters_share_entries {s s' : Store} {m : Ref} {es : Entries Value Value}
    {edits : List Edit} (h : s.get? m = some (.map es)) (hnodup : es.keys.Nodup)
    (hrun : s.Run m edits s') :
    ∃ es', (∀ fs, Edit.Follows edits es fs ↔ fs = es') ∧ es'.keys.Nodup ∧
      s'.get? m = some (.map es') ∧
      (∀ r a, s'.adapter? r = some a → a.backing = m → a.Shows s' es') ∧
      (∀ r a, s.adapter? r = some a → s'.adapter? r = some a) ∧
      (∀ r a mode, s'.adapter? r = some a → s'.wrap (.object r) mode = .ok (r, s')) ∧
      ∀ mode, ∃ r t, s'.wrap (.object m) mode = .ok (r, t) ∧ s'.get? r = none ∧
        t.adapter? r = some ⟨m, mode⟩ ∧ t.get? m = some (.map es') := by
  -- The run leaves the adapters where they were, and in the map what its edits leave.
  have hnodup' := Edit.nodup_applyAll edits hnodup
  obtain ⟨hmap, hadapters⟩ := hrun.holds h hnodup
  refine ⟨Edit.applyAll edits es, fun fs => Edit.follows_iff hnodup, hnodup', hmap, ?_, hadapters,
    ?_, fun mode => ?_⟩
  · rintro r a - rfl
    exact Adapter.shows_of_entriesAt (Store.entriesAt_of_get? hmap) hnodup'
  · intro r a mode ha
    unfold Store.wrap
    dsimp only
    rw [ha]
  · -- The map is no adapter, so that a new one is made.
    have hnone : s'.adapter? m = none := by
      unfold Store.adapter?
      rw [hmap]
    have hwrap : s'.wrap (.object m) mode = .ok (s'.alloc (.adapter ⟨m, mode⟩)) := by
      unfold Store.wrap
      dsimp only
      rw [hnone]
    exact ⟨_, _, hwrap, Array.getElem?_size, Store.adapter?_of_get? (s'.get?_alloc _),
      s'.extends_alloc _ _ _ hmap⟩

/-- A map with two keys, the second of which reads as absent. -/
def basket : Store :=
  ⟨#[.map [(.text (units "a"), .integer 1), (.text (units "b"), .null)]], 0⟩

/-- Two adapters on the map, of which the first writes the second key; the map then loses its first
key, and the second adapter writes it anew, with a value that reads as absent. -/
theorem basket_shared :
    ∃ s', basket.Run 0 [.write (.text (units "b")) (.bool true), .erase (.text (units "a")),
        .write (.text (units "a")) .undefined] s' ∧
      s'.adapter? 1 = some ⟨0, .strict⟩ ∧ s'.adapter? 2 = some ⟨0, .truncate⟩ ∧
      (Adapter.mk 0 .strict).Shows s'
        [(.text (units "b"), .bool true), (.text (units "a"), .undefined)] ∧
      (Adapter.mk 0 .truncate).Shows s'
        [(.text (units "b"), .bool true), (.text (units "a"), .undefined)] ∧
      s'.wrap (.object 1) .truncate = .ok (1, s') := by
  have hfirst := Store.Run.refl.step
    (.wrap (m := 0) (show basket.wrap (.object 0) .strict = .ok (1, _) from rfl))
  have hsecond := hfirst.step
    (.wrap (show Store.wrap _ (.object 0) .truncate = .ok (2, _) from rfl))
  have hput := hsecond.step (.put (r := 1) rfl (units "b") (.bool true))
  have hdelete := hput.step (.deleteKey (.text (units "a")))
  have hlast := hdelete.step (.putValue (r := 2) rfl (units "a") .undefined)
  obtain ⟨es', hedits, -, -, hshows, -, hwrap, -⟩ :=
    adapters_share_entries (s := basket) rfl (by decide) hlast
  have hleft : [(.text (units "b"), .bool true), (.text (units "a"), .undefined)] = es' :=
    (hedits _).mp ((Edit.follows_iff (by decide)).mpr rfl)
  subst hleft
  exact ⟨_, hlast, rfl, rfl, hshows 1 _ rfl rfl, hshows 2 _ rfl rfl, hwrap 1 _ .truncate rfl⟩

end TypedReads
