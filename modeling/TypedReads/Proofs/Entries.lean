import Mathlib.Data.List.Forall2
import Mathlib.Data.List.Induction
import Mathlib.Data.List.Nodup
import TypedReads.Entries

/-!
# Entries without repeated keys

Writing pairs one after the other never repeats a key (`nodup_keys_ofPairs`), the last pair of a key
is the one that stays (`get?_putAll_last`), and pairs without repeated keys stay as they are
(`ofPairs_of_nodup`). Writing treats all values alike, so entries that correspond pairwise still do
after they were written (`forall₂_ofPairs`), and values may be mapped before or after (`ofPairs_map`).
-/

namespace TypedReads

namespace Entries

variable {κ ν : Type}

/-- The keys of two lists of entries follow one another. -/
theorem keys_append (es fs : Entries κ ν) : Entries.keys (es ++ fs) = es.keys ++ fs.keys :=
  List.map_append

/-- Entries that stand one by one for others have the keys made of these. -/
theorem keys_of_forall₂ {α : Type} {f : α → κ} {R : α → κ × ν → Prop} {as : List α}
    {es : Entries κ ν} (h : List.Forall₂ (fun a e => e.1 = f a ∧ R a e) as es) :
    es.keys = as.map f := by
  induction h with
  | nil => rfl
  | cons he _ ih => exact congrArg₂ List.cons he.1 ih

section Lookup

variable [DecidableEq κ]

/-- A value that is found stands under its key. -/
theorem mem_of_get? {es : Entries κ ν} {key : κ} {v : ν} (h : es.get? key = some v) :
    (key, v) ∈ es := by
  induction es with
  | nil => cases h
  | cons e rest ih =>
    obtain ⟨k, w⟩ := e
    unfold get? at h
    split_ifs at h with hk
    · cases h
      rw [hk]
      exact List.mem_cons_self
    · exact List.mem_cons_of_mem _ (ih h)

/-- What is no key has no value. -/
theorem get?_of_notMem {es : Entries κ ν} {key : κ} (h : key ∉ es.keys) : es.get? key = none :=
  Option.eq_none_iff_forall_ne_some.mpr fun _ hv => h (List.mem_map.mpr ⟨_, mem_of_get? hv, rfl⟩)

/-- Where no key is repeated, every entry is found by its key. -/
theorem get?_eq_some_iff {es : Entries κ ν} (hnodup : es.keys.Nodup) {key : κ} {v : ν} :
    es.get? key = some v ↔ (key, v) ∈ es := by
  refine ⟨mem_of_get?, fun h => ?_⟩
  induction es with
  | nil => cases h
  | cons e rest ih =>
    obtain ⟨k, w⟩ := e
    obtain ⟨hk, hrest⟩ := List.nodup_cons.mp hnodup
    unfold get?
    rcases List.mem_cons.mp h with heq | hmem
    · cases heq
      rw [if_pos rfl]
    · rw [if_neg, ih hrest hmem]
      rintro rfl
      exact hk (List.mem_map.mpr ⟨_, hmem, rfl⟩)

/-- Entries without repeated keys are the same if they have the same keys in order and the same value under
each. -/
theorem eq_of_get? {es fs : Entries κ ν} (hkeys : es.keys = fs.keys) (hnodup : es.keys.Nodup)
    (h : ∀ key, es.get? key = fs.get? key) : es = fs := by
  induction es generalizing fs with
  | nil => exact (List.map_eq_nil_iff.mp hkeys.symm).symm
  | cons e es ih =>
    cases fs with
    | nil => cases hkeys
    | cons d fs =>
      obtain ⟨k, v⟩ := e
      obtain ⟨k', v'⟩ := d
      obtain ⟨rfl, hrest⟩ := List.cons.inj hkeys
      obtain ⟨hnot, hnodup⟩ := List.nodup_cons.mp hnodup
      have hvalue := h k
      unfold get? at hvalue
      rw [if_pos rfl, if_pos rfl, Option.some.injEq] at hvalue
      have htail : es = fs := by
        refine ih hrest hnodup fun key => ?_
        by_cases hkey : k = key
        · -- Neither rest has the first key again.
          subst hkey
          have hnot' : k ∉ Entries.keys fs := fun hmem => hnot (hrest.symm ▸ hmem)
          rw [get?_of_notMem hnot, get?_of_notMem hnot']
        · have hlookup := h key
          unfold get? at hlookup
          rwa [if_neg hkey, if_neg hkey] at hlookup
      rw [hvalue, htail]

/-- A key that is present has a last entry. -/
theorem exists_last {es : Entries κ ν} {key : κ} (h : key ∈ es.keys) :
    ∃ before v after, es = before ++ (key, v) :: after ∧ key ∉ Entries.keys after := by
  induction es with
  | nil => exact absurd h List.not_mem_nil
  | cons e rest ih =>
    by_cases hrest : key ∈ Entries.keys rest
    · obtain ⟨before, v, after, rfl, hlast⟩ := ih hrest
      exact ⟨e :: before, v, after, rfl, hlast⟩
    · obtain ⟨k, v⟩ := e
      obtain rfl : key = k := (List.mem_cons.mp h).resolve_right hrest
      exact ⟨[], v, rest, rfl, hrest⟩

end Lookup

section Writing

variable [DecidableEq κ]

/-- Pairs are written from the first on. -/
theorem putAll_cons (es : Entries κ ν) (pair : κ × ν) (pairs : List (κ × ν)) :
    es.putAll (pair :: pairs) = (es.put pair.1 pair.2).putAll pairs := rfl

/-- Pairs may be written in two parts. -/
theorem putAll_append (es : Entries κ ν) (pairs more : List (κ × ν)) :
    es.putAll (pairs ++ more) = (es.putAll pairs).putAll more := List.foldl_append

/-- A key that is not written keeps its value. -/
theorem get?_putAll_of_notMem {es : Entries κ ν} {pairs : List (κ × ν)} {key : κ}
    (h : key ∉ Entries.keys pairs) : (es.putAll pairs).get? key = es.get? key := by
  induction pairs generalizing es with
  | nil => rfl
  | cons pair pairs ih =>
    obtain ⟨hne, hrest⟩ := List.ne_and_not_mem_of_not_mem_cons h
    rw [putAll_cons, ih hrest, get?_put, if_neg (Ne.symm hne)]

/-- The last value written under a key is the one found. -/
theorem get?_putAll_last (es : Entries κ ν) (before : List (κ × ν)) {key : κ} (v : ν)
    {after : List (κ × ν)} (h : key ∉ Entries.keys after) :
    (es.putAll (before ++ (key, v) :: after)).get? key = some v := by
  rw [putAll_append, putAll_cons, get?_putAll_of_notMem h, get?_put, if_pos rfl]

/-- Writing pairs appends the keys that are new, in the order of their first occurrence. -/
theorem keys_putAll [BEq κ] [LawfulBEq κ] (es : Entries κ ν) (pairs : List (κ × ν)) :
    (es.putAll pairs).keys =
      es.keys ++ (Entries.keys pairs).eraseDups.filter fun key => key ∉ es.keys := by
  induction pairs using List.reverseRecOn with
  | nil => exact (List.append_nil _).symm
  | append_singleton pairs pair ih =>
    have hput : es.putAll (pairs ++ [pair]) = (es.putAll pairs).put pair.1 pair.2 :=
      putAll_append es pairs [pair]
    have hkeys : Entries.keys (pairs ++ [pair]) = Entries.keys pairs ++ [pair.1] :=
      keys_append pairs [pair]
    rw [hput, keys_put, hkeys, List.eraseDups_append, List.filter_append, ih]
    -- A key that is there, or was written before, keeps its place.
    by_cases hold : pair.1 ∈ es.keys
    · simp [List.removeAll, hold]
    by_cases hmem : pair.1 ∈ Entries.keys pairs
    · simp [List.removeAll, hmem]
    · simp [List.removeAll, hmem, hold, List.eraseDups_cons]

/-- The keys of entries made of pairs are those of the pairs, each at its first place. -/
theorem keys_ofPairs_eq [BEq κ] [LawfulBEq κ] (pairs : List (κ × ν)) :
    (ofPairs pairs).keys = (Entries.keys pairs).eraseDups := by
  refine (keys_putAll [] pairs).trans ?_
  simp [keys]

/-- Writing repeats no key. -/
theorem nodup_keys_put {es : Entries κ ν} (h : es.keys.Nodup) (key : κ) (v : ν) :
    (es.put key v).keys.Nodup := by
  rw [keys_put]
  split_ifs with hmem
  · exact h
  · rw [List.nodup_append]
    refine ⟨h, List.nodup_singleton key, fun a ha b hb => ?_⟩
    rw [List.mem_singleton] at hb
    rintro rfl
    exact hmem (hb ▸ ha)

/-- Writing pairs repeats no key. -/
theorem nodup_keys_putAll {es : Entries κ ν} (h : es.keys.Nodup) (pairs : List (κ × ν)) :
    (es.putAll pairs).keys.Nodup := by
  induction pairs generalizing es with
  | nil => exact h
  | cons pair pairs ih => exact ih (nodup_keys_put h _ _)

/-- Entries made of pairs repeat no key. -/
theorem nodup_keys_ofPairs (pairs : List (κ × ν)) : (ofPairs pairs).keys.Nodup := by
  have hnil : (Entries.keys ([] : Entries κ ν)).Nodup := List.nodup_nil
  exact nodup_keys_putAll hnil pairs

/-- An entry after a write was there before, or is the one written. -/
theorem mem_put {es : Entries κ ν} {key : κ} {v : ν} {e : κ × ν} (h : e ∈ es.put key v) :
    e ∈ es ∨ e = (key, v) := by
  induction es with
  | nil => exact .inr (List.mem_singleton.mp h)
  | cons d rest ih =>
    obtain ⟨k, w⟩ := d
    unfold put at h
    split_ifs at h with hk
    · rcases List.mem_cons.mp h with rfl | hmem
      · exact .inr (hk ▸ rfl)
      · exact .inl (List.mem_cons_of_mem _ hmem)
    · rcases List.mem_cons.mp h with rfl | hmem
      · exact .inl List.mem_cons_self
      · exact (ih hmem).imp (List.mem_cons_of_mem _) id

/-- Entries that pairs leave are among the pairs. -/
theorem mem_of_mem_ofPairs {pairs : List (κ × ν)} {e : κ × ν} (h : e ∈ ofPairs pairs) :
    e ∈ pairs := by
  have hall : ∀ es : Entries κ ν, e ∈ es.putAll pairs → e ∈ es ∨ e ∈ pairs := by
    clear h
    induction pairs with
    | nil => exact fun es hes => .inl hes
    | cons pair pairs ih =>
      intro es hes
      rcases ih _ hes with hput | hmem
      · rcases mem_put hput with hold | hnew
        · exact .inl hold
        · exact .inr (hnew ▸ List.mem_cons_self)
      · exact .inr (List.mem_cons_of_mem _ hmem)
  exact (hall [] h).resolve_left List.not_mem_nil

/-- Removing a key repeats none. -/
theorem nodup_keys_erase {es : Entries κ ν} (h : es.keys.Nodup) (key : κ) :
    (es.erase key).keys.Nodup :=
  h.sublist (List.filter_sublist.map Prod.fst)

/-- A new key goes to the end. -/
theorem put_of_notMem {es : Entries κ ν} {key : κ} (h : key ∉ es.keys) (v : ν) :
    es.put key v = es ++ [(key, v)] := by
  induction es with
  | nil => rfl
  | cons e rest ih =>
    obtain ⟨k, w⟩ := e
    obtain ⟨hne, hrest⟩ := List.ne_and_not_mem_of_not_mem_cons h
    unfold put
    rw [if_neg (Ne.symm hne), ih hrest]
    rfl

/-- Pairs with new keys that are not repeated go to the end as they are. -/
theorem putAll_of_nodup {es : Entries κ ν} {pairs : List (κ × ν)}
    (h : (Entries.keys (es ++ pairs)).Nodup) : es.putAll pairs = es ++ pairs := by
  induction pairs generalizing es with
  | nil => simp [putAll]
  | cons pair pairs ih =>
    obtain ⟨key, v⟩ := pair
    have hnew : key ∉ es.keys := by
      intro hmem
      rw [keys_append, List.nodup_append] at h
      exact h.2.2 key hmem key List.mem_cons_self rfl
    rw [putAll_cons, put_of_notMem hnew, ih, List.append_assoc, List.singleton_append]
    rw [List.append_assoc, List.singleton_append]
    exact h

/-- Pairs without repeated keys stay as they are. -/
theorem ofPairs_of_nodup {pairs : List (κ × ν)} (h : (Entries.keys pairs).Nodup) :
    ofPairs pairs = pairs :=
  putAll_of_nodup h

end Writing

section Correspondence

variable {κ' ν' : Type} [DecidableEq κ] [DecidableEq κ']

/-- Entries correspond if their keys do, by an injection, and their values do, by a relation. -/
def Corresponds (f : κ → κ') (R : ν → ν' → Prop) (e : κ × ν) (e' : κ' × ν') : Prop :=
  e'.1 = f e.1 ∧ R e.2 e'.2

/-- Entries that correspond do so after a write to both, if the keys are told apart. -/
theorem forall₂_put {f : κ → κ'} (hf : Function.Injective f) {R : ν → ν' → Prop}
    {es : Entries κ ν} {es' : Entries κ' ν'} (h : List.Forall₂ (Corresponds f R) es es') (key : κ)
    {v : ν} {v' : ν'} (hv : R v v') :
    List.Forall₂ (Corresponds f R) (es.put key v) (es'.put (f key) v') := by
  induction h with
  | nil => exact .cons ⟨rfl, hv⟩ .nil
  | @cons e e' rest rest' he hrest ih =>
    obtain ⟨k, w⟩ := e
    obtain ⟨k', w'⟩ := e'
    obtain ⟨hk, hw⟩ := he
    dsimp only at hk hw
    subst hk
    unfold put
    by_cases heq : k = key
    · rw [if_pos heq, if_pos (congrArg f heq)]
      exact .cons ⟨rfl, hv⟩ hrest
    · rw [if_neg heq, if_neg fun hcon => heq (hf hcon)]
      exact .cons ⟨rfl, hw⟩ ih

/-- Pairs that correspond leave entries that correspond. -/
theorem forall₂_ofPairs {f : κ → κ'} (hf : Function.Injective f) {R : ν → ν' → Prop}
    {pairs : List (κ × ν)} {pairs' : List (κ' × ν')}
    (h : List.Forall₂ (Corresponds f R) pairs pairs') :
    List.Forall₂ (Corresponds f R) (ofPairs pairs) (ofPairs pairs') := by
  have hall : ∀ es es', List.Forall₂ (Corresponds f R) es es' →
      List.Forall₂ (Corresponds f R) (putAll es pairs) (putAll es' pairs') := by
    induction h with
    | nil => exact fun es es' hes => hes
    | @cons e e' rest rest' he hrest ih =>
      obtain ⟨k', w'⟩ := e'
      obtain ⟨hk, hw⟩ := he
      dsimp only at hk hw
      subst hk
      exact fun es es' hes => ih _ _ (forall₂_put hf hes _ hw)
  exact hall [] [] .nil

/-- Values may be mapped before pairs are written or after. -/
theorem ofPairs_map (f : ν → ν') (pairs : List (κ × ν)) :
    ofPairs (pairs.map fun e => (e.1, f e.2)) = (ofPairs pairs).map fun e => (e.1, f e.2) := by
  have hpairs : List.Forall₂ (Corresponds id fun v v' => v' = f v) pairs
      (pairs.map fun e => (e.1, f e.2)) :=
    List.forall₂_map_right_iff.mpr (List.forall₂_same.mpr fun e _ => ⟨rfl, rfl⟩)
  have hwritten : List.Forall₂ Eq ((ofPairs pairs).map fun e => (e.1, f e.2))
      (ofPairs (pairs.map fun e => (e.1, f e.2))) :=
    List.forall₂_map_left_iff.mpr
      ((forall₂_ofPairs Function.injective_id hpairs).imp fun e e' h => Prod.ext h.1.symm h.2.symm)
  rw [List.forall₂_eq_eq_eq] at hwritten
  exact hwritten.symm

/-- The values under corresponding keys correspond. -/
theorem get?_of_forall₂ {f : κ → κ'} (hf : Function.Injective f) {R : ν → ν' → Prop}
    {es : Entries κ ν} {es' : Entries κ' ν'} (h : List.Forall₂ (Corresponds f R) es es') (key : κ) :
    Option.Rel R (es.get? key) (es'.get? (f key)) := by
  induction h with
  | nil => exact .none
  | @cons e e' rest rest' he hrest ih =>
    obtain ⟨k, w⟩ := e
    obtain ⟨k', w'⟩ := e'
    obtain ⟨hk, hw⟩ := he
    dsimp only at hk hw
    subst hk
    unfold get?
    by_cases heq : k = key
    · rw [if_pos heq, if_pos (congrArg f heq)]
      exact .some hw
    · rw [if_neg heq, if_neg fun hcon => heq (hf hcon)]
      exact ih

end Correspondence

end Entries

end TypedReads
