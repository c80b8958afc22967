import TypedReads.Proofs.Value.Content

/-!
# Hashes of acyclic values

On acyclic values the guard of the hash never fires either: the hash unfolds to that of what an
object holds (`Store.hash_object`) and always has an answer (`Store.hash_total`). The hash of entries
is a sum, so it depends neither on their order nor on which of several equal values stands under a
key; that is why related values have the same hash (`Store.Related.hash_eq`).
-/

namespace TypedReads

namespace Store

variable {s : Store}

section Congruence

variable {f g : Value → Except Fault UInt32}

/-- The hash of items depends on the hash of each. -/
theorem itemsHash_congr {vs : List Value} (h : ∀ v ∈ vs, f v = g v) (start : UInt32) :
    itemsHash f start vs = itemsHash g start vs := by
  induction vs generalizing start with
  | nil => rfl
  | cons v vs ih =>
    unfold itemsHash
    rw [h v List.mem_cons_self]
    simp only [ih fun v hv => h v (List.mem_cons_of_mem _ hv)]

/-- The sum of entries depends on the hashes of keys and values. -/
theorem entriesSum_congr {es : List (Value × Value)}
    (h : ∀ e ∈ es, f e.1 = g e.1 ∧ f e.2 = g e.2) : entriesSum f es = entriesSum g es := by
  induction es with
  | nil => rfl
  | cons e es ih =>
    obtain ⟨hkey, hvalue⟩ := h e List.mem_cons_self
    unfold entriesSum
    rw [hkey, hvalue, ih fun e he => h e (List.mem_cons_of_mem _ he)]

/-- The hash of an object depends on the hashes of its parts alone. -/
theorem objectHash_congr {o : Object} (h : ∀ v ∈ s.parts o, f v = g v) (r : Ref) :
    s.objectHash f r o = s.objectHash g r o := by
  have hentries : ∀ es, s.contents o = .entries es → ∀ name,
      entriesHash f name es = entriesHash g name es := by
    intro es hes name
    unfold entriesHash
    rw [entriesSum_congr fun e he =>
      ⟨h _ (mem_parts_of_entries hes he).1, h _ (mem_parts_of_entries hes he).2⟩]
  unfold objectHash
  cases o with
  | map es => exact hentries es rfl _
  | adapter a => exact hentries _ rfl _
  | record bare members => exact hentries _ rfl _
  | array items =>
    dsimp only
    rw [itemsHash_congr fun v hv => h v (mem_parts_of_items rfl hv)]
  | _ => rfl

end Congruence

section Guard

/-- The hash of an object below a guard that does not have it. -/
theorem hashWithin_object {guard : List Ref} {r : Ref} {o : Object} (hr : s.get? r = some o)
    (hnot : r ∉ guard) :
    s.hashWithin guard (.object r) = s.objectHash (s.hashWithin (r :: guard)) r o := by
  rw [hashWithin.eq_def]
  dsimp only
  split
  · rename_i hnone
    rw [hr] at hnone
    cases hnone
  · rename_i o' ho
    rw [hr] at ho
    cases ho
    rw [dif_neg hnot]

/-- The hash of a value that stands for no object looks at no guard. -/
theorem hashWithin_leaf {v : Value} (h : ∀ r o, v = .object r → s.get? r ≠ some o)
    (guard : List Ref) : s.hashWithin guard v = s.hash v := by
  unfold hash
  rw [hashWithin.eq_def, hashWithin.eq_def s []]
  split
  · rename_i r
    split
    · rfl
    · rename_i o ho
      exact absurd ho (h r o rfl)
  · rfl

/-- What is no object has the hash of its text or its number. -/
theorem hash_of_primitive {v : Value} (h : ∀ r, v ≠ .object r) : s.hash v = .ok (leafHash v) := by
  unfold hash
  rw [hashWithin.eq_def]
  split
  · rename_i r
    exact absurd rfl (h r)
  · rfl

/-- A guard apart from an acyclic value does not change its hash. -/
theorem hashWithin_eq {v : Value} (hv : s.Acyclic v) {guard : List Ref} (h : s.Apart guard v) :
    s.hashWithin guard v = s.hash v := by
  -- The guard grows on the way inside, so the induction is over all of them.
  refine hv.induction (P := fun v => ∀ guard, s.Apart guard v → s.hashWithin guard v = s.hash v)
    ?_ guard h
  intro v hacyclic ih guard h
  by_cases hobject : ∃ r o, v = .object r ∧ s.get? r = some o
  · obtain ⟨r, o, rfl, hr⟩ := hobject
    unfold hash
    rw [hashWithin_object hr h.not_mem, hashWithin_object hr List.not_mem_nil]
    refine objectHash_congr (fun part hpart => ?_) r
    have hp := Part.of_get? hr hpart
    rw [ih part hp (r :: guard) (h.cons_part hacyclic hp),
      ih part hp [r] ((apart_nil _).cons_part hacyclic hp)]
  · exact hashWithin_leaf (fun r o hv ho => hobject ⟨r, o, hv, ho⟩) guard

/-- An acyclic object has the hash of what it holds. -/
theorem hash_object {r : Ref} (hv : s.Acyclic (.object r)) {o : Object} (hr : s.get? r = some o) :
    s.hash (.object r) = s.objectHash s.hash r o := by
  unfold hash
  rw [hashWithin_object hr List.not_mem_nil]
  refine objectHash_congr (fun part hpart => ?_) r
  have hp := Part.of_get? hr hpart
  exact hashWithin_eq (hv.of_part hp) ((apart_nil _).cons_part hv hp)

end Guard

section Totality

variable {f : Value → Except Fault UInt32}

/-- The sum over entries, once the hashes of keys and values are known. -/
def sumOf (h : Value → UInt32) (es : List (Value × Value)) : UInt32 :=
  es.foldr (fun e sum => (h e.1 ^^^ h e.2) + sum) 0

/-- Where keys and values have hashes, the sum is the sum of the mixed ones. -/
theorem entriesSum_eq {h : Value → UInt32} {es : List (Value × Value)}
    (hes : ∀ e ∈ es, f e.1 = .ok (h e.1) ∧ f e.2 = .ok (h e.2)) :
    entriesSum f es = .ok (sumOf h es) := by
  induction es with
  | nil => rfl
  | cons e es ih =>
    obtain ⟨hkey, hvalue⟩ := hes e List.mem_cons_self
    unfold entriesSum
    rw [hkey, hvalue, ih fun e he => hes e (List.mem_cons_of_mem _ he)]
    rfl

/-- Items have a hash if each has one. -/
theorem itemsHash_total {vs : List Value} (h : ∀ v ∈ vs, ∃ n, f v = .ok n) (start : UInt32) :
    ∃ n, itemsHash f start vs = .ok n := by
  induction vs generalizing start with
  | nil => exact ⟨start, rfl⟩
  | cons v vs ih =>
    obtain ⟨n, hn⟩ := h v List.mem_cons_self
    obtain ⟨m, hm⟩ := ih (fun v hv => h v (List.mem_cons_of_mem _ hv)) (combineHash start n)
    refine ⟨m, ?_⟩
    unfold itemsHash
    rw [hn]
    exact hm

/-- An object has a hash if its parts have one. -/
theorem objectHash_total {o : Object} (h : ∀ v ∈ s.parts o, ∃ n, f v = .ok n) (r : Ref) :
    ∃ n, s.objectHash f r o = .ok n := by
  -- The hash of entries adds up those of keys and values, all of which are parts.
  have hentries : ∀ es, s.contents o = .entries es → ∀ name,
      ∃ n, entriesHash f name es = .ok n := by
    intro es hes name
    have hsum : entriesSum f es = .ok (sumOf (fun v => (f v).toOption.getD 0) es) := by
      refine entriesSum_eq fun e he => ?_
      obtain ⟨k, hk⟩ := h _ (mem_parts_of_entries hes he).1
      obtain ⟨n, hn⟩ := h _ (mem_parts_of_entries hes he).2
      rw [hk, hn]
      exact ⟨rfl, rfl⟩
    unfold entriesHash
    rw [hsum]
    exact ⟨_, rfl⟩
  unfold objectHash
  cases o with
  | map es => exact hentries es rfl _
  | adapter a => exact hentries _ rfl _
  | record bare members => exact hentries _ rfl _
  | array items =>
    obtain ⟨n, hn⟩ := itemsHash_total (fun v hv => h v (mem_parts_of_items rfl hv))
      (units "array").hash
    dsimp only
    rw [hn]
    exact ⟨_, rfl⟩
  | _ => exact ⟨_, rfl⟩

/-- An acyclic value has a hash. -/
theorem hash_total {v : Value} (hv : s.Acyclic v) : ∃ n, s.hash v = .ok n := by
  refine hv.induction (P := fun v => ∃ n, s.hash v = .ok n) fun v hacyclic ih => ?_
  by_cases hobject : ∃ r o, v = .object r ∧ s.get? r = some o
  · obtain ⟨r, o, rfl, hr⟩ := hobject
    rw [hash_object hacyclic hr]
    exact objectHash_total (fun part hpart => ih part (Part.of_get? hr hpart)) r
  · unfold hash
    rw [hashWithin.eq_def]
    split
    · rename_i r
      split
      · exact ⟨_, rfl⟩
      · rename_i o ho
        exact absurd ⟨r, o, rfl, ho⟩ hobject
    · exact ⟨_, rfl⟩

end Totality

section Entries

/-- The sum over entries does not depend on their order. -/
theorem sumOf_perm (h : Value → UInt32) {es fs : List (Value × Value)} (hperm : es.Perm fs) :
    sumOf h es = sumOf h fs := by
  refine hperm.foldr_eq' (fun a _ b _ sum => ?_) 0
  rw [← UInt32.add_assoc, ← UInt32.add_assoc, UInt32.add_comm (h a.1 ^^^ h a.2)]

/-- The sum over entries looks at their hashes alone. -/
theorem sumOf_congr {ι : Type} (h : Value → UInt32) {is : List ι} {p q : ι → Value × Value}
    (heq : ∀ i ∈ is, h (p i).1 = h (q i).1 ∧ h (p i).2 = h (q i).2) :
    sumOf h (is.map p) = sumOf h (is.map q) := by
  unfold sumOf
  induction is with
  | nil => rfl
  | cons i is ih =>
    obtain ⟨hkey, hvalue⟩ := heq i List.mem_cons_self
    simp only [List.map_cons, List.foldr_cons]
    rw [ih fun j hj => heq j (List.mem_cons_of_mem _ hj), hkey, hvalue]

end Entries

section Agreement

/-- The hash of a value that has one. -/
def hashOf (s : Store) (v : Value) : UInt32 := (s.hash v).toOption.getD 0

/-- An acyclic value has a hash. -/
theorem hash_eq_ok {v : Value} (hv : s.Acyclic v) : s.hash v = .ok (s.hashOf v) := by
  obtain ⟨n, hn⟩ := hash_total hv
  unfold hashOf
  rw [hn]
  rfl

/-- The hash of entries of acyclic values. -/
theorem entriesHash_eq {r : Ref} {o : Object} {es : List (Value × Value)}
    (hv : s.Acyclic (.object r)) (hr : s.get? r = some o) (hes : s.contents o = .entries es)
    (name : String) :
    entriesHash s.hash name es =
      .ok (optimizeHash (combineHash (units name).hash (sumOf s.hashOf es))) := by
  have hsum : entriesSum s.hash es = .ok (sumOf s.hashOf es) := by
    refine entriesSum_eq fun e he => ?_
    obtain ⟨hkey, hvalue⟩ := mem_parts_of_entries hes he
    exact ⟨hash_eq_ok (hv.of_part (.of_get? hr hkey)),
      hash_eq_ok (hv.of_part (.of_get? hr hvalue))⟩
  unfold entriesHash
  rw [hsum]
  rfl

/-- A map or an adapter has the hash of the entries behind it. -/
theorem objectHash_of_mapEntries {f : Value → Except Fault UInt32} {x : Object}
    {es : Entries Value Value} (hes : s.mapEntries? x = some es) (r : Ref) :
    s.objectHash f r x = entriesHash f "map" es ∧ s.contents x = .entries es := by
  cases x with
  | map entries =>
    cases hes
    exact ⟨rfl, rfl⟩
  | adapter a =>
    cases hes
    exact ⟨rfl, rfl⟩
  | _ => cases hes

/-- Entries in another order have the same sum, if the values under each key have the same hash. -/
theorem Reordered.sumOf_eq {h : Value → UInt32} {es fs : Entries Value Value}
    (hes : Reordered (fun v w => h v = h w) es fs) : sumOf h es = sumOf h fs := by
  have hlength : es.length = fs.length := by
    simpa [Entries.keys] using hes.keys.length_eq
  have hfound : ∀ e ∈ es, ∃ w, fs.get? e.1 = some w := by
    intro e he
    obtain ⟨f, hf, hkey⟩ := (SameKeys.of_perm hes.keys).1 e he
    exact ⟨f.2, (Entries.get?_eq_some_iff (hes.keys.nodup_iff.mp hes.nodup)).mpr (hkey ▸ hf)⟩
  have hperm := matched_perm hes.nodup hlength hfound
  -- Exchanging the values changes no hash, and the order does not matter.
  have hswap : sumOf h (es.map id) = sumOf h (es.map (matched fs)) :=
    sumOf_congr h fun e he => ⟨rfl, hes.values e he _ (hperm.mem_iff.mp (List.mem_map_of_mem he)) rfl⟩
  rw [List.map_id] at hswap
  rw [hswap, sumOf_perm h hperm]

/-- Items with the same hashes fold to the same hash. -/
theorem itemsHash_of_forall₂ {f : Value → Except Fault UInt32} {vs ws : List Value}
    (h : List.Forall₂ (fun v w => f v = f w) vs ws) (start : UInt32) :
    itemsHash f start vs = itemsHash f start ws := by
  induction h generalizing start with
  | nil => rfl
  | cons h _ ih =>
    unfold itemsHash
    rw [h]
    simp only [ih]

/-- An object with a hash of its own has that one. -/
theorem objectHash_of_ownHash? {f : Value → Except Fault UInt32} {x : Object} {n : UInt32}
    (h : x.ownHash? = some n) (r : Ref) : s.objectHash f r x = .ok n := by
  have hown : (.ok (x.ownHash?.getD (optimizeHash r.toUInt32)) : Except Fault UInt32) = .ok n := by
    rw [h]
    rfl
  cases x <;> first | exact hown | cases h

/-- Objects that are alike have the same hash, if related parts of them have. -/
theorem Alike.objectHash_eq {a b : Ref} {x y : Object} (hs : s.WellFormed) (hz : s.NormalKeys)
    (hv : s.Acyclic (.object a)) (hw : s.Acyclic (.object b)) (ha : s.get? a = some x)
    (hb : s.get? b = some y) (h : s.Alike (fun v w => s.hash v = s.hash w) x y a b) :
    s.objectHash s.hash a x = s.objectHash s.hash b y := by
  have hhashOf {v w : Value} (h : s.hash v = s.hash w) : s.hashOf v = s.hashOf w := by
    unfold hashOf
    rw [h]
  cases h with
  | maps hes hfs hkeys hvalues =>
    -- Maps and adapters, in any mixture, hash as the entries behind them.
    obtain ⟨hhash, hcontents⟩ := objectHash_of_mapEntries (f := s.hash) hes a
    obtain ⟨hhash', hcontents'⟩ := objectHash_of_mapEntries (f := s.hash) hfs b
    have hsum := (hz.reordered ha hb hes hfs hs hkeys fun e he f hf hkey =>
      hhashOf (hvalues e he f hf hkey)).sumOf_eq
    rw [hhash, hhash', entriesHash_eq hv ha hcontents, entriesHash_eq hw hb hcontents', hsum]
  | own h =>
    -- A protocol takes for equal only what it gives one hash, and that hash is the object's.
    obtain ⟨n, hx, hy⟩ := h.ownHash?_eq
    rw [objectHash_of_ownHash? hx, objectHash_of_ownHash? hy]
  | arrays h =>
    -- Arrays combine their items in order, so related items suffice.
    unfold objectHash
    dsimp only
    rw [itemsHash_of_forall₂ h]
  | records hkeys hvalues =>
    -- Records add up their members whatever the order, from the seed of objects.
    have hsum := (reordered_of_members (hs a _ ha) (hs b _ hb) hkeys fun e he f hf hkey =>
      hhashOf (hvalues e he f hf hkey)).sumOf_eq
    exact (entriesHash_eq hv ha rfl "object").trans
      (hsum ▸ (entriesHash_eq hw hb rfl "object").symm)

/-- Related acyclic values have the same hash. -/
theorem Related.hash_eq (hs : s.WellFormed) (hz : s.NormalKeys) {v w : Value} (hv : s.Acyclic v)
    (hw : s.Acyclic w) (h : s.Related v w) : s.hash v = s.hash w := by
  -- By induction on what is within the first value, for every other value.
  refine hv.induction (P := fun v => ∀ w, s.Acyclic w → s.Related v w → s.hash v = s.hash w) ?_ w hw h
  intro v hv ih w hw h
  cases h with
  | same => rfl
  | objects ha hb h =>
    rw [hash_object hv ha, hash_object hw hb]
    have hparts := h.imp fun part hpart other hother =>
      ih part (.of_get? ha hpart) other (hw.of_part (.of_get? hb hother))
    exact hparts.objectHash_eq hs hz hv hw ha hb

end Agreement

end Store

end TypedReads
