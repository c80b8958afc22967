import TypedReads.Proofs.Number.Double
import TypedReads.Proofs.Value.Equality
import TypedReads.Proofs.Value.WellFormed

/-!
# Objects with the same contents

`Store.Alike` says what counts as the same contents of two objects, for any relation between the values
they hold: maps and adapters with the same keys, arrays of the same items, records with the same members,
in whatever order. Objects with an equality of their own are left to it (`Object.OwnEqual`).

That one level is symmetric and transitive wherever the relation between the parts is. Seen by what they
hold, objects that are alike have related items or related entries in some order (`Store.Alike.contents`).
-/

namespace TypedReads

namespace Double

/-- The two zeros have the same hash. -/
theorem hash_zero :
    (finite true ⟨0, BinaryFormat.double_ranks_pos⟩).hash =
      (finite false ⟨0, BinaryFormat.double_ranks_pos⟩).hash := by
  decide +kernel

/-- Numerically equal numbers have the same hash. -/
theorem hash_of_eqv {x y : Double} (h : x.eqv y = true) : x.hash = y.hash := by
  rcases eq_or_zeros_of_eqv h with rfl | ⟨p, q, ⟨a, ha⟩, ⟨b, hb⟩, rfl, rfl, rfl, rfl⟩
  · rfl
  · cases p <;> cases q
    · rfl
    · exact hash_zero.symm
    · exact hash_zero
    · rfl

end Double

namespace Value

/-- Two values are one key of a map: they are identical, or the two zeros. -/
def SameKey (v w : Value) : Prop := v.asKey = w.asKey

/-- Keys are compared as maps take them. -/
instance : DecidableRel SameKey := fun v w => inferInstanceAs (Decidable (v.asKey = w.asKey))

/-- Being one key is an equivalence. -/
theorem sameKey_equivalence : Equivalence SameKey := ⟨fun _ => rfl, Eq.symm, Eq.trans⟩

end Value

namespace Object

/-- Boxes of one class: the same kind and numerically equal numbers, or the same character. -/
inductive SameBox : Object → Object → Prop
  | number (kind : NumericKind) {x y : Double} (h : x.eqv y = true) :
      SameBox (.numberBox kind x) (.numberBox kind y)
  | char (t : Text) : SameBox (.charBox t) (.charBox t)

/-- Boxes are the same from either side. -/
theorem SameBox.symm {x y : Object} (h : x.SameBox y) : y.SameBox x := by
  cases h with
  | number kind h =>
    obtain ⟨n, hx, hy⟩ := Double.eqv_iff.mp h
    exact .number kind (Double.eqv_iff.mpr ⟨n, hy, hx⟩)
  | char t => exact .char t

/-- Boxes that are the same as one are the same. -/
theorem SameBox.trans {x y z : Object} (h : x.SameBox y) (h' : y.SameBox z) : x.SameBox z := by
  cases h with
  | number kind h =>
    cases h' with
    | number _ h' =>
      obtain ⟨n, hx, hy⟩ := Double.eqv_iff.mp h
      obtain ⟨m, hy', hz⟩ := Double.eqv_iff.mp h'
      rw [hy] at hy'
      exact .number kind (Double.eqv_iff.mpr ⟨n, hx, hy' ▸ hz⟩)
  | char t => exact h'

/-- A comparison of boxes finds out whether they are the same. -/
theorem boxEquals_iff {x y : Object} : x.boxEquals y = true ↔ x.SameBox y := by
  constructor
  · intro h
    unfold boxEquals at h
    split at h
    · rw [Bool.and_eq_true, decide_eq_true_iff] at h
      obtain ⟨rfl, heqv⟩ := h
      exact .number _ heqv
    · rw [decide_eq_true_iff] at h
      exact h ▸ .char _
    · cases h
  · rintro (⟨kind, h⟩ | t)
    · simp [boxEquals, h]
    · simp [boxEquals]

/-- Whether an object is one of another class. -/
def isForeign : Object → Bool
  | .foreign .. => true
  | _ => false

/-- Objects that are equal by an equality of their own: boxes of one class, and a foreign object with
what has its hash and is taken for its equal, by itself or, if a box is compared with it, by the box. -/
inductive OwnEqual : Ref → Ref → Object → Object → Prop
  | boxes {a b : Ref} {x y : Object} (h : x.SameBox y) : OwnEqual a b x y
  | foreign {a b : Ref} {className : Text} {manner : Manner} {p : Protocol} {y : Object}
      (hp : manner.protocol = some p) (hhash : y.ownHash? = some p.hash) (h : p.accepts b = true) :
      OwnEqual a b (.foreign className manner) y
  | box {a b : Ref} {x : Object} {className : Text} {manner : Manner} {p : Protocol}
      (hx : ∀ className manner, x ≠ .foreign className manner) (hp : manner.protocol = some p)
      (hhash : x.ownHash? = some p.hash) (h : p.acceptedBy a = true) :
      OwnEqual a b x (.foreign className manner)

/-- Boxes of one class have the same hash. -/
theorem SameBox.ownHash?_eq {x y : Object} (h : x.SameBox y) :
    ∃ n, x.ownHash? = some n ∧ y.ownHash? = some n := by
  cases h with
  | number kind h => exact ⟨_, rfl, by unfold ownHash?; rw [Double.hash_of_eqv h]⟩
  | char t => exact ⟨_, rfl, rfl⟩

/-- Objects that are equal by an equality of their own have one hash, which is their own too. -/
theorem OwnEqual.ownHash?_eq {a b : Ref} {x y : Object} (h : OwnEqual a b x y) :
    ∃ n, x.ownHash? = some n ∧ y.ownHash? = some n := by
  cases h with
  | boxes h => exact h.ownHash?_eq
  | foreign hp hhash h => exact ⟨_, congrArg (Option.map Protocol.hash) hp, hhash⟩
  | box hx hp hhash h => exact ⟨_, hhash, congrArg (Option.map Protocol.hash) hp⟩

/-- Objects that are equal by an equality of their own are neither maps nor adapters. -/
theorem OwnEqual.mapEntries?_eq {a b : Ref} {x y : Object} (h : OwnEqual a b x y) (s : Store) :
    s.mapEntries? x = none ∧ s.mapEntries? y = none := by
  have hnone {x : Object} {n : UInt32} (h : x.ownHash? = some n) : s.mapEntries? x = none := by
    cases x <;> first | rfl | cases h
  obtain ⟨n, hx, hy⟩ := h.ownHash?_eq
  exact ⟨hnone hx, hnone hy⟩

/-- The equality of their own finds out whether two objects are equal by it. -/
theorem ownEquals_iff {a b : Ref} {x y : Object} :
    Object.ownEquals a b x y = true ↔ OwnEqual a b x y := by
  have hprotocol {manner : Manner} {test : Protocol → Bool} :
      manner.protocol.any test = true ↔ ∃ p, manner.protocol = some p ∧ test p = true := by
    cases manner.protocol <;> simp
  constructor
  -- The test of the left object decides, else that of the right one, else both are boxes.
  · intro h
    unfold ownEquals at h
    split at h
    · obtain ⟨p, hp, htest⟩ := hprotocol.mp h
      rw [Bool.and_eq_true, decide_eq_true_iff] at htest
      exact .foreign hp htest.1 htest.2
    · rename_i hx
      obtain ⟨p, hp, htest⟩ := hprotocol.mp h
      rw [Bool.and_eq_true, decide_eq_true_iff] at htest
      exact .box (fun className manner => hx className manner) hp htest.1 htest.2
    · exact .boxes (boxEquals_iff.mp h)
  · intro h
    cases h with
    | boxes h =>
      have hequal := boxEquals_iff.mpr h
      cases h <;> exact hequal
    | foreign hp hhash h =>
      exact hprotocol.mpr ⟨_, hp, Bool.and_eq_true_iff.mpr ⟨decide_eq_true hhash, h⟩⟩
    | @box _ _ manner _ hx hp hhash h =>
      have hanswer : (manner.protocol.any fun p => x.ownHash? = some p.hash && p.acceptedBy a) =
          true := hprotocol.mpr ⟨_, hp, Bool.and_eq_true_iff.mpr ⟨decide_eq_true hhash, h⟩⟩
      cases x <;> first | exact hanswer | exact absurd rfl (hx _ _)

end Object

namespace Store

/-- Entries with the same keys, in whatever order. -/
def SameKeys {κ : Type} (same : κ → κ → Prop) (es fs : Entries κ Value) : Prop :=
  (∀ e ∈ es, ∃ f ∈ fs, same e.1 f.1) ∧ ∀ f ∈ fs, ∃ e ∈ es, same e.1 f.1

/-- Objects with the same contents, as far as `R` tells values apart, and their places. A map and an
adapter are compared by the entries behind them, a bare record like any other, and arrays by what
reading them gives. Objects with an equality of their own are left to it. -/
inductive Alike (s : Store) (R : Value → Value → Prop) : Object → Object → Ref → Ref → Prop
  | maps {a b : Ref} {x y : Object} {es fs : Entries Value Value}
      (hes : s.mapEntries? x = some es) (hfs : s.mapEntries? y = some fs)
      (hkeys : SameKeys Value.SameKey es fs)
      (hvalues : ∀ e ∈ es, ∀ f ∈ fs, Value.SameKey e.1 f.1 → R e.2 f.2) : Alike s R x y a b
  | own {a b : Ref} {x y : Object} (h : Object.OwnEqual a b x y) : Alike s R x y a b
  | arrays {a b : Ref} {slots others : List (Option Value)}
      (h : List.Forall₂ R (slotItems slots) (slotItems others)) :
      Alike s R (.array slots) (.array others) a b
  | records {a b : Ref} {bare bare' : Bool} {es fs : Entries Text Value}
      (hkeys : SameKeys (· = ·) es fs) (hvalues : ∀ e ∈ es, ∀ f ∈ fs, e.1 = f.1 → R e.2 f.2) :
      Alike s R (.record bare es) (.record bare' fs) a b

/-- No map has negative zero among its keys. -/
def NormalKeys (s : Store) : Prop :=
  ∀ r es, s.get? r = some (.map es) → ∀ e ∈ es, Value.asKey e.1 = e.1

variable {s : Store}

/-- The keys behind a map or an adapter are not negative zero. -/
theorem NormalKeys.asKey_eq (hz : s.NormalKeys) {r : Ref} {x : Object} (hr : s.get? r = some x)
    {es : Entries Value Value} (hes : s.mapEntries? x = some es) :
    ∀ e ∈ es, Value.asKey e.1 = e.1 := by
  cases x with
  | map entries =>
    cases hes
    exact hz r _ hr
  | adapter a =>
    cases hes
    unfold entriesAt
    split
    · rename_i es hbacking
      exact hz _ _ hbacking
    · exact fun e he => absurd he List.not_mem_nil
  | _ => cases hes

/-- It is enough to look at the maps of a store. -/
theorem normalKeys_iff :
    (∀ i : Fin s.objects.size, ∀ e ∈ s.entriesAt i.val, Value.asKey e.1 = e.1) ↔ s.NormalKeys := by
  constructor
  · intro h r es hr e he
    exact h ⟨r, lt_size_of_get? hr⟩ e (by rwa [entriesAt_of_get? hr])
  · intro h i e he
    unfold entriesAt at he
    split at he
    · rename_i es hr
      exact h _ es hr e he
    · cases he

/-- It is enough to look at the maps of a store. -/
instance : Decidable s.NormalKeys := decidable_of_iff _ normalKeys_iff

section Equivalence

variable {κ : Type} {same : κ → κ → Prop} {R R' : Value → Value → Prop}

/-- Entries have the same keys from either side. -/
theorem SameKeys.symm (hsame : Equivalence same) {es fs : Entries κ Value}
    (h : SameKeys same es fs) : SameKeys same fs es := by
  obtain ⟨hleft, hright⟩ := h
  constructor
  · intro f hf
    obtain ⟨e, he, hkey⟩ := hright f hf
    exact ⟨e, he, hsame.symm hkey⟩
  · intro e he
    obtain ⟨f, hf, hkey⟩ := hleft e he
    exact ⟨f, hf, hsame.symm hkey⟩

/-- Entries with the same keys as others have the same as third ones do. -/
theorem SameKeys.trans (hsame : Equivalence same) {es fs gs : Entries κ Value}
    (h : SameKeys same es fs) (h' : SameKeys same fs gs) : SameKeys same es gs := by
  constructor
  · intro e he
    obtain ⟨f, hf, hkey⟩ := h.1 e he
    obtain ⟨g, hg, hkey'⟩ := h'.1 f hf
    exact ⟨g, hg, hsame.trans hkey hkey'⟩
  · intro g hg
    obtain ⟨f, hf, hkey'⟩ := h'.2 g hg
    obtain ⟨e, he, hkey⟩ := h.2 f hf
    exact ⟨e, he, hsame.trans hkey hkey'⟩

/-- A key of both outer sides has an entry in the middle too, whose value is related to both. -/
theorem values_trans (hsame : Equivalence same) {es fs gs : Entries κ Value}
    (hkeys : SameKeys same es fs) (h : ∀ e ∈ es, ∀ f ∈ fs, same e.1 f.1 → R e.2 f.2)
    (h' : ∀ f ∈ fs, ∀ g ∈ gs, same f.1 g.1 → R f.2 g.2)
    (hR : ∀ e ∈ es, ∀ w u, R e.2 w → R w u → R' e.2 u) :
    ∀ e ∈ es, ∀ g ∈ gs, same e.1 g.1 → R' e.2 g.2 := by
  intro e he g hg hkey
  obtain ⟨f, hf, hef⟩ := hkeys.1 e he
  have hfg : same f.1 g.1 := hsame.trans (hsame.symm hef) hkey
  exact hR e he f.2 g.2 (h e he f hf hef) (h' f hf g hg hfg)

/-- Items correspond by a weaker relation, if it is weaker on them. -/
theorem forall₂_imp_mem {α β : Type} {R R' : α → β → Prop} {as : List α} {bs : List β}
    (h : List.Forall₂ R as bs) (hR : ∀ a ∈ as, ∀ b ∈ bs, R a b → R' a b) : List.Forall₂ R' as bs := by
  induction h with
  | nil => exact .nil
  | cons hab _ ih =>
    refine .cons (hR _ List.mem_cons_self _ List.mem_cons_self hab) (ih fun a ha b hb => ?_)
    exact hR a (List.mem_cons_of_mem _ ha) b (List.mem_cons_of_mem _ hb)

/-- Objects are alike by a weaker relation, if it is weaker on their parts. -/
theorem Alike.imp {a b : Ref} {x y : Object} (h : s.Alike R x y a b)
    (hR : ∀ v ∈ s.parts x, ∀ w ∈ s.parts y, R v w → R' v w) : s.Alike R' x y a b := by
  cases h with
  | maps hes hfs hkeys hvalues =>
    refine .maps hes hfs hkeys fun e he f hf hkey => ?_
    exact hR _ (mem_parts_of_mapEntries hes e he) _ (mem_parts_of_mapEntries hfs f hf)
      (hvalues e he f hf hkey)
  | own h => exact .own h
  | arrays h =>
    exact .arrays (forall₂_imp_mem h fun v hv w hw =>
      hR v (mem_parts_of_items rfl hv) w (mem_parts_of_items rfl hw))
  | records hkeys hvalues =>
    refine .records hkeys fun e he f hf hkey => ?_
    exact hR _ (mem_parts_of_members e he) _ (mem_parts_of_members f hf) (hvalues e he f hf hkey)

/-- Items related to others, which are related to third ones, are related to these. -/
theorem items_trans {vs ws us : List Value} (h : List.Forall₂ R vs ws) (h' : List.Forall₂ R ws us)
    (hR : ∀ v ∈ vs, ∀ w u, R v w → R w u → R' v u) : List.Forall₂ R' vs us := by
  induction h generalizing us with
  | nil =>
    cases h'
    exact .nil
  | @cons v w vs ws hv hvs ih =>
    obtain ⟨u, us, hw, hws, rfl⟩ := List.forall₂_cons_left_iff.mp h'
    have hrest := ih hws fun v hv => hR v (List.mem_cons_of_mem _ hv)
    exact .cons (hR v List.mem_cons_self w u hv hw) hrest

/-- Objects are alike the other way round, if the parts of the first are related both ways. -/
theorem Alike.symm {a b : Ref} {x y : Object} (h : s.Alike R x y a b)
    (hown : Object.OwnEqual a b x y → Object.OwnEqual b a y x)
    (hR : ∀ v ∈ s.parts x, ∀ w, R v w → R' w v) : s.Alike R' y x b a := by
  cases h with
  | maps hes hfs hkeys hvalues =>
    refine .maps hfs hes (hkeys.symm Value.sameKey_equivalence) fun f hf e he hkey => ?_
    exact hR _ (mem_parts_of_mapEntries hes e he) _ (hvalues e he f hf hkey.symm)
  | own h => exact .own (hown h)
  | arrays h =>
    have hback : List.Forall₂ (flip R') _ _ := forall₂_imp_mem h fun v hv w _ =>
      hR v (mem_parts_of_items rfl hv) w
    exact .arrays hback.flip
  | records hkeys hvalues =>
    refine .records (hkeys.symm eq_equivalence) fun f hf e he hkey => ?_
    exact hR _ (mem_parts_of_members e he) _ (hvalues e he f hf hkey.symm)

/-- What is alike to a map or an adapter has entries with the same keys and related values. -/
theorem Alike.exists_entries {a b : Ref} {x y : Object} (h : s.Alike R x y a b)
    {es : Entries Value Value} (hes : s.mapEntries? x = some es) :
    ∃ fs, s.mapEntries? y = some fs ∧ SameKeys Value.SameKey es fs ∧
      ∀ e ∈ es, ∀ f ∈ fs, Value.SameKey e.1 f.1 → R e.2 f.2 := by
  cases h with
  | maps hes' hfs hkeys hvalues =>
    rw [hes] at hes'
    cases hes'
    exact ⟨_, hfs, hkeys, hvalues⟩
  | own h => exact absurd (h.mapEntries?_eq s).1 (by simp [hes])
  | arrays => cases hes
  | records => cases hes

/-- Objects are alike through a third, if the parts of the first are related through others. -/
theorem Alike.trans {a b c : Ref} {x y z : Object} (h : s.Alike R x y a b) (h' : s.Alike R y z b c)
    (hown : Object.OwnEqual a b x y → Object.OwnEqual b c y z → Object.OwnEqual a c x z)
    (hR : ∀ v ∈ s.parts x, ∀ w u, R v w → R w u → R' v u) : s.Alike R' x z a c := by
  cases h with
  | maps hes hfs hkeys hvalues =>
    -- What is behind the object in the middle is a map on both sides.
    obtain ⟨gs, hgs, hkeys', hvalues'⟩ := h'.exists_entries hfs
    refine .maps hes hgs (hkeys.trans Value.sameKey_equivalence hkeys') ?_
    exact values_trans Value.sameKey_equivalence hkeys hvalues hvalues' fun e he =>
      hR _ (mem_parts_of_mapEntries hes e he)
  | own h =>
    cases h' with
    | maps hes' => exact absurd (h.mapEntries?_eq s).2 (by simp [hes'])
    | own h' => exact .own (hown h h')
    | arrays => exact absurd h.ownHash?_eq (by simp [Object.ownHash?])
    | records => exact absurd h.ownHash?_eq (by simp [Object.ownHash?])
  | arrays h =>
    cases h' with
    | maps hes' => cases hes'
    | own h' => exact absurd h'.ownHash?_eq (by simp [Object.ownHash?])
    | arrays h' =>
      exact .arrays (items_trans h h' fun v hv => hR v (mem_parts_of_items rfl hv))
  | records hkeys hvalues =>
    cases h' with
    | maps hes' => cases hes'
    | own h' => exact absurd h'.ownHash?_eq (by simp [Object.ownHash?])
    | records hkeys' hvalues' =>
      refine .records (hkeys.trans eq_equivalence hkeys') ?_
      exact values_trans eq_equivalence hkeys hvalues hvalues' fun e he =>
        hR _ (mem_parts_of_members e he)

end Equivalence

section Contents

variable {R : Value → Value → Prop} {x y : Object} {a b : Ref}

/-- Entries that repeat no key have the same keys in some order, if keys are the same only where they are
identical. -/
theorem SameKeys.perm {κ : Type} {same : κ → κ → Prop} {es fs : Entries κ Value} (h : SameKeys same es fs)
    (hes : es.keys.Nodup) (hfs : fs.keys.Nodup)
    (hsame : ∀ e ∈ es, ∀ f ∈ fs, same e.1 f.1 ↔ e.1 = f.1) : es.keys.Perm fs.keys := by
  obtain ⟨hleft, hright⟩ := h
  refine (List.perm_ext_iff_of_nodup hes hfs).mpr fun k => ⟨fun hk => ?_, fun hk => ?_⟩
  · obtain ⟨e, he, rfl⟩ := List.mem_map.mp hk
    obtain ⟨e', he', hkey⟩ := hleft e he
    exact List.mem_map.mpr ⟨e', he', ((hsame e he e' he').mp hkey).symm⟩
  · obtain ⟨e', he', rfl⟩ := List.mem_map.mp hk
    obtain ⟨e, he, hkey⟩ := hright e' he'
    exact List.mem_map.mpr ⟨e, he, (hsame e he e' he').mp hkey⟩

/-- Entries with the same keys in some order. -/
theorem SameKeys.of_perm {κ : Type} {es fs : Entries κ Value} (h : es.keys.Perm fs.keys) :
    SameKeys (· = ·) es fs := by
  constructor
  · intro e he
    obtain ⟨f, hf, hkey⟩ := List.mem_map.mp (h.mem_iff.mp (List.mem_map_of_mem he))
    exact ⟨f, hf, hkey.symm⟩
  · intro f hf
    obtain ⟨e, he, hkey⟩ := List.mem_map.mp (h.mem_iff.mpr (List.mem_map_of_mem hf))
    exact ⟨e, he, hkey⟩

/-- Where no key is negative zero, keys are the same only where they are identical. -/
theorem NormalKeys.sameKey_iff (hz : s.NormalKeys) (ha : s.get? a = some x)
    (hb : s.get? b = some y) {es fs : Entries Value Value} (hes : s.mapEntries? x = some es)
    (hfs : s.mapEntries? y = some fs) :
    ∀ e ∈ es, ∀ f ∈ fs, Value.SameKey e.1 f.1 ↔ e.1 = f.1 := by
  intro e he f hf
  unfold Value.SameKey
  rw [hz.asKey_eq ha hes e he, hz.asKey_eq hb hfs f hf]

/-- An entry with the value that others have under its key. -/
def matched {κ : Type} [DecidableEq κ] (fs : Entries κ Value) (e : κ × Value) : κ × Value :=
  (e.1, (fs.get? e.1).getD e.2)

/-- As many entries as others, none of them twice and all of them found there, are the others up to their
order, once the values are exchanged. -/
theorem matched_perm {κ : Type} [DecidableEq κ] {es fs : Entries κ Value} (hes : es.keys.Nodup)
    (hlength : es.length = fs.length) (hfound : ∀ e ∈ es, ∃ w, fs.get? e.1 = some w) :
    (es.map (matched fs)).Perm fs := by
  have hnodup : (es.map (matched fs)).Nodup := by
    refine List.Nodup.of_map Prod.fst ?_
    rw [List.map_map]
    exact hes
  have hsub : es.map (matched fs) ⊆ fs := by
    intro e he
    obtain ⟨e, hmem, rfl⟩ := List.mem_map.mp he
    obtain ⟨w, hw⟩ := hfound e hmem
    unfold matched
    rw [hw]
    exact Entries.mem_of_get? hw
  refine (hnodup.subperm hsub).perm_of_length_le ?_
  rw [List.length_map, hlength]

/-- A map or an adapter holds the entries behind it. -/
theorem contents_of_mapEntries {es : Entries Value Value} (h : s.mapEntries? x = some es) :
    s.contents x = .entries es := by
  cases x with
  | map entries =>
    cases h
    rfl
  | adapter a =>
    cases h
    rfl
  | _ => cases h

/-- Entries without repeated keys that have the same keys in some order, and related values under them. -/
structure Reordered (R : Value → Value → Prop) (es fs : Entries Value Value) : Prop where
  nodup : es.keys.Nodup
  keys : es.keys.Perm fs.keys
  values : ∀ e ∈ es, ∀ f ∈ fs, e.1 = f.1 → R e.2 f.2

/-- A record lists the keys of its members in some order. -/
theorem keys_recordEntries_perm (es : Entries Text Value) :
    (Entries.keys (recordEntries es)).Perm (es.keys.map Value.text) := by
  unfold Entries.keys recordEntries
  rw [List.map_map, List.map_map]
  exact es.listing_perm.map _

/-- A record whose members repeat no key lists none twice. -/
theorem nodup_recordEntries {es : Entries Text Value} (hes : es.keys.Nodup) :
    (Entries.keys (recordEntries es)).Nodup :=
  (keys_recordEntries_perm es).nodup_iff.mpr (hes.map Value.text_injective)

/-- Records list members with the same keys in some order. -/
theorem reordered_of_members {es fs : Entries Text Value} (hes : es.keys.Nodup) (hfs : fs.keys.Nodup)
    (hkeys : SameKeys (· = ·) es fs) (hvalues : ∀ e ∈ es, ∀ f ∈ fs, e.1 = f.1 → R e.2 f.2) :
    Reordered R (recordEntries es) (recordEntries fs) := by
  have hperm := (hkeys.perm hes hfs fun _ _ _ _ => Iff.rfl).map Value.text
  have hlisted := (keys_recordEntries_perm es).trans
    (hperm.trans (keys_recordEntries_perm fs).symm)
  refine ⟨nodup_recordEntries hes, hlisted, fun e he f hf hkey => ?_⟩
  obtain ⟨d, hd, rfl⟩ := List.mem_map.mp he
  obtain ⟨g, hg, rfl⟩ := List.mem_map.mp hf
  exact hvalues d (es.listing_perm.mem_iff.mp hd) g (fs.listing_perm.mem_iff.mp hg)
    (Value.text_injective hkey)

/-- Maps and adapters hold entries with the same keys in some order. -/
theorem NormalKeys.reordered (hz : s.NormalKeys) (ha : s.get? a = some x) (hb : s.get? b = some y)
    {es fs : Entries Value Value} (hes : s.mapEntries? x = some es) (hfs : s.mapEntries? y = some fs)
    (hs : s.WellFormed) (hkeys : SameKeys Value.SameKey es fs)
    (hvalues : ∀ e ∈ es, ∀ f ∈ fs, Value.SameKey e.1 f.1 → R e.2 f.2) : Reordered R es fs := by
  have hsame := hz.sameKey_iff ha hb hes hfs
  have hnodup := hs.nodup_mapEntries ha hes
  exact ⟨hnodup, hkeys.perm hnodup (hs.nodup_mapEntries hb hfs) hsame,
    fun e he f hf hkey => hvalues e he f hf ((hsame e he f hf).mpr hkey)⟩

/-- Objects that encoding treats alike, as far as `R` tells values apart: boxes of one class, objects of other
classes, and what holds related items or related entries in some order. -/
inductive HoldsAlike (s : Store) (R : Value → Value → Prop) : Object → Object → Prop
  | boxes {x y : Object} (h : x.SameBox y) : HoldsAlike s R x y
  | foreign {className className' : Text} {manner manner' : Manner} :
      HoldsAlike s R (.foreign className manner) (.foreign className' manner')
  | items {x y : Object} {vs ws : List Value} (hx : s.contents x = .items vs)
      (hy : s.contents y = .items ws) (h : List.Forall₂ R vs ws) : HoldsAlike s R x y
  | entries {x y : Object} {es fs : Entries Value Value} (hx : s.contents x = .entries es)
      (hy : s.contents y = .entries fs) (h : Reordered R es fs) : HoldsAlike s R x y

/-- No object of another class is equal to a box by an equality of their own. -/
def BoxesApart (s : Store) : Prop :=
  ∀ a b x y, s.get? a = some x → s.get? b = some y → Object.OwnEqual a b x y →
    x.isForeign = y.isForeign

/-- It is enough to look at the pairs of objects of a store. -/
theorem boxesApart_iff :
    (∀ i j : Fin s.objects.size, ∀ x ∈ s.get? i.val, ∀ y ∈ s.get? j.val,
      Object.ownEquals i.val j.val x y = true → x.isForeign = y.isForeign) ↔ s.BoxesApart := by
  constructor
  · intro h a b x y ha hb hown
    exact h ⟨a, lt_size_of_get? ha⟩ ⟨b, lt_size_of_get? hb⟩ x ha y hb (Object.ownEquals_iff.mpr hown)
  · intro h i j x hx y hy hown
    exact h i.val j.val x y hx hy (Object.ownEquals_iff.mp hown)

/-- It is enough to look at the pairs of objects of a store. -/
instance : Decidable s.BoxesApart := decidable_of_iff _ boxesApart_iff

/-- Entries in another order are in another order from either side. -/
theorem Reordered.symm {es fs : Entries Value Value} (h : Reordered R es fs) :
    Reordered (flip R) fs es :=
  ⟨h.keys.nodup_iff.mp h.nodup, h.keys.symm, fun f hf e he hkey => h.values e he f hf hkey.symm⟩

/-- Objects hold alike from either side. -/
theorem HoldsAlike.symm (h : s.HoldsAlike R x y) : s.HoldsAlike (flip R) y x := by
  cases h with
  | boxes h => exact .boxes h.symm
  | foreign => exact .foreign
  | items hx hy h => exact .items hy hx h.flip
  | entries hx hy h => exact .entries hy hx h.symm

end Contents

end Store

end TypedReads
