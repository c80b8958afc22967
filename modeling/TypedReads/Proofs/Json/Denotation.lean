import TypedReads.Proofs.Json.Normal
import TypedReads.Proofs.Number.Nearest
import TypedReads.Proofs.Read.Strict

/-!
# What a text denotes

`Tree.Denotes` says which value a tree of the grammar stands for, with no reference to how values
are built: numbers by rounding, save for integers that stay exact, and objects by their keys and the
last value under each. The members of an object stand in the order of `Precedes`, which puts array
indices in front. `Tree.denotes_iff` shows that this is exactly the value that is built.
-/

namespace TypedReads

section Numbers

/-- The number that a numeral spells, without its sign. -/
def Numeral.magnitude (n : Numeral) : ℚ :=
  (ofDigits n.whole + ofDigits (n.fraction.getD []) / 10 ^ (n.fraction.getD []).length) *
    10 ^ n.exponent.getD 0

/-- The value of a numeral: an integer literal that a double may round stays exact if it fits 64
bits, and everything else is the double nearest to it. -/
inductive Numeral.Denotes (n : Numeral) : Json → Prop
  | exact {i : ℤ} (h : n.toInt? = some i) (hlarge : 2 ^ 53 ≤ i.natAbs)
    (hfits : -2 ^ 63 ≤ i ∧ i < 2 ^ 63) : Numeral.Denotes n (.integer i)
  | nearest {x : Double} (h : ∀ i, n.toInt? = some i → i.natAbs < 2 ^ 53 ∨ i < -2 ^ 63 ∨ 2 ^ 63 ≤ i)
    (hx : Double.NearestTo n.negative n.magnitude x) : Numeral.Denotes n (.number x)

/-- The decimal of a number has its magnitude. -/
theorem Numeral.value_toDecimal (n : Numeral) : n.toDecimal.value = n.magnitude := by
  have hpow : (10 : ℚ) ^ (n.fraction.getD []).length ≠ 0 := by positivity
  unfold toDecimal Decimal.value magnitude
  dsimp only
  rw [ofDigits_append, zpow_sub₀ (by norm_num), zpow_natCast]
  push_cast
  field_simp

/-- The double that a numeral is read as is nearest to it. -/
theorem Numeral.nearestTo_toDouble (n : Numeral) :
    Double.NearestTo n.negative n.magnitude n.toDouble := by
  rw [← n.value_toDecimal]
  exact Double.nearestTo_ofDecimal n.negative n.toDecimal

/-- A numeral has one value. -/
theorem Numeral.Denotes.unique {n : Numeral} {j j' : Json} (h : n.Denotes j) (h' : n.Denotes j') :
    j = j' := by
  cases h with
  | exact hi hlarge hfits =>
    cases h' with
    | exact hi' =>
      rw [hi] at hi'
      cases hi'
      rfl
    | nearest hrange =>
      have := hrange _ hi
      omega
  | nearest hrange hx =>
    cases h' with
    | exact hi hlarge hfits =>
      have := hrange _ hi
      omega
    | nearest _ hx' => rw [hx.unique hx']

/-- A numeral is read as its value. -/
theorem Numeral.denotes (n : Numeral) : n.Denotes n.toJson := by
  unfold toJson
  cases hint : n.toInt? with
  | none =>
    refine .nearest (fun i hi => ?_) n.nearestTo_toDouble
    rw [hint] at hi
    cases hi
  | some i =>
    dsimp only
    have hlong : IntegralKind.long.holds i = true ↔ -2 ^ 63 ≤ i ∧ i < 2 ^ 63 := by
      rw [IntegralKind.holds_iff]
      simp only [IntegralKind.least, IntegralKind.greatest, IntegralKind.width]
      omega
    split_ifs with h
    · rw [Double.safe_iff, hlong] at h
      refine .nearest (fun i' hi => ?_) n.nearestTo_toDouble
      rw [hint] at hi
      cases hi
      omega
    · rw [Double.safe_iff, hlong] at h
      exact .exact hint (by omega) (by omega)

end Numbers

section Order

/-- A key that is an array index: the numeral of a number that an array may have an item at. -/
def IndexKey (key : Text) (n : ℕ) : Prop := key = Text.ofNat n ∧ n < 2 ^ 32 - 1

/-- The order of the members of an object that were written with some names: array indices come
first and ascend, and the others follow as each was first written. -/
def Precedes (names : List Text) (a b : Text) : Prop :=
  (∃ m n, IndexKey a m ∧ IndexKey b n ∧ m < n) ∨
  (∃ m, IndexKey a m) ∧ (¬ ∃ n, IndexKey b n) ∨
  (¬ ∃ m, IndexKey a m) ∧ (¬ ∃ n, IndexKey b n) ∧ names.idxOf a < names.idxOf b

/-- The keys that count as an index are those of the definition. -/
theorem indexKey?_eq_some_iff {key : Text} {n : ℕ} : indexKey? key = some n ↔ IndexKey key n := by
  unfold indexKey? IndexKey
  constructor
  · intro h
    split at h
    · dsimp only at h
      split_ifs at h with hkey
      cases h
      exact ⟨hkey.1.symm, hkey.2⟩
    · cases h
  · rintro ⟨rfl, hn⟩
    have hscan : Text.scanDigits (Text.ofNat n) = (decimalDigits n, []) := by
      rw [Text.ofNat_eq]
      exact scanDigits_digitText_nil fun d hd => lt_ten_of_mem_decimalDigits hd
    rw [hscan]
    dsimp only
    rw [ofDigits_decimalDigits, if_pos ⟨rfl, hn⟩]

/-- All other keys count as none. -/
theorem indexKey?_eq_none_iff {key : Text} : indexKey? key = none ↔ ¬ ∃ n, IndexKey key n := by
  rw [Option.eq_none_iff_forall_ne_some]
  simp only [ne_eq, indexKey?_eq_some_iff, not_exists]

/-- A key is an index for one number. -/
theorem IndexKey.unique {key : Text} {m n : ℕ} (h : IndexKey key m) (h' : IndexKey key n) :
    m = n := by
  rw [← indexKey?_eq_some_iff] at h h'
  exact Option.some.inj (h.symm.trans h')

/-- No two keys precede each other. -/
theorem Precedes.asymm {names : List Text} {a b : Text} (h : Precedes names a b) :
    ¬ Precedes names b a := by
  rintro h'
  rcases h with ⟨m, n, ha, hb, hlt⟩ | ⟨⟨m, ha⟩, hb⟩ | ⟨ha, hb, hlt⟩
  · rcases h' with ⟨n', m', hb', ha', hlt'⟩ | ⟨-, ha'⟩ | ⟨hb', -, -⟩
    · rw [ha.unique ha', hb.unique hb'] at hlt
      omega
    · exact ha' ⟨m, ha⟩
    · exact hb' ⟨n, hb⟩
  · rcases h' with ⟨n', -, hb', -, -⟩ | ⟨hb', -⟩ | ⟨-, ha', -⟩
    · exact hb ⟨n', hb'⟩
    · exact hb hb'
    · exact ha' ⟨m, ha⟩
  · rcases h' with ⟨n', -, hb', -, -⟩ | ⟨hb', -⟩ | ⟨-, -, hlt'⟩
    · exact hb ⟨n', hb'⟩
    · exact hb hb'
    · omega

/-- Keys in order are not repeated. -/
theorem nodup_of_precedes {names keys : List Text} (h : keys.Pairwise (Precedes names)) :
    keys.Nodup := by
  refine h.imp fun {a b} hab => ?_
  rintro rfl
  exact hab.asymm hab

/-- The same keys stand in one order only. -/
theorem eq_of_precedes {names keys keys' : List Text} (h : keys.Pairwise (Precedes names))
    (h' : keys'.Pairwise (Precedes names)) (hmem : ∀ key, key ∈ keys ↔ key ∈ keys') :
    keys = keys' := by
  have hperm := (List.perm_ext_iff_of_nodup (nodup_of_precedes h) (nodup_of_precedes h')).mpr hmem
  exact hperm.eq_of_pairwise (fun a b _ _ hab hba => absurd hba hab.asymm) h h'

variable {ν : Type}

/-- Writing keeps the keys that are written, each at its first place. -/
theorem Entries.keys_ofPairs (pairs : List (Text × ν)) :
    (∀ key, key ∈ (Entries.ofPairs pairs).keys ↔ key ∈ Entries.keys pairs) ∧
    (Entries.ofPairs pairs).keys.Pairwise
      fun a b => (Entries.keys pairs).idxOf a < (Entries.keys pairs).idxOf b := by
  induction pairs using List.reverseRecOn with
  | nil => exact ⟨fun key => Iff.rfl, .nil⟩
  | append_singleton pairs pair ih =>
    obtain ⟨hmem, hpairwise⟩ := ih
    have hput : Entries.ofPairs (pairs ++ [pair]) = (Entries.ofPairs pairs).put pair.1 pair.2 :=
      Entries.putAll_append [] pairs [pair]
    -- The places of the keys before are not moved by one more at the end.
    have hold : (Entries.ofPairs pairs).keys.Pairwise fun a b =>
        (Entries.keys (pairs ++ [pair])).idxOf a < (Entries.keys (pairs ++ [pair])).idxOf b := by
      refine hpairwise.imp_of_mem fun {a b} ha hb hlt => ?_
      rw [Entries.keys_append, List.idxOf_append_of_mem ((hmem a).mp ha),
        List.idxOf_append_of_mem ((hmem b).mp hb)]
      exact hlt
    rw [hput, Entries.keys_put]
    split_ifs with hkey
    -- A key that was written before keeps its place, a new one goes to the end.
    · refine ⟨fun key => ?_, hold⟩
      rw [hmem, Entries.keys_append, List.mem_append]
      refine ⟨.inl, fun h => h.elim id fun hpair => ?_⟩
      rw [List.mem_singleton.mp hpair]
      exact (hmem pair.1).mp hkey
    · refine ⟨fun key => ?_, List.pairwise_append.mpr ⟨hold, List.pairwise_singleton _ _, ?_⟩⟩
      · rw [List.mem_append, hmem, Entries.keys_append, List.mem_append]
        rfl
      · intro a ha b hb
        rw [List.mem_singleton.mp hb, Entries.keys_append,
          List.idxOf_append_of_mem ((hmem a).mp ha),
          List.idxOf_append_of_notMem (mt (hmem pair.1).mpr hkey)]
        have := List.idxOf_lt_length_iff.mpr ((hmem a).mp ha)
        omega

/-- Listing puts the keys in order. -/
theorem Entries.listing_precedes {es : Entries Text ν} {names : List Text} (hnodup : es.keys.Nodup)
    (horder : es.keys.Pairwise fun a b => names.idxOf a < names.idxOf b) :
    es.listing.keys.Pairwise (Precedes names) := by
  have hindexed : ∀ a ∈ es.indexed.mergeSort indexLe, IndexKey a.2.1 a.1 := fun a ha =>
    indexKey?_eq_some_iff.mp (mem_indexed.mp ((List.mergeSort_perm _ _).mem_iff.mp ha)).2
  have hnamed : ∀ e ∈ es.named, ¬ ∃ n, IndexKey e.1 n := fun e he =>
    indexKey?_eq_none_iff.mp (by simpa [named] using (List.mem_filter.mp he).2)
  have hsorted : (es.indexed.mergeSort indexLe).Pairwise fun a b => indexLe a b = true :=
    List.pairwise_mergeSort (fun a b c => by unfold indexLe; simpa using Nat.le_trans)
      (fun a b => by unfold indexLe; simpa using Nat.le_total a.1 b.1) _
  have hkeys := nodup_keys_listing hnodup
  rw [listing_eq, keys_append] at hkeys ⊢
  obtain ⟨hdistinct, -, -⟩ := List.nodup_append.mp hkeys
  unfold keys at *
  rw [List.map_map] at hdistinct ⊢
  refine List.pairwise_append.mpr ⟨?_, ?_, ?_⟩
  · -- Two indices in ascending order, which are different since their keys are.
    rw [List.pairwise_map]
    have hboth := hsorted.and (List.pairwise_map.mp hdistinct)
    refine hboth.imp_of_mem fun {a b} ha hb hab => .inl ⟨a.1, b.1, hindexed a ha, hindexed b hb, ?_⟩
    obtain ⟨hle, hne⟩ := hab
    refine lt_of_le_of_ne (of_decide_eq_true hle) fun heq => hne ?_
    change a.2.1 = b.2.1
    rw [(hindexed a ha).1, (hindexed b hb).1, heq]
  · rw [List.pairwise_map] at horder ⊢
    have hsub := horder.sublist (List.filter_sublist (p := fun e => (indexKey? e.1).isNone))
    exact hsub.imp_of_mem fun {a b} ha hb hlt => .inr (.inr ⟨hnamed a ha, hnamed b hb, hlt⟩)
  · intro a ha b hb
    obtain ⟨a, hmem, rfl⟩ := List.mem_map.mp ha
    obtain ⟨e, hmem', rfl⟩ := List.mem_map.mp hb
    exact .inr (.inl ⟨⟨a.1, hindexed a hmem⟩, hnamed e hmem'⟩)

end Order

/-- The last of the members with a key. -/
def LastMember (members : List (Text × Tree)) (key : Text) (tree : Tree) : Prop :=
  ∃ before after, members = before ++ (key, tree) :: after ∧ ∀ e ∈ after, e.1 ≠ key

/-- The values that trees stand for. An object has the keys of its members, each once, with the
value of the last member of that key. -/
inductive Tree.Denotes : Tree → Json → Prop
  | null : Tree.Denotes .null .null
  | bool (b : Bool) : Tree.Denotes (.bool b) (.bool b)
  | number {n : Numeral} {j : Json} (h : n.Denotes j) : Tree.Denotes (.number n) j
  | text (t : Text) : Tree.Denotes (.text t) (.text t)
  | array {items : List Tree} {values : List Json} (hlength : values.length = items.length)
    (h : ∀ (i : ℕ) tree j, items[i]? = some tree → values[i]? = some j → Tree.Denotes tree j) :
    Tree.Denotes (.array items) (.array values)
  | object {members : List (Text × Tree)} {es : Entries Text Json}
    (hkeys : ∀ key, key ∈ es.keys ↔ key ∈ Entries.keys members)
    (horder : es.keys.Pairwise (Precedes (Entries.keys members)))
    (h : ∀ key j tree, (key, j) ∈ es → LastMember members key tree → Tree.Denotes tree j) :
    Tree.Denotes (.object members) (.object es)

/-- Every key has a last member. -/
theorem exists_lastMember {members : List (Text × Tree)} {key : Text}
    (h : key ∈ Entries.keys members) : ∃ tree, LastMember members key tree := by
  obtain ⟨before, tree, after, rfl, hlast⟩ := Entries.exists_last h
  exact ⟨tree, before, after, rfl, fun e he heq => hlast (List.mem_map.mpr ⟨e, he, heq⟩)⟩

namespace Tree

/-- A tree has one value. -/
theorem Denotes.unique {tree : Tree} {j j' : Json} (h : tree.Denotes j) (h' : tree.Denotes j') :
    j = j' := by
  induction h generalizing j' with
  | null | bool | text =>
    cases h'
    rfl
  | number h =>
    cases h' with
    | number h' => exact h.unique h'
  -- An array has the items in their places.
  | @array items values hlength _ ih =>
    cases h' with
    | @array _ values' hlength' h' =>
      refine congrArg Json.array (List.ext_getElem (hlength.trans hlength'.symm) fun i hi hi' => ?_)
      have hitem := List.getElem?_eq_getElem (hlength ▸ hi : i < items.length)
      exact ih i _ _ hitem (List.getElem?_eq_getElem hi)
        (h' i _ _ hitem (List.getElem?_eq_getElem hi'))
  | @object members es hkeys horder _ ih =>
    cases h' with
    | @object _ es' hkeys' horder' h' =>
      -- The keys are the same set in the same order, and each has its last member.
      have hsame : es.keys = es'.keys :=
        eq_of_precedes horder horder' fun key => (hkeys key).trans (hkeys' key).symm
      have hlength : es.length = es'.length := by
        simpa [Entries.keys] using congrArg List.length hsame
      refine congrArg Json.object (List.ext_getElem hlength fun i hi hi' => ?_)
      have hkey : es[i].1 = es'[i].1 := by
        have := congrArg (·[i]?) hsame
        simpa [Entries.keys, hi, hi'] using this
      have hmem := List.getElem_mem hi
      have hmem' : (es[i].1, es'[i].2) ∈ es' := by
        rw [hkey]
        exact List.getElem_mem hi'
      obtain ⟨tree, htree⟩ := exists_lastMember ((hkeys _).mp (List.mem_map_of_mem hmem))
      refine Prod.ext hkey (ih es[i].1 es[i].2 tree hmem htree ?_)
      exact h' es[i].1 es'[i].2 tree hmem' htree

/-- Items one by one. -/
theorem normalizeItems_toJsonItems (items : List Tree) :
    Json.normalizeItems (toJsonItems items) = items.map fun tree => tree.toJson.normalize := by
  induction items with
  | nil => rfl
  | cons tree rest ih => exact congrArg (tree.toJson.normalize :: ·) ih

/-- Members one by one. -/
theorem normalizeMembers_toJsonMembers (members : List (Text × Tree)) :
    Json.normalizeMembers (toJsonMembers members) =
      members.map fun e => (e.1, e.2.toJson.normalize) := by
  induction members with
  | nil => rfl
  | cons e rest ih => exact congrArg ((e.1, e.2.toJson.normalize) :: ·) ih

/-- An object denotes its members if their values are denoted. -/
theorem denotes_object {members : List (Text × Tree)}
    (h : ∀ e ∈ members, e.2.Denotes e.2.toJson.normalize) :
    (Tree.object members).Denotes (Tree.object members).toJson.normalize := by
  obtain ⟨hmem, horder⟩ := Entries.keys_ofPairs (Json.normalizeMembers (toJsonMembers members))
  have hnames : Entries.keys (Json.normalizeMembers (toJsonMembers members)) =
      Entries.keys members := by
    rw [Json.keys_normalizeMembers, keys_toJsonMembers]
  rw [hnames] at hmem horder
  have hnodup := Entries.nodup_keys_ofPairs (Json.normalizeMembers (toJsonMembers members))
  have hperm := Entries.listing_perm
    (Entries.ofPairs (Json.normalizeMembers (toJsonMembers members)))
  refine .object (fun key => ?_) (Entries.listing_precedes hnodup horder) ?_
  · rw [← hmem]
    exact (hperm.map Prod.fst).mem_iff
  · rintro key j tree hentry ⟨before, after, rfl, hlast⟩
    have hget := Document.get?_ofPairs_members before after tree hlast
    rw [(Entries.get?_eq_some_iff hnodup).mpr (hperm.mem_iff.mp hentry)] at hget
    cases hget
    exact h (key, tree) (by simp)

mutual

/-- A tree is read as its value. -/
theorem denotes : ∀ tree : Tree, tree.Denotes tree.toJson.normalize
  | .null => .null
  | .bool b => .bool b
  | .number n => .number (by
    change n.Denotes n.toJson.normalize
    rw [n.normalize_toJson]
    exact n.denotes)
  | .text t => .text t
  | .array items => by
    have hitems := denotes_items items
    refine .array ?_ fun i tree j htree hj => ?_
    · rw [normalizeItems_toJsonItems, List.length_map]
    · rw [normalizeItems_toJsonItems, List.getElem?_map, htree] at hj
      cases hj
      exact hitems tree (List.mem_of_getElem? htree)
  | .object members => denotes_object (denotes_members members)

/-- Each item denotes what it is normalized to. -/
theorem denotes_items : ∀ items : List Tree, ∀ tree ∈ items, tree.Denotes tree.toJson.normalize
  | [], _, h => absurd h List.not_mem_nil
  | head :: rest, tree, h => by
    rcases List.mem_cons.mp h with heq | hrest
    · rw [heq]
      exact denotes head
    · exact denotes_items rest tree hrest

/-- So does the value of each member. -/
theorem denotes_members : ∀ members : List (Text × Tree), ∀ e ∈ members,
    e.2.Denotes e.2.toJson.normalize
  | [], _, h => absurd h List.not_mem_nil
  | (key, head) :: rest, e, h => by
    rcases List.mem_cons.mp h with heq | hrest
    · rw [heq]
      exact denotes head
    · exact denotes_members rest e hrest

end

/-- The value that is built for a tree is the one it stands for. -/
theorem denotes_iff {tree : Tree} {j : Json} : tree.Denotes j ↔ j = tree.toJson.normalize := by
  constructor
  · exact fun h => h.unique tree.denotes
  · rintro rfl
    exact tree.denotes

end Tree

end TypedReads
