import TypedReads.Proofs.Json.Denotation
import TypedReads.Proofs.Json.Numbers
import TypedReads.Value.Path

/-!
# Literals that overflow

`Tree.Survives` is a numeral of a tree that is left once every object has kept the last member of each key,
with the path that leads to it, and `Tree.Before` the order in which places of a tree are listed. A numeral
overflows if the double nearest to it is infinite. What a tree denotes has an infinite number exactly where
such a numeral survives, and the first of them in the value (`Json.FirstInfinite`) is the first in the tree
(`Json.FirstInfinite.first`).

The members of a root keep the order of the document where those of an object in it are listed with array
indices in front, so both orders are one of keys (`Tree.Stands`).
-/

namespace TypedReads

/-- A numeral whose nearest double is infinite. -/
def Numeral.Overflows (n : Numeral) : Prop :=
  Double.NearestTo n.negative n.magnitude (.infinite n.negative)

namespace Tree

/-- A numeral at the end of a path of items and last members. -/
inductive Survives : Tree → Path → Numeral → Prop
  | here (n : Numeral) : Survives (.number n) [] n
  | item {items : List Tree} {i : ℕ} {tree : Tree} {path : Path} {n : Numeral}
      (hi : items[i]? = some tree) (h : Survives tree path n) :
      Survives (.array items) (.index i :: path) n
  | member {members : List (Text × Tree)} {key : Text} {tree : Tree} {path : Path} {n : Numeral}
      (hlast : LastMember members key tree) (h : Survives tree path n) :
      Survives (.object members) (.key key :: path) n

/-- One place of a tree is listed before another: items by their indices, members as `Precedes` has
their keys, and what is within one item or member as it is listed there. -/
inductive Before : Tree → Path → Path → Prop
  | items {items : List Tree} {i j : ℕ} {p q : Path} (h : i < j) :
      Before (.array items) (.index i :: p) (.index j :: q)
  | item {items : List Tree} {i : ℕ} {tree : Tree} {p q : Path} (hi : items[i]? = some tree)
      (h : Before tree p q) : Before (.array items) (.index i :: p) (.index i :: q)
  | members {members : List (Text × Tree)} {key key' : Text} {p q : Path}
      (h : Precedes (Entries.keys members) key key') :
      Before (.object members) (.key key :: p) (.key key' :: q)
  | member {members : List (Text × Tree)} {key : Text} {tree : Tree} {p q : Path}
      (hlast : LastMember members key tree) (h : Before tree p q) :
      Before (.object members) (.key key :: p) (.key key :: q)

/-- One place of a document comes before another: the members of the root in the order in which their
keys were first written, and what is within one of them as it is listed there. -/
inductive RootBefore (members : List (Text × Tree)) : Path → Path → Prop
  | members {key key' : Text} {p q : Path}
      (h : (Entries.keys members).idxOf key < (Entries.keys members).idxOf key') :
      RootBefore members (.key key :: p) (.key key' :: q)
  | member {key : Text} {tree : Tree} {p q : Path} (hlast : LastMember members key tree)
      (h : Before tree p q) : RootBefore members (.key key :: p) (.key key :: q)

end Tree

section Uniqueness

/-- The last member of a key is among the later ones, or is the first if these lack the key. -/
theorem lastMember_cons_iff {e : Text × Tree} {rest : List (Text × Tree)} {key : Text} {tree : Tree} :
    LastMember (e :: rest) key tree ↔
      LastMember rest key tree ∨ e = (key, tree) ∧ key ∉ Entries.keys rest := by
  constructor
  · rintro ⟨before, after, heq, hlast⟩
    cases before with
    | nil =>
      cases heq
      refine .inr ⟨rfl, fun hmem => ?_⟩
      obtain ⟨e, he, hkey⟩ := List.mem_map.mp hmem
      exact hlast e he hkey
    | cons e' before =>
      cases heq
      exact .inl ⟨before, after, rfl, hlast⟩
  · rintro (⟨before, after, rfl, hlast⟩ | ⟨rfl, hkey⟩)
    · exact ⟨e :: before, after, rfl, hlast⟩
    · exact ⟨[], rest, rfl, fun e he heq => hkey (heq ▸ List.mem_map_of_mem he)⟩

/-- A key with a last member is one of the keys. -/
theorem LastMember.mem_keys {members : List (Text × Tree)} {key : Text} {tree : Tree}
    (h : LastMember members key tree) : key ∈ Entries.keys members := by
  obtain ⟨before, after, rfl, -⟩ := h
  exact List.mem_map.mpr ⟨(key, tree), by simp, rfl⟩

/-- A key has one last member. -/
theorem LastMember.unique {members : List (Text × Tree)} {key : Text} {tree tree' : Tree}
    (h : LastMember members key tree) (h' : LastMember members key tree') : tree = tree' := by
  induction members with
  | nil => exact absurd h.mem_keys List.not_mem_nil
  | cons e rest ih =>
    rw [lastMember_cons_iff] at h h'
    rcases h with h | ⟨rfl, hkey⟩
    · rcases h' with h' | ⟨-, hkey'⟩
      · exact ih h h'
      · exact absurd h.mem_keys hkey'
    · rcases h' with h' | ⟨heq, -⟩
      · exact absurd h'.mem_keys hkey
      · cases heq
        rfl

/-- One numeral survives at a place. -/
theorem Tree.Survives.unique {tree : Tree} {path : Path} {n n' : Numeral}
    (h : tree.Survives path n) (h' : tree.Survives path n') : n = n' := by
  induction h with
  | here =>
    cases h'
    rfl
  | item hi _ ih =>
    cases h' with
    | item hi' h' =>
      rw [hi] at hi'
      cases hi'
      exact ih h'
  | member hlast _ ih =>
    cases h' with
    | member hlast' h' =>
      cases hlast.unique hlast'
      exact ih h'

/-- No two places are listed before each other. -/
theorem Tree.Before.asymm {tree : Tree} {p q : Path} (h : tree.Before p q) : ¬ tree.Before q p := by
  intro h'
  induction h with
  | items hlt =>
    cases h' with
    | items hlt' => omega
    | item => omega
  | item hi _ ih =>
    cases h' with
    | items hlt => omega
    | item hi' h' =>
      rw [hi] at hi'
      cases hi'
      exact ih h'
  | members hprecedes =>
    cases h' with
    | members hprecedes' => exact hprecedes.asymm hprecedes'
    | member => exact hprecedes.asymm hprecedes
  | member hlast _ ih =>
    cases h' with
    | members hprecedes => exact hprecedes.asymm hprecedes
    | member hlast' h' =>
      cases hlast.unique hlast'
      exact ih h'

/-- Of two places at most one is listed before the other. -/
theorem Tree.RootBefore.asymm {members : List (Text × Tree)} {p q : Path}
    (h : RootBefore members p q) : ¬ RootBefore members q p := by
  intro h'
  cases h with
  | members hlt =>
    cases h' with
    | members hlt' => omega
    | member => omega
  | member hlast h =>
    cases h' with
    | members hlt => omega
    | member hlast' h' =>
      cases hlast.unique hlast'
      exact h.asymm h'

end Uniqueness

section Values

namespace Numeral

/-- A number overflows exactly if its double is infinite. -/
theorem overflows_iff {n : Numeral} : n.Overflows ↔ n.toDouble = .infinite n.negative := by
  constructor
  · exact fun h => n.nearestTo_toDouble.unique h
  · intro h
    have hnearest := n.nearestTo_toDouble
    rwa [h] at hnearest

/-- An integer literal of at most 64 bits does not overflow. -/
theorem not_overflows_of_toInt? {n : Numeral} {i : ℤ} (hi : n.toInt? = some i)
    (hsmall : i.natAbs ≤ 2 ^ 63) : ¬ n.Overflows := by
  intro h
  have hrank := Double.rank_le hsmall
  rw [rank_about_edge.1] at hrank
  have hlt : BinaryFormat.double.rank i.natAbs 1 < BinaryFormat.double.ranks :=
    hrank.trans_lt (by decide)
  rw [overflows_iff, (n.toDouble_of_toInt? hi).1, Double.ofRatio, Double.ofRank, dif_pos hlt] at h
  cases h

/-- A numeral that overflows denotes an infinite number. -/
theorem Denotes.of_overflows {n : Numeral} {j : Json} (h : n.Denotes j) (hn : n.Overflows) :
    j = .number (.infinite n.negative) := by
  cases h with
  | exact hi _ hfits => exact absurd hn (not_overflows_of_toInt? hi (by omega))
  | nearest _ hx => rw [hx.unique hn]

/-- A numeral that denotes a number which is not finite overflows. -/
theorem Denotes.overflows {n : Numeral} {x : Double} (h : n.Denotes (.number x))
    (hx : x.isFinite = false) : n.Overflows ∧ x = .infinite n.negative := by
  cases h with
  | nearest _ hnearest =>
    cases hnearest with
    | finite => cases hx
    | infinite hlarge hrank => exact ⟨.infinite hlarge hrank, rfl⟩

end Numeral

/-- The first number of a value that is not finite, with the path to it: everything in front of it on the
way is finite. -/
inductive Json.FirstInfinite : Json → Path → Double → Prop
  | here {x : Double} (hx : x.isFinite = false) : FirstInfinite (.number x) [] x
  | item {items : List Json} {i : ℕ} {j : Json} {path : Path} {x : Double}
      (hbefore : FiniteItems (items.take i)) (hi : items[i]? = some j) (h : FirstInfinite j path x) :
      FirstInfinite (.array items) (.index i :: path) x
  | member {members : List (Text × Json)} {i : ℕ} {key : Text} {j : Json} {path : Path} {x : Double}
      (hbefore : FiniteMembers (members.take i)) (hi : members[i]? = some (key, j))
      (h : FirstInfinite j path x) : FirstInfinite (.object members) (.key key :: path) x

mutual

/-- A value that is not finite has a first number that is not. -/
theorem Json.exists_firstInfinite : ∀ {j : Json}, ¬ j.Finite → ∃ path x, j.FirstInfinite path x
  | .null, h | .bool _, h | .integer _, h | .text _, h => absurd trivial h
  | .number x, h => ⟨[], x, .here (Bool.eq_false_iff.mpr h)⟩
  | .array items, h => by
    obtain ⟨i, j, path, x, hbefore, hi, hj⟩ := @exists_firstInfinite_items items h
    exact ⟨_, x, .item hbefore hi hj⟩
  | .object members, h => by
    obtain ⟨i, key, j, path, x, hbefore, hi, hj⟩ := @exists_firstInfinite_members members h
    exact ⟨_, x, .member hbefore hi hj⟩

/-- Items with an infinite number have a first one with a first one in it. -/
theorem Json.exists_firstInfinite_items : ∀ {items : List Json}, ¬ FiniteItems items →
    ∃ (i : ℕ) (j : Json) (path : Path) (x : Double),
      FiniteItems (items.take i) ∧ items[i]? = some j ∧ j.FirstInfinite path x
  | [], h => absurd trivial h
  | j :: rest, h => by
    by_cases hj : j.Finite
    · have hrest : ¬ FiniteItems rest := fun hrest => h ⟨hj, hrest⟩
      obtain ⟨i, j', path, x, hbefore, hi, hj'⟩ := exists_firstInfinite_items hrest
      exact ⟨i + 1, j', path, x, ⟨hj, hbefore⟩, hi, hj'⟩
    · obtain ⟨path, x, hj⟩ := exists_firstInfinite hj
      exact ⟨0, j, path, x, trivial, rfl, hj⟩

/-- So have members. -/
theorem Json.exists_firstInfinite_members : ∀ {members : List (Text × Json)},
    ¬ FiniteMembers members →
    ∃ (i : ℕ) (key : Text) (j : Json) (path : Path) (x : Double),
      FiniteMembers (members.take i) ∧ members[i]? = some (key, j) ∧ j.FirstInfinite path x
  | [], h => absurd trivial h
  | (key, j) :: rest, h => by
    by_cases hj : j.Finite
    · have hrest : ¬ FiniteMembers rest := fun hrest => h ⟨hj, hrest⟩
      obtain ⟨i, key', j', path, x, hbefore, hi, hj'⟩ := exists_firstInfinite_members hrest
      exact ⟨i + 1, key', j', path, x, ⟨hj, hbefore⟩, hi, hj'⟩
    · obtain ⟨path, x, hj⟩ := exists_firstInfinite hj
      exact ⟨0, key, j, path, x, trivial, rfl, hj⟩

end

end Values

section Places

/-- The entries that members of a tree stand for, with their keys in an order: each key once, with what its
last member denotes. -/
structure Tree.Stands (order : Text → Text → Prop) (members : List (Text × Tree))
    (es : Entries Text Json) : Prop where
  /-- The keys are those of the members. -/
  keys : ∀ key, key ∈ es.keys ↔ key ∈ Entries.keys members
  /-- The keys are in order. -/
  ordered : es.keys.Pairwise order
  /-- Under a key stands what its last member denotes. -/
  denotes : ∀ key j tree, (key, j) ∈ es → LastMember members key tree → tree.Denotes j

namespace Tree.Stands

variable {order : Text → Text → Prop} {members : List (Text × Tree)} {es : Entries Text Json}
  (h : Tree.Stands order members es)

include h

/-- An entry has a last member. -/
theorem exists_tree {i : ℕ} {key : Text} {j : Json} (hi : es[i]? = some (key, j)) :
    ∃ tree, LastMember members key tree ∧ tree.Denotes j := by
  have hmem := List.mem_of_getElem? hi
  obtain ⟨tree, hlast⟩ := exists_lastMember ((h.keys key).mp (List.mem_map_of_mem hmem))
  exact ⟨tree, hlast, h.denotes key j tree hmem hlast⟩

/-- A last member has an entry. -/
theorem exists_entry {key : Text} {tree : Tree} (hlast : LastMember members key tree) :
    ∃ (i : ℕ) (j : Json), es[i]? = some (key, j) ∧ tree.Denotes j := by
  obtain ⟨⟨_, j⟩, hmem, rfl⟩ := List.mem_map.mp ((h.keys key).mpr hlast.mem_keys)
  obtain ⟨i, hi⟩ := List.getElem?_of_mem hmem
  exact ⟨i, j, hi, h.denotes _ j tree hmem hlast⟩

/-- Of two entries the first has the first key. -/
theorem order_of_lt {i k : ℕ} {key key' : Text} {j j' : Json} (hlt : i < k)
    (hi : es[i]? = some (key, j)) (hk : es[k]? = some (key', j')) : order key key' := by
  obtain ⟨hik, hi⟩ := List.getElem?_eq_some_iff.mp hi
  obtain ⟨hkk, hk⟩ := List.getElem?_eq_some_iff.mp hk
  have hpair := List.pairwise_map.mp h.ordered
  have := List.pairwise_iff_getElem.mp hpair i k hik hkk hlt
  rwa [hi, hk] at this

end Tree.Stands

/-- An item in front of an index is one of those up to it. -/
theorem mem_take_of_lt {α : Type} {l : List α} {i k : ℕ} {a : α} (hk : l[k]? = some a)
    (hlt : k < i) : a ∈ l.take i := by
  refine List.mem_of_getElem? (i := k) ?_
  rw [List.getElem?_take_of_lt hlt]
  exact hk

/-- Where a numeral overflows, the value is not finite. -/
theorem Tree.Survives.not_finite {tree : Tree} {path : Path} {n : Numeral}
    (h : tree.Survives path n) (hn : n.Overflows) {j : Json} (hj : tree.Denotes j) : ¬ j.Finite := by
  induction h generalizing j with
  | here n =>
    cases hj with
    | number hj =>
      rw [hj.of_overflows hn]
      nofun
  | @item items i tree path n hi _ ih =>
    cases hj with
    | @array _ values hlength hvalues =>
      obtain ⟨hlt, -⟩ := List.getElem?_eq_some_iff.mp hi
      have hvalue := List.getElem?_eq_getElem (hlength ▸ hlt : i < values.length)
      intro hfinite
      exact ih hn (hvalues i _ _ hi hvalue)
        (Json.numbersItems_iff.mp hfinite _ (List.mem_of_getElem? hvalue))
  | member hlast _ ih =>
    cases hj with
    | object hkeys horder h =>
      obtain ⟨i, j, hi, hj⟩ := Tree.Stands.exists_entry ⟨hkeys, horder, h⟩ hlast
      intro hfinite
      exact ih hn hj (Json.numbersMembers_iff.mp hfinite _ (List.mem_of_getElem? hi))

/-- The first infinite number of a value stands where a numeral overflows. -/
theorem Json.FirstInfinite.survives {j : Json} {path : Path} {x : Double}
    (h : j.FirstInfinite path x) {tree : Tree} (hj : tree.Denotes j) :
    ∃ n, tree.Survives path n ∧ n.Overflows ∧ x = .infinite n.negative := by
  induction h generalizing tree with
  | here hx =>
    cases hj with
    | @number n _ hj => exact ⟨n, .here n, hj.overflows hx⟩
  | @item items i j path x _ hi _ ih =>
    cases hj with
    | number hj => cases hj
    | @array trees _ hlength hvalues =>
      obtain ⟨hlt, -⟩ := List.getElem?_eq_some_iff.mp hi
      have htree := List.getElem?_eq_getElem (hlength ▸ hlt : i < trees.length)
      obtain ⟨n, hn, hover⟩ := ih (hvalues i _ _ htree hi)
      exact ⟨n, .item htree hn, hover⟩
  | member _ hi _ ih =>
    cases hj with
    | number hj => cases hj
    | object hkeys horder h =>
      obtain ⟨tree, hlast, hj⟩ := Tree.Stands.exists_tree ⟨hkeys, horder, h⟩ hi
      obtain ⟨n, hn, hover⟩ := ih hj
      exact ⟨n, .member hlast hn, hover⟩

/-- Among the entries that members stand for, a numeral that overflows is in or behind the entry of the
first infinite number. -/
theorem Tree.Stands.first {order : Text → Text → Prop} {members : List (Text × Tree)}
    {es : Entries Text Json} (h : Tree.Stands order members es) {i : ℕ} {key : Text} {j : Json}
    (hbefore : Json.FiniteMembers (es.take i)) (hi : es[i]? = some (key, j)) {key' : Text}
    {tree : Tree} (hlast : LastMember members key' tree) {q : Path} {n : Numeral}
    (hq : tree.Survives q n) (hn : n.Overflows) :
    order key key' ∨ key' = key ∧ tree.Denotes j := by
  obtain ⟨k, j', hk, hj'⟩ := h.exists_entry hlast
  rcases lt_trichotomy k i with hlt | rfl | hgt
  · have hfinite := Json.numbersMembers_iff.mp hbefore _ (mem_take_of_lt hk hlt)
    exact absurd hfinite (hq.not_finite hn hj')
  · rw [hi] at hk
    cases hk
    exact .inr ⟨rfl, hj'⟩
  · exact .inl (h.order_of_lt hgt hi hk)

/-- The first infinite number of a value stands before all other numerals that overflow. -/
theorem Json.FirstInfinite.first {j : Json} {path : Path} {x : Double} (h : j.FirstInfinite path x)
    {tree : Tree} (hj : tree.Denotes j) {q : Path} {n : Numeral} (hq : tree.Survives q n)
    (hn : n.Overflows) : q = path ∨ tree.Before path q := by
  induction h generalizing tree q with
  | here =>
    cases hj with
    | number =>
      cases hq
      exact .inl rfl
  | @item items i j path x hbefore hi _ ih =>
    cases hj with
    | number hj => cases hj
    | @array trees _ hlength hvalues =>
      cases hq with
      | @item _ k tree q _ hk hq =>
        obtain ⟨hlt, -⟩ := List.getElem?_eq_some_iff.mp hk
        have hvalue := List.getElem?_eq_getElem (hlength ▸ hlt : k < items.length)
        -- Items before the one on the path are finite, and those behind it come later.
        rcases lt_trichotomy k i with hlt | rfl | hgt
        · have hfinite := numbersItems_iff.mp hbefore _ (mem_take_of_lt hvalue hlt)
          exact absurd hfinite (hq.not_finite hn (hvalues k _ _ hk hvalue))
        · rcases ih (hvalues k _ _ hk hi) hq with rfl | hq
          · exact .inl rfl
          · exact .inr (.item hk hq)
        · exact .inr (.items hgt)
  | @member members i key j path x hbefore hi _ ih =>
    cases hj with
    | number hj => cases hj
    | @object trees _ hkeys horder h =>
      -- Of the members, the last with a key counts, in the order of the listing.
      cases hq with
      | member hlast hq =>
        rcases Tree.Stands.first ⟨hkeys, horder, h⟩ hbefore hi hlast hq hn with hlt | ⟨rfl, hj⟩
        · exact .inr (.members hlt)
        · rcases ih hj hq with rfl | hq
          · exact .inl rfl
          · exact .inr (.member hlast hq)

end Places

end TypedReads
