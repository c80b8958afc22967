import TypedReads.Adapter.Content
import TypedReads.Proofs.Value.Ancestors
import TypedReads.Proofs.Value.Cycles

/-!
# The text of an adapter and of what it holds

An adapter has the entries of the map behind it, so the two are walked alike, each from its own place
(`Store.Alongside`). Of the two only the one that the walk started from is known to be around what is
met. The walks stay together until they come to one of the two again
(`Store.exists_alongside_of_encode_ne`): the walk that started there has then found a cycle, where the
other goes round once more before it has (`Store.Alongside.encode_again`).
-/

namespace TypedReads

namespace Store

variable {s : Store}

section First

variable {root v : Value} {path : Path} {rs : List Ref}

/-- The first step of a way inside leads to its end or to an object that is passed. -/
theorem Visits.first (h : s.Visits root path rs v) (hpath : path ≠ []) :
    ∃ k rest us r part, path = k :: rest ∧ rs = us ++ [r] ∧ s.Enters [] root k r part ∧
      (part = v ∨ ∃ u ∈ us, part = .object u) := by
  induction h with
  | root => exact absurd rfl hpath
  | @step path rs v part k r hvisit henters ih =>
    by_cases hroot : path = []
    · obtain ⟨rfl, rfl⟩ := hvisit.eq_root hroot
      subst hroot
      exact ⟨k, [], [], r, part, rfl, rfl, henters, .inl rfl⟩
    · obtain ⟨k', rest, us, r', part', rfl, rfl, hfirst, hend⟩ := ih hroot
      refine ⟨k', rest ++ [k], r :: us, r', part', rfl, rfl, hfirst, .inr ?_⟩
      obtain rfl | ⟨u, hu, rfl⟩ := hend
      · exact ⟨r, List.mem_cons_self, henters.eq_object⟩
      · exact ⟨u, List.mem_cons_of_mem r hu, rfl⟩

end First

/-- Two walks, started at `x` and at `y`, that have come to the same value on the same way inside,
past the objects `us`. -/
structure Alongside (s : Store) (x y : Ref) (path : Path) (us : List Ref) (v : Value) : Prop where
  inside : path ≠ []
  left : s.Visits (.object x) path (us ++ [x]) v
  right : s.Visits (.object y) path (us ++ [y]) v
  left_notMem : x ∉ us
  right_notMem : y ∉ us

variable {x y : Ref}

section Walks

variable {path : Path} {us : List Ref} {v part : Value} {r : Ref} {k : Step}

/-- Walking alongside does not depend on the side. -/
theorem Alongside.symm (h : s.Alongside x y path us v) : s.Alongside y x path us v :=
  ⟨h.inside, h.right, h.left, h.right_notMem, h.left_notMem⟩

/-- The first step of two walks. -/
theorem alongside_first (hx : s.Enters [] (.object x) k x part)
    (hy : s.Enters [] (.object y) k y part) : s.Alongside x y [k] [] part where
  inside := List.cons_ne_nil k []
  left := .step .root hx
  right := .step .root hy
  left_notMem := List.not_mem_nil
  right_notMem := List.not_mem_nil

/-- Two walks go on together in an object that neither started from. -/
theorem Alongside.step (h : s.Alongside x y path us (.object r)) (hx : r ≠ x) (hy : r ≠ y)
    (hleft : s.Enters (us ++ [x]) (.object r) k r part)
    (hright : s.Enters (us ++ [y]) (.object r) k r part) :
    s.Alongside x y (path ++ [k]) (r :: us) part where
  inside := List.append_ne_nil_of_left_ne_nil h.inside [k]
  left := h.left.step hleft
  right := h.right.step hright
  left_notMem := List.not_mem_cons_of_ne_of_not_mem hx.symm h.left_notMem
  right_notMem := List.not_mem_cons_of_ne_of_not_mem hy.symm h.right_notMem

/-- What is not in a longer list is not in the list and not its last. -/
theorem notMem_append_singleton {z : Ref} : r ∉ us ++ [z] ↔ r ∉ us ∧ r ≠ z := by
  rw [List.mem_append, List.mem_singleton, not_or]

/-- A walk is followed by the one from an object with the same contents, until it passes that
object. -/
theorem Visits.alongside (hsame : s.SameContents x y) {rs : List Ref}
    (h : s.Visits (.object x) path rs v) (hpath : path ≠ []) (hy : y ∉ rs) :
    ∃ us, rs = us ++ [x] ∧ s.Alongside x y path us v := by
  -- By induction on the way; the other walk passes each object within all that hold it.
  induction h with
  | root => exact absurd rfl hpath
  | @step path rs v part k r hvisit henters ih =>
    obtain ⟨hry, hrs⟩ := List.ne_and_not_mem_of_not_mem_cons hy
    obtain rfl := henters.eq_object
    by_cases hroot : path = []
    · obtain ⟨rfl, hv⟩ := hvisit.eq_root hroot
      cases hv
      subst hroot
      exact ⟨[], rfl, alongside_first henters <|
        henters.transfer hsame (List.forall_mem_nil _) List.not_mem_nil (List.forall_mem_nil _)⟩
    · obtain ⟨us, rfl, halong⟩ := ih hroot hrs
      have hfree := henters.notMem
      rw [notMem_append_singleton] at hfree
      have hright := henters.transfer henters.sameContents hvisit.trail.containers
        (notMem_append_singleton.mpr ⟨hfree.1, hry.symm⟩) fun a ha => (halong.right.trail.holds a ha).2
      exact ⟨r :: us, rfl, halong.step hfree.2 hry.symm henters hright⟩

/-- Two walks that come to a value and encode it differently come, there or further in, to one of the
objects that they started from. -/
theorem Alongside.exists_of_ne {path : Path} {us : List Ref} {v : Value}
    (h : s.Alongside x y path us v)
    (hne : s.encodeWithin (us ++ [x]) v ≠ s.encodeWithin (us ++ [y]) v) :
    ∃ path us r, s.Alongside x y path us (.object r) ∧ (r = x ∨ r = y) := by
  -- By induction on the places that are not being encoded yet.
  by_cases hobject : ∃ r, v = .object r
  swap
  · refine absurd ?_ hne
    rw [encodeWithin_leaf fun r hv => hobject ⟨r, hv⟩, encodeWithin_leaf fun r hv => hobject ⟨r, hv⟩]
  obtain ⟨r, rfl⟩ := hobject
  by_cases hback : r = x ∨ r = y
  · exact ⟨path, us, r, h, hback⟩
  obtain ⟨hx, hy⟩ := not_or.mp hback
  by_cases hus : r ∈ us
  · -- Both walks refuse the object as a cycle.
    have hcontainer := h.left.trail.containers r (List.mem_append_left _ hus)
    refine absurd ?_ hne
    rw [encodeWithin_of_mem hcontainer (List.mem_append_left _ hus),
      encodeWithin_of_mem hcontainer (List.mem_append_left _ hus)]
  cases hr : s.get? r with
  | none => exact absurd (by rw [encodeWithin_dangling hr, encodeWithin_dangling hr]) hne
  | some o =>
    have hfree := notMem_append_singleton.mpr ⟨hus, hx⟩
    have hlt := unvisited_cons_lt (mem_refs_of_get? hr) hfree
    obtain ⟨k, part, hleft, hright, hpart⟩ := exists_enters_of_ne (sameContents_self hr) hfree
      (notMem_append_singleton.mpr ⟨hus, hy⟩) hne
    exact (h.step hx hy hleft hright).exists_of_ne hpart
termination_by unvisited s.refs (us ++ [x])

/-- Objects with the same contents that are encoded differently have walks that come to one of them
again. -/
theorem exists_alongside_of_encode_ne (hsame : s.SameContents x y)
    (hne : s.encode (.object x) ≠ s.encode (.object y)) :
    ∃ path us r, s.Alongside x y path us (.object r) ∧ (r = x ∨ r = y) := by
  obtain ⟨k, part, hx, hy, hpart⟩ :=
    exists_enters_of_ne hsame List.not_mem_nil List.not_mem_nil hne
  exact (alongside_first hx hy).exists_of_ne hpart

/-- Where two walks come to the object that one of them started from, that one has found a cycle. The
other goes on into the object, and finds the cycle at the first step there. -/
theorem Alongside.encode_again (hxy : x ≠ y) (h : s.Alongside x y path us (.object x)) :
    ∃ k rest, path = k :: rest ∧ s.encode (.object x) = .error ⟨path, .cycle⟩ ∧
      s.encode (.object y) = .error ⟨path ++ [k], .cycle⟩ := by
  obtain ⟨k, rest, us', r, part, hpath, hus, hfirst, hend⟩ := h.left.first h.inside
  obtain rfl := Value.object.inj hfirst.eq_object
  obtain ⟨rfl, -⟩ := List.append_inj' hus rfl
  refine ⟨k, rest, hpath, ?_, ?_⟩
  -- The walk from the object itself is back inside it.
  · have hmem : x ∈ us ++ [x] := List.mem_append_right us (List.mem_singleton_self x)
    have hcycle := encodeWithin_of_mem (h.left.trail.containers x hmem) hmem
    simpa only [Obstacle.here, List.append_nil] using h.left.encode_error hcycle
  · -- What the first step leads to is the object itself or one that has been passed since.
    have henters : s.Enters (us ++ [y]) (.object x) k x part :=
      hfirst.transfer hfirst.sameContents (List.forall_mem_nil _)
        (notMem_append_singleton.mpr ⟨h.left_notMem, hxy⟩)
        fun a ha => (h.right.trail.holds a ha).2
    have hvisit := h.right.step henters
    have hmem : ∃ a ∈ x :: (us ++ [y]), part = .object a := by
      obtain rfl | ⟨u, hu, rfl⟩ := hend
      · exact ⟨x, List.mem_cons_self, rfl⟩
      · exact ⟨u, List.mem_cons_of_mem x (List.mem_append_left _ hu), rfl⟩
    have hcycle := (encodeWithin_cycle_iff hvisit.trail.containers).mpr hmem
    simpa only [Obstacle.here, List.append_nil] using hvisit.encode_error hcycle

/-- The walk from one object comes, further in, to that object again or for the first time to another. -/
def ComesBack (s : Store) (root other : Ref) (path : Path) (r : Ref) : Prop :=
  path ≠ [] ∧ (r = root ∨ r = other) ∧
    ∃ seen, s.Reaches (.object root) path seen (.object r) ∧ other ∉ seen

/-- A walk comes back where it is followed by the walk from the other object. -/
theorem comesBack_iff (hsame : s.SameContents x y) (hxy : x ≠ y) :
    s.ComesBack x y path r ↔ (r = x ∨ r = y) ∧ ∃ us, s.Alongside x y path us (.object r) := by
  constructor
  · rintro ⟨hpath, hr, seen, hreaches, hy⟩
    obtain ⟨rs, hvisits, rfl⟩ := reaches_iff.mp hreaches
    obtain ⟨us, -, halong⟩ := hvisits.alongside hsame hpath (mt List.mem_toFinset.mpr hy)
    exact ⟨hr, us, halong⟩
  · rintro ⟨hr, us, halong⟩
    refine ⟨halong.inside, hr, _, reaches_iff.mpr ⟨_, halong.left, rfl⟩, ?_⟩
    exact mt List.mem_toFinset.mp (notMem_append_singleton.mpr ⟨halong.right_notMem, hxy.symm⟩)

/-- Coming back to an object does not depend on which of the two walks is taken first. -/
theorem comesBack_comm (hsame : s.SameContents x y) (hxy : x ≠ y) :
    s.ComesBack x y path r ↔ s.ComesBack y x path r := by
  rw [comesBack_iff hsame hxy, comesBack_iff hsame.symm hxy.symm, or_comm]
  exact and_congr_right fun _ => exists_congr fun us => ⟨Alongside.symm, Alongside.symm⟩

/-- Both walks find a cycle where one comes back: the one that started from the object met there, and
the other one step of the way further. -/
theorem ComesBack.encode (hsame : s.SameContents x y) (hxy : x ≠ y) (h : s.ComesBack x y path r) :
    ∃ k rest, path = k :: rest ∧ ∀ z, z = x ∨ z = y →
      s.encode (.object z) = .error ⟨if r = z then path else path ++ [k], .cycle⟩ := by
  obtain ⟨rfl | rfl, us, halong⟩ := (comesBack_iff hsame hxy).mp h
  · obtain ⟨k, rest, hpath, hmet, hother⟩ := halong.encode_again hxy
    refine ⟨k, rest, hpath, ?_⟩
    rintro z (rfl | rfl)
    · rwa [if_pos rfl]
    · rwa [if_neg hxy]
  · obtain ⟨k, rest, hpath, hmet, hother⟩ := halong.symm.encode_again hxy.symm
    refine ⟨k, rest, hpath, ?_⟩
    rintro z (rfl | rfl)
    · rwa [if_neg hxy.symm]
    · rwa [if_pos rfl]

end Walks

/-- A map and an adapter on it hold the same. -/
theorem sameContents_adapter {self : Ref} {a : Adapter} {es : Entries Value Value}
    (hself : s.get? self = some (.adapter a)) (hmap : s.get? a.backing = some (.map es)) :
    s.SameContents a.backing self :=
  ⟨_, _, hmap, hself, congrArg Contents.entries (entriesAt_of_get? hmap).symm⟩

end Store

/-- The contents of an adapter have the text of the adapter, or its error, exactly if the walk of the
contents does not come to the adapter or the map behind it again. Where it does, both have a cyclic
reference: the one met at this place, and the other one step of the way further. -/
theorem text_of_contents_and_adapter {s : Store} {self : Ref} {a : Adapter} {es : Entries Value Value}
    (hself : s.get? self = some (.adapter a)) (hmap : s.get? a.backing = some (.map es)) :
    ((∀ width, a.toText s width = s.encodeText (.object self) width) ↔
      ∀ path r, ¬ s.ComesBack a.backing self path r) ∧
    (∀ path r, s.ComesBack a.backing self path r ↔ s.ComesBack self a.backing path r) ∧
    ∀ path r, s.ComesBack a.backing self path r → ∃ k rest, path = k :: rest ∧ ∀ width,
      a.toText s width = .error (.refused
        ⟨if r = a.backing then path else path ++ [k], units "cyclic reference"⟩) ∧
      s.encodeText (.object self) width = .error (.refused
        ⟨if r = self then path else path ++ [k], units "cyclic reference"⟩) := by
  have hsame := Store.sameContents_adapter hself hmap
  have hne : a.backing ≠ self := by
    intro heq
    rw [heq, hself] at hmap
    cases hmap
  refine ⟨⟨fun hequal path r h => ?_, fun hnone => ?_⟩,
    fun path r => Store.comesBack_comm hsame hne, fun path r h => ?_⟩
  · -- The two paths are not of the same length.
    obtain ⟨k, rest, -, hcycle⟩ := h.encode hsame hne
    have hcontents := hcycle a.backing (.inl rfl)
    have hadapter := Store.encodeText_cyclic_iff.mp
      ((hequal .nan).symm.trans (Store.encodeText_cyclic_iff.mpr hcontents))
    have hpaths := hadapter.symm.trans (hcycle self (.inr rfl))
    obtain ⟨-, rfl | rfl, -⟩ := h
    · simp [hne] at hpaths
    · simp [hne.symm] at hpaths
  · refine Store.encodeText_congr (by_contra fun hencode => ?_)
    obtain ⟨path, us, r, halong, hr⟩ := Store.exists_alongside_of_encode_ne hsame hencode
    exact hnone path r ((Store.comesBack_iff hsame hne).mpr ⟨hr, us, halong⟩)
  · obtain ⟨k, rest, hpath, hcycle⟩ := h.encode hsame hne
    exact ⟨k, rest, hpath, fun width => ⟨Store.encodeText_cyclic_iff.mpr (hcycle _ (.inl rfl)),
      Store.encodeText_cyclic_iff.mpr (hcycle _ (.inr rfl))⟩⟩

/-- A map with an array that holds the map, and an adapter on the map. -/
def spiral : Store :=
  ⟨#[.map [(.text (units "rows"), .object 2)], .adapter ⟨0, .strict⟩, .ofItems [.null, .object 0]], 0⟩

/-- The walk of the contents comes to the map again in the array, and only the adapter passes it. -/
theorem spiral_comes_back :
    spiral.get? 1 = some (.adapter ⟨0, .strict⟩) ∧
    spiral.get? 0 = some (.map [(.text (units "rows"), .object 2)]) ∧
    spiral.ComesBack 0 1 [.key (units "rows"), .index 1] 0 ∧
    ∀ width,
      Adapter.toText ⟨0, .strict⟩ spiral width = .error (.refused
        ⟨[.key (units "rows"), .index 1], units "cyclic reference"⟩) ∧
      spiral.encodeText (.object 1) width = .error (.refused
        ⟨[.key (units "rows"), .index 1, .key (units "rows")], units "cyclic reference"⟩) := by
  -- The walk enters the array and, behind its first item, comes to the map.
  have hrows : spiral.Enters [] (.object 0) (.key (units "rows")) 0 (.object 2) :=
    .entry (i := 0) rfl rfl List.not_mem_nil rfl rfl
  have hnull : Store.encodeItems (spiral.encodeWithin [2, 0]) 0 [.null] = .ok [.null] := by
    rw [Store.encodeItems, Store.encodeWithin_leaf (by rintro _ ⟨⟩)]
    rfl
  have hitem : spiral.Enters [0] (.object 2) (.index 1) 2 (.object 0) :=
    .item (i := 1) rfl rfl (by decide) hnull rfl
  have hback : spiral.ComesBack 0 1 [.key (units "rows"), .index 1] 0 :=
    ⟨List.cons_ne_nil _ _, .inl rfl, [2, 0].toFinset,
      Store.reaches_iff.mpr ⟨[2, 0], (Store.Visits.root.step hrows).step hitem, rfl⟩, by decide⟩
  obtain ⟨-, -, hcycles⟩ := text_of_contents_and_adapter (s := spiral) (a := ⟨0, .strict⟩)
    (show spiral.get? 1 = _ from rfl) rfl
  obtain ⟨k, rest, hpath, htexts⟩ := hcycles _ _ hback
  cases hpath
  exact ⟨rfl, rfl, hback, htexts⟩

/-- A map with an adapter on it. -/
def mirror : Store := ⟨#[.map [(.text (units "self"), .object 1)], .adapter ⟨0, .strict⟩], 0⟩

/-- The contents of an adapter that is in its own map do not have the error of the adapter. -/
theorem mirror_texts_differ :
    mirror.get? 1 = some (.adapter ⟨0, .strict⟩) ∧
    mirror.get? 0 = some (.map [(.text (units "self"), .object 1)]) ∧
    ∀ width,
      mirror.encodeText (.object 1) width =
        .error (.refused ⟨[.key (units "self")], units "cyclic reference"⟩) ∧
      Adapter.toText ⟨0, .strict⟩ mirror width = .error (.refused
        ⟨[.key (units "self"), .key (units "self")], units "cyclic reference"⟩) ∧
      Adapter.toText ⟨0, .strict⟩ mirror width ≠ mirror.encodeText (.object 1) width := by
  have henters : ∀ r ∈ [0, 1], ∀ visited, r ∉ visited →
      mirror.Enters visited (.object r) (.key (units "self")) r (.object 1) := by
    intro r hr visited hfree
    obtain rfl | rfl := List.mem_pair.mp hr
    · exact .entry (i := 0) rfl rfl hfree rfl rfl
    · exact .entry (i := 0) rfl rfl hfree rfl rfl
  -- The adapter is met at once from itself, and from the map only within itself.
  have hcontainer : mirror.Container 1 := ⟨_, rfl, .inr ⟨_, rfl⟩⟩
  have hadapter := (Store.Visits.root.step (henters 1 (by decide) [] List.not_mem_nil)).encode_error
    (Store.encodeWithin_of_mem hcontainer (by decide))
  have hcontents := ((Store.Visits.root.step (henters 0 (by decide) [] List.not_mem_nil)).step
    (henters 1 (by decide) [0] (by decide))).encode_error
    (Store.encodeWithin_of_mem hcontainer (by decide))
  refine ⟨rfl, rfl, fun width => ?_⟩
  have hself : mirror.encodeText (.object 1) width = _ := Store.encodeText_cyclic_iff.mpr hadapter
  have hmap : Adapter.toText ⟨0, .strict⟩ mirror width = _ :=
    Store.encodeText_cyclic_iff.mpr hcontents
  refine ⟨hself, hmap, fun hequal => ?_⟩
  rw [hself, hmap] at hequal
  cases hequal

end TypedReads
