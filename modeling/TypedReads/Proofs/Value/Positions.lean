import TypedReads.Proofs.Value.Acyclic
import TypedReads.Proofs.Value.Marking

/-!
# Where encoding stops

`Store.Trail` leads from a value to what is inside it and collects the objects passed on the way,
whatever the encoder does there. `Store.Reaches` follows the walk with marks from call to call: a
part is reached once the parts in front of it have been encoded, with the marks they left. The marks
at a call are the objects on the trail to it (`Reaches.trail`), and the obstacle that ends an
encoding is the refusal of a call that was reached (`encode_error_iff`).

Both are shown of `Store.Visits`, which has no marks and hands the objects on the trail down. The
induction is on the path, one step of which is `encodeWithin_under_iff`.
-/

namespace TypedReads

/-- A cause that says all there is to say: it names no object, and is no cycle. -/
def Unencodable.IsPlain : Unencodable → Prop
  | .number _ | .ofType _ | .mapKey _ => True
  | .foreign _ | .classless | .cycle => False

namespace Store

/-- What an object holds one step inwards: at an index, or under a key that is a text. -/
inductive PartAt (s : Store) (r : Ref) : Step → Value → Prop
  | item {o : Object} {vs : List Value} {i : ℕ} {v : Value} (hr : s.get? r = some o)
      (ho : s.contents o = .items vs) (hi : vs[i]? = some v) : PartAt s r (.index i) v
  | entry {o : Object} {es : List (Value × Value)} {i : ℕ} {key : Text} {v : Value}
      (hr : s.get? r = some o) (ho : s.contents o = .entries es)
      (hi : es[i]? = some (.text key, v)) : PartAt s r (.key key) v

/-- The way from a root to something inside it: the steps, and the objects passed on the way, the
innermost first. -/
inductive Trail (s : Store) (root : Value) : Path → List Ref → Value → Prop
  | root : Trail s root [] [] root
  | step {path : Path} {rs : List Ref} {r : Ref} {step : Step} {v : Value}
      (h : Trail s root path rs (.object r)) (hv : s.PartAt r step v) :
      Trail s root (path ++ [step]) (r :: rs) v

/-- The calls that the walk makes when it is started without marks: where they stand, the marks
they are given and the value they are for. -/
inductive Reaches (s : Store) (root : Value) : Path → Finset Ref → Value → Prop
  | root : Reaches s root [] ∅ root
  /-- The call for an item is made with the marks that the items in front of it left. -/
  | item {path : Path} {seen seen' : Finset Ref} {r : Ref} {o : Object} {vs : List Value} {i : ℕ}
      {v : Value} {js : List Json} (h : Reaches s root path seen (.object r))
      (hr : s.get? r = some o) (ho : s.contents o = .items vs) (hfree : r ∉ seen)
      (hbefore : s.WalkItems (insert r seen) 0 (vs.take i) (.ok js) seen')
      (hi : vs[i]? = some v) : Reaches s root (path ++ [.index i]) seen' v
  /-- The call for a value under a key is made with the marks that the entries in front left. -/
  | entry {path : Path} {seen seen' : Finset Ref} {r : Ref} {o : Object}
      {es : List (Value × Value)} {i : ℕ} {key : Text} {v : Value} {members : List (Text × Json)}
      (h : Reaches s root path seen (.object r)) (hr : s.get? r = some o)
      (ho : s.contents o = .entries es) (hfree : r ∉ seen)
      (hbefore : s.WalkEntries (insert r seen) (es.take i) (.ok members) seen')
      (hi : es[i]? = some (.text key, v)) : Reaches s root (path ++ [.key key]) seen' v

section Parts

variable {s : Store} {visited : List Ref} {r : Ref} {part : Value} {j : Json}

/-- What holds something is a container. -/
theorem Part.container (h : s.Part (.object r) part) : s.Container r := by
  obtain ⟨_, o, ⟨⟩, hr, hmem⟩ := h
  unfold parts at hmem
  cases ho : s.contents o with
  | items vs => exact ⟨o, hr, .inl ⟨vs, ho⟩⟩
  | entries es => exact ⟨o, hr, .inr ⟨es, ho⟩⟩
  | _ =>
    rw [ho] at hmem
    cases hmem

/-- What an encoded object holds is encoded within it, keys included. -/
theorem encoded_of_part (h : s.encodeWithin visited (.object r) = .ok j)
    (hpart : s.Part (.object r) part) :
    r ∉ visited ∧ ∃ j, s.encodeWithin (r :: visited) part = .ok j := by
  obtain ⟨o, hr, ⟨vs, ho⟩ | ⟨es, ho⟩⟩ := hpart.container
  · obtain ⟨js, -, hnot, hjs⟩ := encodeWithin_items hr ho h
    have hmem := hpart.mem_parts hr
    unfold parts at hmem
    rw [ho] at hmem
    obtain ⟨j, -, hj⟩ := exists_of_forall₂ hjs hmem
    exact ⟨hnot, j, hj⟩
  · obtain ⟨members, -, hnot, hmembers⟩ := encodeWithin_entries hr ho h
    obtain ⟨e, he, heq⟩ := exists_entry_of_part ho (hpart.mem_parts hr)
    obtain ⟨m, -, hkey, hvalue⟩ := exists_of_forall₂ hmembers he
    obtain rfl | rfl := heq
    · rw [hkey]
      exact ⟨hnot, _, encodeWithin_leaf (v := .text m.1) nofun _⟩
    · exact ⟨hnot, _, hvalue⟩

end Parts

section Trails

variable {s : Store} {root v : Value} {path : Path} {step : Step} {rs : List Ref} {r : Ref}

/-- What stands at a step is a part. -/
theorem PartAt.part (h : s.PartAt r step v) : s.Part (.object r) v := by
  cases h with
  | item hr ho hi => exact .of_get? hr (mem_parts_of_items ho (List.mem_of_getElem? hi))
  | entry hr ho hi => exact .of_get? hr (mem_parts_of_entries ho (List.mem_of_getElem? hi)).2

/-- Only containers are passed on the way. -/
theorem Trail.containers (h : s.Trail root path rs v) : ∀ r ∈ rs, s.Container r := by
  induction h with
  | root => exact fun r hr => absurd hr List.not_mem_nil
  | step _ hv ih => exact containers_cons ih hv.part.container

/-- What is inside a value is within it. -/
theorem Trail.within (h : s.Trail root path rs v) : s.Within root v := by
  induction h with
  | root => exact .refl
  | step _ hv ih => exact ih.tail hv.part

/-- An object that is passed is within the root and holds what the way leads to. -/
theorem Trail.holds (h : s.Trail root path rs v) :
    ∀ r ∈ rs, s.Within root (.object r) ∧ Relation.TransGen s.Part (.object r) v := by
  induction h with
  | root => exact fun r hr => absurd hr List.not_mem_nil
  | step hobject hv ih =>
    refine List.forall_mem_cons.mpr ⟨⟨hobject.within, .single hv.part⟩, fun a ha => ?_⟩
    obtain ⟨hwithin, hholds⟩ := ih a ha
    exact ⟨hwithin, hholds.tail hv.part⟩

end Trails

section Obstacles

section First

variable {α β ε : Type} {run : ℕ → List α → Except ε (List β)} {step : ℕ → α → Except ε β}
  (hcons : ∀ k a as, run k (a :: as) = (step k a).bind fun b => (run (k + 1) as).map (b :: ·))
  {k : ℕ} {a : α} {as : List α} {e : ε}

include hcons

/-- A run fails with its first step, or with the rest if that step succeeds. -/
theorem run_cons_error_iff :
    run k (a :: as) = .error e ↔
      step k a = .error e ∨ (∃ b, step k a = .ok b) ∧ run (k + 1) as = .error e := by
  rw [hcons]
  cases step k a with
  | error e' => simp [Except.bind]
  | ok b => cases run (k + 1) as <;> simp [Except.bind, Except.map]

/-- A run succeeds if its first step and the rest do. -/
theorem run_cons_ok_iff {bs : List β} :
    run k (a :: as) = .ok bs ↔
      ∃ b bs', step k a = .ok b ∧ run (k + 1) as = .ok bs' ∧ b :: bs' = bs := by
  rw [hcons]
  cases step k a with
  | error e' => simp [Except.bind]
  | ok b => cases run (k + 1) as <;> simp [Except.bind, Except.map]

/-- A run over a list that stops at the first failure fails where an element does after all in front
of it have not. -/
theorem run_error_iff (hnil : ∀ k, run k [] = .ok []) :
    run k as = .error e ↔
      ∃ i a bs, as[i]? = some a ∧ run k (as.take i) = .ok bs ∧ step (k + i) a = .error e := by
  induction as generalizing k with
  | nil => simp [hnil]
  | cons a as ih =>
    rw [run_cons_error_iff hcons, ih]
    constructor
    · rintro (ha | ⟨⟨b, hb⟩, i, a', bs, hi, hbefore, ha'⟩)
      · exact ⟨0, a, [], rfl, hnil k, ha⟩
      · refine ⟨i + 1, a', b :: bs, hi, ?_, by rwa [Nat.add_assoc, Nat.add_comm 1] at ha'⟩
        exact (run_cons_ok_iff hcons).mpr ⟨b, bs, hb, hbefore, rfl⟩
    · rintro ⟨i, a', bs, hi, hbefore, ha'⟩
      cases i with
      | zero =>
        cases hi
        exact .inl ha'
      | succ i =>
        obtain ⟨b, bs', hb, hbefore', -⟩ := (run_cons_ok_iff hcons).mp hbefore
        exact .inr ⟨⟨b, hb⟩, i, a', bs', hi, hbefore', by rwa [Nat.add_assoc, Nat.add_comm 1]⟩

/-- Where two runs over one list differ, they do at an element after all in front of it have come to
the same in both. -/
theorem exists_ne_of_run_ne {run' : ℕ → List α → Except ε (List β)} {step' : ℕ → α → Except ε β}
    (hcons' : ∀ k a as,
      run' k (a :: as) = (step' k a).bind fun b => (run' (k + 1) as).map (b :: ·))
    (hnil : ∀ k, run k [] = .ok []) (hnil' : ∀ k, run' k [] = .ok [])
    (hne : run k as ≠ run' k as) :
    ∃ i a bs, as[i]? = some a ∧ run k (as.take i) = .ok bs ∧ run' k (as.take i) = .ok bs ∧
      step (k + i) a ≠ step' (k + i) a := by
  induction as generalizing k with
  | nil => exact absurd ((hnil k).trans (hnil' k).symm) hne
  | cons a as ih =>
    by_cases hstep : step k a = step' k a
    swap
    · exact ⟨0, a, [], rfl, hnil k, hnil' k, hstep⟩
    -- Both runs end at an element that fails, and otherwise they differ behind it.
    cases hb : step k a with
    | error e =>
      refine absurd ?_ hne
      rw [hcons, hcons', ← hstep, hb]
      rfl
    | ok b =>
      have hb' := hstep.symm.trans hb
      have hrest : run (k + 1) as ≠ run' (k + 1) as := by
        intro heq
        refine hne ?_
        rw [hcons, hcons', hb, hb', heq]
      obtain ⟨i, a', bs, hi, hrun, hrun', ha'⟩ := ih hrest
      refine ⟨i + 1, a', b :: bs, hi, ?_, ?_, by rwa [Nat.add_assoc, Nat.add_comm 1] at ha'⟩
      · exact (run_cons_ok_iff hcons).mpr ⟨b, bs, hb, hrun, rfl⟩
      · exact (run_cons_ok_iff hcons').mpr ⟨b, bs, hb', hrun', rfl⟩

end First

variable {encode : Value → Except Obstacle Json} {e : Obstacle}

/-- The encoding of an entry. -/
def encodeEntry (encode : Value → Except Obstacle Json) :
    Value × Value → Except Obstacle (Text × Json)
  | (.text key, v) => ((encode v).mapError (Obstacle.under (.key key))).map fun j => (key, j)
  | (key, _) => .error (.here (.mapKey key.typeName))

/-- Encoding items is encoding the first, under its index, and then the rest. -/
theorem encodeItems_bind (k : ℕ) (v : Value) (vs : List Value) :
    encodeItems encode k (v :: vs) =
      ((encode v).mapError (Obstacle.under (.index k))).bind fun j =>
        (encodeItems encode (k + 1) vs).map (j :: ·) := by
  rw [encodeItems]
  cases encode v with
  | error e => rfl
  | ok j => cases encodeItems encode (k + 1) vs <;> rfl

/-- Encoding entries is encoding the first and then the rest. -/
theorem encodeEntries_bind (entry : Value × Value) (es : List (Value × Value)) :
    encodeEntries encode (entry :: es) =
      (encodeEntry encode entry).bind fun member =>
        (encodeEntries encode es).map (member :: ·) := by
  obtain ⟨key, v⟩ := entry
  cases key with
  | text key =>
    rw [encodeEntries, encodeEntry]
    cases encode v with
    | error e => rfl
    | ok j => cases encodeEntries encode es <;> rfl
  | _ => rfl

/-- Items are refused by the first of them that is. -/
theorem encodeItems_error_iff {vs : List Value} :
    encodeItems encode 0 vs = .error e ↔
      ∃ i v js, vs[i]? = some v ∧ encodeItems encode 0 (vs.take i) = .ok js ∧
        (encode v).mapError (Obstacle.under (.index i)) = .error e := by
  simpa only [Nat.zero_add] using run_error_iff (k := 0) encodeItems_bind fun _ => rfl

/-- Entries are refused by the first of them that is. -/
theorem encodeEntries_error_iff {es : List (Value × Value)} :
    encodeEntries encode es = .error e ↔
      ∃ i entry members, es[i]? = some entry ∧ encodeEntries encode (es.take i) = .ok members ∧
        encodeEntry encode entry = .error e :=
  run_error_iff (k := 0) (fun _ => encodeEntries_bind) fun _ => rfl

section Under

variable {α β : Type} {x : Except Obstacle α} {step step' : Step}

/-- A mapped result fails exactly as it does. -/
theorem map_error_iff {f : α → β} : x.map f = .error e ↔ x = .error e := by
  cases x <;> simp [Except.map]

/-- An obstacle seen from one step further out is one at that step. -/
theorem mapError_under_iff :
    x.mapError (Obstacle.under step) = .error (e.under step') ↔ step = step' ∧ x = .error e := by
  obtain ⟨path, cause⟩ := e
  cases x with
  | ok a => simp [Except.mapError]
  | error e' =>
    obtain ⟨path', cause'⟩ := e'
    simp [Except.mapError, Obstacle.under, and_assoc]

/-- An entry is refused further in for what is under its key. -/
theorem encodeEntry_under_iff {entry : Value × Value} :
    encodeEntry encode entry = .error (e.under step) ↔
      ∃ key, entry.1 = .text key ∧ step = .key key ∧ encode entry.2 = .error e := by
  obtain ⟨key, v⟩ := entry
  cases key with
  | text key =>
    rw [encodeEntry, map_error_iff, mapError_under_iff]
    constructor
    · rintro ⟨rfl, hv⟩
      exact ⟨key, rfl, rfl, hv⟩
    · rintro ⟨_, ⟨⟩, rfl, hv⟩
      exact ⟨rfl, hv⟩
  | _ => simp [encodeEntry, Obstacle.here, Obstacle.under]

/-- An obstacle further in is not here. -/
theorem mapError_under_ne_here {cause : Unencodable} :
    x.mapError (Obstacle.under step) ≠ .error (.here cause) := by
  cases x <;> simp [Except.mapError, Obstacle.under, Obstacle.here]

/-- A value without parts is refused at its own place, for what it is. -/
theorem error_of_encodeLeaf {v : Value} (h : encodeLeaf v = .error e) :
    ∃ cause, e = .here cause ∧ cause.IsPlain := by
  cases v with
  | number x =>
    dsimp only [encodeLeaf] at h
    split_ifs at h
    cases h
    exact ⟨_, rfl, trivial⟩
  | undefined | symbol _ _ | function _ | object _ =>
    cases h
    exact ⟨_, rfl, trivial⟩
  | _ => cases h

end Under

end Obstacles

section Visits

variable {s : Store} {visited : List Ref} {root v : Value}

/-- A part of an object that is encoded within `visited` and the object itself, after the parts in
front of it have been. -/
inductive Enters (s : Store) (visited : List Ref) : Value → Step → Ref → Value → Prop
  | item {r : Ref} {o : Object} {vs : List Value} {i : ℕ} {v : Value} {js : List Json}
      (hr : s.get? r = some o) (ho : s.contents o = .items vs) (hfree : r ∉ visited)
      (hbefore : encodeItems (s.encodeWithin (r :: visited)) 0 (vs.take i) = .ok js)
      (hi : vs[i]? = some v) : Enters s visited (.object r) (.index i) r v
  | entry {r : Ref} {o : Object} {es : List (Value × Value)} {i : ℕ} {key : Text} {v : Value}
      {members : List (Text × Json)} (hr : s.get? r = some o) (ho : s.contents o = .entries es)
      (hfree : r ∉ visited)
      (hbefore : encodeEntries (s.encodeWithin (r :: visited)) (es.take i) = .ok members)
      (hi : es[i]? = some (.text key, v)) : Enters s visited (.object r) (.key key) r v

/-- What is entered is an object. -/
theorem Enters.eq_object {step : Step} {r : Ref} {part : Value}
    (h : s.Enters visited v step r part) : v = .object r := by
  cases h with
  | item _ _ _ _ _ | entry _ _ _ _ _ => rfl

/-- What is entered has not been visited. -/
theorem Enters.notMem {step : Step} {r : Ref} {part : Value}
    (h : s.Enters visited v step r part) : r ∉ visited := by
  cases h with
  | item _ _ hfree _ _ | entry _ _ hfree _ _ => exact hfree

/-- What a part is refused for, the object is refused for further in. -/
theorem Enters.encodeWithin_under {step : Step} {r : Ref} {part : Value} {e : Obstacle}
    (h : s.Enters visited v step r part) (hpart : s.encodeWithin (r :: visited) part = .error e) :
    s.encodeWithin visited v = .error (e.under step) := by
  cases h with
  | item hr ho hfree hbefore hi =>
    have herror := encodeItems_error_iff.mpr
      ⟨_, _, _, hi, hbefore, mapError_under_iff.mpr ⟨rfl, hpart⟩⟩
    rw [encodeWithin_object hr, ho]
    dsimp only
    rw [if_neg hfree, herror]
    rfl
  | entry hr ho hfree hbefore hi =>
    have herror := encodeEntries_error_iff.mpr
      ⟨_, _, _, hi, hbefore, encodeEntry_under_iff.mpr ⟨_, rfl, rfl, hpart⟩⟩
    rw [encodeWithin_object hr, ho]
    dsimp only
    rw [if_neg hfree, herror]
    rfl

/-- What an object is refused for further in is what one of its parts is refused for. -/
theorem enters_of_encodeWithin {r : Ref} {o : Object} {step : Step} {e : Obstacle}
    (hr : s.get? r = some o) (h : s.encodeWithin visited (.object r) = .error (e.under step)) :
    ∃ part, s.Enters visited (.object r) step r part ∧
      s.encodeWithin (r :: visited) part = .error e := by
  rw [encodeWithin_object hr] at h
  cases ho : s.contents o with
  | leaf v =>
    rw [ho] at h
    obtain ⟨_, hcause, -⟩ := error_of_encodeLeaf h
    cases hcause
  | none cause =>
    rw [ho] at h
    cases h
  | items vs =>
    rw [ho] at h
    dsimp only at h
    split_ifs at h with hfree
    · cases h
    · obtain ⟨i, part, js, hi, hbefore, hpart⟩ := encodeItems_error_iff.mp (map_error_iff.mp h)
      obtain ⟨rfl, hpart'⟩ := mapError_under_iff.mp hpart
      exact ⟨part, .item hr ho hfree hbefore hi, hpart'⟩
  | entries es =>
    rw [ho] at h
    dsimp only at h
    split_ifs at h with hfree
    · cases h
    · obtain ⟨i, ⟨key', part⟩, members, hi, hbefore, hentry⟩ :=
        encodeEntries_error_iff.mp (map_error_iff.mp h)
      obtain ⟨key, rfl, rfl, hpart⟩ := encodeEntry_under_iff.mp hentry
      exact ⟨part, .entry hr ho hfree hbefore hi, hpart⟩

/-- What a value is refused for further in is what one of its parts is refused for. -/
theorem encodeWithin_under_iff {step : Step} {e : Obstacle} :
    s.encodeWithin visited v = .error (e.under step) ↔
      ∃ r part, s.Enters visited v step r part ∧
        s.encodeWithin (r :: visited) part = .error e := by
  constructor
  · intro h
    by_cases hobject : ∃ r, v = .object r
    · obtain ⟨r, rfl⟩ := hobject
      cases hr : s.get? r with
      | none =>
        rw [encodeWithin_dangling hr] at h
        cases h
      | some o => exact ⟨r, enters_of_encodeWithin hr h⟩
    · rw [encodeWithin_leaf fun r hv => hobject ⟨r, hv⟩] at h
      obtain ⟨_, hcause, -⟩ := error_of_encodeLeaf h
      cases hcause
  · rintro ⟨r, part, henters, hpart⟩
    exact henters.encodeWithin_under hpart

/-- What a value is refused for at its own place: for what it is, for a key, or as a cycle. -/
theorem here_of_encodeWithin {cause : Unencodable}
    (h : s.encodeWithin visited v = .error (.here cause)) :
    cause.IsPlain ∨ (cause = .cycle ∧ ∃ r ∈ visited, v = .object r) ∨
      ∃ r o, v = .object r ∧ s.get? r = some o ∧ s.contents o = .none cause := by
  by_cases hobject : ∃ r, v = .object r
  -- What is no object is refused for what it is.
  swap
  · rw [encodeWithin_leaf fun r hv => hobject ⟨r, hv⟩] at h
    obtain ⟨_, ⟨⟩, hplain⟩ := error_of_encodeLeaf h
    exact .inl hplain
  -- An object is refused by what encoding finds in it.
  obtain ⟨r, rfl⟩ := hobject
  cases hr : s.get? r with
  | none =>
    rw [encodeWithin_dangling hr] at h
    cases h
    exact .inl trivial
  | some o =>
    rw [encodeWithin_object hr] at h
    cases ho : s.contents o with
    | leaf v =>
      rw [ho] at h
      obtain ⟨_, ⟨⟩, hplain⟩ := error_of_encodeLeaf h
      exact .inl hplain
    | none cause =>
      rw [ho] at h
      cases h
      exact .inr (.inr ⟨r, o, rfl, hr, ho⟩)
    | items vs =>
      rw [ho] at h
      dsimp only at h
      split_ifs at h with hmem
      · cases h
        exact .inr (.inl ⟨rfl, r, hmem, rfl⟩)
      -- An obstacle in an item stands under its index.
      · obtain ⟨i, part, js, -, -, hpart⟩ := encodeItems_error_iff.mp (map_error_iff.mp h)
        exact absurd hpart mapError_under_ne_here
    | entries es =>
      rw [ho] at h
      dsimp only at h
      split_ifs at h with hmem
      · cases h
        exact .inr (.inl ⟨rfl, r, hmem, rfl⟩)
      · obtain ⟨i, ⟨key, part⟩, members, -, -, hentry⟩ :=
          encodeEntries_error_iff.mp (map_error_iff.mp h)
        -- Only a key that is no text is an obstacle of the container itself.
        cases key with
        | text key => exact absurd (map_error_iff.mp hentry) mapError_under_ne_here
        | _ =>
          cases hentry
          exact .inl trivial

/-- A derived object is no cycle. -/
theorem derivedCause_ne_cycle (members : Entries Text Value) : s.derivedCause members ≠ .cycle := by
  unfold derivedCause
  split
  · nofun
  · rename_i v _
    cases s.nameOf? v <;> simp

/-- No object is a cycle by what it is. -/
theorem contents_ne_cycle {o : Object} : s.contents o ≠ .none .cycle := by
  cases o with
  | numberBox kind x => rcases kind with k | _ | _ <;> simp [contents]
  | derived members => simp [contents, derivedCause_ne_cycle]
  | _ => simp [contents]

/-- An object is refused as a cycle exactly within itself. -/
theorem encodeWithin_cycle_iff (hvisited : ∀ r ∈ visited, s.Container r) :
    s.encodeWithin visited v = .error (.here .cycle) ↔ ∃ r ∈ visited, v = .object r := by
  constructor
  · intro h
    obtain hplain | ⟨-, hmem⟩ | ⟨r, o, -, -, ho⟩ := here_of_encodeWithin h
    · cases hplain
    · exact hmem
    · exact absurd ho contents_ne_cycle
  · rintro ⟨r, hmem, rfl⟩
    exact encodeWithin_of_mem (hvisited r hmem) hmem

/-- What is encoded on the way to a value: every part after the parts in front of it, within the
objects passed. -/
inductive Visits (s : Store) (root : Value) : Path → List Ref → Value → Prop
  | root : Visits s root [] [] root
  | step {path : Path} {rs : List Ref} {v part : Value} {step : Step} {r : Ref}
      (h : Visits s root path rs v) (henters : s.Enters rs v step r part) :
      Visits s root (path ++ [step]) (r :: rs) part

section Path

variable {path : Path} {rs : List Ref}

/-- What is visited stands at the end of a trail. -/
theorem Visits.trail (h : s.Visits root path rs v) : s.Trail root path rs v := by
  induction h with
  | root => exact .root
  | step _ henters ih =>
    cases henters with
    | item hr ho _ _ hi => exact ih.step (.item hr ho hi)
    | entry hr ho _ _ hi => exact ih.step (.entry hr ho hi)

/-- A visit with no steps is for the root. -/
theorem Visits.eq_root (h : s.Visits root path rs v) (hpath : path = []) : rs = [] ∧ v = root := by
  cases h with
  | root => exact ⟨rfl, rfl⟩
  | step _ _ => exact absurd hpath (List.append_ne_nil_of_right_ne_nil _ (List.cons_ne_nil _ _))

/-- A refusal on the way is the obstacle of the root. -/
theorem Visits.encode_error (h : s.Visits root path rs v) {e : Obstacle}
    (hv : s.encodeWithin rs v = .error e) : s.encode root = .error ⟨path ++ e.path, e.cause⟩ := by
  induction h generalizing e with
  | root => exact hv
  | step _ henters ih =>
    have hparent := encodeWithin_under_iff.mpr ⟨_, _, henters, hv⟩
    rw [ih hparent, List.append_assoc]
    rfl

/-- What a visited value is refused for is the refusal of something visited. -/
theorem Visits.of_error (h : s.Visits root path rs v) {way : Path} {cause : Unencodable}
    (hv : s.encodeWithin rs v = .error ⟨way, cause⟩) :
    ∃ rs' w, s.Visits root (path ++ way) rs' w ∧ s.encodeWithin rs' w = .error (.here cause) := by
  induction way generalizing path rs v with
  | nil => exact ⟨rs, v, by rwa [List.append_nil], hv⟩
  | cons step way ih =>
    obtain ⟨r, part, henters, hpart⟩ := encodeWithin_under_iff (e := ⟨way, cause⟩).mp hv
    obtain ⟨rs', w, hvisits, hw⟩ := ih (h.step henters) hpart
    rw [List.append_assoc] at hvisits
    exact ⟨rs', w, hvisits, hw⟩

/-- The calls that are made are for what is visited, with the objects on the way marked. -/
theorem reaches_iff {seen : Finset Ref} :
    s.Reaches root path seen v ↔ ∃ rs, s.Visits root path rs v ∧ seen = rs.toFinset := by
  constructor
  -- Either way, what stands before a part is walked with the result it is encoded to.
  · intro h
    induction h with
    | root => exact ⟨[], .root, rfl⟩
    | item _ hr ho hfree hbefore hi ih =>
      obtain ⟨rs, hvisits, rfl⟩ := ih
      have hcontainers := containers_cons hvisits.trail.containers ⟨_, hr, .inl ⟨_, ho⟩⟩
      rw [← List.toFinset_cons, walkItems_iff hcontainers] at hbefore
      obtain ⟨hjs, rfl⟩ := hbefore
      exact ⟨_, hvisits.step (.item hr ho (notMem_of_toFinset rfl hfree) hjs.symm hi), rfl⟩
    | entry _ hr ho hfree hbefore hi ih =>
      obtain ⟨rs, hvisits, rfl⟩ := ih
      have hcontainers := containers_cons hvisits.trail.containers ⟨_, hr, .inr ⟨_, ho⟩⟩
      rw [← List.toFinset_cons, walkEntries_iff hcontainers] at hbefore
      obtain ⟨hmembers, rfl⟩ := hbefore
      exact ⟨_, hvisits.step (.entry hr ho (notMem_of_toFinset rfl hfree) hmembers.symm hi), rfl⟩
  · rintro ⟨rs, h, rfl⟩
    induction h with
    | root => exact .root
    | step hvisits henters ih =>
      cases henters with
      | item hr ho hfree hbefore hi =>
        have hcontainers := containers_cons hvisits.trail.containers ⟨_, hr, .inl ⟨_, ho⟩⟩
        have hwalk := (walkItems_iff hcontainers).mpr ⟨hbefore.symm, rfl⟩
        rw [List.toFinset_cons] at hwalk ⊢
        exact ih.item hr ho (mt List.mem_toFinset.mp hfree) hwalk hi
      | entry hr ho hfree hbefore hi =>
        have hcontainers := containers_cons hvisits.trail.containers ⟨_, hr, .inr ⟨_, ho⟩⟩
        have hwalk := (walkEntries_iff hcontainers).mpr ⟨hbefore.symm, rfl⟩
        rw [List.toFinset_cons] at hwalk ⊢
        exact ih.entry hr ho (mt List.mem_toFinset.mp hfree) hwalk hi

/-- The marks of a call are the objects on the way to it. It has one outcome, with the same marks,
which is a cycle exactly if the call is for one of these objects. -/
theorem Reaches.trail {seen : Finset Ref} (h : s.Reaches root path seen v) :
    ∃ rs, s.Trail root path rs v ∧ seen = rs.toFinset ∧
      (∃ result, ∀ result' seen', s.Walk seen v result' seen' ↔ result' = result ∧ seen' = seen) ∧
      (s.Walk seen v (.error (.here .cycle)) seen ↔ ∃ r ∈ rs, v = .object r) := by
  obtain ⟨rs, hvisits, rfl⟩ := reaches_iff.mp h
  have hcontainers := hvisits.trail.containers
  refine ⟨rs, hvisits.trail, rfl, ⟨_, fun result' seen' => walk_iff hcontainers⟩, ?_⟩
  rw [walk_iff hcontainers, ← encodeWithin_cycle_iff hcontainers, eq_comm]
  exact and_iff_left rfl

end Path

end Visits

end Store

end TypedReads
