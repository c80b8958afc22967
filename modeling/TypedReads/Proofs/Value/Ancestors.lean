import TypedReads.Proofs.Value.Agreement

/-!
# Encoding within other ancestors

A value is encoded within the objects around it, and refused as a cycle where it is one of them. What is
encoded within some objects has no cycle (`Store.acyclic_of_encodeWithin`), so it is encoded alike within
all objects that hold it (`Store.encodeWithin_of_holds`). This is why a walk that comes to a part does so
within other objects too, the parts in front being no obstacle there either (`Store.Enters.transfer`). Two
objects with the same contents that are encoded differently have a first part that is
(`Store.exists_enters_of_ne`).
-/

namespace TypedReads

namespace Store

variable {s : Store}

/-- What is encoded within some objects has no cycle and leads back to no container among them. -/
theorem acyclic_of_encodeWithin (s : Store) (visited : List Ref) {v : Value} {j : Json}
    (h : s.encodeWithin visited v = .ok j) :
    s.Acyclic v ∧ ∀ a ∈ visited, s.Container a → ¬ s.Within v (.object a) := by
  have hparts : ∀ part, s.Part v part →
      s.Acyclic part ∧ ∃ r, v = .object r ∧
        ∀ a ∈ r :: visited, s.Container a → ¬ s.Within part (.object a) := by
    intro part hpart
    obtain ⟨r, o, rfl, hr, hmem⟩ := hpart
    obtain ⟨hnot, j', hj'⟩ := encoded_of_part h (.of_get? hr hmem)
    have hlt := unvisited_cons_lt (mem_refs_of_get? hr) hnot
    obtain ⟨hacyclic, hapart⟩ := acyclic_of_encodeWithin s (r :: visited) hj'
    exact ⟨hacyclic, r, rfl, hapart⟩
  refine ⟨acyclic_of_acc ⟨_, fun part hpart => (hparts part hpart).1.acc⟩, ?_⟩
  intro a ha hcontainer hwithin
  rcases hwithin.cases_head with rfl | ⟨part, hpart, hrest⟩
  · rw [encodeWithin_of_mem hcontainer ha] at h
    cases h
  · obtain ⟨-, r, -, hapart⟩ := hparts part hpart
    exact hapart a (List.mem_cons_of_mem r ha) hcontainer hrest
termination_by unvisited s.refs visited

/-- What is encoded within some objects is encoded alike within all objects that hold it. -/
theorem encodeWithin_of_holds {visited visited' : List Ref} {v : Value} {j : Json}
    (hvisited : ∀ a ∈ visited, s.Container a)
    (hholds : ∀ a ∈ visited', Relation.TransGen s.Part (.object a) v)
    (h : s.encodeWithin visited v = .ok j) : s.encodeWithin visited' v = .ok j := by
  obtain ⟨hacyclic, hapart⟩ := acyclic_of_encodeWithin s visited h
  have hapart' : s.Apart visited' v := fun a ha hwithin =>
    hacyclic v .refl (.trans_right hwithin (hholds a ha))
  rw [encodeWithin_eq hacyclic hapart', ← h]
  exact (encodeWithin_eq hacyclic fun a ha => hapart a ha (hvisited a ha)).symm

section SameContents

/-- Two places whose objects hold the same. -/
def SameContents (s : Store) (r r' : Ref) : Prop :=
  ∃ o o', s.get? r = some o ∧ s.get? r' = some o' ∧ s.contents o = s.contents o'

variable {r r' : Ref} {visited visited' : List Ref} {step : Step} {part : Value}

/-- Places have the same contents from either side. -/
theorem SameContents.symm (h : s.SameContents r r') : s.SameContents r' r := by
  obtain ⟨o, o', hr, hr', ho⟩ := h
  exact ⟨o', o, hr', hr, ho.symm⟩

/-- A place has the same contents as itself. -/
theorem sameContents_self {o : Object} (hr : s.get? r = some o) : s.SameContents r r :=
  ⟨o, o, hr, hr, rfl⟩

/-- What is entered is there. -/
theorem Enters.sameContents (h : s.Enters visited (.object r) step r part) :
    s.SameContents r r := by
  cases h with
  | item hr _ _ _ _ | entry hr _ _ _ _ => exact sameContents_self hr

/-- A part that the walk comes to in one object it comes to in any other with the same contents, if
the objects around hold the other. -/
theorem Enters.transfer (h : s.Enters visited (.object r) step r part)
    (hsame : s.SameContents r r') (hvisited : ∀ a ∈ visited, s.Container a) (hfree : r' ∉ visited')
    (hholds : ∀ a ∈ visited', Relation.TransGen s.Part (.object a) (.object r')) :
    s.Enters visited' (.object r') step r' part := by
  obtain ⟨o, o', ho, ho', hcontents⟩ := hsame
  -- What is in front is held by the other object and by all around it.
  have hbefore : s.Container r → ∀ w ∈ s.parts o', ∀ j, s.encodeWithin (r :: visited) w = .ok j →
      s.encodeWithin (r :: visited) w = s.encodeWithin (r' :: visited') w := by
    intro hr w hw j hj
    have hpart := Part.of_get? ho' hw
    refine hj.trans (encodeWithin_of_holds (containers_cons hvisited hr) ?_ hj).symm
    exact List.forall_mem_cons.mpr ⟨.single hpart, fun a ha => (hholds a ha).tail hpart⟩
  cases h with
  | item hr hc hnot hitems hi =>
    cases hr.symm.trans ho
    have hcontainer : s.Container r := ⟨_, hr, .inl ⟨_, hc⟩⟩
    rw [hcontents] at hc
    refine .item ho' hc hfree (Eq.trans ?_ hitems) hi
    refine (encodeItems_congr (fun w hw => ?_) 0).symm
    obtain ⟨j, -, hj⟩ := exists_of_forall₂ (forall₂_of_encodeItems hitems) hw
    exact hbefore hcontainer w (mem_parts_of_items hc (List.mem_of_mem_take hw)) j hj
  | entry hr hc hnot hentries hi =>
    cases hr.symm.trans ho
    have hcontainer : s.Container r := ⟨_, hr, .inr ⟨_, hc⟩⟩
    rw [hcontents] at hc
    refine .entry ho' hc hfree (Eq.trans ?_ hentries) hi
    refine (encodeEntries_congr fun e he => ?_).symm
    obtain ⟨m, -, -, hj⟩ := exists_of_forall₂ (forall₂_of_encodeEntries hentries) he
    exact hbefore hcontainer e.2 (mem_parts_of_entries hc (List.mem_of_mem_take he)).2 _ hj

/-- Where two objects with the same contents are encoded differently, both walks come to a part that
is encoded differently within the one and within the other. -/
theorem exists_enters_of_ne (hsame : s.SameContents r r') (hfree : r ∉ visited)
    (hfree' : r' ∉ visited')
    (hne : s.encodeWithin visited (.object r) ≠ s.encodeWithin visited' (.object r')) :
    ∃ step part, s.Enters visited (.object r) step r part ∧
      s.Enters visited' (.object r') step r' part ∧
      s.encodeWithin (r :: visited) part ≠ s.encodeWithin (r' :: visited') part := by
  obtain ⟨o, o', hr, hr', hcontents⟩ := hsame
  rw [encodeWithin_contents hr hfree, encodeWithin_contents hr' hfree', ← hcontents] at hne
  cases ho : s.contents o with
  -- What has no parts is encoded alike whatever is around it.
  | leaf v | none cause =>
    rw [ho] at hne
    exact absurd rfl hne
  -- Of the parts of the other two, the first that is encoded differently is entered by both walks.
  | items vs =>
    rw [ho] at hne
    have hitems : encodeItems (s.encodeWithin (r :: visited)) 0 vs ≠
        encodeItems (s.encodeWithin (r' :: visited')) 0 vs :=
      fun heq => hne (congrArg (·.map Json.array) heq)
    obtain ⟨i, part, js, hi, hbefore, hbefore', hpart⟩ :=
      exists_ne_of_run_ne encodeItems_bind encodeItems_bind (fun _ => rfl) (fun _ => rfl) hitems
    rw [Nat.zero_add] at hpart
    exact ⟨.index i, part, .item hr ho hfree hbefore hi, .item hr' (hcontents ▸ ho) hfree' hbefore' hi,
      fun heq => hpart (by rw [heq])⟩
  | entries es =>
    rw [ho] at hne
    have hentries : encodeEntries (s.encodeWithin (r :: visited)) es ≠
        encodeEntries (s.encodeWithin (r' :: visited')) es :=
      fun heq => hne (congrArg (·.map Json.object) heq)
    obtain ⟨i, ⟨key, part⟩, members, hi, hbefore, hbefore', hentry⟩ :=
      exists_ne_of_run_ne (k := 0) (fun _ => encodeEntries_bind) (fun _ => encodeEntries_bind)
        (fun _ => rfl) (fun _ => rfl) hentries
    -- A key that is no text is refused before its part is encoded.
    cases key with
    | text key =>
      exact ⟨.key key, part, .entry hr ho hfree hbefore hi,
        .entry hr' (hcontents ▸ ho) hfree' hbefore' hi,
        fun heq => hentry (by rw [encodeEntry, encodeEntry, heq])⟩
    | _ => exact absurd rfl hentry

end SameContents

end Store

end TypedReads
