import TypedReads.Proofs.Command.Flags

/-!
# Which command lines are accepted

A command line is accepted exactly if it is one of the grammar with a document, and with a key where one
is to be shown; each of its settings is then the last one made of its kind (`parse_eq_ok_iff_groups`).
Whatever is not accepted is refused with an error, but for one case: where the reading comes to a flag
with an inherited name, it faults (`parse_faults_at_inherited`).
-/

namespace TypedReads

section Actions

/-- The action of a command line is read as the grammar has it. -/
theorem parseAction_eq_ok_iff {arguments rest : List Text} {action : Action} :
    parseAction arguments = .ok (action, rest) ↔ Begins arguments action rest := by
  constructor
  · intro h
    cases arguments with
    | nil =>
      cases h
      exact .omitted (by simp)
    | cons first arguments =>
      unfold parseAction at h
      dsimp only at h
      -- A flag in front leaves the action to its default; anything else has to be the name of one.
      split_ifs at h with hflag
      · cases h
        exact .omitted (by simpa using isFlag_iff.mp hflag)
      · cases haction : Action.ofName? first with
        | none =>
          rw [haction] at h
          cases h
        | some found =>
          rw [haction] at h
          cases h
          rw [Action.ofName?_eq_some_iff.mp haction]
          exact .named action rest
  · intro h
    cases h with
    | named =>
      have hflag : ¬ isFlag (units action.name) = true := by cases action <;> decide
      unfold parseAction
      dsimp only
      rw [if_neg hflag, Action.ofName?_eq_some_iff.mpr rfl]
    | omitted hfirst =>
      cases arguments with
      | nil => rfl
      | cons first arguments => exact if_pos (isFlag_iff.mpr (hfirst first rfl))

/-- A command line whose action is not read is refused. -/
theorem begins_or_refused (arguments : List Text) :
    (∃ action rest, Begins arguments action rest) ∨
      ∃ e, Invocation.parse arguments = .error (.refused e) := by
  cases haction : parseAction arguments with
  | ok found => exact .inl ⟨found.1, found.2, parseAction_eq_ok_iff.mp haction⟩
  | error e =>
    refine .inr ⟨e, ?_⟩
    unfold Invocation.parse
    rw [haction]

end Actions

section Settings

/-- What the last setting of a kind holds, if one is made at all; `part` is the kind. -/
def lastMade {α : Type} (part : Setting → Option α) (made : List Setting) : Option α :=
  (made.filterMap part).getLast?

/-- One more setting counts if it makes the part. -/
theorem lastMade_concat {α : Type} (part : Setting → Option α) (made : List Setting)
    (setting : Setting) :
    lastMade part (made ++ [setting]) = (part setting).or (lastMade part made) := by
  unfold lastMade
  rw [List.filterMap_append, List.getLast?_append]
  cases hpart : part setting <;> simp [hpart]

/-- The last setting of each kind, or the default where none is made. -/
def Settings.lastOf (made : List Setting) : Settings where
  file := lastMade (fun | .file path => some path | _ => none) made
  key := lastMade (fun | .key key => some key | _ => none) made
  target := (lastMade (fun | .target target => some target | _ => none) made).getD .string
  narrowing := lastMade (fun | .narrowing mode => some mode | _ => none) made
  indent := lastMade (fun | .indent width => some width | _ => none) made
  config := lastMade (fun | .config path => some path | _ => none) made
  json := decide (.json ∈ made)
  silent := decide (.silent ∈ made)
  verbose := decide (.verbose ∈ made)

/-- Settings made one after the other leave the last of each kind. -/
theorem foldl_apply (made : List Setting) : made.foldl Settings.apply {} = .lastOf made := by
  induction made using List.reverseRecOn with
  | nil => rfl
  | append_singleton made setting ih =>
    rw [List.foldl_append, ih, List.foldl_cons, List.foldl_nil]
    cases setting <;> simp [Settings.apply, Settings.lastOf, lastMade_concat]

/-- A kind has a last setting exactly if one of it is made. -/
theorem isSome_lastMade_iff {α : Type} {part : Setting → Option α} {kind : α → Setting}
    (hkind : ∀ setting a, part setting = some a ↔ setting = kind a) {made : List Setting} :
    (lastMade part made).isSome = true ↔ ∃ a, kind a ∈ made := by
  unfold lastMade
  constructor
  · intro h
    obtain ⟨a, ha⟩ := Option.isSome_iff_exists.mp h
    obtain ⟨setting, hmem, hpart⟩ := List.mem_filterMap.mp (List.mem_of_getLast? ha)
    exact ⟨a, (hkind setting a).mp hpart ▸ hmem⟩
  · rintro ⟨a, hmem⟩
    have hfound : a ∈ made.filterMap part := List.mem_filterMap.mpr ⟨_, hmem, (hkind _ a).mpr rfl⟩
    rw [Option.isSome_iff_ne_none, Ne, List.getLast?_eq_none_iff]
    exact List.ne_nil_of_mem hfound

/-- A file is set exactly if some setting names one. -/
theorem isSome_lastOf_file {made : List Setting} :
    (Settings.lastOf made).file.isSome = true ↔ ∃ path, Setting.file path ∈ made :=
  isSome_lastMade_iff fun setting path => by cases setting <;> simp

/-- A key is set exactly if some setting names one. -/
theorem isSome_lastOf_key {made : List Setting} :
    (Settings.lastOf made).key.isSome = true ↔ ∃ key, Setting.key key ∈ made :=
  isSome_lastMade_iff fun setting key => by cases setting <;> simp

/-- A configuration is set exactly if some setting names one. -/
theorem isSome_lastOf_config {made : List Setting} :
    (Settings.lastOf made).config.isSome = true ↔ ∃ path, Setting.config path ∈ made :=
  isSome_lastMade_iff fun setting path => by cases setting <;> simp

/-- Settings are complete if they name a document, and a key where one is to be shown. -/
theorem Settings.complete_eq_ok_iff {s : Settings} {action : Action} {i : Invocation} :
    s.complete action = .ok i ↔
      i.action = action ∧ i.settings = s ∧ s.file = some i.file ∧
        (action = .get → s.key.isSome = true) := by
  obtain ⟨action', path, settings⟩ := i
  unfold complete
  cases s.file with
  | none => simp
  | some found =>
    have hkey : (action = .get → s.key.isSome = true) ↔ ¬ (action = .get ∧ s.key = none) := by
      rw [not_and, Option.isSome_iff_ne_none]
    rw [hkey]
    dsimp only
    split_ifs with hmissing
    · simp [hmissing]
    · rw [Except.ok.injEq, Invocation.mk.injEq, and_iff_left hmissing, Option.some.injEq]
      constructor
      · rintro ⟨haction, hpath, hsettings⟩
        exact ⟨haction.symm, hsettings.symm, hpath⟩
      · rintro ⟨haction, hsettings, hpath⟩
        exact ⟨haction.symm, hpath, hsettings.symm⟩

end Settings

section Parse

section Begun

variable {arguments rest : List Text} {action : Action} (h : Begins arguments action rest)
include h

/-- A command line whose flags are read makes their settings, if these are complete. -/
theorem Begins.parse_of_made {made : List Setting} (hflags : parseFlags rest = .ok made) :
    Invocation.parse arguments = ((Settings.lastOf made).complete action).mapError .refused := by
  unfold Invocation.parse
  rw [parseAction_eq_ok_iff.mpr h]
  dsimp only
  rw [hflags]
  dsimp only
  rw [foldl_apply]

/-- A command line whose flags are not read fails as they do. -/
theorem Begins.parse_of_error {e : Failure UsageError} (hflags : parseFlags rest = .error e) :
    Invocation.parse arguments = .error e := by
  unfold Invocation.parse
  rw [parseAction_eq_ok_iff.mpr h]
  dsimp only
  rw [hflags]

end Begun

/-- Where a flag with an inherited name stands behind the action and groups. -/
def ReachesInherited (arguments : List Text) : Prop :=
  ∃ action rest, Begins arguments action rest ∧ FlagsFault rest

/-- What reading a command line may do: accept one of the grammar whose settings are complete, fault at an
inherited name, or refuse. -/
inductive ParseOutcome (arguments : List Text) : Except (Failure UsageError) Invocation → Prop
  | accepted {rest : List Text} {made : List Setting} {i : Invocation}
      (hbegins : Begins arguments i.action rest) (hgroups : Groups rest made)
      (hcomplete : (Settings.lastOf made).complete i.action = .ok i) : ParseOutcome arguments (.ok i)
  | fault (h : ReachesInherited arguments) : ParseOutcome arguments (.error (.fault .inheritedFlag))
  | refused (e : UsageError) : ParseOutcome arguments (.error (.refused e))

/-- Parsing a command line has the outcome that the grammar gives it. -/
theorem parse_outcome (arguments : List Text) : ParseOutcome arguments (Invocation.parse arguments) := by
  rcases begins_or_refused arguments with ⟨action, rest, hbegins⟩ | ⟨e, hrefused⟩
  · have houtcome := parseFlags_outcome rest
    generalize hflags : parseFlags rest = r at houtcome
    cases houtcome with
    | @read made hgroups =>
      rw [hbegins.parse_of_made hflags]
      cases hcomplete : (Settings.lastOf made).complete action with
      | error e => exact .refused e
      | ok i =>
        obtain ⟨rfl, -⟩ := Settings.complete_eq_ok_iff.mp hcomplete
        exact .accepted hbegins hgroups hcomplete
    | fault hfault =>
      rw [hbegins.parse_of_error hflags]
      exact .fault ⟨action, rest, hbegins, hfault⟩
    | refused e =>
      rw [hbegins.parse_of_error hflags]
      exact .refused e
  · rw [hrefused]
    exact .refused e

/-- A command line is accepted if its flags are groups and what they make is complete. -/
theorem parse_eq_ok_iff {arguments : List Text} {i : Invocation} :
    Invocation.parse arguments = .ok i ↔
      ∃ rest made, Begins arguments i.action rest ∧ Groups rest made ∧
        (Settings.lastOf made).complete i.action = .ok i := by
  constructor
  · intro h
    have houtcome := parse_outcome arguments
    rw [h] at houtcome
    cases houtcome with
    | accepted hbegins hgroups hcomplete => exact ⟨_, _, hbegins, hgroups, hcomplete⟩
  · rintro ⟨rest, made, hbegins, hgroups, hcomplete⟩
    rw [hbegins.parse_of_made (parseFlags_eq_ok_iff.mpr hgroups), hcomplete]
    rfl

/-- Reading a command line faults where it reaches a flag with an inherited name. -/
theorem parse_of_reachesInherited {arguments : List Text} (h : ReachesInherited arguments) :
    Invocation.parse arguments = .error (.fault .inheritedFlag) := by
  obtain ⟨action, rest, hbegins, hfault⟩ := h
  exact hbegins.parse_of_error hfault.parseFlags

/-- In an accepted command line every argument that starts with a minus sign is a known flag. -/
theorem known_of_parse {arguments : List Text} {i : Invocation}
    (h : Invocation.parse arguments = .ok i) {argument : Text} (hmem : argument ∈ arguments)
    (hflag : argument.head? = some (unit '-')) : KnownFlag argument := by
  obtain ⟨rest, made, hbegins, hgroups, -⟩ := parse_eq_ok_iff.mp h
  refine hgroups.known ?_ hflag
  generalize i.action = action at hbegins
  cases hbegins with
  | omitted => exact hmem
  | named =>
    refine (List.mem_cons.mp hmem).resolve_left ?_
    rintro rfl
    have hname : ∀ action : Action, (units action.name).head? ≠ some (unit '-') := by
      intro action
      cases action <;> decide
    exact hname _ hflag

end Parse

/-- A command line is accepted exactly if it is an action, or none, and then groups, some of which names a
document, and some a key where one is to be shown. The action is the one named, or to inspect; every
setting is the last one made of its kind, or the default; and a configuration file counts as named exactly
if some group names one. -/
theorem parse_eq_ok_iff_groups (arguments : List Text) (i : Invocation) :
    Invocation.parse arguments = .ok i ↔
      ∃ rest made, Begins arguments i.action rest ∧ Groups rest made ∧
        (∃ path, Setting.file path ∈ made) ∧ (i.action = .get → ∃ key, Setting.key key ∈ made) ∧
        i.settings = .lastOf made ∧ i.settings.file = some i.file ∧
        (i.settings.config.isSome = true ↔ ∃ path, Setting.config path ∈ made) := by
  rw [parse_eq_ok_iff]
  constructor
  · rintro ⟨rest, made, hbegins, hgroups, hcomplete⟩
    obtain ⟨-, hsettings, hfile, hkey⟩ := Settings.complete_eq_ok_iff.mp hcomplete
    have hpath : ∃ path, Setting.file path ∈ made := isSome_lastOf_file.mp (by rw [hfile]; rfl)
    refine ⟨rest, made, hbegins, hgroups, hpath, fun hget => isSome_lastOf_key.mp (hkey hget),
      hsettings, ?_, ?_⟩
    · rw [hsettings, hfile]
    · rw [hsettings]
      exact isSome_lastOf_config
  · rintro ⟨rest, made, hbegins, hgroups, -, hkey, hsettings, hfile, -⟩
    rw [hsettings] at hfile
    exact ⟨rest, made, hbegins, hgroups, Settings.complete_eq_ok_iff.mpr
      ⟨rfl, hsettings, hfile, fun hget => isSome_lastOf_key.mpr (hkey hget)⟩⟩

/-- The last document and the last mode count, a switch ignores its value, and a value behind an equals sign
may start with a minus sign. -/
example : Invocation.parse [units "--strict=no", units "--file", units "a", units "--narrowing=truncate",
    units "--file=-"] =
      .ok ⟨.inspect, units "-", { file := some (units "-"), narrowing := some .truncate }⟩ := by
  rfl

/-- Reading a command line faults if it comes to a flag with an inherited name, and otherwise accepts or
refuses. An argument that starts with a minus sign and is no known flag is never accepted, wherever it
stands, so it is refused if no inherited name is reached; and if it is reached itself, and its name is not
inherited, it is refused as the unknown flag that it is. -/
theorem parse_faults_at_inherited (arguments : List Text) :
    (ReachesInherited arguments →
        Invocation.parse arguments = .error (.fault .inheritedFlag)) ∧
      (¬ ReachesInherited arguments →
        (∃ i, Invocation.parse arguments = .ok i) ∨
          ∃ e, Invocation.parse arguments = .error (.refused e)) ∧
      (∀ flag ∈ arguments, flag.head? = some (unit '-') → ¬ KnownFlag flag →
        ¬ ReachesInherited arguments → ∃ e, Invocation.parse arguments = .error (.refused e)) ∧
      ∀ action before made flag after, Begins arguments action (before ++ flag :: after) →
        Groups before made → flag.head? = some (unit '-') → ¬ KnownFlag flag → ¬ InheritedFlag flag →
        Invocation.parse arguments = .error (.refused (.unknownFlag (shownFlag flag))) := by
  -- The outcomes of parsing are disjoint, and only one of them is a fault.
  have hanswer : ¬ ReachesInherited arguments → (∃ i, Invocation.parse arguments = .ok i) ∨
      ∃ e, Invocation.parse arguments = .error (.refused e) := by
    intro hreaches
    have houtcome := parse_outcome arguments
    generalize hparse : Invocation.parse arguments = r at houtcome
    cases houtcome with
    | accepted => exact .inl ⟨_, rfl⟩
    | fault h => exact absurd h hreaches
    | refused e => exact .inr ⟨e, rfl⟩
  refine ⟨parse_of_reachesInherited, hanswer, ?_, ?_⟩
  · intro flag hmem hflag hknown hreaches
    refine (hanswer hreaches).resolve_left ?_
    rintro ⟨i, hparse⟩
    exact hknown (known_of_parse hparse hmem hflag)
  · intro action before made flag after hbegins hbefore hflag hknown hinherited
    exact hbegins.parse_of_error (parseFlags_unknown hbefore hflag hknown hinherited after)

/-- A flag with an inherited name faults where it stands first and where it follows a group, and behind a
group a flag with one minus sign is refused. -/
theorem parse_faults_at_constructor :
    Invocation.parse [units "--constructor"] = .error (.fault .inheritedFlag) ∧
      Invocation.parse [units "get", units "--json", units "--constructor=a"] =
        .error (.fault .inheritedFlag) ∧
      Invocation.parse [units "get", units "--json", units "-b"] =
        .error (.refused (.unknownFlag (units "-b"))) := by
  have hgroups : Groups [units "--json"] [Switch.json.setting] := .cons (.switch .json none) .nil
  have hfirst : InheritedFlag (units "--constructor") :=
    ⟨"constructor", by decide, none, by decide⟩
  have hlater : InheritedFlag (units "--constructor=a") :=
    ⟨"constructor", by decide, some (units "a"), by decide⟩
  -- Every flag that has a name starts with two minus signs.
  have hshort : ∀ name inline, units "-b" ≠ flagArgument name inline := by
    intro name inline h
    have hstart := startsWith_flagArgument name inline
    rw [← h] at hstart
    revert hstart
    decide
  refine ⟨(parse_faults_at_inherited _).1 ?_, (parse_faults_at_inherited _).1 ?_,
    (parse_faults_at_inherited _).2.2.2 .get [units "--json"] _ (units "-b") [] (.named .get _) hgroups
      (by decide) ?_ ?_⟩
  · exact ⟨.inspect, _, .omitted (by decide), [], [], _, [], rfl, .nil, hfirst⟩
  · exact ⟨.get, _, .named .get _, _, _, _, [], rfl, hgroups, hlater⟩
  · rintro (⟨switch, inline, h⟩ | ⟨flag, inline, h⟩)
    · exact hshort _ _ h
    · exact hshort _ _ h
  · rintro ⟨name, -, inline, h⟩
    exact hshort _ _ h

end TypedReads
