import Mathlib.Data.List.TakeWhile
import TypedReads.Proofs.Command.Grammar

/-!
# Reading flags

What one step of reading flags does is said once, in `readFlag_outcome`: it takes a group of the grammar
whole, faults at a flag with an inherited name, or refuses. A group is read whatever follows it
(`Group.parseFlags_append`), so the steps add up to the same three outcomes of a whole run, in
`parseFlags_outcome`: the arguments are groups throughout, or a flag with an inherited name stands behind
some, or they are refused.
-/

namespace TypedReads

section Arguments

/-- The argument of a flag starts with two minus signs. -/
theorem flagArgument_eq (name : Text) (inline : Option Text) :
    flagArgument name inline = unit '-' :: unit '-' :: (flagArgument name inline).drop 2 := by
  cases inline <;> rfl

/-- A flag is what begins with a dash. -/
theorem isFlag_iff {argument : Text} : isFlag argument = true ↔ argument.head? = some (unit '-') :=
  decide_eq_true_iff

/-- The argument of a flag is one. -/
theorem isFlag_flagArgument (name : Text) (inline : Option Text) :
    isFlag (flagArgument name inline) = true := by
  rw [flagArgument_eq]
  rfl

/-- It begins with two dashes. -/
theorem startsWith_flagArgument (name : Text) (inline : Option Text) :
    (flagArgument name inline).startsWith (units "--") = true := by
  rw [flagArgument_eq]
  rfl

/-- A name without an equals sign and the value behind it are split again. -/
theorem splitFlag_flagArgument {name : Text} (h : unit '=' ∉ name) (inline : Option Text) :
    splitFlag ((flagArgument name inline).drop 2) = (name, inline) := by
  have hname : ∀ u ∈ name, decide (u ≠ unit '=') = true := fun u hu =>
    decide_eq_true fun heq => h (heq ▸ hu)
  unfold splitFlag
  cases inline with
  | none =>
    have hdrop : (flagArgument name none).drop 2 = name := rfl
    rw [hdrop, List.takeWhile_eq_self_iff.mpr hname, List.dropWhile_eq_nil_iff.mpr hname]
  | some value =>
    have hdrop : (flagArgument name (some value)).drop 2 = name ++ unit '=' :: value := rfl
    rw [hdrop, List.takeWhile_append_of_pos hname, List.dropWhile_append_of_pos hname]
    simp

/-- A flag is shown without its value. -/
theorem shownFlag_flagArgument {name : Text} (h : unit '=' ∉ name) (inline : Option Text) :
    shownFlag (flagArgument name inline) = units "--" ++ name := by
  have hname : ∀ u ∈ units "--" ++ name, decide (u ≠ unit '=') = true := by
    intro u hu
    refine decide_eq_true fun heq => ?_
    rcases List.mem_append.mp (heq ▸ hu) with hmarks | hmem
    · revert hmarks
      decide
    · exact h hmem
  unfold shownFlag
  rw [if_pos (startsWith_flagArgument name inline)]
  cases inline with
  | none => exact List.takeWhile_eq_self_iff.mpr hname
  | some value =>
    unfold flagArgument
    dsimp only
    rw [List.takeWhile_append_of_pos hname]
    simp

/-- What starts with two minus signs is the argument of a flag, whose name ends in front of the first
equals sign. -/
theorem exists_flagArgument {argument : Text} (h : argument.startsWith (units "--") = true) :
    ∃ name inline, unit '=' ∉ name ∧ argument = flagArgument name inline := by
  obtain ⟨body, rfl⟩ := List.isPrefixOf_iff_prefix.mp h
  have hname : unit '=' ∉ body.takeWhile (· ≠ unit '=') := by
    intro hmem
    have hne := List.mem_takeWhile_imp hmem
    simp at hne
  have hbody := List.takeWhile_append_dropWhile (p := fun u => u ≠ unit '=') (l := body)
  have hhead := List.head?_dropWhile_not (fun u => u ≠ unit '=') body
  cases hrest : body.dropWhile fun u => u ≠ unit '=' with
  | nil =>
    rw [hrest, List.append_nil] at hbody
    exact ⟨_, none, hname, by rw [flagArgument, hbody]⟩
  | cons u value =>
    rw [hrest] at hbody hhead
    have hu : u = unit '=' := by simpa using hhead
    rw [hu] at hbody
    exact ⟨_, some value, hname, by rw [flagArgument, List.append_assoc, hbody]⟩

end Arguments

section Step

/-- A flag is looked up by its name, and reads its value then if it has one. -/
theorem readFlag_flagArgument {name : Text} (h : unit '=' ∉ name) (inline next : Option Text) :
    readFlag (flagArgument name inline) next =
      match Flag.ofName? name with
      | some (_, .switch setting) => .ok ⟨setting, false⟩
      | some (shown, .valued read) =>
        match flagValue shown inline next with
        | .error e => .error (.refused e)
        | .ok (value, taken) =>
          match read value with
          | .error e => .error (.refused e)
          | .ok setting => .ok ⟨setting, taken⟩
      | none =>
        if Flag.isInherited name then .error (.fault .inheritedFlag)
        else .error (.refused (.unknownFlag (units "--" ++ name))) := by
  unfold readFlag
  rw [isFlag_flagArgument, startsWith_flagArgument, splitFlag_flagArgument h]
  rfl

/-- The name of a switch has no equals sign. -/
theorem Switch.notMem_name (switch : Switch) : unit '=' ∉ units switch.name := by
  cases switch <;> decide

/-- Nor has that of a flag with a value. -/
theorem ValueFlag.notMem_name (flag : ValueFlag) : unit '=' ∉ units flag.name := by
  cases flag <;> decide

/-- A switch is read whatever is written behind it. -/
theorem readFlag_switch (switch : Switch) (inline next : Option Text) :
    readFlag (flagArgument (units switch.name) inline) next = .ok ⟨switch.setting, false⟩ := by
  rw [readFlag_flagArgument switch.notMem_name, Flag.ofName?_switch]

/-- The value of a flag is the one written in its argument, or else the next argument, unless that
starts with a minus sign. -/
theorem flagValue_eq_ok_iff {shown : String} {inline next : Option Text} {value : Text}
    {taken : Bool} :
    flagValue shown inline next = .ok (value, taken) ↔
      inline = some value ∧ taken = false ∨
        inline = none ∧ next = some value ∧ value.head? ≠ some (unit '-') ∧ taken = true := by
  cases inline with
  | some inline => simp [flagValue, eq_comm]
  | none =>
    cases next with
    | none => simp [flagValue]
    -- The next argument is the value unless it is a flag itself.
    | some next =>
      by_cases hflag : isFlag next = true
      · have hhead := isFlag_iff.mp hflag
        have hvalue : flagValue shown none (some next) = .error (.missingValue shown) := if_pos hflag
        rw [hvalue]
        constructor
        · exact fun h => nomatch h
        · rintro (⟨h, -⟩ | ⟨-, h, hne, -⟩)
          · cases h
          · exact absurd (Option.some.inj h ▸ hhead) hne
      · have hhead : next.head? ≠ some (unit '-') := fun h => hflag (isFlag_iff.mpr h)
        have hvalue : flagValue shown none (some next) = .ok (next, true) := if_neg hflag
        rw [hvalue]
        constructor
        · rintro ⟨⟩
          exact .inr ⟨rfl, rfl, hhead, rfl⟩
        · rintro (⟨h, -⟩ | ⟨-, h, -, rfl⟩)
          · cases h
          · rw [Option.some.inj h]

/-- A flag with a value that it takes is read; `taken` tells whether the value was the next argument. -/
theorem readFlag_valueFlag {flag : ValueFlag} {value : Text} {setting : Setting}
    (h : flag.Takes value setting) {inline next : Option Text} {taken : Bool}
    (hvalue : flagValue flag.name inline next = .ok (value, taken)) :
    readFlag (flagArgument (units flag.name) inline) next = .ok ⟨setting, taken⟩ := by
  obtain ⟨read, hread, htakes⟩ := Flag.ofName?_valueFlag flag
  rw [readFlag_flagArgument flag.notMem_name, hread]
  dsimp only
  rw [hvalue]
  dsimp only
  rw [(htakes value setting).mpr h]

/-- A flag with an inherited name faults. -/
theorem readFlag_inherited {argument : Text} (h : InheritedFlag argument) (next : Option Text) :
    readFlag argument next = .error (.fault .inheritedFlag) := by
  obtain ⟨name, hname, inline, rfl⟩ := h
  have hequals : ∀ name ∈ Flag.inheritedNames, unit '=' ∉ units name := by decide
  have hunknown : ∀ name ∈ Flag.inheritedNames, (Flag.ofName? (units name)).isNone = true := by decide
  have hinherited : Flag.isInherited (units name) = true :=
    List.any_eq_true.mpr ⟨name, hname, decide_eq_true rfl⟩
  rw [readFlag_flagArgument (hequals name hname), Option.isNone_iff_eq_none.mp (hunknown name hname)]
  dsimp only
  rw [if_pos hinherited]

/-- A flag that is neither known nor inherited is refused as unknown. -/
theorem readFlag_unknown {argument : Text} (hflag : argument.head? = some (unit '-'))
    (hknown : ¬ KnownFlag argument) (hinherited : ¬ InheritedFlag argument) (next : Option Text) :
    readFlag argument next = .error (.refused (.unknownFlag (shownFlag argument))) := by
  by_cases hstart : argument.startsWith (units "--") = true
  · obtain ⟨name, inline, hname, rfl⟩ := exists_flagArgument hstart
    -- The name is not in the table, or the flag would be known.
    rcases Flag.ofName?_cases name with ⟨switch, rfl⟩ | ⟨flag, rfl⟩ | hnone
    · exact absurd (.inl ⟨switch, inline, rfl⟩) hknown
    · exact absurd (.inr ⟨flag, inline, rfl⟩) hknown
    · have hno : ¬ Flag.isInherited name = true := by
        intro hyes
        obtain ⟨inherited, hmem, hsame⟩ := List.any_eq_true.mp hyes
        exact hinherited ⟨inherited, hmem, inline, by rw [of_decide_eq_true hsame]⟩
      rw [readFlag_flagArgument hname, hnone, shownFlag_flagArgument hname]
      dsimp only
      rw [if_neg hno]
  · have hshown : shownFlag argument = argument := if_neg hstart
    have hstart' : argument.startsWith (units "--") = false := by simpa using hstart
    unfold readFlag
    rw [isFlag_iff.mpr hflag, hstart', hshown]
    rfl

/-- What reading one flag may do: take it alone, take it with the next argument, fault, or refuse. -/
inductive FlagOutcome (argument : Text) (next : Option Text) :
    Except (Failure UsageError) FlagRead → Prop
  | alone {setting : Setting} (h : Group [argument] setting) :
      FlagOutcome argument next (.ok ⟨setting, false⟩)
  | withNext {value : Text} {setting : Setting} (hnext : next = some value)
      (h : Group [argument, value] setting) : FlagOutcome argument next (.ok ⟨setting, true⟩)
  | fault (h : InheritedFlag argument) : FlagOutcome argument next (.error (.fault .inheritedFlag))
  | refused (e : UsageError) : FlagOutcome argument next (.error (.refused e))

/-- Reading a flag with a value takes the value there is, or refuses. -/
theorem readFlag_valueFlag_outcome (flag : ValueFlag) (inline next : Option Text) :
    FlagOutcome (flagArgument (units flag.name) inline) next
      (readFlag (flagArgument (units flag.name) inline) next) := by
  obtain ⟨read, hread, htakes⟩ := Flag.ofName?_valueFlag flag
  rw [readFlag_flagArgument flag.notMem_name, hread]
  dsimp only
  cases hvalue : flagValue flag.name inline next with
  | error e => exact .refused e
  | ok found =>
    obtain ⟨value, taken⟩ := found
    dsimp only
    cases hsetting : read value with
    | error e => exact .refused e
    | ok setting =>
      have h := (htakes value setting).mp hsetting
      rcases flagValue_eq_ok_iff.mp hvalue with ⟨rfl, rfl⟩ | ⟨rfl, hnext, hhead, rfl⟩
      · exact .alone (.inline h)
      · exact .withNext hnext (.separate h hhead)

/-- Reading an argument as a flag has the outcome that the grammar gives it. -/
theorem readFlag_outcome (argument : Text) (next : Option Text) :
    FlagOutcome argument next (readFlag argument next) := by
  by_cases hflag : argument.head? = some (unit '-')
  · by_cases hknown : KnownFlag argument
    · rcases hknown with ⟨switch, inline, rfl⟩ | ⟨flag, inline, rfl⟩
      · rw [readFlag_switch]
        exact .alone (.switch switch inline)
      · exact readFlag_valueFlag_outcome flag inline next
    by_cases hinherited : InheritedFlag argument
    · rw [readFlag_inherited hinherited]
      exact .fault hinherited
    · rw [readFlag_unknown hflag hknown hinherited]
      exact .refused _
  · -- What does not start with a minus sign is no flag at all.
    have hno : isFlag argument = false := by simpa [isFlag] using hflag
    have hread : readFlag argument next = .error (.refused (.unexpectedArgument argument)) := by
      unfold readFlag
      rw [hno]
      rfl
    rw [hread]
    exact .refused _

end Step

section Run

/-- A group is read in front of any arguments. -/
theorem Group.parseFlags_append {group : List Text} {setting : Setting} (h : Group group setting)
    (rest : List Text) : parseFlags (group ++ rest) = (parseFlags rest).map (setting :: ·) := by
  cases h with
  | switch switch ignored =>
    rw [List.singleton_append, parseFlags, readFlag_switch]
  | @inline flag value _ htakes =>
    have hvalue : flagValue flag.name (some value) rest.head? = .ok (value, false) := rfl
    rw [List.singleton_append, parseFlags, readFlag_valueFlag htakes hvalue]
  | @separate flag value _ htakes hhead =>
    have hvalue : flagValue flag.name none (some value) = .ok (value, true) :=
      flagValue_eq_ok_iff.mpr (.inr ⟨rfl, rfl, hhead, rfl⟩)
    rw [List.cons_append, List.singleton_append, parseFlags, List.head?_cons,
      readFlag_valueFlag htakes hvalue]

/-- Groups are read in front of any arguments. -/
theorem Groups.parseFlags_append {arguments : List Text} {made : List Setting}
    (h : Groups arguments made) (rest : List Text) :
    parseFlags (arguments ++ rest) = (parseFlags rest).map (made ++ ·) := by
  induction h with
  | nil => cases hrest : parseFlags rest <;> simp [Except.map, hrest]
  | cons hgroup hrest ih =>
    rw [List.append_assoc, hgroup.parseFlags_append, ih]
    cases parseFlags rest <;> rfl

/-- Where a flag with an inherited name stands behind groups. -/
def FlagsFault (arguments : List Text) : Prop :=
  ∃ before made flag after, arguments = before ++ flag :: after ∧ Groups before made ∧
    InheritedFlag flag

/-- A group in front leaves the place of an inherited name behind groups. -/
theorem FlagsFault.cons {group arguments : List Text} {setting : Setting} (hgroup : Group group setting)
    (h : FlagsFault arguments) : FlagsFault (group ++ arguments) := by
  obtain ⟨before, made, flag, after, rfl, hbefore, hflag⟩ := h
  exact ⟨group ++ before, setting :: made, flag, after, (List.append_assoc ..).symm,
    .cons hgroup hbefore, hflag⟩

/-- What reading flags may do: take them all as groups, fault at an inherited name behind groups, or
refuse. -/
inductive FlagsOutcome (arguments : List Text) : Except (Failure UsageError) (List Setting) → Prop
  | read {made : List Setting} (h : Groups arguments made) : FlagsOutcome arguments (.ok made)
  | fault (h : FlagsFault arguments) : FlagsOutcome arguments (.error (.fault .inheritedFlag))
  | refused (e : UsageError) : FlagsOutcome arguments (.error (.refused e))

/-- What happens behind a group happens to the whole. -/
theorem FlagsOutcome.cons {group arguments : List Text} {setting : Setting}
    (hgroup : Group group setting) {r : Except (Failure UsageError) (List Setting)}
    (h : FlagsOutcome arguments r) : FlagsOutcome (group ++ arguments) (r.map (setting :: ·)) := by
  cases h with
  | read hgroups => exact .read (.cons hgroup hgroups)
  | fault hfault => exact .fault (hfault.cons hgroup)
  | refused e => exact .refused e

/-- Reading all arguments has the outcome that the grammar gives them. -/
theorem parseFlags_outcome (arguments : List Text) :
    FlagsOutcome arguments (parseFlags arguments) := by
  -- A group is one argument or two, so the induction is on their number.
  induction hlength : arguments.length using Nat.strong_induction_on generalizing arguments with
  | _ n ih =>
    cases arguments with
    | nil => exact .read .nil
    | cons argument rest =>
      rw [List.length_cons] at hlength
      have houtcome := readFlag_outcome argument rest.head?
      generalize hread : readFlag argument rest.head? = r at houtcome
      cases houtcome with
      | alone hgroup =>
        have hparse := hgroup.parseFlags_append rest
        rw [List.singleton_append] at hparse
        rw [hparse]
        exact (ih rest.length (by omega) rest rfl).cons hgroup
      | withNext hnext hgroup =>
        obtain ⟨rest, rfl⟩ := List.head?_eq_some_iff.mp hnext
        have hparse := hgroup.parseFlags_append rest
        rw [List.cons_append, List.singleton_append] at hparse
        rw [List.length_cons] at hlength
        rw [hparse]
        exact (ih rest.length (by omega) rest rfl).cons hgroup
      | fault hinherited =>
        rw [parseFlags, hread]
        exact .fault ⟨[], [], argument, rest, rfl, .nil, hinherited⟩
      | refused e =>
        rw [parseFlags, hread]
        exact .refused e

/-- Flags are read into settings exactly if they are groups that make these. -/
theorem parseFlags_eq_ok_iff {arguments : List Text} {made : List Setting} :
    parseFlags arguments = .ok made ↔ Groups arguments made := by
  constructor
  · intro h
    have houtcome := parseFlags_outcome arguments
    rw [h] at houtcome
    cases houtcome with
    | read hgroups => exact hgroups
  · intro h
    have hparse := h.parseFlags_append []
    rw [List.append_nil] at hparse
    rw [hparse]
    show Except.ok (made ++ []) = .ok made
    rw [List.append_nil]

/-- Reading flags faults at a flag with an inherited name behind groups. -/
theorem FlagsFault.parseFlags {arguments : List Text} (h : FlagsFault arguments) :
    parseFlags arguments = .error (.fault .inheritedFlag) := by
  obtain ⟨before, made, flag, after, rfl, hbefore, hflag⟩ := h
  rw [hbefore.parseFlags_append, TypedReads.parseFlags, readFlag_inherited hflag]
  rfl

/-- Behind groups an unknown flag is refused as one. -/
theorem parseFlags_unknown {before : List Text} {made : List Setting} (hbefore : Groups before made)
    {flag : Text} (hflag : flag.head? = some (unit '-')) (hknown : ¬ KnownFlag flag)
    (hinherited : ¬ InheritedFlag flag) (after : List Text) :
    parseFlags (before ++ flag :: after) = .error (.refused (.unknownFlag (shownFlag flag))) := by
  rw [hbefore.parseFlags_append, parseFlags, readFlag_unknown hflag hknown hinherited]
  rfl

/-- In groups every argument that starts with a minus sign is a known flag. -/
theorem Groups.known {arguments : List Text} {made : List Setting} (h : Groups arguments made)
    {argument : Text} (hmem : argument ∈ arguments) (hflag : argument.head? = some (unit '-')) :
    KnownFlag argument := by
  induction h with
  | nil => cases hmem
  | @cons group rest setting made hgroup _ ih =>
    rcases List.mem_append.mp hmem with hmem | hmem
    · cases hgroup with
      | switch switch ignored =>
        rw [List.mem_singleton.mp hmem]
        exact .inl ⟨switch, ignored, rfl⟩
      | @inline flag value _ _ =>
        rw [List.mem_singleton.mp hmem]
        exact .inr ⟨flag, some value, rfl⟩
      | @separate flag value _ _ hvalue =>
        rcases List.mem_cons.mp hmem with rfl | hmem
        · exact .inr ⟨flag, none, rfl⟩
        · rw [List.mem_singleton.mp hmem] at hflag
          exact absurd hflag hvalue
    · exact ih hmem

end Run

end TypedReads
