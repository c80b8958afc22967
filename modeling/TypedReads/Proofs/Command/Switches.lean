import TypedReads.Proofs.Command.Invocation

/-!
# Switches at the end of a command line

A switch at the end of a command line makes its setting after all others and changes nothing in how the
rest is read (`parse_append_switch`). It starts with a minus sign, so it is never the value of a flag in
front of it: one that lacks its value lacks it with the switch behind it as well, and is refused for that.
An accepted command line is silent exactly if the switch for it is one of its arguments
(`silent_iff_of_parse`).
-/

namespace TypedReads

/-- The argument of a switch. -/
def Switch.argument (switch : Switch) : Text := flagArgument (units switch.name) none

section Appended

/-- A flag is no value of the flag in front of it. -/
theorem flagValue_before_flag (shown : String) (inline : Option Text) {flag : Text}
    (h : isFlag flag = true) : flagValue shown inline (some flag) = flagValue shown inline none := by
  cases inline with
  | none => exact if_pos h
  | some value => rfl

/-- A flag is never taken for the value of the one before it. -/
theorem readFlag_before_flag (argument : Text) {flag : Text} (h : isFlag flag = true) :
    readFlag argument (some flag) = readFlag argument none := by
  unfold readFlag
  simp only [flagValue_before_flag _ _ h]

/-- Flags are read in front of a switch as they are without it. -/
theorem parseFlags_append_switch (switch : Switch) (arguments : List Text) :
    parseFlags (arguments ++ [switch.argument]) =
      (parseFlags arguments).map (· ++ [switch.setting]) := by
  -- A group is one argument or two, so the induction is on their number.
  induction hlength : arguments.length using Nat.strong_induction_on generalizing arguments with
  | _ n ih =>
    cases arguments with
    | nil => exact (Group.switch switch none).parseFlags_append []
    | cons argument rest =>
      rw [List.length_cons] at hlength
      have hnext : readFlag argument (rest ++ [switch.argument]).head? = readFlag argument rest.head? := by
        cases rest with
        | nil => exact readFlag_before_flag argument (isFlag_flagArgument _ _)
        | cons => rfl
      have houtcome := readFlag_outcome argument rest.head?
      rw [List.cons_append, parseFlags, parseFlags, hnext]
      generalize readFlag argument rest.head? = r at houtcome
      cases houtcome with
      | alone =>
        dsimp only
        rw [ih rest.length (by omega) rest rfl]
        cases parseFlags rest <;> rfl
      | withNext hvalue =>
        -- The value stands in front of the switch, which is not reached.
        obtain ⟨rest, rfl⟩ := List.head?_eq_some_iff.mp hvalue
        rw [List.length_cons] at hlength
        rw [List.cons_append]
        dsimp only
        rw [ih rest.length (by omega) rest rfl]
        cases parseFlags rest <;> rfl
      | fault => rfl
      | refused e => rfl

/-- The action is found in front of a switch as it is without it. -/
theorem parseAction_append_switch (switch : Switch) (arguments : List Text) :
    parseAction (arguments ++ [switch.argument]) =
      (parseAction arguments).map fun found => (found.1, found.2 ++ [switch.argument]) := by
  cases arguments with
  | nil =>
    have hfirst : isFlag switch.argument = true := isFlag_flagArgument _ _
    rw [List.nil_append]
    unfold parseAction
    dsimp only
    rw [if_pos hfirst]
    rfl
  | cons first rest =>
    rw [List.cons_append]
    unfold parseAction
    dsimp only
    split_ifs
    · rfl
    · cases Action.ofName? first <;> rfl

/-- A switch is nothing that has to be there. -/
theorem Settings.complete_apply (switch : Switch) (s : Settings) (action : Action) :
    (s.apply switch.setting).complete action =
      (s.complete action).map fun i => { i with settings := i.settings.apply switch.setting } := by
  have hfile : (s.apply switch.setting).file = s.file := by cases switch <;> rfl
  have hkey : (s.apply switch.setting).key = s.key := by cases switch <;> rfl
  unfold complete
  rw [hfile, hkey]
  cases s.file with
  | none => rfl
  | some file =>
    dsimp only
    split_ifs <;> rfl

/-- A command line is read in front of a switch as it is without it, and the setting of the switch is made
after all others. -/
theorem parse_append_switch (switch : Switch) (arguments : List Text) :
    Invocation.parse (arguments ++ [switch.argument]) = (Invocation.parse arguments).map fun i =>
      { i with settings := i.settings.apply switch.setting } := by
  unfold Invocation.parse
  rw [parseAction_append_switch]
  cases parseAction arguments with
  | error e => rfl
  | ok found =>
    simp only [Except.map]
    rw [parseFlags_append_switch]
    cases parseFlags found.2 with
    | error e => rfl
    | ok made =>
      simp only [Except.map]
      rw [List.foldl_append, List.foldl_cons, List.foldl_nil, Settings.complete_apply]
      cases (made.foldl Settings.apply {}).complete found.1 <;> rfl

end Appended

section Given

/-- Arguments of flags with different names differ. -/
theorem name_eq_of_flagArgument_eq {name name' : Text} {inline inline' : Option Text}
    (hname : unit '=' ∉ name) (hname' : unit '=' ∉ name')
    (h : flagArgument name inline = flagArgument name' inline') : name = name' := by
  have hsplit := splitFlag_flagArgument hname inline
  rw [h, splitFlag_flagArgument hname' inline'] at hsplit
  exact (Prod.mk.inj hsplit).1.symm

/-- A flag with a value makes no run silent. -/
theorem ValueFlag.Takes.ne_silent {flag : ValueFlag} {value : Text} {setting : Setting}
    (h : flag.Takes value setting) : setting ≠ .silent := by
  rintro rfl
  cases flag <;> simp [Takes] at h

/-- Only the switch for it makes a run silent. -/
theorem Group.eq_silent_iff {group : List Text} {setting : Setting} (h : Group group setting) :
    setting = .silent ↔ ∃ inline, flagArgument (units "silent") inline ∈ group := by
  -- No flag with a value is spelled like the switch.
  have hother : ∀ (flag : ValueFlag) (inline inline' : Option Text),
      flagArgument (units "silent") inline ≠ flagArgument (units flag.name) inline' := by
    intro flag inline inline' heq
    have hnames := name_eq_of_flagArgument_eq (by decide) flag.notMem_name heq
    revert hnames
    cases flag <;> decide
  cases h with
  | switch switch ignored =>
    constructor
    · intro hsilent
      cases switch <;> cases hsilent
      exact ⟨ignored, List.mem_cons_self⟩
    · rintro ⟨inline, hmem⟩
      have hnames := name_eq_of_flagArgument_eq (by decide) switch.notMem_name (List.mem_singleton.mp hmem)
      revert hnames
      cases switch <;> decide
  | inline htakes =>
    refine iff_of_false htakes.ne_silent ?_
    rintro ⟨inline, hmem⟩
    exact hother _ _ _ (List.mem_singleton.mp hmem)
  | separate htakes hvalue =>
    refine iff_of_false htakes.ne_silent ?_
    rintro ⟨inline, hmem⟩
    rcases List.mem_pair.mp hmem with heq | rfl
    · exact hother _ _ _ heq
    · exact hvalue (isFlag_iff.mp (isFlag_flagArgument _ inline))

/-- A run is silent exactly if the flag is among its arguments. -/
theorem Groups.silent_mem_iff {arguments : List Text} {made : List Setting} (h : Groups arguments made) :
    .silent ∈ made ↔ ∃ inline, flagArgument (units "silent") inline ∈ arguments := by
  induction h with
  | nil => simp
  | cons hgroup _ ih =>
    rw [List.mem_cons, ih, eq_comm, hgroup.eq_silent_iff]
    simp only [List.mem_append, exists_or]

/-- An accepted command line is silent exactly if the switch for it is given, whatever is written behind
the switch. -/
theorem silent_iff_of_parse {arguments : List Text} {i : Invocation}
    (h : Invocation.parse arguments = .ok i) :
    i.settings.silent = true ↔ ∃ inline, flagArgument (units "silent") inline ∈ arguments := by
  obtain ⟨rest, made, hbegins, hgroups, hcomplete⟩ := parse_eq_ok_iff.mp h
  obtain ⟨-, hsettings, -, -⟩ := Settings.complete_eq_ok_iff.mp hcomplete
  have hrest : i.settings.silent = true ↔ ∃ inline, flagArgument (units "silent") inline ∈ rest := by
    rw [hsettings, ← hgroups.silent_mem_iff]
    exact decide_eq_true_iff
  rw [hrest]
  generalize i.action = action at hbegins
  cases hbegins with
  | omitted => rfl
  | named =>
    -- The name of an action is no flag.
    have hname : isFlag (units action.name) = false := by cases action <;> decide
    refine exists_congr fun inline => ⟨List.mem_cons_of_mem _, fun hmem => ?_⟩
    refine (List.mem_cons.mp hmem).resolve_left fun heq => ?_
    rw [← heq, isFlag_flagArgument] at hname
    cases hname

end Given

end TypedReads
