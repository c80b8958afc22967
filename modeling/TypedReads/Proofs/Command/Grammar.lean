import Mathlib.Data.List.Nodup
import TypedReads.Command.Usage
import TypedReads.Proofs.Text.Digits

/-!
# The grammar of command lines

A command line is an action, which may be left out, and a sequence of groups. A group is a switch, whose
value is ignored if one is written, or a flag with a value, which is written behind the first `=` of the
same argument or is the next argument, and must not start with a minus sign then. `Begins` and `Groups`
say so without saying how arguments are read.

The names of flags, targets, modes and actions are looked up in tables. The second part of the file shows
that the tables hold what the grammar names and nothing else.
-/

namespace TypedReads

/-- The flags without a value. -/
inductive Switch where
  | json
  | silent
  | verbose
  | strict

namespace Switch

/-- The name of a switch. -/
def name : Switch → String
  | json => "json"
  | silent => "silent"
  | verbose => "verbose"
  | strict => "strict"

/-- The setting that a switch makes. -/
def setting : Switch → Setting
  | json => .json
  | silent => .silent
  | verbose => .verbose
  | strict => .narrowing .strict

end Switch

/-- The flags with a value. -/
inductive ValueFlag where
  | file
  | key
  | target
  | narrowing
  | indent
  | config

namespace ValueFlag

/-- The name of a flag. -/
def name : ValueFlag → String
  | file => "file"
  | key => "key"
  | target => "as"
  | narrowing => "narrowing"
  | indent => "indent"
  | config => "config"

/-- The values that a flag takes and the settings it makes of them. A path and a key may be any text, and
a width is a text of digits for a number up to ten. -/
def Takes : ValueFlag → Text → Setting → Prop
  | file, value, setting => setting = .file value
  | key, value, setting => setting = .key value
  | target, value, setting => ∃ t : Target, value = units t.name ∧ setting = .target t
  | narrowing, value, setting => ∃ mode : Narrowing, value = units mode.name ∧ setting = .narrowing mode
  | indent, value, setting => ∃ ds, ds ≠ [] ∧ (∀ d ∈ ds, d < 10) ∧ value = digitText ds ∧
      ofDigits ds ≤ 10 ∧ setting = .indent (ofDigits ds)
  | config, value, setting => setting = .config value

end ValueFlag

/-- The argument of a flag: its name behind two minus signs and, if there is one, a value behind an
equals sign. -/
def flagArgument (name : Text) : Option Text → Text
  | none => units "--" ++ name
  | some value => units "--" ++ name ++ unit '=' :: value

/-- The arguments of one flag and the setting it makes. -/
inductive Group : List Text → Setting → Prop
  | switch (switch : Switch) (ignored : Option Text) :
      Group [flagArgument (units switch.name) ignored] switch.setting
  | inline {flag : ValueFlag} {value : Text} {setting : Setting} (h : flag.Takes value setting) :
      Group [flagArgument (units flag.name) (some value)] setting
  | separate {flag : ValueFlag} {value : Text} {setting : Setting} (h : flag.Takes value setting)
      (hvalue : value.head? ≠ some (unit '-')) :
      Group [flagArgument (units flag.name) none, value] setting

/-- The arguments of flags one after the other and the settings they make. -/
inductive Groups : List Text → List Setting → Prop
  | nil : Groups [] []
  | cons {group rest : List Text} {setting : Setting} {settings : List Setting}
      (h : Group group setting) (hrest : Groups rest settings) :
      Groups (group ++ rest) (setting :: settings)

/-- The arguments of a command line with its action and the arguments behind it. Where the action is
left out, a flag comes first, if anything. -/
inductive Begins : List Text → Action → List Text → Prop
  | named (action : Action) (rest : List Text) : Begins (units action.name :: rest) action rest
  | omitted {rest : List Text} (h : ∀ first ∈ rest.head?, first.head? = some (unit '-')) :
      Begins rest .inspect rest

/-- An argument that is a flag of the grammar, whatever value is written behind it. -/
def KnownFlag (argument : Text) : Prop :=
  (∃ (switch : Switch) (inline : Option Text), argument = flagArgument (units switch.name) inline) ∨
    ∃ (flag : ValueFlag) (inline : Option Text), argument = flagArgument (units flag.name) inline

/-- An argument that is a flag with an inherited name, whatever value is written behind it. -/
def InheritedFlag (argument : Text) : Prop :=
  ∃ name ∈ Flag.inheritedNames, ∃ inline : Option Text, argument = flagArgument (units name) inline

/-- What is shown of an unknown flag: the name behind two minus signs without its value, and a flag with one
minus sign as it is. -/
def shownFlag (argument : Text) : Text :=
  if argument.startsWith (units "--") then argument.takeWhile (· ≠ unit '=') else argument

section Tables

/-- Where no name is repeated, looking one up finds exactly what has it. -/
theorem find?_name_eq_some_iff {α : Type} {f : α → String} {as : List α}
    (hnodup : (as.map fun a => units (f a)).Nodup) {t : Text} {a : α} :
    as.find? (fun a => units (f a) = t) = some a ↔ a ∈ as ∧ t = units (f a) := by
  induction as with
  | nil => simp
  | cons b bs ih =>
    obtain ⟨hnew, hrest⟩ := List.nodup_cons.mp hnodup
    by_cases hb : units (f b) = t
    · rw [List.find?_cons_of_pos (by simpa using hb)]
      constructor
      · rintro ⟨⟩
        exact ⟨List.mem_cons_self, hb.symm⟩
      · rintro ⟨hmem, ha⟩
        rcases List.mem_cons.mp hmem with rfl | hmem
        · rfl
        · -- A later entry of the same name would repeat it.
          exact absurd (List.mem_map.mpr ⟨a, hmem, ha.symm.trans hb.symm⟩) hnew
    · rw [List.find?_cons_of_neg (by simpa using hb), ih hrest]
      refine and_congr_left fun ha => ⟨List.mem_cons_of_mem b, fun hmem => ?_⟩
      refine (List.mem_cons.mp hmem).resolve_left ?_
      rintro rfl
      exact hb ha.symm

/-- A target is known by its name. -/
theorem Target.ofName?_eq_some_iff {t : Text} {target : Target} :
    Target.ofName? t = some target ↔ t = units target.name := by
  have hmem : target ∈ Target.all := by cases target <;> decide
  rw [Target.ofName?, find?_name_eq_some_iff (by decide)]
  exact and_iff_right hmem

/-- A mode is known by its name. -/
theorem Narrowing.ofName?_eq_some_iff {t : Text} {mode : Narrowing} :
    Narrowing.ofName? t = some mode ↔ t = units mode.name := by
  have hmem : mode ∈ [Narrowing.truncate, Narrowing.strict] := by cases mode <;> decide
  rw [Narrowing.ofName?, find?_name_eq_some_iff (by decide)]
  exact and_iff_right hmem

/-- An action is known by its name. -/
theorem Action.ofName?_eq_some_iff {t : Text} {action : Action} :
    Action.ofName? t = some action ↔ t = units action.name := by
  have hmem : action ∈ [Action.get, Action.inspect, Action.format] := by cases action <;> decide
  rw [Action.ofName?, find?_name_eq_some_iff (by decide)]
  exact and_iff_right hmem

namespace Flag

/-- A target flag takes the names of the targets. -/
theorem readTarget_eq_ok_iff {value : Text} {setting : Setting} :
    readTarget value = .ok setting ↔ ValueFlag.target.Takes value setting := by
  unfold readTarget ValueFlag.Takes
  simp only [← Target.ofName?_eq_some_iff]
  cases Target.ofName? value with
  | none => simp
  | some target => simp [eq_comm]

/-- A narrowing flag takes the names of the modes. -/
theorem readNarrowing_eq_ok_iff {value : Text} {setting : Setting} :
    readNarrowing value = .ok setting ↔ ValueFlag.narrowing.Takes value setting := by
  unfold readNarrowing ValueFlag.Takes
  simp only [← Narrowing.ofName?_eq_some_iff]
  cases Narrowing.ofName? value with
  | none => simp
  | some mode => simp [eq_comm]

/-- An indentation flag takes the widths from zero to ten. -/
theorem readIndent_eq_ok_iff {value : Text} {setting : Setting} :
    readIndent value = .ok setting ↔ ValueFlag.indent.Takes value setting := by
  have hwidth : ∀ width, (value.natural?.filter (· ≤ maxIndent)) = some width ↔
      ∃ ds, ds ≠ [] ∧ (∀ d ∈ ds, d < 10) ∧ value = digitText ds ∧ ofDigits ds ≤ 10 ∧
        width = ofDigits ds := by
    intro width
    rw [Option.filter_eq_some_iff, natural?_eq_some_iff]
    constructor
    · rintro ⟨⟨ds, hne, hds, hvalue, rfl⟩, hle⟩
      exact ⟨ds, hne, hds, hvalue, of_decide_eq_true hle, rfl⟩
    · rintro ⟨ds, hne, hds, hvalue, hle, rfl⟩
      exact ⟨⟨ds, hne, hds, hvalue, rfl⟩, decide_eq_true hle⟩
  unfold readIndent ValueFlag.Takes
  split
  · rename_i width hfound
    obtain ⟨ds, hne, hds, hvalue, hle, rfl⟩ := (hwidth width).mp hfound
    constructor
    · rintro ⟨⟩
      exact ⟨ds, hne, hds, hvalue, hle, rfl⟩
    · rintro ⟨ds', hne', hds', hvalue', hle', rfl⟩
      -- The digits of the value are its own, so the width is the one found.
      have hfound' := (hwidth _).mpr ⟨ds', hne', hds', hvalue', hle', rfl⟩
      rw [hfound] at hfound'
      rw [Option.some.inj hfound']
  · rename_i hnone
    constructor
    · intro h
      cases h
    · rintro ⟨ds, hne, hds, hvalue, hle, rfl⟩
      rw [(hwidth _).mpr ⟨ds, hne, hds, hvalue, hle, rfl⟩] at hnone
      cases hnone

/-- A switch is found under its name. -/
theorem ofName?_switch (switch : Switch) :
    ofName? (units switch.name) = some (switch.name, .switch switch.setting) := by
  cases switch <;> rfl

/-- A flag with a value is found under its name, and reads the values that it takes. -/
theorem ofName?_valueFlag (flag : ValueFlag) : ∃ read,
    ofName? (units flag.name) = some (flag.name, .valued read) ∧
      ∀ value setting, read value = .ok setting ↔ flag.Takes value setting := by
  cases flag with
  | file => exact ⟨_, rfl, fun value setting => by simp [ValueFlag.Takes, eq_comm]⟩
  | key => exact ⟨_, rfl, fun value setting => by simp [ValueFlag.Takes, eq_comm]⟩
  | target => exact ⟨_, rfl, fun value setting => readTarget_eq_ok_iff⟩
  | narrowing => exact ⟨_, rfl, fun value setting => readNarrowing_eq_ok_iff⟩
  | indent => exact ⟨_, rfl, fun value setting => readIndent_eq_ok_iff⟩
  | config => exact ⟨_, rfl, fun value setting => by simp [ValueFlag.Takes, eq_comm]⟩

/-- A name that is found is that of a flag of the grammar. -/
theorem ofName?_cases (name : Text) :
    (∃ switch : Switch, name = units switch.name) ∨ (∃ flag : ValueFlag, name = units flag.name) ∨
      ofName? name = none := by
  have hnames : ∀ entry ∈ all, (∃ switch : Switch, entry.1 = switch.name) ∨
      ∃ flag : ValueFlag, entry.1 = flag.name := by
    simp only [all, List.forall_mem_cons]
    exact ⟨.inl ⟨.json, rfl⟩, .inl ⟨.silent, rfl⟩, .inl ⟨.verbose, rfl⟩, .inl ⟨.strict, rfl⟩,
      .inr ⟨.file, rfl⟩, .inr ⟨.key, rfl⟩, .inr ⟨.target, rfl⟩, .inr ⟨.narrowing, rfl⟩,
      .inr ⟨.indent, rfl⟩, .inr ⟨.config, rfl⟩, List.forall_mem_nil _⟩
  cases hfound : ofName? name with
  | none => exact .inr (.inr rfl)
  | some entry =>
    have hname : units entry.1 = name := by simpa using List.find?_some hfound
    rcases hnames entry (List.mem_of_find?_eq_some hfound) with ⟨switch, hswitch⟩ | ⟨flag, hflag⟩
    · exact .inl ⟨switch, by rw [← hname, hswitch]⟩
    · exact .inr (.inl ⟨flag, by rw [← hname, hflag]⟩)

end Flag

end Tables

end TypedReads
