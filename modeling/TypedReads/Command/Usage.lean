import TypedReads.Fault
import TypedReads.Number.Numeral
import TypedReads.Read

/-!
# Command lines

A command line is an action, which may be left out, and a sequence of flags. `parseFlags` reads the
flags one after the other into settings; settings are then applied in order, so that the last one
of a kind counts. The first thing that does not fit ends the reading.
-/

namespace TypedReads

/-- What to do with a document. -/
inductive Action where
  /-- Show one key as one target. -/
  | get
  /-- Show every key as every target. -/
  | inspect
  /-- Write the document out again. -/
  | format
  deriving DecidableEq

namespace Action

/-- The name of an action. -/
def name : Action → String
  | get => "get"
  | inspect => "inspect"
  | format => "format"

/-- The action of a name. -/
def ofName? (t : Text) : Option Action :=
  [get, inspect, format].find? fun action => units action.name = t

end Action

/-- What is wrong with a command line. -/
inductive UsageError where
  | unknownAction (name : Text)
  | unknownFlag (flag : Text)
  | missingValue (flag : String)
  | unexpectedArgument (argument : Text)
  | invalidNarrowing (value : Text)
  | invalidIndent (value : Text)
  | unknownTarget (value : Text)
  | missingFile
  | missingKey
  deriving DecidableEq

/-- The widest indentation there is. -/
def maxIndent : Nat := 10

/-- The message of an error. -/
def UsageError.message : UsageError → Text
  | unknownAction name => units "Unknown command: " ++ name
  | unknownFlag flag => units "Unknown flag: " ++ flag
  | missingValue flag => units "Missing value for --" ++ units flag
  | unexpectedArgument argument => units "Unexpected positional argument: " ++ argument
  | invalidNarrowing value =>
    units "Invalid narrowing mode: " ++ value ++ units " (expected truncate or strict)"
  | invalidIndent value =>
    units "Invalid indent: " ++ value ++ units " (expected 0.." ++ Text.ofNat maxIndent ++ units ")"
  | unknownTarget value =>
    units "Unknown type: " ++ value ++ units " (expected one of " ++
      List.intercalate (units ", ") (Target.all.map fun target => units target.name) ++ units ")"
  | missingFile => units "Missing required flag --file"
  | missingKey => units "Missing required flag --key for get"

/-- One setting made by a flag. -/
inductive Setting where
  | json
  | silent
  | verbose
  | file (path : Text)
  | key (key : Text)
  | target (target : Target)
  | narrowing (mode : Narrowing)
  | indent (width : Nat)
  | config (path : Text)
  deriving DecidableEq

/-- What a flag does: make a setting, or read a value into one. -/
inductive Flag where
  | switch (setting : Setting)
  | valued (read : Text → Except UsageError Setting)

namespace Flag

/-- Reads a target. -/
def readTarget (value : Text) : Except UsageError Setting :=
  match Target.ofName? value with
  | some target => .ok (.target target)
  | none => .error (.unknownTarget value)

/-- Reads a narrowing mode. -/
def readNarrowing (value : Text) : Except UsageError Setting :=
  match Narrowing.ofName? value with
  | some mode => .ok (.narrowing mode)
  | none => .error (.invalidNarrowing value)

/-- Reads a width of indentation: digits alone, for a number up to `maxIndent`. -/
def readIndent (value : Text) : Except UsageError Setting :=
  match (Text.natural? value).filter (· ≤ maxIndent) with
  | some width => .ok (.indent width)
  | none => .error (.invalidIndent value)

/-- The flags by their names. -/
def all : List (String × Flag) :=
  [("json", switch .json), ("silent", switch .silent), ("verbose", switch .verbose),
    ("strict", switch (.narrowing .strict)), ("file", valued fun value => .ok (.file value)),
    ("key", valued fun value => .ok (.key value)), ("as", valued readTarget),
    ("narrowing", valued readNarrowing), ("indent", valued readIndent),
    ("config", valued fun value => .ok (.config value))]

/-- The flag of a name, with its name as messages show it. -/
def ofName? (t : Text) : Option (String × Flag) := all.find? fun entry => units entry.1 = t

/-- The names that a table of names answers to without holding them. A flag so called is no
unknown flag but a fault. -/
def inheritedNames : List String :=
  ["constructor", "toString", "valueOf", "hasOwnProperty", "isPrototypeOf",
    "propertyIsEnumerable", "toLocaleString", "__proto__", "__defineGetter__",
    "__defineSetter__", "__lookupGetter__", "__lookupSetter__"]

/-- Whether a name is an inherited one. -/
def isInherited (t : Text) : Bool := inheritedNames.any fun name => units name = t

end Flag

/-- Whether an argument is a flag: it starts with a minus sign. -/
def isFlag (argument : Text) : Bool := argument.head? = some (unit '-')

/-- The name of a flag and the value written behind its first `=`, if there is one. -/
def splitFlag (body : Text) : Text × Option Text :=
  let name := body.takeWhile (· ≠ unit '=')
  match body.dropWhile (· ≠ unit '=') with
  | [] => (name, none)
  | _ :: value => (name, some value)

/-- A flag read into a setting. -/
structure FlagRead where
  /-- The setting made. -/
  setting : Setting
  /-- Whether the next argument was its value. -/
  takesNext : Bool

/-- The value of a flag: the one written behind its `=`, or the next argument if that is no flag.
The second part tells whether it was the next argument. -/
def flagValue (shown : String) (inline next : Option Text) : Except UsageError (Text × Bool) :=
  match inline, next with
  | some value, _ => .ok (value, false)
  | none, some value => if isFlag value then .error (.missingValue shown) else .ok (value, true)
  | none, none => .error (.missingValue shown)

/-- Reads a flag, given the argument behind it. -/
def readFlag (argument : Text) (next : Option Text) : Except (Failure UsageError) FlagRead :=
  if !isFlag argument then .error (.refused (.unexpectedArgument argument))
  else if !argument.startsWith (units "--") then .error (.refused (.unknownFlag argument))
  else
    let (name, inline) := splitFlag (argument.drop 2)
    match Flag.ofName? name with
    | some (_, .switch setting) => .ok ⟨setting, false⟩
    | some (shown, .valued read) =>
      match flagValue shown inline next with
      | .error e => .error (.refused e)
      | .ok (value, taken) =>
        match read value with
        | .error e => .error (.refused e)
        | .ok setting => .ok ⟨setting, taken⟩
    | none =>
      if Flag.isInherited name then .error (.fault .inheritedFlag)
      else .error (.refused (.unknownFlag (units "--" ++ name)))

/-- Reads flags into settings. -/
def parseFlags : List Text → Except (Failure UsageError) (List Setting)
  | [] => .ok []
  | argument :: rest =>
    match readFlag argument rest.head? with
    | .error e => .error e
    | .ok ⟨setting, false⟩ => (parseFlags rest).map (setting :: ·)
    | .ok ⟨setting, true⟩ =>
      match rest with
      | [] => .ok [setting]
      | _ :: rest => (parseFlags rest).map (setting :: ·)

/-- The settings of a command line. -/
structure Settings where
  /-- The document. -/
  file : Option Text := none
  /-- The key to show. -/
  key : Option Text := none
  /-- The target to show it as. -/
  target : Target := .string
  /-- The narrowing mode, if one is asked for. -/
  narrowing : Option Narrowing := none
  /-- The width of indentation, if one is asked for. -/
  indent : Option Nat := none
  /-- The configuration file, if one is named. -/
  config : Option Text := none
  /-- Whether reads are shown as JSON. -/
  json : Bool := false
  /-- Whether nothing is written. -/
  silent : Bool := false
  /-- Whether steps are logged. -/
  verbose : Bool := false
  deriving DecidableEq

/-- Makes one setting. -/
def Settings.apply (s : Settings) : Setting → Settings
  | .json => { s with json := true }
  | .silent => { s with silent := true }
  | .verbose => { s with verbose := true }
  | .file path => { s with file := some path }
  | .key key => { s with key := some key }
  | .target target => { s with target := target }
  | .narrowing mode => { s with narrowing := some mode }
  | .indent width => { s with indent := some width }
  | .config path => { s with config := some path }

/-- A complete command line. -/
structure Invocation where
  /-- What to do. -/
  action : Action
  /-- The document. -/
  file : Text
  /-- All settings. -/
  settings : Settings
  deriving DecidableEq

/-- The action of a command line and the arguments behind it. -/
def parseAction : List Text → Except UsageError (Action × List Text)
  | [] => .ok (.inspect, [])
  | first :: rest =>
    if isFlag first then .ok (.inspect, first :: rest)
    else
      match Action.ofName? first with
      | some action => .ok (action, rest)
      | none => .error (.unknownAction first)

/-- Checks that nothing required is missing. -/
def Settings.complete (s : Settings) (action : Action) : Except UsageError Invocation :=
  match s.file with
  | none => .error .missingFile
  | some file =>
    if action = .get ∧ s.key = none then .error .missingKey else .ok ⟨action, file, s⟩

/-- Reads a command line. -/
def Invocation.parse (arguments : List Text) : Except (Failure UsageError) Invocation :=
  match parseAction arguments with
  | .error e => .error (.refused e)
  | .ok (action, rest) =>
    match parseFlags rest with
    | .error e => .error e
    | .ok settings => ((settings.foldl Settings.apply {}).complete action).mapError .refused

end TypedReads
