import TypedReads.Command.Usage
import TypedReads.Json.Reader
import TypedReads.Json.Writer

/-!
# Configuration

A configuration file is a JSON object that may set the narrowing mode and the width of
indentation; other members are left alone. Numbers in it are doubles. `FileConfig.read` checks the
mode before the width, and `Settings.resolve` lets a command line override the file and the file
override the defaults.
-/

namespace TypedReads

/-- The name of the configuration file beside a document. -/
def configFileName : Text := units ".typed-json-map.json"

/-- The width of indentation where none is asked for. -/
def standardIndent : Nat := 2

/-- What a configuration file sets. -/
structure FileConfig where
  /-- The narrowing mode. -/
  narrowing : Option Narrowing := none
  /-- The width of indentation. -/
  indent : Option Nat := none
  deriving DecidableEq

/-- The settings in effect. -/
structure Config where
  /-- The narrowing mode. -/
  narrowing : Narrowing
  /-- The width of indentation. -/
  indent : Nat
  deriving DecidableEq

/-- The settings in effect under a command line and a file. -/
def Settings.resolve (s : Settings) (file : FileConfig) : Config where
  narrowing := (s.narrowing <|> file.narrowing).getD .standard
  indent := (s.indent <|> file.indent).getD standardIndent

/-- What is wrong with a width of indentation. -/
inductive IndentFlaw where
  | notNumber
  | notInteger
  | outOfRange
  deriving DecidableEq

/-- What is wrong with a configuration file. -/
inductive ConfigError where
  /-- The file is no JSON. -/
  | malformed (flaw : SyntaxFlaw)
  /-- The root is no object. -/
  | root (actual : Json)
  | narrowing (actual : Json)
  | indent (flaw : IndentFlaw) (actual : Json)

namespace ConfigError

/-- The type that a configuration file has to have. -/
def expectedType : Text :=
  units "\x7b readonly narrowing?: \"truncate\" | \"strict\" | undefined; " ++
    units "readonly indent?: a number between 0 and 10 | undefined \x7d"

/-- The line of an outline: `depth` levels of three columns, and a branch for all but the root. -/
def outlineLine (depth : Nat) (t : Text) : Text :=
  if depth = 0 then t else spaces (3 * (depth - 1)) ++ units "└─ " ++ t

/-- An outline in which each line stands under the one before. -/
def outline (lines : List Text) : Text :=
  List.intercalate (units "\n") (lines.mapIdx outlineLine)

/-- The first line of every message. -/
def heading : Text := units "((JsonString <-> unknown) <-> " ++ expectedType ++ units ")"

/-- The message for a text that is no JSON, with the words of the reader. -/
def malformedMessage (reason : Text) : Text :=
  outline [heading, units "Encoded side transformation failure", units "(JsonString <-> unknown)",
    units "Transformation process failure", reason]

/-- The message for a member: the types that its value was tried as, each with its lines. -/
def memberMessage (name memberType : Text) (tried : List Text) (actual : Text) : Text :=
  let indented (mark : String) (t : Text) : Text := spaces 12 ++ units mark ++ t
  let last := indented "└─ " (units "Expected undefined, actual " ++ actual)
  let first := (tried.take 1).map (indented "├─ ")
  let others := (tried.drop 1).map (indented "│  ")
  List.intercalate (units "\n")
    ([outline [heading, units "Type side transformation failure", expectedType,
      units "[" ++ name.quote ++ units "]", memberType]] ++ first ++ others ++ [last])

/-- The lines for a width of indentation that was refused. -/
def indentLines (flaw : IndentFlaw) (actual : Text) : List Text :=
  let range := units "a number between 0 and 10"
  match flaw with
  | .outOfRange =>
    [range, units "└─ Predicate refinement failure",
      units "   └─ Expected a number between 0 and 10, actual " ++ actual]
  | .notInteger =>
    [range, units "└─ From side refinement failure", units "   └─ integer",
      units "      └─ Predicate refinement failure",
      units "         └─ Expected integer, actual " ++ actual]
  | .notNumber =>
    [range, units "└─ From side refinement failure", units "   └─ integer",
      units "      └─ From side refinement failure",
      units "         └─ Expected number, actual " ++ actual]

/-- The message of an error. -/
def message : ConfigError → Text
  | malformed flaw => malformedMessage (units flaw.code.name)
  | root actual =>
    outline [heading, units "Type side transformation failure",
      units "Expected " ++ expectedType ++ units ", actual " ++ actual.write 0]
  | narrowing actual =>
    let shown := actual.write 0
    memberMessage (units "narrowing") (units "\"truncate\" | \"strict\" | undefined")
      [units "\"truncate\" | \"strict\"", units "├─ Expected \"truncate\", actual " ++ shown,
        units "└─ Expected \"strict\", actual " ++ shown] shown
  | indent flaw actual =>
    let shown := actual.write 0
    memberMessage (units "indent") (units "a number between 0 and 10 | undefined")
      (indentLines flaw shown) shown

end ConfigError

namespace Json

mutual

/-- A value with every number as a double. -/
def asDoubles : Json → Json
  | .integer n => .number (Double.ofInt n)
  | .array items => .array (itemsAsDoubles items)
  | .object members => .object (membersAsDoubles members)
  | j => j

/-- Items with every number as a double. -/
def itemsAsDoubles : List Json → List Json
  | [] => []
  | j :: rest => j.asDoubles :: itemsAsDoubles rest

/-- Members with every number as a double. -/
def membersAsDoubles : List (Text × Json) → List (Text × Json)
  | [] => []
  | (key, j) :: rest => (key, j.asDoubles) :: membersAsDoubles rest

end

end Json

namespace FileConfig

/-- Checks a narrowing mode. -/
def readNarrowing (actual : Json) : Except ConfigError Narrowing :=
  match actual with
  | .text t =>
    match Narrowing.ofName? t with
    | some mode => .ok mode
    | none => .error (.narrowing actual)
  | _ => .error (.narrowing actual)

/-- Checks a width of indentation. -/
def readIndent (actual : Json) : Except ConfigError Nat :=
  match actual with
  | .number x =>
    match x.safeInt? with
    | none => .error (.indent .notInteger actual)
    | some n =>
      if 0 ≤ n ∧ n ≤ maxIndent then .ok n.toNat else .error (.indent .outOfRange actual)
  | _ => .error (.indent .notNumber actual)

/-- Checks a member if it is there. -/
def readMember {α : Type} (members : Entries Text Json) (name : String)
    (read : Json → Except ConfigError α) : Except ConfigError (Option α) :=
  match members.get? (units name) with
  | none => .ok none
  | some actual => (read actual).map some

/-- Reads the text of a configuration file. -/
def read (t : Text) : Except ConfigError FileConfig :=
  match Json.read t with
  | .error flaw => .error (.malformed flaw)
  | .ok root =>
    match root.asDoubles.normalize with
    | .object members =>
      match readMember members "narrowing" readNarrowing with
      | .error e => .error e
      | .ok narrowing =>
        match readMember members "indent" readIndent with
        | .error e => .error e
        | .ok indent => .ok ⟨narrowing, indent⟩
    | actual => .error (.root actual)

end FileConfig

end TypedReads
