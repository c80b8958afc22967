import TypedReads.Command.Error
import TypedReads.Report

/-!
# Carrying out a command line

`run` is the whole program over a file system: it reads the command line, the configuration and
the document, carries out the action, and writes what it shows to standard output unless the run is
silent. The report of a run is how it ended, with what was written and logged on the way. A run ends
with an exit code of 2 if a single read is absent, and of 0 otherwise. Output ends with a line break,
one being added where it is missing. Log lines are kept only in a verbose run.
-/

namespace TypedReads

/-- What a successful run shows. -/
structure Outcome where
  /-- What was asked for. -/
  output : Text
  /-- The exit code. -/
  exitCode : Nat
  deriving DecidableEq

/-- The exit code of a read that is absent. -/
def exitAbsent : Nat := 2

/-- What a run has left behind so far. -/
structure Trail where
  /-- What was written to standard output, one text for each write. -/
  writes : List Text := []
  /-- The lines logged. -/
  logs : List Text := []

/-- A computation that writes, logs lines and may fail. What it has left behind stays when it fails. -/
abbrev Session := ExceptT (Failure AppError) (StateM Trail)

namespace Session

/-- Logs a line. -/
def log (line : Text) : Session Unit := modify fun t => { t with logs := t.logs ++ [line] }

/-- Writes to standard output. -/
def write (payload : Text) : Session Unit :=
  modify fun t => { t with writes := t.writes ++ [payload] }

/-- A step that may refuse. -/
def attempt {ε α : Type} (error : ε → AppError) (r : Except ε α) : Session α :=
  match r with
  | .ok a => pure a
  | .error e => throw (.refused (error e))

/-- A step that may have no answer. -/
def answer {α : Type} (r : Except Fault α) : Session α :=
  match r with
  | .ok a => pure a
  | .error f => throw (.fault f)

end Session

open Session

/-- The configuration file of a command line: the one it names, or the one beside the document. -/
def Invocation.configPath (i : Invocation) : Text :=
  i.settings.config.getD (joinPath (directoryOf i.file) configFileName)

/-- Loads the configuration file. It may be missing unless the command line names it. -/
def loadConfig (files : Files) (i : Invocation) : Session FileConfig := do
  let path := i.configPath
  if ← attempt .file (files.exists? path) then
    let contents ← attempt .file (files.read path)
    let config ← attempt .config (FileConfig.read contents)
    log (units "Loaded config from " ++ path)
    return config
  else if i.settings.config.isSome then
    throw (.refused (.file (.configMissing path)))
  else
    log (units "No config file at " ++ path ++ units ", using defaults")
    return {}

/-- Opens the document in a store of its own. -/
def openFile (files : Files) (path : Text) (narrowing : Narrowing) : Session (Adapter × Store) := do
  let contents ← attempt .file (files.read path)
  let (r, s) ← attempt .decode (Store.empty.openDocument contents narrowing)
  let adapter := (s.adapter? r).getD ⟨r, narrowing⟩
  log (units "Decoded " ++ path ++ units ": " ++ Text.ofNat (adapter.size s) ++
    units " top-level keys")
  return (adapter, s)

/-- Shows one key. -/
def runGet (files : Files) (i : Invocation) (config : Config) (key : Text) : Session Outcome := do
  let (adapter, s) ← openFile files i.file config.narrowing
  let target := i.settings.target
  let value ← answer (adapter.read s target key)
  if value.isNone then
    log (key ++ units " is missing or not coercible to " ++ units target.name)
  let output := if i.settings.json then readLine target value else readText target value
  return ⟨output, if value.isSome then 0 else exitAbsent⟩

/-- Shows every key. -/
def runInspect (files : Files) (i : Invocation) (config : Config) : Session Outcome := do
  let (adapter, s) ← openFile files i.file config.narrowing
  let rows ← answer (adapter.inspect s)
  return ⟨if i.settings.json then inspectionJson rows else inspectionText rows, 0⟩

/-- Writes the document out again. -/
def runFormat (files : Files) (i : Invocation) (config : Config) : Session Outcome := do
  let (adapter, s) ← openFile files i.file config.narrowing
  match adapter.toText s (Double.ofInt config.indent) with
  | .ok output => return ⟨output, 0⟩
  | .error (.refused e) => throw (.refused (.encode e))
  | .error (.fault f) => throw (.fault f)

/-- Carries out an action. -/
def runAction (files : Files) (i : Invocation) : Session Outcome := do
  let fileConfig ← loadConfig files i
  let config := i.settings.resolve fileConfig
  log (units "narrowing=" ++ units config.narrowing.name ++ units " indent=" ++
    Text.ofNat config.indent)
  match i.action, i.settings.key with
  | .get, some key => runGet files i config key
  | .get, none => throw (.refused (.usage .missingKey))
  | .inspect, _ => runInspect files i config
  | .format, _ => runFormat files i config

/-- Output with a line break at its end. -/
def withFinalBreak (output : Text) : Text :=
  if output.getLast? = some (unit '\n') then output else output ++ [unit '\n']

/-- Writes what an outcome shows, unless the run is silent. -/
def emit (silent : Bool) (outcome : Outcome) : Session Unit :=
  if silent then pure () else write (withFinalBreak outcome.output)

/-- Carries out a command line and writes what it shows. -/
def runParsed (files : Files) (i : Invocation) : Session Outcome := do
  let outcome ← runAction files i
  emit i.settings.silent outcome
  return outcome

/-- What a run leaves behind. -/
structure RunReport where
  /-- How the run ended. -/
  result : Except (Failure AppError) Outcome
  /-- What was written to standard output, one text for each write. -/
  writes : List Text
  /-- The lines logged. -/
  logs : List Text

/-- Runs the program. -/
def run (files : Files) (arguments : List Text) : RunReport :=
  match Invocation.parse arguments with
  | .error (.refused e) => ⟨.error (.refused (.usage e)), [], []⟩
  | .error (.fault f) => ⟨.error (.fault f), [], []⟩
  | .ok i =>
    let (result, trail) := (runParsed files i).run {}
    ⟨result, trail.writes, if i.settings.verbose then trail.logs else []⟩

namespace RunReport

/-- The exit code of the process: 1 for any failure. -/
def exitCode (r : RunReport) : Nat :=
  match r.result with
  | .ok outcome => outcome.exitCode
  | .error _ => 1

/-- All that was written to standard output. -/
def stdout (r : RunReport) : Text := r.writes.flatten

/-- What is written to standard error: the diagnostic of an error, on a line of its own. -/
def stderr (r : RunReport) : Text :=
  match r.result with
  | .error (.refused e) => e.diagnostic.toText ++ [unit '\n']
  | _ => []

end RunReport

/-- The paths that a run may look at. -/
def Invocation.paths (i : Invocation) : List Text := [i.configPath, i.file]

end TypedReads
