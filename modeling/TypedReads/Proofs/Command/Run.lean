import TypedReads.Command.Run
import TypedReads.Proofs.Adapter.Opening
import TypedReads.Proofs.Command.Switches

/-!
# What a run writes

`Session.Quiet` is a step that writes nothing, with what holds of its answer if it has one. All of a run
is quiet but its last step (`quiet_runAction`), which writes the output of a successful run that is not
silent (`run_of_parse`). So a run that fails has written nothing, and a silent run or a verbose one ends
as it would without the switch (`run_with_switches`).

`Invocation.Requests` is the value that a command line asks for. A successful run ends with the exit code
of an absent read exactly if there is no such value.
-/

namespace TypedReads

namespace Session

variable {α β : Type}

/-- A step that ends in one way whatever was left behind before, writes nothing, and gives an answer of
some kind unless it fails. -/
def Quiet (m : Session α) (Q : α → Prop) : Prop :=
  ∃ r, (∀ a, r = .ok a → Q a) ∧ ∀ t, ∃ logs, m.run t = (r, { t with logs := logs })

/-- A result alone writes nothing. -/
theorem quiet_pure {Q : α → Prop} {a : α} (h : Q a) : Quiet (pure a) Q :=
  ⟨.ok a, fun _ heq => Except.ok.inj heq ▸ h, fun t => ⟨t.logs, rfl⟩⟩

/-- Nor does a failure. -/
theorem quiet_throw {Q : α → Prop} (e : Failure AppError) : Quiet (throw e) Q :=
  ⟨.error e, nofun, fun t => ⟨t.logs, rfl⟩⟩

/-- A log record is nothing written. -/
theorem quiet_log (line : Text) : Quiet (log line) fun _ => True :=
  ⟨.ok (), fun _ _ => trivial, fun t => ⟨t.logs ++ [line], rfl⟩⟩

/-- A step that may be refused writes nothing. -/
theorem quiet_attempt {ε : Type} (error : ε → AppError) (r : Except ε α) :
    Quiet (attempt error r) fun a => r = .ok a := by
  cases r with
  | ok a => exact quiet_pure rfl
  | error e => exact quiet_throw _

/-- Nor does one that may fault. -/
theorem quiet_answer (r : Except Fault α) : Quiet (answer r) fun a => r = .ok a := by
  cases r with
  | ok a => exact quiet_pure rfl
  | error f => exact quiet_throw _

/-- What holds of a quiet result may be weakened. -/
theorem Quiet.mono {m : Session α} {P Q : α → Prop} (hm : Quiet m P) (h : ∀ a, P a → Q a) : Quiet m Q := by
  obtain ⟨r, hr, hrun⟩ := hm
  exact ⟨r, fun a ha => h a (hr a ha), hrun⟩

/-- A step runs on what the one before it has left behind. -/
theorem run_bind (m : Session α) (f : α → Session β) (t : Trail) :
    (m >>= f).run t = ExceptT.bindCont f (m.run t).1 (m.run t).2 := rfl

/-- A quiet step and what follows on its answer. -/
theorem Quiet.bind {m : Session α} {f : α → Session β} {P : α → Prop} {Q : β → Prop} (hm : Quiet m P)
    (hf : ∀ a, P a → Quiet (f a) Q) : Quiet (m >>= f) Q := by
  obtain ⟨r, hr, hrun⟩ := hm
  cases r with
  | error e =>
    refine ⟨.error e, nofun, fun t => ?_⟩
    obtain ⟨logs, hlogs⟩ := hrun t
    refine ⟨logs, ?_⟩
    rw [run_bind, hlogs]
    rfl
  | ok a =>
    obtain ⟨r, hr', hrun'⟩ := hf a (hr a rfl)
    refine ⟨r, hr', fun t => ?_⟩
    obtain ⟨logs, hlogs⟩ := hrun t
    obtain ⟨logs', hlogs'⟩ := hrun' { t with logs := logs }
    refine ⟨logs', ?_⟩
    rw [run_bind, hlogs]
    exact hlogs'

end Session

open Session

namespace Invocation

/-- The configuration file of a command line: what it sets, or nothing if it is missing and was not named
by the command line. -/
inductive Configures (files : Files) (i : Invocation) : FileConfig → Prop
  | file {contents : Text} {config : FileConfig} (hexists : files.exists? i.configPath = .ok true)
      (hread : files.read i.configPath = .ok contents) (hconfig : FileConfig.read contents = .ok config) :
      Configures files i config
  | missing (hexists : files.exists? i.configPath = .ok false) (hunnamed : i.settings.config = none) :
      Configures files i {}

/-- What the document of a command line is opened as, under its configuration. -/
inductive Opens (files : Files) (i : Invocation) (narrowing : Narrowing) : Adapter → Store → Prop
  | mk {contents : Text} {r : Ref} {a : Adapter} {s : Store} (hread : files.read i.file = .ok contents)
      (hopen : Store.empty.openDocument contents narrowing = .ok (r, s)) (ha : s.adapter? r = some a) :
      Opens files i narrowing a s

/-- The value that a command line asks for: what its document has under its key, read as its target. -/
inductive Requests (files : Files) (i : Invocation) : Option Coerced → Prop
  | mk {config : FileConfig} {a : Adapter} {s : Store} {key : Text} {value : Option Coerced}
      (hconfig : i.Configures files config)
      (hopens : i.Opens files (i.settings.resolve config).narrowing a s)
      (hkey : i.settings.key = some key) (hvalue : a.read s i.settings.target key = .ok value) :
      Requests files i value

/-- The exit codes that a successful run of a command line may have. -/
inductive EndsWith (files : Files) (i : Invocation) : ℕ → Prop
  | found {c : Coerced} (hget : i.action = .get) (h : i.Requests files (some c)) : EndsWith files i 0
  | absent (hget : i.action = .get) (h : i.Requests files none) : EndsWith files i exitAbsent
  | shown (hother : i.action ≠ .get) : EndsWith files i 0

variable {files : Files} {i : Invocation}

/-- A command line has one configuration. -/
theorem Configures.unique {config config' : FileConfig} (h : i.Configures files config)
    (h' : i.Configures files config') : config = config' := by
  cases h with
  | file hexists hread hconfig =>
    cases h' with
    | file _ hread' hconfig' =>
      rw [hread] at hread'
      cases hread'
      exact Except.ok.inj (hconfig.symm.trans hconfig')
    | missing hexists' =>
      rw [hexists] at hexists'
      cases hexists'
  | missing hexists =>
    cases h' with
    | file hexists' =>
      rw [hexists] at hexists'
      cases hexists'
    | missing => rfl

/-- A document is opened in one way. -/
theorem Opens.unique {narrowing : Narrowing} {a a' : Adapter} {s s' : Store}
    (h : i.Opens files narrowing a s) (h' : i.Opens files narrowing a' s') : a = a' ∧ s = s' := by
  obtain ⟨hread, hopen, ha⟩ := h
  obtain ⟨hread', hopen', ha'⟩ := h'
  rw [hread] at hread'
  cases hread'
  rw [hopen] at hopen'
  cases hopen'
  rw [ha] at ha'
  cases ha'
  exact ⟨rfl, rfl⟩

/-- A command line asks for one value. -/
theorem Requests.unique {value value' : Option Coerced} (h : i.Requests files value)
    (h' : i.Requests files value') : value = value' := by
  obtain ⟨hconfig, hopens, hkey, hvalue⟩ := h
  obtain ⟨hconfig', hopens', hkey', hvalue'⟩ := h'
  cases hconfig.unique hconfig'
  obtain ⟨rfl, rfl⟩ := hopens.unique hopens'
  rw [hkey] at hkey'
  cases hkey'
  exact Except.ok.inj (hvalue.symm.trans hvalue')

/-- The exit code tells whether a single value was asked for and is absent. -/
theorem EndsWith.iff {code : ℕ} (h : i.EndsWith files code) :
    (code = exitAbsent ↔ i.action = .get ∧ i.Requests files none) ∧
      (code = 0 ↔ ¬ (i.action = .get ∧ i.Requests files none)) := by
  have hcodes : (0 : ℕ) ≠ exitAbsent := by decide
  cases h with
  | found hget hfound =>
    have hno : ¬ (i.action = .get ∧ i.Requests files none) := fun h => nomatch h.2.unique hfound
    exact ⟨iff_of_false hcodes hno, iff_of_true rfl hno⟩
  | absent hget habsent =>
    exact ⟨iff_of_true rfl ⟨hget, habsent⟩, iff_of_false hcodes.symm (not_not_intro ⟨hget, habsent⟩)⟩
  | shown hother =>
    have hno : ¬ (i.action = .get ∧ i.Requests files none) := fun h => hother h.1
    exact ⟨iff_of_false hcodes hno, iff_of_true rfl hno⟩

end Invocation

section Steps

variable (files : Files) (i : Invocation)

/-- Loading the configuration writes nothing and gives what the files say. -/
theorem quiet_loadConfig : Quiet (loadConfig files i) (i.Configures files) := by
  unfold loadConfig
  refine (quiet_attempt _ _).bind fun found hexists => ?_
  cases found with
  | true =>
    refine (quiet_attempt _ _).bind fun contents hread => ?_
    refine (quiet_attempt _ _).bind fun config hconfig => ?_
    exact (quiet_log _).bind fun _ _ => quiet_pure (.file hexists hread hconfig)
  | false =>
    cases hnamed : i.settings.config with
    | some path => exact quiet_throw _
    | none => exact (quiet_log _).bind fun _ _ => quiet_pure (.missing hexists hnamed)

/-- Opening the document writes nothing and gives the adapter on it. -/
theorem quiet_openFile (narrowing : Narrowing) :
    Quiet (openFile files i.file narrowing) fun opened =>
      i.Opens files narrowing opened.1 opened.2 := by
  unfold openFile
  refine (quiet_attempt _ _).bind fun contents hread => ?_
  refine (quiet_attempt _ _).bind fun opened hopen => ?_
  obtain ⟨r, s⟩ := opened
  obtain ⟨-, a, -, ha, -⟩ := Store.exists_adapter_of_openDocument hopen
  refine (quiet_log _).bind fun _ _ => quiet_pure ?_
  rw [ha]
  exact .mk hread hopen ha

variable {files i}

/-- Reading a key writes nothing and ends with the code for what was read. -/
theorem quiet_runGet {config : FileConfig} (hconfig : i.Configures files config) {key : Text}
    (hget : i.action = .get) (hkey : i.settings.key = some key) :
    Quiet (runGet files i (i.settings.resolve config) key) fun outcome =>
      i.EndsWith files outcome.exitCode := by
  unfold runGet
  refine (quiet_openFile files i _).bind fun opened hopens => ?_
  refine (quiet_answer _).bind fun value hvalue => ?_
  have hrequests : i.Requests files value := .mk hconfig hopens hkey hvalue
  -- The line about an absent value is logged, and not written.
  cases value with
  | none => exact (quiet_log _).bind fun _ _ => quiet_pure (.absent hget hrequests)
  | some c => exact quiet_pure (.found hget hrequests)

/-- An inspection writes nothing and ends well. -/
theorem quiet_runInspect (config : Config) :
    Quiet (runInspect files i config) fun outcome => outcome.exitCode = 0 := by
  unfold runInspect
  refine (quiet_openFile files i _).bind fun opened _ => ?_
  exact (quiet_answer _).bind fun rows _ => quiet_pure rfl

/-- Formatting writes nothing and ends well. -/
theorem quiet_runFormat (config : Config) :
    Quiet (runFormat files i config) fun outcome => outcome.exitCode = 0 := by
  unfold runFormat
  refine (quiet_openFile files i _).bind fun opened _ => ?_
  dsimp only
  cases opened.1.toText opened.2 (Double.ofInt config.indent) with
  | ok output => exact quiet_pure rfl
  | error failure =>
    cases failure with
    | refused e => exact quiet_throw _
    | fault f => exact quiet_throw _

/-- All that is done for a command line before its output is written is quiet. -/
theorem quiet_runAction (files : Files) (i : Invocation) :
    Quiet (runAction files i) fun outcome => i.EndsWith files outcome.exitCode := by
  have hshown : i.action ≠ .get → ∀ outcome : Outcome, outcome.exitCode = 0 →
      i.EndsWith files outcome.exitCode := fun hother outcome h => h ▸ .shown hother
  unfold runAction
  refine (quiet_loadConfig files i).bind fun config hconfig => ?_
  refine (quiet_log _).bind fun _ _ => ?_
  cases haction : i.action with
  | get =>
    cases hkey : i.settings.key with
    | none => exact quiet_throw _
    | some key => exact quiet_runGet hconfig haction hkey
  | inspect => exact (quiet_runInspect _).mono (hshown (by rw [haction]; decide))
  | format => exact (quiet_runFormat _).mono (hshown (by rw [haction]; decide))

end Steps

section Run

/-- What a run that ended in some way has written. -/
def writtenBy (silent : Bool) : Except (Failure AppError) Outcome → List Text
  | .ok outcome => if silent then [] else [withFinalBreak outcome.output]
  | .error _ => []

/-- A run ends as its action does, and the output of the action is all that it writes. -/
theorem run_of_parse (files : Files) {arguments : List Text} {i : Invocation}
    (h : Invocation.parse arguments = .ok i) :
    ∃ r logs, (runAction files i).run {} = (r, ⟨[], logs⟩) ∧
      (∀ outcome, r = .ok outcome → i.EndsWith files outcome.exitCode) ∧
      run files arguments =
        ⟨r, writtenBy i.settings.silent r, if i.settings.verbose then logs else []⟩ := by
  obtain ⟨r, hends, hrun⟩ := quiet_runAction files i
  obtain ⟨logs, hlogs⟩ := hrun {}
  have hparsed : (runParsed files i).run {} = (r, ⟨writtenBy i.settings.silent r, logs⟩) := by
    unfold runParsed
    rw [run_bind, hlogs]
    cases r with
    | error e => rfl
    | ok outcome =>
      unfold writtenBy
      dsimp only
      cases i.settings.silent <;> rfl
  refine ⟨r, logs, hlogs, hends, ?_⟩
  unfold run
  rw [h]
  dsimp only
  rw [hparsed]

/-- A switch at the end of a command line that is not read changes nothing. -/
theorem run_append_switch_of_error (files : Files) {arguments : List Text} {e : Failure UsageError}
    (h : Invocation.parse arguments = .error e) (switch : Switch) :
    run files (arguments ++ [switch.argument]) = run files arguments ∧
      (run files arguments).writes = [] := by
  have hswitch : Invocation.parse (arguments ++ [switch.argument]) = .error e := by
    rw [parse_append_switch, h]
    rfl
  unfold run
  rw [hswitch, h]
  cases e <;> exact ⟨rfl, rfl⟩

/-- A switch for output alone, at the end of a command line that is read, changes neither how the run ends
nor what its action does. -/
theorem run_append_switch (files : Files) {arguments : List Text} {i : Invocation}
    (h : Invocation.parse arguments = .ok i) (switch : Switch)
    (hswitch : runAction files { i with settings := i.settings.apply switch.setting } =
      runAction files i) :
    (run files (arguments ++ [switch.argument])).result = (run files arguments).result ∧
      (run files (arguments ++ [switch.argument])).writes =
        writtenBy (i.settings.apply switch.setting).silent (run files arguments).result := by
  have happended : Invocation.parse (arguments ++ [switch.argument]) =
      .ok { i with settings := i.settings.apply switch.setting } := by
    rw [parse_append_switch, h]
    rfl
  obtain ⟨r, logs, hrun, -, heq⟩ := run_of_parse files h
  obtain ⟨r', logs', hrun', -, heq'⟩ := run_of_parse files happended
  rw [hswitch, hrun] at hrun'
  cases hrun'
  rw [heq, heq']
  exact ⟨rfl, rfl⟩

end Run

/-- The switches at the end of a command line that are about output do not interfere with a run. With the
one for silence behind it a run ends in the same way and writes nothing, and with the one for logging it
ends in the same way and writes the same. A run that fails writes nothing; one that succeeds writes once, its
output with a line break at the end, or nothing if it is silent. It ends with 2 exactly if the value that
the command line asks for is absent, and with 0 otherwise. -/
theorem run_with_switches (files : Files) (arguments : List Text) :
    (run files (arguments ++ [units "--silent"])).result = (run files arguments).result ∧
    (run files (arguments ++ [units "--silent"])).writes = [] ∧
    (run files (arguments ++ [units "--verbose"])).result = (run files arguments).result ∧
    (run files (arguments ++ [units "--verbose"])).writes = (run files arguments).writes ∧
    (∀ e, (run files arguments).result = .error e → (run files arguments).writes = []) ∧
    ∀ outcome, (run files arguments).result = .ok outcome →
      ∃ i, Invocation.parse arguments = .ok i ∧
        ((∃ ignored, flagArgument (units "silent") ignored ∈ arguments) →
          (run files arguments).writes = []) ∧
        ((¬ ∃ ignored, flagArgument (units "silent") ignored ∈ arguments) →
          (run files arguments).writes = [withFinalBreak outcome.output]) ∧
        (outcome.exitCode = 2 ↔ i.action = .get ∧ i.Requests files none) ∧
        (outcome.exitCode = 0 ↔ ¬ (i.action = .get ∧ i.Requests files none)) := by
  have hsilent : Switch.silent.argument = units "--silent" := rfl
  have hverbose : Switch.verbose.argument = units "--verbose" := rfl
  rw [← hsilent, ← hverbose]
  cases hparse : Invocation.parse arguments with
  -- A command line that is not read fails with either switch as it does without.
  | error e =>
    obtain ⟨heq, hwrites⟩ := run_append_switch_of_error files hparse .silent
    obtain ⟨heq', -⟩ := run_append_switch_of_error files hparse .verbose
    have herror : ∃ f, (run files arguments).result = .error f := by
      unfold run
      rw [hparse]
      cases e <;> exact ⟨_, rfl⟩
    obtain ⟨f, hresult⟩ := herror
    rw [heq, heq']
    refine ⟨rfl, hwrites, rfl, rfl, fun _ _ => hwrites, fun outcome h => ?_⟩
    rw [hresult] at h
    cases h
  -- The action is the same with either switch; only the silent setting decides what is written.
  | ok i =>
    obtain ⟨r, logs, -, hends, heq⟩ := run_of_parse files hparse
    obtain ⟨hresult, hwrites⟩ := run_append_switch files hparse .silent rfl
    obtain ⟨hresult', hwrites'⟩ := run_append_switch files hparse .verbose rfl
    have hgiven := silent_iff_of_parse hparse
    rw [hresult, hwrites, hresult', hwrites', heq]
    refine ⟨rfl, ?_, rfl, rfl, ?_, ?_⟩
    · cases r <;> rfl
    · rintro e rfl
      rfl
    · rintro outcome rfl
      refine ⟨i, rfl, fun h => ?_, fun h => ?_, (hends outcome rfl).iff⟩
      · show writtenBy i.settings.silent (.ok outcome) = []
        rw [hgiven.mpr h]
        rfl
      · show writtenBy i.settings.silent (.ok outcome) = [withFinalBreak outcome.output]
        rw [Bool.eq_false_iff.mpr (mt hgiven.mp h)]
        rfl

/-- A file system with one small document. -/
def smallFiles : Files := fun path =>
  if path = units "d" then .file (Text.toUtf8 (units "\x7b\"a\":1\x7d")) else .missing

/-- A read of a key that the document lacks. -/
def absentRead : List Text := [units "get", units "--file", units "d", units "--key", units "b"]

/-- The read is shown as a dash on one line, and ends with 2 in silence as well. -/
theorem run_of_absentRead :
    (run smallFiles absentRead).result = .ok ⟨units "-", 2⟩ ∧
      (run smallFiles absentRead).writes = [units "-\n"] ∧
      (run smallFiles (absentRead ++ [units "--silent"])).result = .ok ⟨units "-", 2⟩ ∧
      (run smallFiles (absentRead ++ [units "--silent"])).writes = [] ∧
      ∃ i, Invocation.parse absentRead = .ok i ∧ i.Requests smallFiles none := by
  have hresult : (run smallFiles absentRead).result = .ok ⟨units "-", 2⟩ := by
    have hoption : (run smallFiles absentRead).result.toOption = some ⟨units "-", 2⟩ := by
      decide +kernel
    generalize (run smallFiles absentRead).result = r at hoption
    cases r with
    | error e => cases hoption
    | ok outcome => exact congrArg Except.ok (Option.some.inj hoption)
  have hgiven : ¬ ∃ ignored, flagArgument (units "silent") ignored ∈ absentRead := by
    have hnames : ∀ argument ∈ absentRead, (splitFlag (argument.drop 2)).1 ≠ units "silent" := by decide
    rintro ⟨ignored, hmem⟩
    refine hnames _ hmem ?_
    rw [splitFlag_flagArgument (by decide)]
  obtain ⟨hsame, hsilent, -, -, -, hok⟩ := run_with_switches smallFiles absentRead
  obtain ⟨i, hparse, -, hwrites, hcode, -⟩ := hok _ hresult
  exact ⟨hresult, hwrites hgiven, hsame.trans hresult, hsilent, i, hparse, (hcode.mp rfl).2⟩

end TypedReads
