import Qirc.CommandLine.Command
import Qirc.Settings

/-!
# Running a command line

A command line is run in a session: it reads files, leaves files and texts on the two outputs, and
ends with an exit code. What goes wrong is told in one last line on the standard error.
-/

namespace Qirc.CommandLine

structure Call where
  command : Command
  words : Words
  deriving DecidableEq, Repr, Inhabited

namespace Call

def value (c : Call) (name : String) : String := c.words.value c.command.flags name

def switch (c : Call) (name : String) : Bool := (Text.truth? (c.value name)).getD false

def number (c : Call) (name : String) : Int := ((Text.number (c.value name)).toOption).getD 0

def arguments (c : Call) : List String := c.words.arguments

def isQuiet (c : Call) : Bool := c.switch "quiet"

def color (c : Call) (interactive : Bool) : Except Error Bool :=
  match c.value "color" with
  | "on" => .ok true
  | "off" => .ok false
  | "auto" | "" => .ok interactive
  | mode =>
    .error (.reason ("invalid --color value " ++ Text.quote mode ++ " (expected auto|on|off)"))

end Call

abbrev Outcome := Option Failure × Session

/-! ## Profiles -/

def touch (s : Session) (path : String) (what : String) : Except Error Session :=
  if path = "" then .ok s
  else match s.files.write path [] with
    | .ok files => .ok { s with files := files }
    | .error e => .error (.within what e)

def startProfiles (c : Call) (s : Session) : Except Error Session := do
  let s ← touch s (c.value "cpu-profile") "cpu profile"
  touch s (c.value "runtime-trace") "runtime trace"

def stopProfiles (c : Call) (s : Session) : Session :=
  match touch s (c.value "mem-profile") "heap profile" with
  | .ok s => s
  | .error e => s.warn ("failed to write profiles: " ++ e.message ++ "\n")

/-! ## Traces -/

structure Tracing where
  path : String
  format : Trace.Format
  deriving DecidableEq, Repr, Inhabited

def Tracing.toStderr (t : Tracing) : Bool := t.path == "" || t.path == "-"

def startTracing (c : Call) (floor : Trace.Level) (s : Session) :
    Except Failure (Tracing × Session) := do
  let path := c.value "trace"
  let level ← (Trace.Level.ofName (c.value "trace-level")).mapError
    (Failure.within "invalid trace level")
  let level := level.raise floor
  let level := if !level.isOn && path != "" then Trace.Level.phase else level
  if !level.isOn then
    .ok (⟨path, .auto⟩, { s with tracer := { Trace.Tracer.silent with now := s.tracer.now } })
  else
    let mode ← (Trace.Mode.ofName (c.value "trace-mode")).mapError
      (Failure.within "invalid trace mode")
    let format ← Trace.Format.ofName (c.value "trace-format")
    let tracing : Tracing := ⟨path, format⟩
    let s ←
      if mode = .ring || tracing.toStderr then .ok s
      else match touch s path "failed to open trace output" with
        | .ok s => .ok s
        | .error e => .error (.error (.within "failed to create tracer" e))
    let tracer ← (Trace.Tracer.new level mode (c.number "trace-ring-size")
      { format := format.forPath path }).mapError (Failure.within "failed to create tracer")
    .ok (tracing, { s with tracer := { tracer with now := s.tracer.now } })

def Tracing.deliver (t : Tracing) (s : Session) : Session :=
  match s.tracer.stream with
  | none => s
  | some stream =>
    let text := stream.written
    let s := { s with tracer.stream := some { stream with written := "" } }
    if t.toStderr then s.warn text
    else
      let before := ((s.files.read t.path).toOption).getD []
      match s.files.write t.path (before ++ Text.utf8 text) with
      | .ok files => { s with files := files }
      | .error _ => s

def Tracing.finish (t : Tracing) (failed : Bool) (s : Session) : Session :=
  match s.tracer.ring with
  | some ring =>
    if failed then
      s.warn ("trace: last events before the failure:\n" ++ ring.dump t.format)
    else s
  | none => s

/-! ## Commands -/

def Call.buildSettings (c : Call) (files : Files) : Except Error BuildSettings :=
  let s : BuildSettings :=
    { inputs := c.arguments, output := c.value "output", outDir := c.value "out-dir",
      format := c.value "format", target := c.value "target", saveGraph := c.value "save-graph",
      ui := c.value "ui", validate := c.switch "validate", plainEntry := c.switch "rewrite-entry",
      debug := c.number "debug", jobs := c.number "jobs" }
  match Manifest.load files "." with
  | .error e => .error e.error
  | .ok manifest =>
    let s := (manifest.map (fun m => s.fill m c.words.isGiven)).getD s
    match s.check with
    | .error e => .error e.error
    | .ok _ => .ok s

def builtReport (c : Call) (color : Bool) (file : String) (b : Built) : String :=
  (b.diagnostics.map (Bag.report color file)).getD "" ++
    (if b.module.isNone then ""
      else
        (if c.isQuiet || b.output == "" then ""
          else "wrote " ++ b.output ++ " (" ++ b.format.name ++
            s!", {b.counters.qubits} qubits, {b.counters.results} results)\n") ++
        (if c.switch "timings" then b.timings.report file else ""))

def runBuild (c : Call) (color : Bool) (s : Session) : Outcome :=
  let ready : Except Failure (BuildSettings × ArtifactFormat × Tracing × Session) := do
    let settings ← (c.buildSettings s.files).mapError Failure.error
    let format ← ArtifactFormat.ofText settings.format
    let _ ← (UiMode.ofText settings.ui).mapError Failure.error
    let (tracing, s) ← startTracing c settings.options.traceLevel s
    .ok (settings, format, tracing, s)
  match ready with
  | .error f => (some f, s)
  | .ok (settings, format, tracing, s) =>
    let files := displayNames s.files.workingDir s.files.workingDir settings.inputs
    let ((results, failure), s) := buildAll ((settings.requests format files).map some) s
    let s := tracing.deliver s
    let s := (files.zip results).foldl (fun s (file, b) => s.warn (builtReport c color file b)) s
    (failure, tracing.finish failure.isSome s)

def checkEach (c : Call) (color : Bool) (tracing : Tracing) (options : Options) :
    List (String × String) → Session → (List Error × Option Failure) × Session
  | [], s => (([], none), s)
  | (path, file) :: rest, s =>
    let ((result, failure), s) := checkOnly { path := path, options := options, file := file } s
    let s := tracing.deliver s
    let s := s.warn ((result.diagnostics.map (Bag.report color file)).getD "")
    match failure with
    | some (.error e) =>
      let ((es, f), s) := checkEach c color tracing options rest s
      ((.within file e :: es, f), s)
    | some f => (([], some f), s)
    | none =>
      checkEach c color tracing options rest
        (if c.isQuiet then s
          else s.warn (file ++ ": " ++ green color "ok" ++ " (entry " ++ result.entry ++ ")\n"))

def runCheck (c : Call) (color : Bool) (s : Session) : Outcome :=
  let options : Options :=
    { debug := c.number "debug", target := c.value "target", plainEntry := true }
  match startTracing c options.traceLevel s with
  | .error f => (some f, s)
  | .ok (tracing, s) =>
    let files := displayNames s.files.workingDir s.files.workingDir c.arguments
    let ((errors, failure), s) := checkEach c color tracing options (c.arguments.zip files) s
    let failure := match failure, errors with
      | some f, _ => some f
      | none, [] => none
      | none, es => some (.error (.all es))
    (failure, tracing.finish failure.isSome s)

def runVersion (c : Call) (color : Bool) (s : Session) : Outcome :=
  let format := c.value "format"
  let full := c.switch "full"
  let shown : BuildInfo.Shown :=
    { commit := c.switch "hash" || full, message := c.switch "message" || full,
      date := c.switch "date" || full }
  let info : BuildInfo := {}
  match Text.lower format with
  | "pretty" => (none, s.print (info.pretty color shown))
  | "json" => (none, s.print (info.json shown))
  | _ =>
    (some (.error (.reason
      ("unsupported format " ++ Text.quote format ++ " (must be pretty or json)"))), s)

def Command.summary : Command → String
  | .top =>
    "hugrqir compiles quantum program graphs into LLVM IR that follows the QIR base profile ABI\n"
  | .build => "Compile one or more program graphs (.json or .mp) into QIR modules.\n"
  | .check => "Validate program graphs and their lowering without writing output\n"
  | .version => "Show hugrqir build metadata\n"
  | .help => "Help about any command\n"
  | .completion => "Generate the autocompletion script for the specified shell\n"

def Call.run (c : Call) (color : Bool) (s : Session) : Outcome :=
  match c.command with
  | .build => runBuild c color s
  | .check => runCheck c color s
  | .version => runVersion c color s
  | _ => (none, s.print c.command.summary)

def Call.asksForHelp (c : Call) : Bool :=
  c.switch "help" || (c.command = .top && !c.switch "version") || c.command = .help ||
    c.command = .completion

def Call.perform (c : Call) (s : Session) : Outcome :=
  if c.asksForHelp then (none, s.print c.command.summary)
  else if c.command = .top then
    (none, s.print (BuildInfo.tool ++ " version " ++ ({} : BuildInfo).version ++ "\n"))
  else if c.command = .check && c.arguments.isEmpty then
    (some (.error (UsageError.tooFewArguments 1 0).error), s)
  else match c.color s.interactive with
    | .error e => (some (.error e), s)
    | .ok color =>
      match startProfiles c s with
      | .error e => (some (.error e), s)
      | .ok s =>
        let (failure, s) := c.run color s
        (failure, stopProfiles c s)

def Call.ofWords (words : List String) : Except UsageError Call := do
  let (command, rest) ← findCommand words
  let read ← readWords command.flags rest {}
  .ok ⟨command, read⟩

def execute (words : List String) (s : Session) : Nat × Session :=
  let (failure, s) : Outcome := match Call.ofWords words with
    | .error e => (some (.error e.error), s)
    | .ok c => c.perform s
  match failure with
  | none => (0, s)
  | some (.error e) => (1, s.warn ("error: " ++ e.message ++ "\n"))
  | some (.abort _) => (2, s)

end Qirc.CommandLine
