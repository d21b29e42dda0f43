import Qirc.Build
import Qirc.Manifest

/-!
# Settings of builds

The settings of a batch of builds come from the command line; what it leaves open is taken from the
manifest. Every input gives one request, and the settings tell where its artifact goes.
-/

namespace Qirc

/-! ## Names of files -/

def displayName (cwd base file : String) : String :=
  if file = "" ∨ file = "-" then file
  else if base = "" then Path.clean file
  else
    let path := Path.absolute cwd file
    match Path.relative? base path with
    | some rel => if rel = "." ∨ rel.startsWith ".." then path else rel
    | none => path

def displayNames (cwd base : String) (files : List String) : List String :=
  let base := Text.trim base
  let base := if base = "" then "" else Path.absolute cwd base
  files.map (displayName cwd base)

/-- The path of the artifact of an input: in the directory for artifacts, or else beside the
input. -/
def outputPath (input outDir : String) (format : ArtifactFormat) : String :=
  let name := Path.stem input ++ format.extension
  Path.join [if outDir = "" then Path.dir input else outDir, name]

/-! ## Settings -/

structure BuildSettings where
  inputs : List String := []
  output : String := ""
  outDir : String := ""
  format : String := "auto"
  target : String := Target.hardware.name
  saveGraph : String := ""
  ui : String := "auto"
  validate : Bool := true
  plainEntry : Bool := true
  debug : Int := 0
  /-- How many builds may run at once. -/
  jobs : Int := 1
  deriving DecidableEq, Repr, Inhabited

inductive SettingsError where
  | noInputs
  | oneOutput
  | oneSavedGraph
  deriving DecidableEq, Repr, Inhabited

def SettingsError.message : SettingsError → String
  | .noInputs => "no inputs given and no [build].inputs in " ++ Manifest.fileName
  | .oneOutput => "-o needs a single input; use --out-dir for several"
  | .oneSavedGraph => "--save-graph needs a single input"

def SettingsError.error (e : SettingsError) : Error := .reason e.message

namespace BuildSettings

def fill (s : BuildSettings) (m : Manifest) (given : String → Bool) : BuildSettings :=
  let c := m.config
  let takes (flag key : String) : Bool := !given flag && m.defines key
  { s with
    inputs := if s.inputs.isEmpty then c.inputs.map m.resolve else s.inputs
    outDir := if takes "out-dir" "out_dir" then m.resolve c.outDir else s.outDir
    format := if takes "format" "format" then c.format else s.format
    target := if takes "target" "target" then c.target else s.target
    validate := if takes "validate" "validate" then c.validate else s.validate
    plainEntry := if takes "rewrite-entry" "rewrite_entry" then c.plainEntry else s.plainEntry
    debug := if takes "debug" "debug" then c.debug else s.debug
    saveGraph := if takes "save-graph" "save_graph" then m.resolve c.saveGraph else s.saveGraph
    jobs := if takes "jobs" "jobs" then c.jobs else s.jobs }

def check (s : BuildSettings) : Except SettingsError Unit :=
  if s.inputs.isEmpty then .error .noInputs
  else if 1 < s.inputs.length ∧ s.output ≠ "" then .error .oneOutput
  else if 1 < s.inputs.length ∧ s.saveGraph ≠ "" then .error .oneSavedGraph
  else .ok ()

def options (s : BuildSettings) : Options :=
  { debug := s.debug, saveGraph := s.saveGraph, validate := s.validate, plainEntry := s.plainEntry,
    target := s.target }

def outputOf (s : BuildSettings) (format : ArtifactFormat) (input : String) : String :=
  if s.output ≠ "" then s.output
  else if s.inputs.length = 1 ∧ s.outDir = "" then "-"
  else outputPath input s.outDir (if format = .auto then .bitcode else format)

def requests (s : BuildSettings) (format : ArtifactFormat) (files : List String) :
    List BuildRequest :=
  (s.inputs.zip files).map fun (input, file) =>
    { path := input, file := file, options := s.options, output := s.outputOf format input,
      format := format }

def usesStdout (s : BuildSettings) (format : ArtifactFormat) : Bool :=
  s.inputs.any (fun input => s.outputOf format input == "-")

end BuildSettings

/-! ## The view of a batch -/

inductive UiMode where
  | auto
  | on
  | off
  deriving DecidableEq, Repr, Inhabited

namespace UiMode

def name : UiMode → String
  | .auto => "auto"
  | .on => "on"
  | .off => "off"

def ofText (s : String) : Except Error UiMode :=
  match Text.trim (Text.lower s) with
  | "" | "auto" => .ok .auto
  | "on" => .ok .on
  | "off" => .ok .off
  | _ => .error (.reason ("invalid --ui value " ++ Text.quote s ++ " (expected auto|on|off)"))

/-- Whether the view is drawn. Artifacts on the standard output rule it out. -/
def draws (mode : UiMode) (toStdout interactive : Bool) : Bool :=
  if toStdout then false
  else match mode with
    | .on => true
    | .off => false
    | .auto => interactive

end UiMode

end Qirc
