import Qirc.Files
import Qirc.Toml.Document

/-!
# Manifests

A project may hold a manifest, a TOML file with the settings of its builds. It is looked for in a
directory and then in the ones above it. Names in it may be written in any case of letters.
-/

namespace Qirc

structure BuildConfig where
  inputs : List String := []
  outDir : String := ""
  format : String := ""
  target : String := ""
  validate : Bool := false
  plainEntry : Bool := false
  debug : Int := 0
  saveGraph : String := ""
  jobs : Int := 0
  deriving DecidableEq, Repr, Inhabited

namespace BuildConfig

def texts : List Toml.Value → Option (List String)
  | [] => some []
  | .text s :: rest => (texts rest).map (s :: ·)
  | _ => none

def set (c : BuildConfig) (name : String) (v : Toml.Value) : Option BuildConfig :=
  match name, v with
  | "inputs", .array xs => (texts xs).map (fun ss => { c with inputs := ss })
  | "out_dir", .text s => some { c with outDir := s }
  | "format", .text s => some { c with format := s }
  | "target", .text s => some { c with target := s }
  | "validate", .boolean b => some { c with validate := b }
  | "rewrite_entry", .boolean b => some { c with plainEntry := b }
  | "debug", .integer n => some { c with debug := n }
  | "save_graph", .text s => some { c with saveGraph := s }
  | "jobs", .integer n => some { c with jobs := n }
  | _, _ => none

def names : List String :=
  ["inputs", "out_dir", "format", "target", "validate", "rewrite_entry", "debug", "save_graph",
    "jobs"]

def nameOf? (names : List String) (key : String) : Option String :=
  if names.contains key then some key else names.find? (fun n => Text.fold n == Text.fold key)

/-- Read the entries of the build table, and which keys were understood. -/
def ofTable (table : String) : Toml.Table → BuildConfig → Option (BuildConfig × List Toml.Key)
  | [], c => some (c, [])
  | (key, v) :: rest, c =>
    match nameOf? names key with
    | none => ofTable table rest c
    | some name => do
      let c ← c.set name v
      let (c, understood) ← ofTable table rest c
      pure (c, [table, key] :: understood)

def ofRoot : Toml.Table → BuildConfig → Option (BuildConfig × List Toml.Key)
  | [], c => some (c, [])
  | (key, v) :: rest, c =>
    match nameOf? ["build"] key, v with
    | none, _ => ofRoot rest c
    | some _, .table entries => do
      let (c, inner) ← ofTable key entries c
      let (c, outer) ← ofRoot rest c
      pure (c, [key] :: inner ++ outer)
    | some _, _ => none

end BuildConfig

structure Manifest where
  path : String
  config : BuildConfig
  document : Toml.Document
  deriving Inhabited

inductive ManifestError where
  | unreachable (path : String) (why : FileReason)
  | unreadable (path : String) (why : Error)
  | malformed (path : String)
  | unknownKeys (path : String) (keys : List Toml.Key)
  | negativeJobs (path : String)
  deriving Inhabited

def ManifestError.error : ManifestError → Error
  | .unreachable path why =>
    .within ("failed to stat " ++ Text.quote path) (.file "stat" path why)
  | .unreadable path why => .within path (.within "failed to parse TOML" why)
  | .malformed path => .within path (.reason "failed to parse TOML")
  | .unknownKeys path keys =>
    .within path (.reason ("unknown keys: " ++ commaList (keys.map Toml.keyText)))
  | .negativeJobs path => .within path (.reason "[build].jobs must not be negative")

namespace Manifest

def fileName : String := "hugrqir.toml"

def root (m : Manifest) : String := Path.dir m.path

def defines (m : Manifest) (key : String) : Bool :=
  match Toml.Table.get? m.document.root "build" with
  | some (.table t) => (Toml.Table.get? t key).isSome
  | _ => false

def resolve (m : Manifest) (path : String) : String :=
  if path = "" || Path.isAbsolute path then path else Path.join [m.root, path]

def upwards : List String → List String
  | [] => ["/"]
  | n :: rest => ("/" ++ String.intercalate "/" (n :: rest).reverse) :: upwards rest

def findIn (fs : Files) : List String → Except ManifestError (Option String)
  | [] => .ok none
  | dir :: rest =>
    let path := Path.join [dir, fileName]
    match fs.lookup path with
    | .ok _ => .ok (some path)
    | .error .missing => findIn fs rest
    | .error why => .error (.unreachable path why)

def find (fs : Files) (start : String) : Except ManifestError (Option String) :=
  let dir := Path.absolute fs.workingDir (if start = "" then "." else start)
  findIn fs (upwards (Path.steps dir).reverse)

def ofFile (fs : Files) (path : String) : Except ManifestError Manifest :=
  match fs.read path with
  | .error e => .error (.unreadable path e)
  | .ok bytes =>
    match Toml.Document.ofBytes? bytes with
    | none => .error (.malformed path)
    | some doc =>
      match BuildConfig.ofRoot doc.root {} with
      | none => .error (.malformed path)
      | some (config, understood) =>
        match doc.keys.filter (fun k => !understood.contains k) with
        | [] =>
          if config.jobs < 0 then .error (.negativeJobs path) else .ok ⟨path, config, doc⟩
        | keys => .error (.unknownKeys path keys)

def load (fs : Files) (start : String) : Except ManifestError (Option Manifest) :=
  match find fs start with
  | .error e => .error e
  | .ok none => .ok none
  | .ok (some path) => (ofFile fs path).map some

end Manifest

end Qirc
