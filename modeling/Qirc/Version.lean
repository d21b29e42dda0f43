import Qirc.Report
import Qirc.Target

/-!
# Version information
-/

namespace Qirc

structure BuildInfo where
  version : String := "0.1.0-dev"
  commit : String := ""
  message : String := ""
  date : String := ""
  deriving DecidableEq, Repr, Inhabited

namespace BuildInfo

def qirVersion : String := "1.0"

def tool : String := "hugrqir"

def tagline : String := "graphs in, qubits out"

structure Shown where
  commit : Bool := false
  message : Bool := false
  date : Bool := false
  deriving DecidableEq, Repr, Inhabited

def displayed (b : BuildInfo) : String :=
  let v := Text.trim b.version
  if v = "" then "dev" else v

def orUnknown (s : String) : String :=
  let s := Text.trim s
  if s = "" then "unknown" else s

def colored (color : Bool) (b : BuildInfo) : String :=
  let v := Text.trim b.version
  let core := v.toList.takeWhile (· != '-')
  let suffix := String.ofList (v.toList.drop (core.length + 1))
  match (String.ofList core).splitOn "." with
  | major :: minor :: patch :: more =>
    let bold (code : String) := styled color (code ++ ";1") "0;22"
    bold "33" major ++ "." ++ bold "32" minor ++ "." ++
      bold "34" (String.intercalate "." (patch :: more)) ++
      (if suffix = "" then "" else "-" ++ suffix)
  | _ => v

/-- A fact about the build: its name in the text, its name in the JSON object, and its value. -/
structure Fact where
  label : String
  member : String
  value : String
  deriving DecidableEq, Repr, Inhabited

def facts (b : BuildInfo) (shown : Shown) : List Fact :=
  (if shown.commit then [⟨"commit:  ", "git_commit", orUnknown b.commit⟩] else []) ++
  (if shown.message then [⟨"message: ", "git_message", orUnknown b.message⟩] else []) ++
  (if shown.date then [⟨"built:   ", "build_date", orUnknown b.date⟩] else [])

def Fact.line (f : Fact) : String := f.label ++ f.value ++ "\n"

def targetLine (t : Target) : String :=
  "target " ++ t.name ++ (if t = Target.hardware then " (default)" else "") ++ ": " ++ t.triple ++
    " O2 pic/default\n"

def pretty (color : Bool) (b : BuildInfo) (shown : Shown) : String :=
  let v := if Text.trim b.version = "" then b.displayed else b.colored color
  tool ++ " " ++ v ++ " (QIR " ++ qirVersion ++ "): " ++ tagline ++ "\n" ++
    String.join (Target.all.map targetLine) ++ String.join ((b.facts shown).map Fact.line)

def targetJson (t : Target) : Json :=
  .object ([("name", .string t.name)] ++
    (if t = Target.hardware then [("default", Json.bool true)] else []) ++
    [("triple", .string t.triple), ("opt_level", Json.nat 2), ("reloc_model", .string "pic"),
      ("code_model", .string "default")])

def json (b : BuildInfo) (shown : Shown) : String :=
  (Json.object ([("tool", .string tool), ("version", .string b.displayed),
    ("qir_version", .string qirVersion), ("targets", .array (Target.all.map targetJson)),
    ("tagline", .string tagline)] ++
    (b.facts shown).map (fun f => (f.member, Json.string f.value)))).pretty

end BuildInfo

end Qirc
