import Qirc.CommandLine.Flag
import Qirc.Version

/-!
# Commands

The first word of a command line that is neither a flag nor the value of one names the command.
Flags that all commands know may stand before it.
-/

namespace Qirc.CommandLine

inductive Command where
  /-- The program without a command. -/
  | top
  | build
  | check
  | version
  | help
  | completion
  deriving DecidableEq, Repr, Inhabited

namespace Command

def name : Command → String
  | .top => BuildInfo.tool
  | .build => "build"
  | .check => "check"
  | .version => "version"
  | .help => "help"
  | .completion => "completion"

def all : List Command := [.build, .check, .version, .help, .completion]

def ofName? (n : String) : Option Command := all.find? (fun c => c.name == n)

def commonFlags : List Flag :=
  [ { name := "color", kind := .text, initial := "auto" },
    { name := "quiet", kind := .switch, initial := "false" },
    { name := "timings", kind := .switch, initial := "false" },
    { name := "trace", kind := .text },
    { name := "trace-level", kind := .text, initial := "off" },
    { name := "trace-mode", kind := .text, initial := "stream" },
    { name := "trace-format", kind := .text, initial := "auto" },
    { name := "trace-ring-size", kind := .number, initial := "4096" },
    { name := "trace-heartbeat", kind := .duration, initial := "0" },
    { name := "cpu-profile", kind := .text },
    { name := "mem-profile", kind := .text },
    { name := "runtime-trace", kind := .text } ]

def helpFlag : Flag := { name := "help", kind := .switch, letter := some 'h', initial := "false" }

def targetFlag : Flag := { name := "target", kind := .text, initial := Target.hardware.name }

def debugFlag : Flag := { name := "debug", kind := .number, initial := "0" }

def ownFlags : Command → List Flag
  | .top => [{ name := "version", kind := .switch, letter := some 'v', initial := "false" }]
  | .build =>
    [ { name := "output", kind := .text, letter := some 'o' },
      { name := "out-dir", kind := .text },
      { name := "format", kind := .text, initial := "auto" },
      targetFlag,
      { name := "validate", kind := .switch, initial := "true" },
      { name := "rewrite-entry", kind := .switch, initial := "true" },
      debugFlag,
      { name := "save-graph", kind := .text },
      { name := "jobs", kind := .number, letter := some 'j', initial := "1" },
      { name := "ui", kind := .text, initial := "auto" } ]
  | .check => [targetFlag, debugFlag]
  | .version =>
    [ { name := "hash", kind := .switch, initial := "false" },
      { name := "message", kind := .switch, initial := "false" },
      { name := "date", kind := .switch, initial := "false" },
      { name := "full", kind := .switch, initial := "false" },
      { name := "format", kind := .text, initial := "pretty" } ]
  | .help => []
  | .completion => []

def flags (c : Command) : List Flag := helpFlag :: c.ownFlags ++ commonFlags

end Command

/-! ## Finding the command -/

/-- Whether a word is a flag that takes the next word as its value, as far as the common flags
tell. -/
def takesNext (word : String) : Bool :=
  match word.toList with
  | '-' :: '-' :: c :: rest =>
    !(c :: rest).contains '=' &&
      ((named? Command.commonFlags (String.ofList (c :: rest))).map (·.kind)) != some .switch
  | ['-', c] => c != '=' && c.toNat < 0x80
  | _ => false

def isFlagWord (word : String) : Bool := word.toList.head? == some '-'

/-- The words that are neither flags nor values of flags. The value of a flag at the end of the line
is not looked for. -/
def plainWords : List String → List String
  | [] => []
  | "--" :: _ => []
  | word :: rest =>
    if takesNext word then
      match rest with
      | _ :: next :: more => plainWords (next :: more)
      | _ => []
    else if word ≠ "" && !isFlagWord word then word :: plainWords rest
    else plainWords rest

def withoutFirst (name : String) : List String → List String
  | [] => []
  | "--" :: rest => "--" :: rest
  | word :: rest =>
    if takesNext word then
      match rest with
      | v :: more => word :: v :: withoutFirst name more
      | [] => [word]
    else if !isFlagWord word && word == name then rest
    else word :: withoutFirst name rest

/-- How many items have to be inserted, deleted or exchanged to make one list of the other. -/
def editDistance {α : Type} [DecidableEq α] (s t : List α) : Nat :=
  let nextRow (row : List Nat) (a : α) : List Nat :=
    let start := row.headD 0 + 1
    let step (acc : List Nat × Nat) (x : α × Nat × Nat) : List Nat × Nat :=
      let cost := if x.1 = a then x.2.1 else min (min x.2.1 x.2.2) acc.2 + 1
      (cost :: acc.1, cost)
    ((t.zip (row.zip row.tail)).foldl step ([start], start)).1.reverse
  (s.foldl nextRow (List.range (t.length + 1))).getLastD 0

/-- The commands whose names are close to a word: they differ in at most two bytes, or the word is
their beginning. -/
def similarCommands (word : String) : List String :=
  let typed := Text.utf8 (Text.lower word)
  ["build", "check", "version", "completion"].filter fun name =>
    editDistance typed (Text.utf8 name) ≤ 2 || typed.isPrefixOf (Text.utf8 name)

def findCommand (words : List String) : Except UsageError (Command × List String) :=
  match plainWords words with
  | [] => .ok (.top, words)
  | word :: _ =>
    match Command.ofName? word with
    | some c => .ok (c, withoutFirst word words)
    | none => .error (.unknownCommand word BuildInfo.tool (similarCommands word))

end Qirc.CommandLine
