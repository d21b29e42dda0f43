import Qirc.Error
import Qirc.Text.Duration
import Qirc.Text.Number

/-!
# Flags

A command knows some flags, by name and maybe by a letter. The words of a command line are read from
left to right: flags take their value from the word itself or from the next one, a switch needs
none, and the other words are the arguments. Two dashes end the flags.
-/

namespace Qirc.CommandLine

inductive FlagKind where
  | text
  | switch
  | number
  | duration
  deriving DecidableEq, Repr, Inhabited

structure Flag where
  name : String
  kind : FlagKind
  letter : Option Char := none
  initial : String := ""
  deriving DecidableEq, Repr, Inhabited

inductive UsageError where
  | unknownCommand (name program : String) (similar : List String)
  | unknownFlag (name : String)
  | unknownLetter (letter : Char) (run : String)
  | badSyntax (word : String)
  | valueMissing (word : String)
  | letterValueMissing (letter : Char) (run : String)
  | badValue (value : String) (flag : Flag) (why : String)
  | tooFewArguments (least got : Nat)
  deriving DecidableEq, Repr, Inhabited

def Flag.title (f : Flag) : String :=
  match f.letter with
  | some c => "-" ++ c.toString ++ ", --" ++ f.name
  | none => "--" ++ f.name

def letterText (c : Char) : String :=
  "'" ++ (if c = '\'' then "\\'" else if c = '"' then "\"" else Text.quoteChar c) ++ "'"

def UsageError.message : UsageError → String
  | .unknownCommand name program similar =>
    "unknown command " ++ Text.quote name ++ " for " ++ Text.quote program ++
      (if similar.isEmpty then ""
        else "\n\nDid you mean this?\n" ++
          String.join (similar.map (fun s => "\t" ++ s ++ "\n")))
  | .unknownFlag name => "unknown flag: --" ++ name
  | .unknownLetter c run => "unknown shorthand flag: " ++ letterText c ++ " in -" ++ run
  | .badSyntax word => "bad flag syntax: " ++ word
  | .valueMissing word => "flag needs an argument: " ++ word
  | .letterValueMissing c run => "flag needs an argument: " ++ letterText c ++ " in -" ++ run
  | .badValue value flag why =>
    "invalid argument " ++ Text.quote value ++ " for " ++ Text.quote flag.title ++ " flag: " ++ why
  | .tooFewArguments least got =>
    s!"requires at least {least} arg(s), only received {got}"

def UsageError.error (e : UsageError) : Error := .reason e.message

def FlagKind.fault? (k : FlagKind) (value : String) : Option String :=
  match k with
  | .text => none
  | .switch =>
    match Text.truth? value with
    | some _ => none
    | none => some ("strconv.ParseBool: parsing " ++ Text.quote value ++ ": invalid syntax")
  | .number =>
    match Text.number value with
    | .ok _ => none
    | .error e => some ("strconv.ParseInt: parsing " ++ Text.quote value ++ ": " ++ e.text)
  | .duration =>
    match Text.duration? value with
    | .ok _ => none
    | .error e => some (e.text value)

structure Words where
  /-- The flags that were given, the latest first. -/
  given : List (Flag × String) := []
  arguments : List String := []
  deriving DecidableEq, Repr, Inhabited

namespace Words

def give (w : Words) (f : Flag) (value : String) : Except UsageError Words :=
  match f.kind.fault? value with
  | some why => .error (.badValue value f why)
  | none => .ok { w with given := (f, value) :: w.given }

def isGiven (w : Words) (name : String) : Bool := w.given.any (fun g => g.1.name == name)

def value (w : Words) (flags : List Flag) (name : String) : String :=
  match w.given.find? (fun g => g.1.name == name) with
  | some g => g.2
  | none => ((flags.find? (fun f => f.name == name)).map (·.initial)).getD ""

end Words

def named? (flags : List Flag) (name : String) : Option Flag :=
  flags.find? (fun f => f.name == name)

def lettered? (flags : List Flag) (c : Char) : Option Flag :=
  flags.find? (fun f => f.letter == some c)

inductive FlagUse where
  | whole (f : Flag) (value : String)
  | open_ (f : Flag)
  deriving DecidableEq, Repr, Inhabited

def longFlag (flags : List Flag) (word : String) : Except UsageError FlagUse :=
  let body := word.toList.drop 2
  let name := body.takeWhile (· != '=')
  match body with
  | [] => .error (.badSyntax word)
  | c :: _ =>
    if c = '-' ∨ c = '=' then .error (.badSyntax word)
    else match named? flags (String.ofList name) with
      | none => .error (.unknownFlag (String.ofList name))
      | some f =>
        if body.length ≠ name.length then
          .ok (.whole f (String.ofList (body.drop (name.length + 1))))
        else if f.kind = .switch then .ok (.whole f "true")
        else .ok (.open_ f)

/-- The letter that a run of letters starts with, told by its first byte. -/
def firstLetter (run : List Char) : Char :=
  match run with
  | c :: _ => if c.toNat < 0x80 then c else Char.ofNat ((Text.utf8 c.toString).headD 0).toNat
  | [] => ' '

/-- The flags in a run of letters. All but the last one have their values there. -/
def letterFlags (flags : List Flag) :
    List Char → Words → Except UsageError (Words × Option (Flag × String))
  | [], w => .ok (w, none)
  | c :: rest, w =>
    match lettered? flags c with
    | none =>
      .error (.unknownLetter (firstLetter (c :: rest)) (String.ofList (c :: rest)))
    | some f =>
      match rest with
      | '=' :: d :: more =>
        match w.give f (String.ofList (d :: more)) with
        | .error e => .error e
        | .ok w => .ok (w, none)
      | rest =>
        if f.kind = .switch then
          match w.give f "true" with
          | .error e => .error e
          | .ok w => letterFlags flags rest w
        else if rest.isEmpty then .ok (w, some (f, String.ofList [c]))
        else match w.give f (String.ofList rest) with
          | .error e => .error e
          | .ok w => .ok (w, none)

def readWords (flags : List Flag) : List String → Words → Except UsageError Words
  | [], w => .ok w
  | word :: rest, w =>
    match word.toList with
    | '-' :: '-' :: [] => .ok { w with arguments := w.arguments ++ rest }
    | '-' :: '-' :: _ =>
      match longFlag flags word with
      | .error e => .error e
      | .ok (.whole f v) =>
        match w.give f v with
        | .error e => .error e
        | .ok w => readWords flags rest w
      | .ok (.open_ f) =>
        match rest with
        | [] => .error (.valueMissing word)
        | v :: rest =>
          match w.give f v with
          | .error e => .error e
          | .ok w => readWords flags rest w
    | '-' :: c :: letters =>
      match letterFlags flags (c :: letters) w with
      | .error e => .error e
      | .ok (w, none) => readWords flags rest w
      | .ok (w, some (f, run)) =>
        match rest with
        | [] => .error (.letterValueMissing (f.letter.getD ' ') run)
        | v :: rest =>
          match w.give f v with
          | .error e => .error e
          | .ok w => readWords flags rest w
    | _ => readWords flags rest { w with arguments := w.arguments ++ [word] }

end Qirc.CommandLine
