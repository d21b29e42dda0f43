import Qirc.IR.Printer
import Qirc.Path
import Qirc.Text.Base64

/-!
# Artifacts

A module is written as text, as bitcode or as bitcode in base 64. Bitcode comes from an assembler,
which is a program of its own: here it is a function that may fail.
-/

namespace Qirc

open IR

inductive ArtifactFormat where
  /-- The format follows from the destination. -/
  | auto
  | llvmir
  | bitcode
  | base64
  | other (name : String)
  deriving DecidableEq, Repr, Inhabited

namespace ArtifactFormat

def name : ArtifactFormat → String
  | .auto => ""
  | .llvmir => "llvmir"
  | .bitcode => "bitcode"
  | .base64 => "base64"
  | .other n => n

def ofName (n : String) : ArtifactFormat :=
  match n with
  | "" => .auto
  | "llvmir" => .llvmir
  | "bitcode" => .bitcode
  | "base64" => .base64
  | n => .other n

def ofText (s : String) : Except Failure ArtifactFormat :=
  match Text.lower (Text.trim s) with
  | "" | "auto" => .ok .auto
  | "llvmir" | "ll" => .ok .llvmir
  | "bitcode" | "bc" => .ok .bitcode
  | "base64" | "b64" => .ok .base64
  | _ => .error (.error (.formatName s))

def ofPath (path : String) (interactive : Bool) : ArtifactFormat :=
  match Text.lower (Path.ext path) with
  | ".ll" | ".asm" => .llvmir
  | ".bc" => .bitcode
  | ".b64" => .base64
  | _ => if interactive then .llvmir else .bitcode

def extension : ArtifactFormat → String
  | .llvmir => ".ll"
  | .base64 => ".b64"
  | _ => ".bc"

end ArtifactFormat

/-- What an assembler does with a text: bytes, or what it says and how it ends. -/
inductive Assembled where
  | bytes (bs : List UInt8)
  | failed (complaint : String) (status : String)
  deriving DecidableEq, Repr, Inhabited

structure Assembler where
  name : String
  run : List UInt8 → Assembled

def assemble (tool : Option Assembler) (text : List UInt8) : Except Failure (List UInt8) :=
  match tool with
  | none => .error (.error .noAssembler)
  | some a =>
    match a.run text with
    | .bytes bs => .ok bs
    | .failed complaint status =>
      let why := Text.trim complaint
      .error (.error (.within a.name (.reason (if why = "" then status else why))))

def encodeModule (m : Option Module) (format : ArtifactFormat) (tool : Option Assembler) :
    Except Failure (List UInt8) :=
  match m with
  | none => .error (.error (.absent "module"))
  | some m => do
    let text := Text.utf8 (← m.text)
    match format with
    | .llvmir => .ok text
    | .bitcode => assemble tool text
    | .base64 => do
      let bytes ← assemble tool text
      .ok (Text.utf8 (String.ofList (Text.base64 bytes ++ ['\n'])))
    | f => .error (.error (.formatUnsupported f.name))

end Qirc
