import Qirc.Error

/-!
# Targets

The machines that modules are made for, with the options of code generation that are recorded for
them.
-/

namespace Qirc

structure Target where
  name : String
  triple : String
  layout : String
  deriving DecidableEq, Repr, Inhabited

namespace Target

def hardware : Target :=
  ⟨"hardware", "arm64-unknown-none", "e-m:e-i8:8:32-i16:16:32-i64:64-i128:128-n32:64-S128"⟩

def native : Target :=
  ⟨"native", "x86_64-unknown-linux-gnu",
    "e-m:e-p270:32:32-p271:32:32-p272:64:64-i64:64-i128:128-f80:128-n8:16:32:64-S128"⟩

def all : List Target := [hardware, native]

def names : List String := all.map (·.name)

/-- The target of that name in any case of letters; the hardware when no name is given. -/
def ofName (name : String) : Except Failure Target :=
  let name := if name = "" then hardware.name else name
  match all.find? (fun t => t.name == Text.lower name) with
  | some t => .ok t
  | none => .error (.error (.unknownTarget name))

def codegen (_ : Target) : List (String × String) :=
  [("opt-level", "O2"), ("reloc", "pic"), ("code-model", "default")]

end Target

end Qirc
