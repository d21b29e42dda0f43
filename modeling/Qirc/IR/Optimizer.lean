import Qirc.IR.Pass.Branches
import Qirc.IR.Pass.DeadCode
import Qirc.IR.Pass.Folding
import Qirc.IR.Pass.Promotion
import Qirc.IR.Printer
import Qirc.IR.Verifier

/-!
# The optimizer

Passes are applied by name, each to every definition, and the module is verified at the end. The
counts say how often a pass changed a function.
-/

namespace Qirc.IR

inductive Pass where
  | mem2reg
  | simplifycfg
  | instcombine
  | dce
  deriving DecidableEq, Repr, Inhabited

namespace Pass

def all : List Pass := [.mem2reg, .simplifycfg, .instcombine, .dce]

def name : Pass → String
  | .mem2reg => "mem2reg"
  | .simplifycfg => "simplifycfg"
  | .instcombine => "instcombine"
  | .dce => "dce"

def ofName? (name : String) : Option Pass := all.find? (fun p => p.name == name)

def run (f : FuncId) : Pass → Step Module Bool
  | .mem2reg => Module.promote f
  | .simplifycfg => fun m =>
    if (m.func f).isDeclaration then .ok false m else Module.simplifyBranches f m
  | .instcombine => Module.foldInstrs f
  | .dce => modifyGet (fun m => m.removeDead f)

/-- The passes of a compilation. Some are repeated, so that they see what later ones left. -/
def sequence : List String :=
  ["mem2reg", "simplifycfg", "instcombine", "dce", "simplifycfg", "instcombine", "dce"]

end Pass

/-- A module under optimization and the passes that changed a function of it, one entry a change. -/
structure Optimization where
  module : Module
  changes : List Pass := []
  deriving Inhabited

namespace Optimization

def onModule {α : Type} (step : Step Module α) : Step Optimization α :=
  Step.zoom (fun s => s.module) (fun m s => { s with module := m }) step

def runOn (p : Pass) : List FuncId → Step Optimization Unit
  | [] => pure ()
  | f :: rest => do
    if ← onModule (p.run f) then modify (fun s => { s with changes := s.changes ++ [p] })
    runOn p rest

def runPasses : List String → Step Optimization Unit
  | [] => pure ()
  | name :: rest => do
    match Pass.ofName? name with
    | none => throw (.error (.unknownPass name))
    | some p =>
      let s ← get
      runOn p s.module.definitions
      runPasses rest

/-- A module that the verifier has something to say about is rejected with its text. -/
def accept (m : Module) : Except Failure Unit := do
  match ← m.verify with
  | [] => .ok ()
  | report => .error (.error (.rejected report (← m.text)))

def run (names : List String) : Step Optimization Unit := do
  runPasses names
  let s ← get
  Step.ofExcept (accept s.module)

end Optimization

end Qirc.IR
