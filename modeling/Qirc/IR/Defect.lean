import Qirc.IR.Type

/-!
# Findings of the verifier

A defect is one broken rule of well-formed modules. A report holds the defects function by function,
in the order in which they are found.
-/

namespace Qirc.IR

inductive OperandDefect where
  | absent
  | notInFunction
  | voidType
  | foreignParam (name : String)
  | foreignGlobal (name : String)
  | foreignFunction (name : String)
  deriving DecidableEq, Repr

def OperandDefect.text : OperandDefect → String
  | .absent => "nil operand"
  | .notInFunction => "operand is not in this function"
  | .voidType => "operand has void type"
  | .foreignParam n => "parameter %" ++ n ++ " belongs to another function"
  | .foreignGlobal n => "global @" ++ n ++ " is not in the module"
  | .foreignFunction n => "function @" ++ n ++ " is not in the module"

inductive InstrDefect where
  | callOutside
  | callCount (callee : String) (got want : Nat)
  | callArgument (callee : String) (index : Nat) (got want : Ty)
  | callResult (callee : String) (got want : Ty)
  | retInVoid
  | retType (want : Ty)
  | condBranch
  | branch
  | phiCounts
  | phiPredecessors (got want : Nat)
  | phiBlock (name : String)
  | phiType (got want : Ty)
  | operandTypes (op : String)
  | select
  | load
  | store
  deriving DecidableEq, Repr

def InstrDefect.text : InstrDefect → String
  | .callOutside => "call to a function outside the module"
  | .callCount f g w => "call @" ++ f ++ s!" with {g} arguments, want {w}"
  | .callArgument f i g w =>
    "call @" ++ f ++ s!" argument {i} is " ++ g.text ++ ", want " ++ w.text
  | .callResult f g w => "call @" ++ f ++ " result type " ++ g.text ++ ", want " ++ w.text
  | .retInVoid => "ret with a value in a void function"
  | .retType w => "ret must return " ++ w.text
  | .condBranch => "malformed conditional branch"
  | .branch => "malformed branch"
  | .phiCounts => "phi operand/block count mismatch"
  | .phiPredecessors g w => s!"phi has {g} incoming blocks, block has {w} predecessors"
  | .phiBlock n => "phi incoming block " ++ n ++ " is not a predecessor"
  | .phiType g w => "phi incoming value of type " ++ g.text ++ ", want " ++ w.text
  | .operandTypes op => op ++ " operands must have one type"
  | .select => "malformed select"
  | .load => "load from a non-pointer"
  | .store => "store type mismatch"

inductive Defect where
  | notOwned
  | entryReached
  | blockParent (block : String)
  | noTerminator (block : String)
  | instrParent (block op : String)
  | terminatorInside (block : String)
  | latePhi (block : String)
  | foreignBranch (block : String)
  | operand (block op : String) (index : Nat) (cause : OperandDefect)
  | useBeforeDefinition (block op : String)
  | notDominated (block op : String) (index : Nat)
  | instr (block : String) (cause : InstrDefect)
  deriving DecidableEq, Repr

def Defect.text : Defect → String
  | .notOwned => "not owned by module"
  | .entryReached => "entry block has predecessors"
  | .blockParent b => "block " ++ b ++ ": wrong parent"
  | .noTerminator b => "block " ++ b ++ ": missing terminator"
  | .instrParent b op => "block " ++ b ++ ": instruction " ++ op ++ " has wrong parent"
  | .terminatorInside b => "block " ++ b ++ ": terminator in the middle"
  | .latePhi b => "block " ++ b ++ ": phi after non-phi"
  | .foreignBranch b => "block " ++ b ++ ": branch to foreign block"
  | .operand b op i c => "block " ++ b ++ ": " ++ op ++ s!" operand {i}: " ++ c.text
  | .useBeforeDefinition b op =>
    "block " ++ b ++ ": " ++ op ++ " uses a value before its definition"
  | .notDominated b op i =>
    "block " ++ b ++ ": " ++ op ++ s!" operand {i} does not dominate its use"
  | .instr b c => "block " ++ b ++ ": " ++ c.text

structure FunctionReport where
  function : String
  defects : List Defect
  deriving DecidableEq, Repr

def FunctionReport.text (r : FunctionReport) : String :=
  "function @" ++ r.function ++ ": " ++ String.intercalate "\n" (r.defects.map Defect.text)

abbrev Report := List FunctionReport

def Report.text (r : Report) : String := String.intercalate "\n" (r.map FunctionReport.text)

end Qirc.IR
