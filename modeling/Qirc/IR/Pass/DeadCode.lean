import Qirc.IR.Module

/-!
# Removing dead instructions

An instruction without effect whose result nothing reads is dead. Removing the dead ones may leave
others dead, so this is repeated until none is left. Every round but the last takes an instruction
off the function, which bounds the rounds.
-/

namespace Qirc.IR.Module

def dead (m : Module) (f : FuncId) : List InstrId :=
  let read := (m.body f).flatMap (fun i => (m.instr i).operands)
  (m.body f).filter (fun i => !(m.instr i).op.hasEffect && !read.contains (.instr i))

/-- Remove the dead instructions round by round; whether there were any. -/
def removeDeadRounds (f : FuncId) : Nat → Module → Bool × Module
  | 0, m => (true, m)
  | rounds + 1, m =>
    match m.dead f with
    | [] => (false, m)
    | ids => (true, (removeDeadRounds f rounds (ids.foldl erase m)).2)

def removeDead (m : Module) (f : FuncId) : Bool × Module :=
  removeDeadRounds f ((m.body f).length + 1) m

end Qirc.IR.Module
