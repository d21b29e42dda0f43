import Qirc.IR.Module

/-!
# Control flow

The last instruction of a block says where control goes. A block dominates another one when the
search from the entry without the first does not reach the second; so every block dominates those
that cannot be reached at all.
-/

namespace Qirc.IR

/-- The blocks met by a search from the pending ones, each once; only allowed blocks are entered. -/
def reach (next : BlockId → List BlockId) (allowed pending : List BlockId) : List BlockId :=
  match pending with
  | [] => []
  | b :: rest =>
    if b ∈ allowed then b :: reach next (allowed.erase b) (next b ++ rest)
    else reach next allowed rest
termination_by (allowed.length, pending.length)
decreasing_by
  · rename_i h
    have := List.length_erase_of_mem h
    have := List.length_pos_of_mem h
    simp_wf
    left
    omega
  · simp_wf
    right
    omega

namespace Module

def terminator? (m : Module) (b : BlockId) : Option InstrId :=
  match (m.block b).instrs.getLast? with
  | some i => if (m.instr i).op.isTerminator then some i else none
  | none => none

def targets (m : Module) (b : BlockId) : List (Option BlockId) :=
  match m.terminator? b with
  | some i => (m.instr i).blocks
  | none => []

def successors (m : Module) (b : BlockId) : List BlockId := (m.targets b).filterMap (fun t => t)

def phis (m : Module) (b : BlockId) : List InstrId :=
  (m.block b).instrs.takeWhile (fun i => (m.instr i).op == .phi)

def predecessors (m : Module) (f : FuncId) (b : BlockId) : List BlockId :=
  (m.func f).blocks.filter (fun p => (m.targets p).contains (some b))

def entry? (m : Module) (f : FuncId) : Option BlockId := (m.func f).blocks.head?

/-- The blocks reached from the entry of a function when one of its blocks is closed. -/
def reachWithout (m : Module) (f : FuncId) (closed : BlockId) : List BlockId :=
  reach m.successors ((m.func f).blocks.filter (· != closed)) (m.entry? f).toList

def dominators (m : Module) (f : FuncId) (b : BlockId) : List BlockId :=
  (m.func f).blocks.filter (fun d => !(m.reachWithout f d).contains b)

def dominatorTable (m : Module) (f : FuncId) : List (BlockId × List BlockId) :=
  let blocks := (m.func f).blocks
  let searches := blocks.map (fun d => (d, m.reachWithout f d))
  blocks.map (fun b => (b, (searches.filter (fun s => !s.2.contains b)).map (·.1)))

end Module

end Qirc.IR
