import Qirc.IR.ControlFlow

/-!
# Well-formed modules

The verifier looks at the shape of the blocks first, then at the targets of branches, then at
operands and types; a function with a finding in one of these goes no further.
-/

namespace Qirc.IR

abbrev DominatorTable := List (BlockId × List BlockId)

def DominatorTable.has (table : DominatorTable) (d : BlockId) (b : Option BlockId) : Bool :=
  match table.find? (fun row => some row.1 == b) with
  | some row => row.2.contains d
  | none => false

def findingIf {α : Type} (bad : Bool) (finding : α) : List α := if bad then [finding] else []

namespace Module

/-! ## Shape -/

/-- The shape of the instructions of a block: `late` once an instruction other than a phi was
seen. -/
def instrShape (m : Module) (b : BlockId) : List InstrId → Bool → List Defect
  | [], _ => []
  | i :: rest, late =>
    let x := m.instr i
    let name := (m.block b).name
    findingIf (x.parent != some b) (.instrParent name x.op.name) ++
    findingIf (x.op.isTerminator && !rest.isEmpty) (.terminatorInside name) ++
    findingIf (x.op == .phi && late) (.latePhi name) ++
    m.instrShape b rest (late || x.op != .phi)

def blockShape (m : Module) (f : FuncId) (b : BlockId) : List Defect :=
  let x := m.block b
  findingIf (x.parent != some f) (.blockParent x.name) ++
  findingIf (m.terminator? b).isNone (.noTerminator x.name) ++
  m.instrShape b x.instrs false

def shapeDefects (m : Module) (f : FuncId) : List Defect :=
  (m.func f).blocks.flatMap (m.blockShape f)

/-! ## Branches -/

def isTargetIn (m : Module) (f : FuncId) : Option BlockId → Bool
  | some b => (m.block b).parent == some f
  | none => false

def branchDefects (m : Module) (f : FuncId) : List Defect :=
  let blocks := (m.func f).blocks
  blocks.flatMap (fun b => ((m.targets b).filter (fun t => !m.isTargetIn f t)).map
    (fun _ => .foreignBranch (m.block b).name)) ++
  findingIf (blocks.head?.any (fun e => !(m.predecessors f e).isEmpty)) .entryReached

/-! ## Operands -/

def operandDefect? (m : Module) (f : FuncId) : Value → Option OperandDefect
  | .missing => some .absent
  | .instr i =>
    let x := m.instr i
    match x.parent with
    | none => some .notInFunction
    | some b =>
      if (m.block b).parent != some f then some .notInFunction
      else if x.ty.isVoid then some .voidType
      else none
  | .param g k => if g == f then none else some (.foreignParam (Function.paramName k))
  | .global g => if m.globals.contains g then none else some (.foreignGlobal (m.global g).name)
  | .string g _ => if m.globals.contains g then none else some (.foreignGlobal (m.global g).name)
  | .func g => if (m.func g).owned then none else some (.foreignFunction (m.func g).name)
  | _ => none

def precedes (m : Module) (b : BlockId) (i j : InstrId) : Bool :=
  let at_ (k : InstrId) := ((m.block b).instrs.findIdx? (· == k)).getD 0
  at_ i < at_ j

def operandDefects (m : Module) (f : FuncId) (doms : DominatorTable) (b : BlockId) (i : InstrId)
    (k : Nat) (v : Value) : Except Failure (List Defect) :=
  let x := m.instr i
  let name := (m.block b).name
  match m.operandDefect? f v with
  | some d => .ok [.operand name x.op.name k d]
  | none =>
    match v with
    | .instr j =>
      let home := (m.instr j).parent.getD 0
      if x.op = .phi then
        match x.blocks[k]? with
        | none => .error (.abort none)
        | some use => .ok (findingIf (!doms.has home use) (.notDominated name x.op.name k))
      else if home = b then
        .ok (findingIf (!m.precedes b j i) (.useBeforeDefinition name x.op.name))
      else .ok (findingIf (!doms.has home (some b)) (.notDominated name x.op.name k))
    | _ => .ok []

def operandsDefects (m : Module) (f : FuncId) (doms : DominatorTable) (b : BlockId) (i : InstrId) :
    Nat → List Value → Except Failure (List Defect)
  | _, [] => .ok []
  | k, v :: rest => do
    let first ← m.operandDefects f doms b i k v
    let more ← m.operandsDefects f doms b i (k + 1) rest
    .ok (first ++ more)

/-! ## Instructions -/

/-- The first argument of a call that is not of the type of its parameter. -/
def argumentDefect? (m : Module) (callee : String) :
    Nat → List Value → List Ty → Except Failure (Option InstrDefect)
  | k, v :: vs, t :: ts => do
    let got ← m.operandType v
    if got = t then m.argumentDefect? callee (k + 1) vs ts
    else .ok (some (.callArgument callee k got t))
  | _, _, _ => .ok none

def callDefect? (m : Module) (i : Instr) : Except Failure (Option InstrDefect) :=
  match i.callee with
  | none => .ok (some .callOutside)
  | some c =>
    let callee := m.func c
    if !callee.owned then .ok (some .callOutside)
    else if i.operands.length ≠ callee.proto.params.length then
      .ok (some (.callCount callee.name i.operands.length callee.proto.params.length))
    else do
      match ← m.argumentDefect? callee.name 0 i.operands callee.proto.params with
      | some d => .ok (some d)
      | none =>
        if i.ty = callee.proto.ret then .ok none
        else .ok (some (.callResult callee.name i.ty callee.proto.ret))

def incomingDefect? (m : Module) (ty : Ty) (preds : List BlockId) :
    List Value → List (Option BlockId) → Except Failure (Option InstrDefect)
  | v :: vs, b :: bs =>
    match b with
    | none => .error (.abort none)
    | some b =>
      if !preds.contains b then .ok (some (.phiBlock (m.block b).name))
      else do
        let got ← m.operandType v
        if got = ty then m.incomingDefect? ty preds vs bs else .ok (some (.phiType got ty))
  | _, _ => .ok none

def phiDefect? (m : Module) (i : Instr) (preds : List BlockId) :
    Except Failure (Option InstrDefect) :=
  if i.operands.length ≠ i.blocks.length then .ok (some .phiCounts)
  else if i.blocks.length ≠ preds.length then
    .ok (some (.phiPredecessors i.blocks.length preds.length))
  else m.incomingDefect? i.ty preds i.operands i.blocks

def retDefect? (m : Module) (ret : Ty) (operands : List Value) :
    Except Failure (Option InstrDefect) :=
  if ret.isVoid then .ok (if operands.isEmpty then none else some .retInVoid)
  else match operands with
    | [v] => do
      let got ← m.operandType v
      .ok (if got = ret then none else some (.retType ret))
    | _ => .ok (some (.retType ret))

def shapedType (m : Module) (v : Value) : Except Failure Ty :=
  match m.typeOf v with
  | .missing => .error (.abort none)
  | t => .ok t

def isPtr : Ty → Bool
  | .ptr _ => true
  | _ => false

/-- What is wrong with an instruction of a function, given the predecessors of its block. -/
def instrDefect? (m : Module) (f : FuncId) (i : Instr) (preds : List BlockId) :
    Except Failure (Option InstrDefect) :=
  match i.op with
  | .call => m.callDefect? i
  | .ret => m.retDefect? (m.func f).proto.ret i.operands
  | .condBr =>
    match i.operands with
    | [v] => do
      let t ← m.operandType v
      .ok (if t.isInt 1 && i.blocks.length == 2 then none else some .condBranch)
    | _ => .ok (some .condBranch)
  | .br => .ok (if i.blocks.length = 1 then none else some .branch)
  | .phi => m.phiDefect? i preds
  | .xor | .and | .or | .icmp | .fadd | .fsub | .fmul | .fdiv =>
    match i.operands with
    | [a, b] => do
      let s ← m.operandType a
      let t ← m.operandType b
      .ok (if s = t then none else some (.operandTypes i.op.name))
    | _ => .ok (some (.operandTypes i.op.name))
  | .select =>
    match i.operands with
    | [c, a, b] => do
      if !(← m.operandType c).isInt 1 then .ok (some .select)
      else
        let s ← m.operandType a
        let t ← m.operandType b
        .ok (if s = t then none else some .select)
    | _ => .ok (some .select)
  | .load =>
    match i.operands with
    | [p] => do .ok (if isPtr (← m.shapedType p) then none else some .load)
    | _ => .ok (some .load)
  | .store =>
    match i.operands with
    | [v, p] => do
      let t ← m.shapedType p
      if !isPtr t then .ok (some .store)
      else do
        let got ← m.operandType v
        .ok (if t.elem = got then none else some .store)
    | _ => .ok (some .store)
  | _ => .ok none

/-! ## Functions and modules -/

def checkInstr (m : Module) (f : FuncId) (doms : DominatorTable) (b : BlockId) (i : InstrId) :
    Except Failure (List Defect) := do
  let operands ← m.operandsDefects f doms b i 0 (m.instr i).operands
  let own ← m.instrDefect? f (m.instr i) (m.predecessors f b)
  .ok (operands ++ (own.map (Defect.instr (m.block b).name)).toList)

def checkBlock (m : Module) (f : FuncId) (doms : DominatorTable) (b : BlockId) :
    Except Failure (List Defect) := do
  let found ← (m.block b).instrs.mapM (m.checkInstr f doms b)
  .ok found.flatten

def functionDefects (m : Module) (f : FuncId) : Except Failure (List Defect) :=
  match m.shapeDefects f with
  | [] =>
    match m.branchDefects f with
    | [] => do
      let found ← (m.func f).blocks.mapM (m.checkBlock f (m.dominatorTable f))
      .ok found.flatten
    | ds => .ok ds
  | ds => .ok ds

def functionReport (m : Module) (f : FuncId) : Except Failure Report :=
  let x := m.func f
  if !x.owned then .ok [⟨x.name, [.notOwned]⟩]
  else if x.isDeclaration then .ok []
  else do
    let ds ← m.functionDefects f
    .ok (if ds.isEmpty then [] else [⟨x.name, ds⟩])

def verify (m : Module) : Except Failure Report := do
  let reports ← m.functions.mapM m.functionReport
  .ok reports.flatten

end Module

end Qirc.IR
