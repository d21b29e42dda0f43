import Qirc.IR.ControlFlow

/-!
# Promoting stack slots

A slot that is only loaded from and stored to is replaced by the values stored. Two shapes are
covered: all accesses in one block, where each load yields what was stored last, and a slot of the
entry block with a single store there, whose value reaches every load behind it.
-/

namespace Qirc.IR.Module

/-- The loads and stores of a slot among its readers; none if it is read in another way. -/
def slotAccesses (m : Module) (slot : InstrId) :
    List InstrId → Except Failure (Option (List InstrId × List InstrId))
  | [] => .ok (some ([], []))
  | u :: rest =>
    match (m.instr u).op, (m.instr u).operands with
    | .load, _ => do .ok ((← m.slotAccesses slot rest).map (fun a => (u :: a.1, a.2)))
    | .store, v :: p :: _ =>
      if p = .instr slot ∧ v ≠ .instr slot then do
        .ok ((← m.slotAccesses slot rest).map (fun a => (a.1, u :: a.2)))
      else .ok none
    | .store, _ => .error (.abort none)
    | _, _ => .ok none

def sharedBlock (m : Module) : Option BlockId → List InstrId → Option BlockId
  | home, [] => home
  | none, i :: rest => m.sharedBlock (m.instr i).parent rest
  | some b, i :: rest => if (m.instr i).parent = some b then m.sharedBlock (some b) rest else none

/-- Let the loads of a slot yield what was stored last, `current` before the first store. -/
def forward (f : FuncId) (slot : InstrId) : List InstrId → Value → Step Module Unit
  | [], _ => pure ()
  | i :: rest, current => do
    let m ← get
    match (m.instr i).op, (m.instr i).operands with
    | .store, v :: p :: _ => forward f slot rest (if p = .instr slot then v else current)
    | .store, _ => throw (.abort none)
    | .load, [] => throw (.abort none)
    | .load, p :: _ => do
      if p = .instr slot then set ((m.replaceUses f i current).erase i)
      forward f slot rest current
    | _, _ => forward f slot rest current

def positionIn (m : Module) (b : Option BlockId) (i : InstrId) : Option Nat :=
  b.bind (fun b => (m.block b).instrs.findIdx? (· == i))

def loadsBefore (m : Module) (store load : InstrId) : Bool :=
  let home := (m.instr store).parent
  (m.instr load).parent == home &&
    match m.positionIn home load, m.positionIn home store with
    | some k, some n => k < n
    | none, some _ => true
    | _, none => false

def replaceLoads (f : FuncId) (v : Value) (loads : List InstrId) (m : Module) : Module :=
  loads.foldl (fun m i => (m.replaceUses f i v).erase i) m

def promoteSlot (f : FuncId) (entry : BlockId) (slot : InstrId) : Step Module Bool := do
  let m ← get
  match ← Step.ofExcept (m.slotAccesses slot (m.readers f (.instr slot))) with
  | none => pure false
  | some (loads, stores) =>
    match m.sharedBlock none (loads ++ stores), stores with
    | some b, _ =>
      let (start, m) := m.freshUndef (m.instr slot).elem
      set m
      forward f slot (m.block b).instrs start
      modify (fun m => (stores.foldl erase m).erase slot)
      pure true
    | none, [store] =>
      if (m.instr store).parent = some entry ∧ (m.instr slot).parent = some entry ∧
          !loads.any (m.loadsBefore store) then
        let v := (m.instr store).operands.headD .missing
        set (((replaceLoads f v loads m).erase store).erase slot)
        pure true
      else pure false
    | none, _ => pure false

def promoteEach (f : FuncId) (entry : BlockId) : List InstrId → Step Module Bool
  | [] => pure false
  | slot :: rest => do
    let first ← promoteSlot f entry slot
    let more ← promoteEach f entry rest
    pure (first || more)

def promote (f : FuncId) : Step Module Bool := do
  let m ← get
  match m.entry? f with
  | none => pure false
  | some entry => promoteEach f entry ((m.body f).filter (fun i => (m.instr i).op == .alloca))

end Qirc.IR.Module
