import Qirc.IR.Layout
import Qirc.Lowering.Intrinsics

/-!
# Static addresses of qubits and results

Emitted functions obtain their handles from calls. Each such call is replaced by a constant address,
numbered from zero in program order for qubits and for results apart, and the declarations that
nothing calls any more are dropped.
-/

namespace Qirc

open IR

structure Counters where
  qubits : Nat
  results : Nat
  deriving DecidableEq, Repr, Inhabited

namespace Counters

/-- How many results or how many qubits there are. -/
def count (c : Counters) (isResult : Bool) : Nat := if isResult then c.results else c.qubits

def next (c : Counters) (isResult : Bool) : Counters :=
  if isResult then { c with results := c.results + 1 } else { c with qubits := c.qubits + 1 }

end Counters

namespace Addressing

def calleeName? (m : Module) (i : InstrId) : Except Failure (Option String) :=
  let x := m.instr i
  if x.op = .call then
    match x.callee with
    | some f => .ok (some (m.func f).name)
    | none => .error (.abort none)
  else .ok none

def isHandleCall (name : String) : Bool :=
  name == Intrinsic.qubitAllocate || name == Intrinsic.qubitToResult

def handleCalls (m : Module) (ids : List InstrId) : Except Failure (List (InstrId × String)) := do
  let named ← ids.mapM (fun i => do .ok (i, ← calleeName? m i))
  .ok (named.filterMap (fun p => match p.2 with
    | some n => if isHandleCall n then some (p.1, n) else none
    | none => none))

def replaceCalls (f : FuncId) (width : Nat) :
    List (InstrId × String) → Counters → Module → Counters × Module
  | [], c, m => (c, m)
  | (i, name) :: rest, c, m =>
    let isResult := name == Intrinsic.qubitToResult
    let address := Value.address (m.instr i).ty width (Int64.ofNat (c.count isResult))
    replaceCalls f width rest (c.next isResult) ((m.replaceUses f i address).erase i)

def isCalled (m : Module) (target : FuncId) : Bool :=
  m.functions.any (fun f => (m.body f).any (fun i =>
    (m.instr i).op == .call && (m.instr i).callee == some target))

def dropUnused (m : Module) (name : String) : Module :=
  match m.func? name with
  | none => m
  | some f => if (m.func f).isDeclaration && !isCalled m f then m.removeFunction f else m

end Addressing

def assignAddresses (m : Module) (f : FuncId) (width : Int) :
    Except Failure (Counters × Module) :=
  if (m.func f).isDeclaration then .error (.error .noBody)
  else if width ≤ 0 ∨ 64 < width then .error (.error (.pointerWidth width))
  else do
    let calls ← Addressing.handleCalls m (m.body f)
    let (c, m) := Addressing.replaceCalls f width.toNat calls ⟨0, 0⟩ m
    let m := if (m.func f).owned then
        Addressing.dropUnused (Addressing.dropUnused m Intrinsic.qubitAllocate)
          Intrinsic.qubitToResult
      else m
    .ok (c, m)

end Qirc
