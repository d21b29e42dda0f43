import Qirc.IR.Builder

/-!
# Calls of the runtime

A cursor is a module with the block that instructions are appended to. The steps declare the runtime
functions they call on first use; a declaration stays even when a later one is refused.
-/

namespace Qirc

open IR

namespace Intrinsic

def qubitAllocate : String := "__quantum__rt__qubit_allocate"

def qubitRelease : String := "__quantum__rt__qubit_release"

def qubitToResult : String := "__QIR__CONV_Qubit_TO_Result"

def measure : String := "__quantum__qis__mz__body"

def readResult : String := "__quantum__qis__read_result__body"

def reset : String := "__quantum__qis__reset__body"

def recordBool : String := "__quantum__rt__bool_record_output"

def recordInt : String := "__quantum__rt__int_record_output"

def recordDouble : String := "__quantum__rt__double_record_output"

def body (gate : String) : String := "__quantum__qis__" ++ gate ++ "__body"

def adjoint (gate : String) : String := "__quantum__qis__" ++ gate ++ "__adj"

end Intrinsic

def qubitTy : Ty := .ptr (.struct "Qubit")

def resultTy : Ty := .ptr (.struct "Result")

def withHandles (m : Module) : Module := (m.opaqueType "Qubit").opaqueType "Result"

def ValueType.ty (t : ValueType) : Except Failure Ty :=
  match t with
  | .qubit => .ok qubitTy
  | .result => .ok resultTy
  | .bool | .future => .ok .i1
  | .int => .ok .i64
  | .float => .ok .double
  | .string => .ok .bytes
  | t => .error (.error (.lowering (.noType t)))

structure Cursor where
  module : Module
  block : BlockId
  deriving Inhabited

namespace Cursor

def emit (build : Module → Instr) : Step Cursor Value := fun c =>
  let (id, m) := c.module.append c.block (build c.module)
  .ok (.instr id) { c with module := m }

def declare (name : String) (ret : Ty) (params : List Ty) : Step Cursor FuncId := fun c =>
  match c.module.declare name ⟨ret, params⟩ with
  | .ok (f, m) => .ok f { c with module := m }
  | .error e => .error e c

def call (f : FuncId) (args : List Value) : Step Cursor Value := emit (fun m => Instr.call m f args)

def namedCall (f : FuncId) (args : List Value) (hint : String) : Step Cursor Value :=
  emit (fun m => { Instr.call m f args with hint := hint })

def gate (name : String) (angles qubits : List Value) : Step Cursor Unit := do
  let f ← declare name .void (angles.map (fun _ => Ty.double) ++ qubits.map (fun _ => qubitTy))
  let _ ← call f (angles ++ qubits)

def allocate : Step Cursor Value := do
  let f ← declare Intrinsic.qubitAllocate qubitTy []
  namedCall f [] "qubit"

def release (q : Value) : Step Cursor Unit := do
  let f ← declare Intrinsic.qubitRelease .void [qubitTy]
  let _ ← call f [q]

def measure (q : Value) : Step Cursor Value := do
  let convert ← declare Intrinsic.qubitToResult resultTy [qubitTy]
  let measure ← declare Intrinsic.measure .void [qubitTy, resultTy]
  let r ← namedCall convert [q] "result"
  let _ ← call measure [q, r]
  pure r

def read (r : Value) : Step Cursor Value := do
  let f ← declare Intrinsic.readResult .i1 [resultTy]
  call f [r]

def stringPtr (s : String) : Step Cursor Value := fun c =>
  let (v, m) := c.module.stringPtr s
  .ok v { c with module := m }

def record (name : String) (v : Value) (tag : String) : Step Cursor Unit := do
  if tag = "" then throw (.error (.lowering .emptyTag))
  let c ← get
  let f ← declare name .void [c.module.typeOf v, .bytes]
  let label ← stringPtr tag
  let _ ← call f [v, label]

end Cursor

end Qirc
