import Qirc.Lowering.Intrinsics

/-!
# Lowering of operations

Every operation that can be compiled has an entry in one table. An entry says which ports the
operation has and which instructions stand for it.
-/

namespace Qirc

open IR

inductive Lowering where
  | gate (intrinsic : String) (qubits : Nat)
  | rotation (intrinsic : String) (qubits angles : Nat)
  | allocate
  | tryAllocate
  | release
  | measure
  | measureLazily
  | measureAway
  | measureRelease
  | measureReset
  | record (intrinsic : String) (ty : ValueType)
  | readFuture
  | copyFuture
  | dropFuture
  | not
  | logic (op : Opcode)
  | equal
  | float (op : Opcode)
  | negate
  deriving DecidableEq, Repr, Inhabited

namespace Lowering

def qubits (n : Nat) : List ValueType := List.replicate n .qubit

def sig : Lowering → Signature
  | .gate _ n => ⟨qubits n, qubits n⟩
  | .rotation _ n k => ⟨qubits n ++ List.replicate k .float, qubits n⟩
  | .allocate => ⟨[], [.qubit]⟩
  | .tryAllocate => ⟨[], [.bool, .qubit]⟩
  | .release => ⟨[.qubit], []⟩
  | .measure => ⟨[.qubit], [.qubit, .bool]⟩
  | .measureLazily => ⟨[.qubit], [.qubit, .future]⟩
  | .measureAway => ⟨[.qubit], [.bool]⟩
  | .measureRelease => ⟨[.qubit], [.bool]⟩
  | .measureReset => ⟨[.qubit], [.qubit, .bool]⟩
  | .record _ t => ⟨[t], []⟩
  | .readFuture => ⟨[.future], [.bool]⟩
  | .copyFuture => ⟨[.future], [.future, .future]⟩
  | .dropFuture => ⟨[.future], []⟩
  | .not => ⟨[.bool], [.bool]⟩
  | .logic _ => ⟨[.bool, .bool], [.bool]⟩
  | .equal => ⟨[.bool, .bool], [.bool]⟩
  | .float _ => ⟨[.float, .float], [.float]⟩
  | .negate => ⟨[.float], [.float]⟩

def measureRead (q : Value) : Step Cursor Value := do
  let r ← Cursor.measure q
  Cursor.read r

/-- Append the instructions of an operation and give the values of its outputs. A future is the
truth value it will hold, and a static allocation never fails. -/
def lower (l : Lowering) (tag : String) (args : List Value) : Step Cursor (List Value) :=
  match l, args with
  | .gate name _, args => do
    Cursor.gate name [] args
    pure args
  | .rotation name n _, args => do
    Cursor.gate name (args.drop n) (args.take n)
    pure (args.take n)
  | .allocate, _ => do pure [← Cursor.allocate]
  | .tryAllocate, _ => do pure [.bool true, ← Cursor.allocate]
  | .release, q :: _ => do
    Cursor.release q
    pure []
  | .measure, q :: _ => do pure [q, ← measureRead q]
  | .measureLazily, q :: _ => do pure [q, ← measureRead q]
  | .measureAway, q :: _ => do pure [← measureRead q]
  | .measureRelease, q :: _ => do
    let r ← Cursor.measure q
    Cursor.release q
    pure [← Cursor.read r]
  | .measureReset, q :: _ => do
    let r ← Cursor.measure q
    Cursor.gate Intrinsic.reset [] [q]
    pure [q, ← Cursor.read r]
  | .record name _, v :: _ => do
    Cursor.record name v tag
    pure []
  | .readFuture, args => pure args
  | .copyFuture, v :: _ => pure [v, v]
  | .dropFuture, _ => pure []
  | .not, x :: _ => do pure [← Cursor.emit (fun m => Instr.not m x)]
  | .logic op, x :: y :: _ => do pure [← Cursor.emit (fun m => Instr.binary m op x y)]
  | .equal, x :: y :: _ => do pure [← Cursor.emit (fun _ => Instr.icmp "eq" x y)]
  | .float op, x :: y :: _ => do pure [← Cursor.emit (fun m => Instr.binary m op x y)]
  | .negate, x :: _ => do pure [← Cursor.emit (fun _ => Instr.fneg x)]
  | _, _ => throw (.abort none)

def inDialect (dialect : String) (entries : List (String × Lowering)) : List (OpKey × Lowering) :=
  entries.map (fun e => (⟨dialect, e.1⟩, e.2))

def table : List (OpKey × Lowering) :=
  inDialect "tket2.quantum"
    [("H", .gate (Intrinsic.body "h") 1), ("X", .gate (Intrinsic.body "x") 1),
      ("Y", .gate (Intrinsic.body "y") 1), ("Z", .gate (Intrinsic.body "z") 1),
      ("S", .gate (Intrinsic.body "s") 1), ("Sdg", .gate (Intrinsic.adjoint "s") 1),
      ("T", .gate (Intrinsic.body "t") 1), ("Tdg", .gate (Intrinsic.adjoint "t") 1),
      ("Reset", .gate Intrinsic.reset 1), ("CX", .gate (Intrinsic.body "cx") 2),
      ("CY", .gate (Intrinsic.body "cy") 2), ("CZ", .gate (Intrinsic.body "cz") 2),
      ("Rx", .rotation (Intrinsic.body "rx") 1 1), ("Ry", .rotation (Intrinsic.body "ry") 1 1),
      ("Rz", .rotation (Intrinsic.body "rz") 1 1), ("QAlloc", .allocate), ("QFree", .release),
      ("Measure", .measure), ("MeasureFree", .measureRelease)] ++
  inDialect "tket2.qsystem"
    [("Rz", .rotation (Intrinsic.body "rz") 1 1),
      ("PhasedX", .rotation (Intrinsic.body "phasedx") 1 2),
      ("ZZMax", .gate (Intrinsic.body "zzmax") 2),
      ("ZZPhase", .rotation (Intrinsic.body "rzz") 2 1), ("Reset", .gate Intrinsic.reset 1),
      ("QFree", .release), ("TryQAlloc", .tryAllocate), ("Measure", .measureAway),
      ("LazyMeasure", .measureLazily), ("MeasureReset", .measureReset)] ++
  inDialect "tket2.result"
    [("result_bool", .record Intrinsic.recordBool .bool),
      ("result_int", .record Intrinsic.recordInt .int),
      ("result_uint", .record Intrinsic.recordInt .int),
      ("result_f64", .record Intrinsic.recordDouble .float)] ++
  inDialect "tket2.futures"
    [("Read", .readFuture), ("Dup", .copyFuture), ("Free", .dropFuture)] ++
  inDialect "logic"
    [("Not", .not), ("And", .logic .and), ("Or", .logic .or), ("Xor", .logic .xor),
      ("Eq", .equal)] ++
  inDialect "arithmetic.float"
    [("fadd", .float .fadd), ("fsub", .float .fsub), ("fmul", .float .fmul),
      ("fdiv", .float .fdiv), ("fneg", .negate)]

def find? (key : OpKey) : Option Lowering := (table.find? (fun e => e.1 == key)).map (·.2)

def names : List String := (table.map (fun e => e.1.text)).mergeSort (fun a b => decide (a ≤ b))

end Lowering

def Operation.lower (op : Operation) (sig : Signature) (args : List Value) :
    Step Cursor (List Value) :=
  match Lowering.find? op.key with
  | none => throw (.error (.lowering (.unsupported op.key)))
  | some l =>
    let want := l.sig
    if sig.inputs.length ≠ want.inputs.length ∨ args.length ≠ want.inputs.length then
      throw (.error (.lowering (.arity op.key "inputs" want.inputs.length args.length)))
    else if sig.outputs.length ≠ want.outputs.length then
      throw (.error (.lowering (.arity op.key "outputs" want.outputs.length sig.outputs.length)))
    else if sig ≠ want then throw (.error (.lowering (.signature op.key want sig)))
    else Step.inContext ("lower " ++ op.key.text) (l.lower op.tag args)

end Qirc
