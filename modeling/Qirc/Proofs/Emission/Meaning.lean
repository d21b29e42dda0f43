import Qirc.Emission
import Qirc.Proofs.IR.Machine

/-!
# What program graphs do

An interpreter that never looks at instructions: the children of a region are evaluated in dataflow
order, each on the data of its inputs. Operations that touch qubits are calls of the runtime, which
the world answers. Evaluation goes no deeper into calls than it is allowed to.
-/

namespace Qirc

open IR

inductive Halt where
  | tooDeep
  | stuck
  deriving DecidableEq

/-- A computation that asks the world; its state is what was asked so far. -/
abbrev Eval (α : Type) := EStateM Halt (List Effect) α

namespace Eval

def ofOption {α : Type} : Option α → Eval α
  | some a => pure a
  | none => throw .stuck

@[simp] theorem ofOption_some_bind {α β : Type} (a : α) (f : α → Eval β) :
    (ofOption (some a) >>= f) = f a := rfl

def invoke (o : Oracle) (name : String) (args : List Datum) : Eval Datum := fun asked =>
  .ok (o asked (.call name args)) (asked ++ [.call name args])

end Eval

def textDatum (s : String) : Datum := .text (Text.utf8 s ++ [0])

def Payload.datum? (c : Payload) : Option Datum :=
  match c.type with
  | .bool => some (.bool c.bool)
  | .int => some (.int 64 (BitVec.ofInt 64 c.int.toInt))
  | .float => some (.double c.float)
  | .string => some (textDatum c.text)
  | _ => none

/-! ## Operations -/

namespace Lowering

variable (o : Oracle)

def performMeasure (q : Datum) : Eval Datum := do
  let r ← Eval.invoke o Intrinsic.qubitToResult [q]
  let _ ← Eval.invoke o Intrinsic.measure [q, r]
  pure r

def performRead (r : Datum) : Eval Datum := Eval.invoke o Intrinsic.readResult [r]

def performMeasureRead (q : Datum) : Eval Datum := do
  let r ← performMeasure o q
  performRead o r

def logic? : Opcode → Option (Datum → Datum → Datum)
  | .and => some Datum.and
  | .or => some Datum.or
  | .xor => some Datum.xor
  | _ => none

def arithmetic? : Opcode → Option (Float → Float → Float)
  | .fadd => some (· + ·)
  | .fsub => some (· - ·)
  | .fmul => some (· * ·)
  | .fdiv => some (· / ·)
  | _ => none

/-- What an operation asks of the world and what it gives. -/
def perform (l : Lowering) (tag : String) (args : List Datum) : Eval (List Datum) :=
  match l, args with
  | .gate name _, qs => do
    let _ ← Eval.invoke o name qs
    pure qs
  | .rotation name n _, args => do
    let _ ← Eval.invoke o name (args.drop n ++ args.take n)
    pure (args.take n)
  | .allocate, _ => do pure [← Eval.invoke o Intrinsic.qubitAllocate []]
  | .tryAllocate, _ => do pure [.bool true, ← Eval.invoke o Intrinsic.qubitAllocate []]
  | .release, q :: _ => do
    let _ ← Eval.invoke o Intrinsic.qubitRelease [q]
    pure []
  | .measure, q :: _ => do pure [q, ← performMeasureRead o q]
  | .measureLazily, q :: _ => do pure [q, ← performMeasureRead o q]
  | .measureAway, q :: _ => do pure [← performMeasureRead o q]
  | .measureRelease, q :: _ => do
    let r ← performMeasure o q
    let _ ← Eval.invoke o Intrinsic.qubitRelease [q]
    pure [← performRead o r]
  | .measureReset, q :: _ => do
    let r ← performMeasure o q
    let _ ← Eval.invoke o Intrinsic.reset [q]
    pure [q, ← performRead o r]
  | .record name _, d :: _ => do
    let _ ← Eval.invoke o name [d, textDatum tag]
    pure []
  | .readFuture, ds => pure ds
  | .copyFuture, d :: _ => pure [d, d]
  | .dropFuture, _ => pure []
  | .not, x :: _ => pure [x.xor (.bool true)]
  | .logic op, x :: y :: _ => do pure [(← Eval.ofOption (logic? op)) x y]
  | .equal, x :: y :: _ => pure [Datum.compare "eq" x y]
  | .float op, x :: y :: _ => do pure [Datum.arithmetic (← Eval.ofOption (arithmetic? op)) x y]
  | .negate, x :: _ => pure [x.negate]
  | _, _ => throw .stuck

end Lowering

def Operation.perform (o : Oracle) (op : Operation) (args : List Datum) : Eval (List Datum) :=
  match Lowering.find? op.key with
  | some l => l.perform o op.tag args
  | none => throw .stuck

/-! ## Ports -/

def portValue {α : Type} (kept : List (Port × α)) (p : Port) : Option α :=
  (kept.find? (fun e => e.1 == p)).map (·.2)

/-- Keep something for each output of a node, from a position on. -/
def keepFrom {α : Type} (id : NodeId) : Nat → List α → List (Port × α) → List (Port × α)
  | _, [], kept => kept
  | k, a :: rest, kept => keepFrom id (k + 1) rest ((⟨id, k⟩, a) :: kept)

def keep {α : Type} (id : NodeId) (as : List α) (kept : List (Port × α)) : List (Port × α) :=
  keepFrom id 0 as kept

namespace Graph

def inputValues {α : Type} (g : Graph) (kept : List (Port × α)) (id : NodeId) : Option (List α) :=
  (g.node? id).bind fun n =>
    (List.range n.inputCount).mapM fun k : Nat => (g.source? ⟨id, k⟩).bind (portValue kept)

/-! ## Regions and functions -/

/-- Evaluates a function or a region on data for its inputs. -/
abbrev Evaluator := NodeId → List Datum → Eval (List Datum)

variable (g : Graph) (o : Oracle)

/-- The data that a node gives. A constant looks at no input. -/
def evalBody (call region : Evaluator) (id : NodeId) (n : Node) (inputs : Option (List Datum)) :
    Eval (List Datum) :=
  match n.kind with
  | .const => do pure [← Eval.ofOption n.body.const.datum?]
  | .op => do n.body.op.perform o (← Eval.ofOption inputs)
  | .call => do call (← Eval.ofOption n.body.callee) (← Eval.ofOption inputs)
  | .dfg => do region id (← Eval.ofOption inputs)
  | .conditional => do
    match ← Eval.ofOption inputs with
    | predicate :: args =>
      region (← Eval.ofOption n.children[if predicate.isTrue then 1 else 0]?) args
    | [] => throw .stuck
  | _ => throw .stuck

def evalNode (call region : Evaluator) (env : List (Port × Datum)) (id : NodeId) :
    Eval (List (Port × Datum)) := do
  let n ← Eval.ofOption (g.node? id)
  let ds ← evalBody o call region id n (g.inputValues env id)
  pure (keep id ds env)

def evalRegionWith (call inner : Evaluator) : Evaluator := fun id args => do
  let (first, last) ← Eval.ofOption (g.boundary id).toOption
  let order ← Eval.ofOption (g.order id).toOption
  let env ← (order.filter (fun c => c != first && c != last)).foldlM (evalNode g o call inner)
    (keep first args [])
  Eval.ofOption (g.inputValues env last)

/-- Evaluate a region whose nesting is no deeper than `depth`. -/
def evalRegion (call : Evaluator) : Nat → Evaluator
  | 0 => fun _ _ => throw .stuck
  | depth + 1 => evalRegionWith g o call (evalRegion call depth)

/-- Evaluate a function whose calls go no deeper than `bound`. No path of the containment tree is
longer than the arena. -/
def evalFunction : Nat → Evaluator
  | 0 => evalRegion g o (fun _ _ => throw .tooDeep) (g.nodes.size + 1)
  | bound + 1 => evalRegion g o (evalFunction bound) (g.nodes.size + 1)

end Graph

end Qirc
