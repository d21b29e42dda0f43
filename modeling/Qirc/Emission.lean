import Qirc.Graph.Order
import Qirc.Graph.Pruning
import Qirc.Lowering.Table

/-!
# From program graphs to modules

Every function of a graph becomes a function of the module. The children of a region are emitted in
dataflow order, and the value of each output port is kept for the inputs it feeds. A conditional
becomes a branch over two blocks whose results meet in phis.
-/

namespace Qirc

open IR

namespace Emission

structure State where
  cursor : Cursor
  /-- The values of output ports, the latest first. -/
  values : List (Port × Value) := []
  /-- The functions of the graph with those that stand for them. -/
  functions : List (NodeId × FuncId) := []
  operations : Nat := 0
  deriving Inhabited

def onCursor {α : Type} (step : Step Cursor α) : Step State α :=
  Step.zoom (fun s => s.cursor) (fun c s => { s with cursor := c }) step

def onModule {α : Type} (step : Module → α × Module) : Step State α := fun s =>
  let (a, m) := step s.cursor.module
  .ok a { s with cursor := { s.cursor with module := m } }

def setBlock (b : BlockId) : Step State Unit :=
  modify (fun s => { s with cursor := { s.cursor with block := b } })

def bindFrom (id : NodeId) : Nat → List Value → Step State Unit
  | _, [] => pure ()
  | k, v :: rest => do
    modify (fun s => { s with values := (⟨id, k⟩, v) :: s.values })
    bindFrom id (k + 1) rest

def bind (id : NodeId) (vs : List Value) : Step State Unit := bindFrom id 0 vs

def input (g : Graph) (id : NodeId) (k : Nat) : Step State Value := do
  match g.source? ⟨id, k⟩ with
  | none => throw (.graph (.nodeInputOpen id k))
  | some src =>
    let s ← get
    match s.values.find? (fun e => e.1 == src) with
    | some e => pure e.2
    | none => throw (.graph (.readTooEarly id k src))

def inputs (g : Graph) (id : NodeId) : Step State (List Value) :=
  match g.node? id with
  | none => throw (.abort (some (.graph (.noNode id))))
  | some n => (List.range n.inputCount).mapM (input g id)

def constant (c : Payload) : Step State Value :=
  match c.type with
  | .bool => pure (.bool c.bool)
  | .int => pure (.int .i64 c.int)
  | .float => pure (.float c.float)
  | .string => onCursor (Cursor.stringPtr c.text)
  | t => throw (.error (.lowering (.constant t)))

def call (g : Graph) (id : NodeId) (n : Node) : Step State Unit := do
  let s ← get
  match s.functions.find? (fun e => some e.1 == n.body.callee) with
  | none => throw (.graph (.callUnknownFunction id (n.body.callee.getD absentNode)))
  | some e => do
    let args ← inputs g id
    let v ← onCursor (Cursor.call e.2 args)
    if n.sig.outputs.length = 1 then bind id [v]

abbrev RegionEmitter := NodeId → List Value → Step State (List Value)

/-- Emit a case of a conditional into a block and branch on; the block it ends in and its values. -/
def caseBranch (region : RegionEmitter) (outputs : Nat) (index : Nat) (case : NodeId)
    (block merge : BlockId) (args : List Value) : Step State (BlockId × List Value) := do
  setBlock block
  let vs ← region case args
  if vs.length ≠ outputs then throw (.graph (.caseYield index vs.length outputs))
  let s ← get
  let _ ← onCursor (Cursor.emit (fun _ => Instr.br (some merge)))
  pure (s.cursor.block, vs)

def mergeCases (endNo endYes : BlockId) :
    List ValueType → List Value → List Value → Step State (List Value)
  | t :: ts, v :: vs, w :: ws => do
    let ty ← Step.ofExcept t.ty
    let phi ← onCursor (Cursor.emit (fun _ => Instr.phi ty [(v, some endNo), (w, some endYes)]))
    let rest ← mergeCases endNo endYes ts vs ws
    pure (phi :: rest)
  | _, _, _ => pure []

def conditional (g : Graph) (region : RegionEmitter) (id : NodeId) (n : Node) :
    Step State Unit := do
  match ← inputs g id with
  | [] => throw (.graph (.noPredicate id))
  | predicate :: args =>
    match n.children with
    | [caseNo, caseYes] => do
      let s ← get
      let f := ((s.cursor.module.block s.cursor.block).parent).getD 0
      let no ← onModule (fun m => m.addBlock f "cond.false")
      let yes ← onModule (fun m => m.addBlock f "cond.true")
      let merge ← onModule (fun m => m.addBlock f "cond.end")
      let _ ← onCursor (Cursor.emit (fun _ => Instr.condBr predicate (some yes) (some no)))
      let outputs := n.sig.outputs
      let (endNo, vs) ← caseBranch region outputs.length 0 caseNo no merge args
      let (endYes, ws) ← caseBranch region outputs.length 1 caseYes yes merge args
      setBlock merge
      let phis ← mergeCases endNo endYes outputs vs ws
      bind id phis
    | cases => throw (.graph (.caseCount id cases.length))

def node (g : Graph) (region : RegionEmitter) (id : NodeId) : Step State Unit :=
  match g.node? id with
  | none => throw (.abort (some (.graph (.noNode id))))
  | some n =>
    match n.kind with
    | .const => do
      let v ← constant n.body.const
      bind id [v]
    | .op => do
      let args ← inputs g id
      let vs ← Step.inContext s!"node {id}" (onCursor (n.body.op.lower n.sig args))
      modify (fun s => { s with operations := s.operations + 1 })
      bind id vs
    | .call => call g id n
    | .dfg => do
      let args ← inputs g id
      let vs ← region id args
      bind id vs
    | .conditional => conditional g region id n
    | k => throw (.graph (.notEmittable k id))

/-- Emit the children of a region in dataflow order; the values that reach its end. -/
def regionWith (g : Graph) (inner : RegionEmitter) : RegionEmitter := fun id args => do
  let (first, last) ← Step.ofExcept (g.boundary id)
  bind first args
  let order ← Step.ofExcept (g.order id)
  (order.filter (fun c => c != first && c != last)).forM (node g inner)
  inputs g last

def region (g : Graph) : Nat → RegionEmitter
  | 0 => fun _ _ => throw (.abort none)
  | depth + 1 => regionWith g (region g depth)

def prototype (sig : Signature) : Except Failure Prototype := do
  let params ← sig.inputs.mapM ValueType.ty
  match sig.outputs with
  | [] => .ok ⟨.void, params⟩
  | [t] => .ok ⟨← t.ty, params⟩
  | ts => .error (.error (.lowering (.outputs ts.length)))

/-- The symbol a function is emitted under. The entry may keep its plain name. -/
def symbolName (plainEntry : Bool) (id : NodeId) (name : String) : String :=
  if plainEntry && name == Graph.entryName then name else s!"__hugr__.{name}.{id}"

def functionContext (g : Graph) (id : NodeId) : String := "function " ++ Text.quote (g.nameOf id)

def signatureOf (g : Graph) (id : NodeId) : Signature := ((g.node? id).map Node.sig).getD ⟨[], []⟩

def define (g : Graph) (plainEntry : Bool) (id : NodeId) : Step State Unit := do
  let proto ← Step.inContext (functionContext g id)
    (Step.ofExcept (prototype (signatureOf g id)))
  let s ← get
  let (f, m) ← Step.ofExcept
    (s.cursor.module.define (symbolName plainEntry id (g.nameOf id)) proto)
  set { s with
    cursor := { s.cursor with module := m }
    functions := (id, f) :: s.functions.filter (fun e => e.1 != id) }

def body (g : Graph) (id : NodeId) : Step State Unit := do
  let s ← get
  match s.functions.find? (fun e => e.1 == id) with
  | none => throw (.abort none)
  | some (_, f) => do
    let entry ← onModule (fun m => m.addBlock f "entry")
    setBlock entry
    let sig := signatureOf g id
    let args := (List.range sig.inputs.length).map (Value.param f)
    let vs ← region g (g.nodes.size + 1) id args
    if vs.length ≠ sig.outputs.length then
      throw (.graph (.functionYield id vs.length sig.outputs.length))
    let _ ← onCursor (Cursor.emit (fun _ => match vs with
      | [] => Instr.retVoid
      | v :: _ => Instr.ret v))

end Emission

structure Emitted where
  module : Module
  functions : Nat
  /-- The function that stands for the entry, if the graph has one. -/
  entry : Option FuncId
  operations : Nat
  deriving Inhabited

/-- Emit the functions of a graph into a module. All of them are defined first, so that calls can
refer forward. -/
def Graph.emit (g : Graph) (plainEntry : Bool) (m : Module) : Except Failure Emitted := do
  let ids ← g.functions
  let steps : Step Emission.State Unit := do
    ids.forM (Emission.define g plainEntry)
    ids.forM (fun id => Step.inContext (Emission.functionContext g id) (Emission.body g id))
  match steps { cursor := ⟨withHandles m, 0⟩ } with
  | .error e _ => .error e
  | .ok _ s =>
    let entry := s.functions.find? (fun e => g.nameOf e.1 == Graph.entryName)
    .ok ⟨s.cursor.module, s.functions.length, entry.map (·.2), s.operations⟩

end Qirc
