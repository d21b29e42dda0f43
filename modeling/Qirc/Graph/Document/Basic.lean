import Qirc.Graph.Edit
import Qirc.Text.Normal

/-!
# Documents

A document is a program graph as a list of node records and a list of edge records. `ofGraph` lists
the nodes of a graph, each before what it contains; `toGraph` builds the graph again and gives the
nodes new numbers in the order of the document.
-/

namespace Qirc

structure ConstRecord where
  type : String
  bool : Bool
  int : Int64
  float : Float
  text : String
  deriving DecidableEq, Inhabited

structure NodeRecord where
  id : Nat
  parent : Option Nat
  kind : String
  name : String
  inputs : List String
  outputs : List String
  dialect : String
  op : String
  tag : String
  angle : String
  callee : Option Nat
  value : Option ConstRecord
  deriving DecidableEq, Inhabited

structure EdgeRecord where
  src : Nat
  srcPort : Int
  dst : Nat
  dstPort : Int
  deriving DecidableEq, Repr, Inhabited

structure Document where
  version : Int
  nodes : List NodeRecord
  edges : List EdgeRecord
  deriving DecidableEq, Inhabited

def ConstRecord.zero : ConstRecord := ⟨"", false, 0, 0.0, ""⟩

def NodeRecord.zero : NodeRecord := ⟨0, none, "", "", [], [], "", "", "", "", none, none⟩

def EdgeRecord.zero : EdgeRecord := ⟨0, 0, 0, 0⟩

namespace Document

def zero : Document := ⟨0, [], []⟩

def currentVersion : Int := 1

def recordOf (id : NodeId) (n : Node) : NodeRecord :=
  let b := n.body
  let isCall := b.kind == .call
  let isConst := b.kind == .const
  { id
    parent := n.parent
    kind := b.kind.name
    name := b.name
    inputs := if isCall then [] else b.sig.inputs.map ValueType.name
    outputs := if isCall || isConst then [] else b.sig.outputs.map ValueType.name
    dialect := b.op.key.dialect
    op := b.op.key.name
    tag := b.op.tag
    angle := b.op.angle
    callee := if isCall then some (b.callee.getD absentNode) else none
    value := if isConst then
        some ⟨b.const.type.name, b.const.bool, b.const.int, b.const.float, b.const.text⟩
      else none }

def edgesInto (g : Graph) (id : NodeId) (n : Node) : List EdgeRecord :=
  (List.range n.inputCount).filterMap fun (i : Nat) =>
    (g.edges.find? (fun e => e.dst == ⟨id, i⟩)).map fun e =>
      ⟨e.src.node, e.src.index, id, i⟩

def EdgeRecord.before (a b : EdgeRecord) : Bool :=
  if a.dst ≠ b.dst then a.dst < b.dst else a.dstPort < b.dstPort

def ofGraph (g : Graph) : Document :=
  let live := (g.walk Graph.root).filterMap (fun id => (g.node? id).map (fun n => (id, n)))
  { version := currentVersion
    nodes := live.map (fun p => recordOf p.1 p.2)
    edges := (live.flatMap (fun p => edgesInto g p.1 p.2)).mergeSort
      (fun a b => !EdgeRecord.before b a) }

def parseType (name : String) : Except GraphError ValueType :=
  match ValueType.ofName? name with
  | some t => .ok t
  | none => .error (.unknownType name)

def parseTypes : List String → Except GraphError (List ValueType)
  | [] => .ok []
  | name :: rest => do
    let t ← parseType name
    let ts ← parseTypes rest
    pure (t :: ts)

def find? (records : List NodeRecord) (id : Nat) : Option NodeRecord :=
  records.find? (fun r => r.id == id)

def callSignature (records : List NodeRecord) (r : NodeRecord) : Except GraphError Signature :=
  match r.callee with
  | none => .error .callWithoutCallee
  | some target =>
    match find? records target with
    | none => .error (.calleeNotFunction target)
    | some f =>
      if f.kind ≠ NodeKind.funcDefn.name then .error (.calleeNotFunction target)
      else do
        let inputs ← parseTypes f.inputs
        let outputs ← parseTypes f.outputs
        pure ⟨inputs, outputs⟩

/-- The body of the node that a record describes; calls name their target later. -/
def bodyOf (records : List NodeRecord) (kind : NodeKind) (r : NodeRecord) :
    Except GraphError NodeBody := do
  let inputs ← parseTypes r.inputs
  let outputs ← parseTypes r.outputs
  let body : NodeBody :=
    { kind
      name := Text.normalize r.name
      sig := ⟨inputs, outputs⟩
      op := ⟨⟨r.dialect, r.op⟩, Text.normalize r.tag, r.angle⟩
      callee := none
      const := Payload.zero .invalid }
  match kind with
  | .op => if r.dialect = "" ∨ r.op = "" then .error .opUnnamed else .ok body
  | .call => do
    let sig ← callSignature records r
    pure { body with sig }
  | .const =>
    match r.value with
    | none => .error .constWithoutValue
    | some v => do
      let t ← parseType v.type
      pure { body with const := ⟨t, v.bool, v.int, v.float, v.text⟩, sig := ⟨[], [t]⟩ }
  | _ => .ok body

structure Builder where
  graph : Graph
  ids : List (Nat × NodeId)

def Builder.get? (b : Builder) (id : Nat) : Option NodeId :=
  (b.ids.find? (fun p => p.1 == id)).map (·.2)

def inNode {α : Type} (id : Nat) : Except GraphError α → Except Error α
  | .ok a => .ok a
  | .error e => .error (.within s!"node {id}" (.graph e))

def addRecord (records : List NodeRecord) (b : Builder) (r : NodeRecord) : Except Error Builder :=
  match NodeKind.ofName? r.kind with
  | none => .error (.graph (.unknownKind r.kind))
  | some kind => do
    let body ← inNode r.id (bodyOf records kind r)
    match r.parent with
    | none =>
      if kind ≠ .module ∨ b.graph.nodes.size ≠ 0 then .error (.graph (.noParentGiven r.id))
      else .ok ⟨Graph.ofRoot body, b.ids ++ [(r.id, Graph.root)]⟩
    | some parent =>
      match b.get? parent with
      | none => .error (.graph (.beforeParent r.id parent))
      | some p => do
        let (id, graph) ← inNode r.id (b.graph.insert? p body)
        pure ⟨graph, b.ids ++ [(r.id, id)]⟩

def addRecords (records : List NodeRecord) (b : Builder) : List NodeRecord → Except Error Builder
  | [] => .ok b
  | r :: rest => do
    let b ← addRecord records b r
    addRecords records b rest

def linkCalls (b : Builder) : List NodeRecord → Except Error Builder
  | [] => .ok b
  | r :: rest =>
    if r.kind ≠ NodeKind.call.name then linkCalls b rest
    else match b.get? r.id, r.callee with
      | some id, some target =>
        match b.get? target with
        | none => .error (.graph (.calleeUnknown id target))
        | some t =>
          linkCalls
            { b with
              graph := b.graph.update id
                (fun n => { n with body := { n.body with callee := some t } }) }
            rest
      | _, _ => linkCalls b rest

def addEdges (b : Builder) : List EdgeRecord → Except Failure Graph
  | [] => .ok b.graph
  | e :: rest =>
    match b.get? e.src, b.get? e.dst with
    | some src, some dst => do
      let graph ← b.graph.connect? ⟨src, e.srcPort⟩ ⟨dst, e.dstPort⟩
      addEdges { b with graph } rest
    | _, _ => .error (.graph (.edgeUnknown e.src e.srcPort e.dst e.dstPort))

def duplicate? : List Nat → List NodeRecord → Option Nat
  | _, [] => none
  | seen, r :: rest => if seen.contains r.id then some r.id else duplicate? (r.id :: seen) rest

def toGraph (d : Document) : Except Failure Graph :=
  if d.version ≠ currentVersion then .error (.graph (.documentVersion d.version))
  else if d.nodes.isEmpty then .error (.graph .documentEmpty)
  else match duplicate? [] d.nodes with
    | some id => .error (.graph (.duplicateId id))
    | none =>
      match (do linkCalls (← addRecords d.nodes ⟨⟨#[], []⟩, []⟩ d.nodes) d.nodes) with
      | .error e => .error (.error e)
      | .ok b => addEdges b d.edges

end Document

end Qirc
