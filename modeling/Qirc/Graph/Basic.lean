import Qirc.Text.Folded
import Qirc.Text.Quoted

/-!
# Program graphs

A program graph is an arena of nodes, named by their position, which is never used again. Containment
is an ordered list of children; regions start with an `Input` and an `Output` child. Dataflow is one
list of edges between ports.
-/

namespace Qirc

inductive ValueType where
  | invalid
  | qubit
  | result
  | bool
  | int
  | float
  | string
  | future
  | unknown (code : Nat)
  deriving DecidableEq, Repr, Inhabited

namespace ValueType

def all : List ValueType := [.qubit, .result, .bool, .int, .float, .string, .future]

def ofCode (n : Nat) : ValueType := (.invalid :: all)[n]?.getD (.unknown n)

def code : ValueType → Nat
  | .invalid => 0
  | .qubit => 1
  | .result => 2
  | .bool => 3
  | .int => 4
  | .float => 5
  | .string => 6
  | .future => 7
  | .unknown n => n

def name : ValueType → String
  | .invalid => "invalid"
  | .qubit => "qubit"
  | .result => "result"
  | .bool => "bool"
  | .int => "int"
  | .float => "float"
  | .string => "string"
  | .future => "future"
  | .unknown n => "type(" ++ toString n ++ ")"

def ofName? (s : String) : Option ValueType := all.find? (fun t => t.name == Text.fold s)

def isLinear (t : ValueType) : Bool := t == .qubit

end ValueType

structure Signature where
  inputs : List ValueType
  outputs : List ValueType
  deriving DecidableEq, Repr, Inhabited

def typeList (ts : List ValueType) : String := String.intercalate ", " (ts.map ValueType.name)

def typeRow (ts : List ValueType) : String :=
  "[" ++ String.intercalate " " (ts.map ValueType.name) ++ "]"

def Signature.text (s : Signature) : String :=
  "(" ++ typeList s.inputs ++ ") -> (" ++ typeList s.outputs ++ ")"

inductive NodeKind where
  | module
  | funcDefn
  | input
  | output
  | op
  | call
  | const
  | dfg
  | conditional
  | case
  | unknown (code : Nat)
  deriving DecidableEq, Repr, Inhabited

namespace NodeKind

def all : List NodeKind :=
  [.module, .funcDefn, .input, .output, .op, .call, .const, .dfg, .conditional, .case]

def ofCode (n : Nat) : NodeKind := all[n]?.getD (.unknown n)

def code : NodeKind → Nat
  | .module => 0
  | .funcDefn => 1
  | .input => 2
  | .output => 3
  | .op => 4
  | .call => 5
  | .const => 6
  | .dfg => 7
  | .conditional => 8
  | .case => 9
  | .unknown n => n

def name : NodeKind → String
  | .module => "Module"
  | .funcDefn => "FuncDefn"
  | .input => "Input"
  | .output => "Output"
  | .op => "Op"
  | .call => "Call"
  | .const => "Const"
  | .dfg => "DFG"
  | .conditional => "Conditional"
  | .case => "Case"
  | .unknown n => "kind(" ++ toString n ++ ")"

def ofName? (s : String) : Option NodeKind := all.find? (fun k => k.name == s)

def isRegion : NodeKind → Bool
  | .funcDefn | .dfg | .case => true
  | _ => false

def hasPorts : NodeKind → Bool
  | .module | .funcDefn | .case => false
  | _ => true

def mayHold (parent child : NodeKind) : Bool :=
  match parent with
  | .module => child == .funcDefn
  | .funcDefn | .dfg | .case =>
    match child with
    | .input | .output | .op | .call | .const | .dfg | .conditional => true
    | _ => false
  | .conditional => child == .case
  | _ => false

end NodeKind

structure OpKey where
  dialect : String
  name : String
  deriving DecidableEq, Repr, Inhabited

def OpKey.text (k : OpKey) : String := k.dialect ++ "." ++ k.name

/-- An operation with its static arguments: the tag of a recorded output and the name of the source
of an angle. -/
structure Operation where
  key : OpKey
  tag : String
  angle : String
  deriving DecidableEq, Repr, Inhabited

/-- The payload of a constant. Only the field of its type is its value; the others are kept. -/
structure Payload where
  type : ValueType
  bool : Bool
  int : Int64
  float : Float
  text : String
  deriving DecidableEq, Inhabited

def Payload.zero (t : ValueType) : Payload := ⟨t, false, 0, 0.0, ""⟩

abbrev NodeId := Nat

def absentNode : Nat := 4294967295

structure Port where
  node : NodeId
  index : Int
  deriving DecidableEq, Repr, Inhabited

def Port.text (p : Port) : String := toString p.node ++ ":" ++ toString p.index

structure Edge where
  src : Port
  dst : Port
  deriving DecidableEq, Repr, Inhabited

structure NodeBody where
  kind : NodeKind
  name : String
  sig : Signature
  op : Operation
  callee : Option NodeId
  const : Payload
  deriving DecidableEq, Inhabited

def NodeBody.ofKind (kind : NodeKind) (sig : Signature) : NodeBody :=
  ⟨kind, "", sig, ⟨⟨"", ""⟩, "", ""⟩, none, Payload.zero .invalid⟩

/-- A slot of the arena. The numbers of ports are fixed when the node is made. -/
structure Node where
  body : NodeBody
  parent : Option NodeId
  children : List NodeId
  inputCount : Nat
  outputCount : Nat
  live : Bool
  deriving DecidableEq, Inhabited

def Node.kind (n : Node) : NodeKind := n.body.kind

def Node.sig (n : Node) : Signature := n.body.sig

def Node.name (n : Node) : String := n.body.name

structure Graph where
  nodes : Array Node
  edges : List Edge
  deriving DecidableEq, Inhabited

def Node.fresh (body : NodeBody) (parent : Option NodeId) : Node :=
  { body
    parent
    children := []
    inputCount := if body.kind.hasPorts then body.sig.inputs.length else 0
    outputCount := if body.kind.hasPorts then body.sig.outputs.length else 0
    live := true }

namespace Graph

def root : NodeId := 0

def ofRoot (body : NodeBody) : Graph := ⟨#[Node.fresh body none], []⟩

def empty : Graph := ofRoot (NodeBody.ofKind .module ⟨[], []⟩)

def slot? (g : Graph) (id : NodeId) : Option Node := g.nodes[id]?

def node? (g : Graph) (id : NodeId) : Option Node := (g.slot? id).filter (·.live)

def contains (g : Graph) (id : NodeId) : Bool := (g.node? id).isSome

def size (g : Graph) : Nat := g.nodes.toList.countP (·.live)

def parent? (g : Graph) (id : NodeId) : Option NodeId := (g.node? id).bind (·.parent)

def children (g : Graph) (id : NodeId) : List NodeId :=
  match g.node? id with
  | some n => n.children
  | none => []

def kind? (g : Graph) (id : NodeId) : Option NodeKind := (g.node? id).map Node.kind

def portInRange (index : Int) (count : Nat) : Bool := 0 ≤ index && index < count

def hasInput (g : Graph) (p : Port) : Bool :=
  match g.node? p.node with
  | some n => portInRange p.index n.inputCount
  | none => false

def hasOutput (g : Graph) (p : Port) : Bool :=
  match g.node? p.node with
  | some n => portInRange p.index n.outputCount
  | none => false

def source? (g : Graph) (dst : Port) : Option Port :=
  if g.hasInput dst then (g.edges.find? (fun e => e.dst == dst)).map (·.src) else none

/-- The input ports that an output port feeds, in the order in which they were connected. -/
def targets (g : Graph) (src : Port) : List Port :=
  if g.hasOutput src then (g.edges.filter (fun e => e.src == src)).map (·.dst) else []

/-- The nodes of a subtree, each before its children, as far as `depth` levels down. Dead nodes are
passed over. -/
def walkFrom (g : Graph) : Nat → NodeId → List NodeId
  | 0, _ => []
  | depth + 1, id =>
    match g.node? id with
    | some n => id :: n.children.flatMap (walkFrom g depth)
    | none => []

/-- The nodes of the subtree at `id`, each before its children. No path of the containment tree is
longer than the arena. -/
def walk (g : Graph) (id : NodeId) : List NodeId := g.walkFrom g.nodes.size id

def calls (g : Graph) : List NodeId :=
  (g.walk root).filter (fun id => g.kind? id == some .call)

def update (g : Graph) (id : NodeId) (f : Node → Node) : Graph :=
  { g with nodes := g.nodes.modify id f }

def setChildren (g : Graph) (id : NodeId) (cs : List NodeId) : Graph :=
  g.update id (fun n => { n with children := cs })

def disconnect (g : Graph) (dst : Port) : Graph :=
  { g with edges := g.edges.filter (fun e => e.dst != dst) }

end Graph

end Qirc
