import Qirc.Error

/-!
# Building and editing program graphs

Operations that either succeed or leave the graph alone give an `Except`. Those that do several
edits in a row are steps: if one of the edits is refused, those before it have been done.
-/

namespace Qirc

structure Region where
  node : NodeId
  input : NodeId
  output : NodeId
  deriving DecidableEq, Repr, Inhabited

def NodeBody.settleCallee (body : NodeBody) : NodeBody :=
  if body.callee = some Graph.root ∧ body.kind ≠ .call then { body with callee := none } else body

namespace Graph

def alloc (g : Graph) (body : NodeBody) (parent : Option NodeId) : Graph :=
  { g with nodes := g.nodes.push (Node.fresh body parent) }

/-- The graph with one more node, as the last child of `p`. -/
def adopt (g : Graph) (p : NodeId) (body : NodeBody) : Graph :=
  let id := g.nodes.size
  (g.alloc body.settleCallee (some p)).update p (fun n => { n with children := n.children ++ [id] })

def refusal? (g : Graph) (parent : NodeId) (body : NodeBody) : Option GraphError :=
  match g.node? parent with
  | none => some (.noParent parent)
  | some p => if p.kind.mayHold body.kind then none else some (.notHeld p.kind body.kind)

def insert? (g : Graph) (parent : NodeId) (body : NodeBody) : Except GraphError (NodeId × Graph) :=
  match g.refusal? parent body with
  | some e => .error e
  | none => .ok (g.nodes.size, g.adopt parent body)

/-- As `insert?`; to be refused is a broken precondition of the builders. -/
def place (parent : NodeId) (body : NodeBody) : Step Graph NodeId := fun g =>
  match g.refusal? parent body with
  | some e => .error (.abort (some (.graph e))) g
  | none => .ok g.nodes.size (g.adopt parent body)

def placeBoundary (region : NodeId) (sig : Signature) : Step Graph Region := do
  let input ← place region (NodeBody.ofKind .input ⟨[], sig.inputs⟩)
  let output ← place region (NodeBody.ofKind .output ⟨sig.outputs, []⟩)
  pure ⟨region, input, output⟩

def addFunc (name : String) (sig : Signature) : Step Graph Region := do
  let fn ← place root { NodeBody.ofKind .funcDefn sig with name }
  placeBoundary fn sig

def addOp (parent : NodeId) (op : Operation) (sig : Signature) : Step Graph NodeId :=
  place parent { NodeBody.ofKind .op sig with op }

def addCall (parent callee : NodeId) : Step Graph NodeId := do
  let g ← get
  match g.node? callee with
  | some fn =>
    if fn.kind = .funcDefn then
      place parent { NodeBody.ofKind .call fn.sig with callee := some callee }
    else throw (.abort (some (.graph (.notFunction callee))))
  | none => throw (.abort (some (.graph (.notFunction callee))))

def addConst (parent : NodeId) (v : Payload) : Step Graph NodeId :=
  place parent { NodeBody.ofKind .const ⟨[], [v.type]⟩ with const := v }

def addDfg (parent : NodeId) (sig : Signature) : Step Graph Region := do
  let dfg ← place parent (NodeBody.ofKind .dfg sig)
  placeBoundary dfg sig

/-- A conditional that takes a boolean and `others`. Its first case runs when the boolean is
false, its second when it is true. -/
def addConditional (parent : NodeId) (others outputs : List ValueType) :
    Step Graph (NodeId × Region × Region) := do
  let cond ← place parent (NodeBody.ofKind .conditional ⟨.bool :: others, outputs⟩)
  let no ← place cond (NodeBody.ofKind .case ⟨others, outputs⟩)
  let no ← placeBoundary no ⟨others, outputs⟩
  let yes ← place cond (NodeBody.ofKind .case ⟨others, outputs⟩)
  let yes ← placeBoundary yes ⟨others, outputs⟩
  pure (cond, no, yes)

def typeAt? (ts : List ValueType) (index : Int) : Option ValueType :=
  if index < 0 then none else ts[index.toNat]?

def connect? (g : Graph) (src dst : Port) : Except Failure Graph :=
  match g.node? src.node, g.node? dst.node with
  | some source, some target =>
    if !portInRange src.index source.outputCount then .error (.graph (.noOutput src))
    else if !portInRange dst.index target.inputCount then .error (.graph (.noInput dst))
    else if source.parent ≠ target.parent then .error (.graph (.edgeAcross src dst))
    else match typeAt? source.sig.outputs src.index, typeAt? target.sig.inputs dst.index with
      | some st, some dt =>
        if st ≠ dt then .error (.graph (.edgeTypes src dst st dt))
        else if g.edges.any (fun e => e.dst == dst) then .error (.graph (.inputTaken dst))
        else .ok { g with edges := g.edges ++ [⟨src, dst⟩] }
      | _, _ => .error (.abort none)
  | _, _ => .error (.graph (.edgeWithoutNode src dst))

def connect (src dst : Port) : Step Graph Unit := fun g =>
  match g.connect? src dst with
  | .ok g => .ok () g
  | .error f => .error f g

def removeSubtree? (g : Graph) (id : NodeId) : Except GraphError Graph :=
  match g.node? id with
  | none => .error (.noNode id)
  | some n =>
    if id = root then .error .rootRemoval
    else
      let doomed := g.walk id
      let edges := g.edges.filter
        (fun e => !doomed.contains e.src.node && !doomed.contains e.dst.node)
      let g : Graph := { g with edges }
      let g := match n.parent with
        | some p =>
          if g.contains p then
            g.update p (fun n => { n with children := n.children.filter (· != id) })
          else g
        | none => g
      .ok (doomed.foldl
        (fun g i => g.update i (fun n => { n with live := false, children := [] })) g)

def removeSubtree (id : NodeId) : Step Graph Unit := fun g =>
  match g.removeSubtree? id with
  | .ok g => .ok () g
  | .error e => .error (.graph e) g

def moveBefore (id anchor : NodeId) : Step Graph Unit := do
  let g ← get
  match g.node? id, g.node? anchor with
  | some n, some a =>
    if n.parent ≠ a.parent ∨ id = anchor then throw (.graph (.cannotMove id anchor))
    else match n.parent.bind g.node? with
      | none => throw (.abort (some (.graph (.noNode (n.parent.getD absentNode)))))
      | some p =>
        let pid := n.parent.getD absentNode
        let others := p.children.filter (· != id)
        match others.findIdx? (· == anchor) with
        | some k => modify (·.setChildren pid (others.take k ++ id :: others.drop k))
        | none => do
          modify (·.setChildren pid others)
          throw (.abort none)
  | _, _ => throw (.graph (.cannotMove id anchor))

def moveTargets (dest : Port) : List Port → Step Graph Unit
  | [] => pure ()
  | dst :: rest => do
    modify (·.disconnect dst)
    connect dest dst
    moveTargets dest rest

def replaceUses (src dest : Port) : Step Graph Unit := do
  moveTargets dest ((← get).targets src)

/-- Give the source of one input port to another; the first is left open. -/
def reconnect (old dst : Port) : Step Graph Unit := do
  let g ← get
  match g.source? old with
  | none => throw (.graph (.inputOpen old))
  | some src => do
    set (g.disconnect old)
    connect src dst

def boundary (g : Graph) (region : NodeId) : Except Failure (NodeId × NodeId) :=
  match g.node? region with
  | none => .error (.graph (.notRegion region))
  | some n =>
    if !n.kind.isRegion then .error (.graph (.notRegion region))
    else match n.children with
      | input :: output :: _ =>
        match g.kind? input with
        | none => .error (.abort (some (.graph (.noNode input))))
        | some ik =>
          if ik ≠ .input then .error (.graph (.wrongBoundary region))
          else match g.kind? output with
            | none => .error (.abort (some (.graph (.noNode output))))
            | some ok =>
              if ok ≠ .output then .error (.graph (.wrongBoundary region)) else .ok (input, output)
      | _ => .error (.graph (.noBoundary region))

def functions (g : Graph) : Except Failure (List NodeId) :=
  match g.node? root with
  | none => .error (.abort (some (.graph (.noNode root))))
  | some m =>
    match m.children.find? (fun id => !g.contains id) with
    | some dead => .error (.abort (some (.graph (.noNode dead))))
    | none => .ok (m.children.filter (fun id => g.kind? id == some .funcDefn))

def nameOf (g : Graph) (id : NodeId) : String := ((g.node? id).map Node.name).getD ""

def funcsByName (g : Graph) (name : String) : Except Failure (List NodeId) := do
  let fs ← g.functions
  pure (fs.filter (fun id => g.nameOf id == name))

def enclosing (g : Graph) (id : NodeId) : Except Failure (Option NodeId) :=
  go g.nodes.size id
where
  go : Nat → NodeId → Except Failure (Option NodeId)
    | 0, _ => .ok none
    | depth + 1, id =>
      match g.parent? id with
      | none => .ok none
      | some p =>
        match g.kind? p with
        | none => .error (.abort (some (.graph (.noNode p))))
        | some k => if k = .funcDefn then .ok (some p) else go depth p

end Graph

end Qirc
