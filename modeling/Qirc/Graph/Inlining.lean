import Qirc.CallGraph

/-!
# Inlining of calls

A call is replaced by a copy of the body it calls. `inlineCalls` inlines a selection of calls,
callees before callers.
-/

namespace Qirc.Graph

/-- Which fresh node stands for which old one, in the order in which they were made. -/
abbrev NodeMap := List (NodeId × NodeId)

def NodeMap.get? (m : NodeMap) (id : NodeId) : Option NodeId :=
  (m.find? (fun p => p.1 == id)).map (·.2)

/-- Copy a node and all below it, without edges, as the last child of `parent`. A subtree deeper
than `depth` levels is not copied to its end. -/
def copyTree : Nat → NodeId → NodeId → Step Graph NodeMap
  | 0, _, _ => throw (.abort none)
  | depth + 1, parent, id => do
    match (← get).slot? id with
    | none => throw (.abort none)
    | some n => do
      let fresh ← place parent n.body
      let below ← ((← get).children id).mapM (copyTree depth fresh)
      pure ((id, fresh) :: below.flatten)

/-- How many levels are copied. No subtree is deeper than its arena has nodes, but one that grows
while it is copied does not end; then only the ids do. -/
def copyDepth (g : Graph) : Nat := g.nodes.size + absentNode

def copyTrees (depth : Nat) (parent : NodeId) (ids : List NodeId) : Step Graph NodeMap :=
  return (← ids.mapM (copyTree depth parent)).flatten

/-- Where the copy of an edge starts that comes from `src` in the callee. -/
def copiedSource (g : Graph) (call input old : NodeId) (map : NodeMap) (src : Port) :
    Except Failure Port :=
  if src.node = input then
    match g.source? ⟨call, src.index⟩ with
    | some p => .ok p
    | none => .error (.graph (.callInputOpen call src.index))
  else match map.get? src.node with
    | some n => .ok ⟨n, src.index⟩
    | none => .error (.graph (.edgeOutOfBody old))

def rewireInputs (call input old fresh : NodeId) (map : NodeMap) : List Nat → Step Graph Unit
  | [] => pure ()
  | i :: rest => do
    let g ← get
    match (g.edges.find? (fun e => e.dst == ⟨old, i⟩)).map (·.src) with
    | none => rewireInputs call input old fresh map rest
    | some src => do
      let start ← Step.ofExcept (copiedSource g call input old map src)
      connect start ⟨fresh, i⟩
      rewireInputs call input old fresh map rest

def rewireAll (call input : NodeId) (map : NodeMap) : NodeMap → Step Graph Unit
  | [] => pure ()
  | (old, fresh) :: rest => do
    let count := (((← get).slot? old).map (·.inputCount)).getD 0
    rewireInputs call input old fresh map (List.range count)
    rewireAll call input map rest

/-- Let the consumers of the call's outputs read what feeds the callee's outputs. -/
def rewireOutputs (call input output : NodeId) (name : String) (map : NodeMap) :
    List Nat → Step Graph Unit
  | [] => pure ()
  | j :: rest => do
    let g ← get
    match g.source? ⟨output, j⟩ with
    | none => throw (.graph (.functionOutputOpen name j))
    | some src => do
      let start ←
        if src.node = input then
          match g.source? ⟨call, src.index⟩ with
          | some p => pure p
          | none => throw (.graph (.callInputOpen call src.index))
        else pure ⟨(map.get? src.node).getD root, src.index⟩
      moveTargets start (g.targets ⟨call, j⟩)
      rewireOutputs call input output name map rest

def inlineCall (call : NodeId) : Step Graph Unit := do
  let g ← get
  match g.node? call with
  | none => throw (.graph (.notCall call))
  | some c =>
    if c.kind ≠ .call then throw (.graph (.notCall call))
    let calleeId := c.body.callee.getD absentNode
    match c.body.callee.bind g.node? with
    | none => throw (.graph (.calleeMissing call calleeId))
    | some callee =>
      if callee.kind ≠ .funcDefn then throw (.graph (.calleeMissing call calleeId))
      let (input, output) ← Step.ofExcept (g.boundary calleeId)
      let parentId := c.parent.getD absentNode
      match c.parent.bind g.node? with
      | none => throw (.abort (some (.graph (.noNode parentId))))
      | some parent => do
        let position := parent.children.findIdx? (· == call)
        let body := callee.children.drop 2
        let map ← copyTrees g.copyDepth parentId body
        let now := (← get).children parentId
        let kept := now.take (now.length - body.length)
        let top := now.drop (now.length - body.length)
        match position with
        | none => do
          modify (·.setChildren parentId kept)
          throw (.abort none)
        | some k => do
          modify (·.setChildren parentId (kept.take k ++ top ++ kept.drop k))
          rewireAll call input map (map.mergeSort (fun a b => a.1 ≤ b.1))
          rewireOutputs call input output callee.name map (List.range c.outputCount)
          removeSubtree call

def inlineSites (name : String) : List NodeId → Step Graph Unit
  | [] => pure ()
  | call :: rest => do
    Step.inContext (s!"inline call {call} in " ++ Text.quote name) (inlineCall call)
    inlineSites name rest

def inlineCallers (cg : CallGraph) : List NodeId → Step Graph Unit
  | [] => pure ()
  | caller :: rest => do
    let sites := cg.calls.filter (fun s => cg.funcs[s.caller]? == some caller)
    inlineSites ((← get).nameOf caller) ((sites.map (·.call)).mergeSort (· ≤ ·))
    inlineCallers cg rest

/-- Inline a selection of calls. The functions that the chosen calls lead to must not call each
other in a circle. -/
def inlineCalls (chosen : List NodeId) : Step Graph Unit := do
  let g ← get
  match chosen.find? (fun id => g.kind? id != some .call) with
  | some id => throw (.error (.notACall id))
  | none =>
    if chosen.isEmpty then pure ()
    else do
      let cg ← Step.ofExcept (CallGraph.build g chosen.contains)
      let t := cg.callOrder
      if t.isCyclic then throw (.error (.recursion (t.cycles.map g.nameOf)))
      inlineCallers cg t.calleesFirst
      match chosen.find? (← get).contains with
      | some id => throw (.graph (.callLeft id))
      | none => pure ()

end Qirc.Graph
