import Qirc.Diagnostic
import Qirc.Graph.Order

/-!
# Validation of program graphs

`validate` walks the graph and gives a diagnostic for each rule that is broken. The rules of a node
are checked in a fixed order: its children, its region, what its kind asks for, its ports.
-/

namespace Qirc.Graph

def finding (code : Code) (id : NodeId) (text : String) : Diagnostic :=
  ⟨.error, code, id, text, []⟩

def slotKind (g : Graph) (id : NodeId) : NodeKind := ((g.slot? id).map Node.kind).getD .module

def slotSig (g : Graph) (id : NodeId) : Signature := ((g.slot? id).map Node.sig).getD ⟨[], []⟩

def childFindings (g : Graph) (n : Node) : List Diagnostic :=
  n.children.filterMap fun c =>
    let k := g.slotKind c
    if n.kind.mayHold k then none
    else some (finding .badParent c (k.name ++ " cannot be placed inside " ++ n.kind.name))

def boundaryFindings (g : Graph) (id : NodeId) (n : Node) : List Diagnostic × Bool :=
  match n.children with
  | input :: output :: rest =>
    if g.slotKind input ≠ .input ∨ g.slotKind output ≠ .output then
      ([finding .regionShape id (n.kind.name ++ " region must start with Input and Output")], false)
    else
      let ins := (g.slotSig input).outputs
      let outs := (g.slotSig output).inputs
      let a := if ins = n.sig.inputs then [] else
        [finding .regionShape input
          ("region inputs " ++ typeRow ins ++ " do not match signature " ++ n.sig.text)]
      let b := if outs = n.sig.outputs then [] else
        [finding .regionShape output
          ("region outputs " ++ typeRow outs ++ " do not match signature " ++ n.sig.text)]
      let c := rest.filterMap fun x =>
        let k := g.slotKind x
        if k = .input ∨ k = .output then
          some (finding .regionShape x ("extra " ++ k.name ++ s!" node inside region {id}"))
        else none
      (a ++ b ++ c, true)
  | _ => ([finding .regionShape id (n.kind.name ++ " region lacks Input/Output nodes")], false)

def regionFindings (g : Graph) (id : NodeId) (n : Node) : Except Failure (List Diagnostic) :=
  let (found, bounded) := g.boundaryFindings id n
  if bounded then
    match g.order id with
    | .ok _ => .ok found
    | .error (.error _) =>
      .ok (found ++ [finding .dataflowCycle id "dataflow region contains a cycle"])
    | .error f => .error f
  else .ok found

def callFindings (g : Graph) (id : NodeId) (n : Node) : List Diagnostic :=
  match n.body.callee.bind g.node? with
  | some fn =>
    if fn.kind ≠ .funcDefn then
      [finding .danglingCallee id s!"call target {n.body.callee.getD absentNode} is not a function"]
    else if fn.sig = n.sig then []
    else [finding .callSignature id
      ("call signature " ++ n.sig.text ++ " differs from " ++ Text.quote fn.name ++ " " ++
        fn.sig.text)]
  | none =>
    [finding .danglingCallee id s!"call target {n.body.callee.getD absentNode} is not a function"]

def constFindings (id : NodeId) (n : Node) : List Diagnostic :=
  let t := n.body.const.type
  let a := if n.sig.outputs = [t] then [] else
    [finding .badConst id
      ("constant of type " ++ t.name ++ " has outputs " ++ typeRow n.sig.outputs)]
  let b := if [.bool, .int, .float, .string].contains t then [] else
    [finding .badConst id ("constants of type " ++ t.name ++ " are not supported")]
  a ++ b

def conditionalFindings (g : Graph) (id : NodeId) (n : Node) : List Diagnostic :=
  match n.sig.inputs with
  | .bool :: others =>
    if n.children.length ≠ 2 then
      [finding .conditionalShape id s!"conditional has {n.children.length} cases, want 2"]
    else
      let want : Signature := ⟨others, n.sig.outputs⟩
      n.children.filterMap fun c =>
        if g.slotSig c = want then none
        else some (finding .conditionalShape c
          ("case signature " ++ (g.slotSig c).text ++ ", want " ++ want.text))
  | _ => [finding .conditionalShape id "conditional predicate must be bool"]

def feeder? (g : Graph) (dst : Port) : Option Port :=
  (g.edges.find? (fun e => e.dst == dst)).map (·.src)

def inputFindings (g : Graph) (id : NodeId) (n : Node) (i : Nat) :
    Except Failure (List Diagnostic) :=
  match g.feeder? ⟨id, i⟩ with
  | none => .ok [finding .unconnectedPort id s!"input {i} has no source"]
  | some src =>
    match g.node? src.node with
    | none => .ok [finding .unconnectedPort id s!"input {i} is fed by removed node {src.node}"]
    | some source =>
      let a := if source.parent = n.parent then [] else
        [finding .crossRegionEdge id s!"input {i} is fed from outside the region"]
      match typeAt? source.sig.outputs src.index, n.sig.inputs[i]? with
      | some got, some want =>
        .ok (a ++ if got = want then [] else
          [finding .typeMismatch id (s!"input {i} expects " ++ want.name ++ ", got " ++ got.name)])
      | _, _ => .error (.abort none)

def outputFindings (g : Graph) (id : NodeId) (n : Node) (i : Nat) :
    Except Failure (List Diagnostic) :=
  match n.sig.outputs[i]? with
  | none => .error (.abort none)
  | some t =>
    let count := (g.edges.filter (fun e => e.src == ⟨id, i⟩)).length
    .ok (if t.isLinear && count != 1 then
      [finding .linearity id (s!"output {i} of type " ++ t.name ++ s!" has {count} consumers")]
    else [])

def gather : List (Except Failure (List Diagnostic)) → Except Failure (List Diagnostic)
  | [] => .ok []
  | check :: rest =>
    match check with
    | .error f => .error f
    | .ok found =>
      match gather rest with
      | .error f => .error f
      | .ok more => .ok (found ++ more)

def nodeFindings (g : Graph) (id : NodeId) (n : Node) : Except Failure (List Diagnostic) :=
  gather
    ([.ok (g.childFindings n),
      if n.kind.isRegion then g.regionFindings id n else .ok [],
      .ok (match n.kind with
        | .call => g.callFindings id n
        | .const => constFindings id n
        | .conditional => g.conditionalFindings id n
        | _ => [])] ++
    if n.kind.hasPorts then
      (List.range n.inputCount).map (g.inputFindings id n) ++
      (List.range n.outputCount).map (g.outputFindings id n)
    else [])

def validate (g : Graph) : Except Failure (List Diagnostic) :=
  if g.kind? root ≠ some .module then .ok [finding .badRoot root "root node is not a module"]
  else gather ((g.walk root).map fun id =>
    match g.node? id with
    | some n => g.nodeFindings id n
    | none => .ok [])

def check (g : Graph) : Except Failure Unit := do
  let bag := ((Bag.empty 100).addAll (← g.validate)).sort
  if bag.hasErrors then .error (.graph (.invalid bag.errorLines)) else .ok ()

end Qirc.Graph
