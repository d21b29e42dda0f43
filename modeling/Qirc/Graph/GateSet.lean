import Qirc.Graph.Pruning
import Qirc.Graph.Validation

/-!
# The base gate set

Gates outside the base set are expressed by gates in it: a square root of X and its inverse by a
rotation about X, an exchange of two qubits by three controlled-X gates.
-/

namespace Qirc.Graph

def quantumDialect : String := "tket2.quantum"

def qubits (n : Nat) : List ValueType := List.replicate n .qubit

def halfPi : Float := 1.5707963267948966

inductive GateRule where
  | rotateX (angle : Float) (text : String)
  | swap

def gateRule? (key : OpKey) : Option GateRule :=
  if key.dialect ≠ quantumDialect then none
  else if key.name = "V" then some (.rotateX halfPi "1.5707963267948966")
  else if key.name = "Vdg" then some (.rotateX (-halfPi) "-1.5707963267948966")
  else if key.name = "SWAP" then some .swap
  else none

def GateRule.width : GateRule → Nat
  | .rotateX _ _ => 1
  | .swap => 2

/-- Put a rotation about X by a constant angle in the place of a gate on one qubit. -/
def expandRotation (angle : Float) (text : String) (id parent : NodeId) : Step Graph Unit := do
  let c ← addConst parent { Payload.zero .float with float := angle }
  let rx ← addOp parent ⟨⟨quantumDialect, "Rx"⟩, "", text⟩ ⟨[.qubit, .float], [.qubit]⟩
  moveBefore c id
  moveBefore rx id
  reconnect ⟨id, 0⟩ ⟨rx, 0⟩
  connect ⟨c, 0⟩ ⟨rx, 1⟩
  replaceUses ⟨id, 0⟩ ⟨rx, 0⟩
  removeSubtree id

def addControlledX (id parent : NodeId) : Step Graph NodeId := do
  let cx ← addOp parent ⟨⟨quantumDialect, "CX"⟩, "", ""⟩ ⟨qubits 2, qubits 2⟩
  moveBefore cx id
  pure cx

/-- Put three controlled-X gates in the place of an exchange; the wires change places before the
second and the third. -/
def expandSwap (id parent : NodeId) : Step Graph Unit := do
  let a ← addControlledX id parent
  let b ← addControlledX id parent
  let c ← addControlledX id parent
  reconnect ⟨id, 0⟩ ⟨a, 0⟩
  reconnect ⟨id, 1⟩ ⟨a, 1⟩
  connect ⟨a, 1⟩ ⟨b, 0⟩
  connect ⟨a, 0⟩ ⟨b, 1⟩
  connect ⟨b, 1⟩ ⟨c, 0⟩
  connect ⟨b, 0⟩ ⟨c, 1⟩
  replaceUses ⟨id, 0⟩ ⟨c, 0⟩
  replaceUses ⟨id, 1⟩ ⟨c, 1⟩
  removeSubtree id

def GateRule.expand (rule : GateRule) (id : NodeId) (n : Node) : Step Graph Unit :=
  let want : Signature := ⟨qubits rule.width, qubits rule.width⟩
  if n.sig ≠ want then throw (.graph (.gateSignature n.body.op.key n.sig want))
  else
    let parent := n.parent.getD absentNode
    match rule with
    | .rotateX angle text => expandRotation angle text id parent
    | .swap => expandSwap id parent

/-- The operations that were expanded, each time with its key, in order. -/
abbrev Expanded := List OpKey

def outsideBase (g : Graph) : List NodeId :=
  (g.walk root).filter fun id =>
    match g.node? id with
    | some n => n.kind == .op && (gateRule? n.body.op.key).isSome
    | none => false

/-- A run over gates: what was expanded, and the failure that ended it if there was one. -/
def expandGates : List NodeId → Expanded → Graph → (Expanded × Option Failure) × Graph
  | [], done, g => ((done, none), g)
  | id :: rest, done, g =>
    match g.node? id with
    | none => ((done, some (.abort none)), g)
    | some n =>
      let key := n.body.op.key
      match gateRule? key with
      | none => ((done, some (.abort none)), g)
      | some rule =>
        match Step.inContext ("rebase " ++ key.text ++ s!" (node {id})") (rule.expand id n) g with
        | .ok _ g => expandGates rest (done ++ [key]) g
        | .error f g => ((done, some f), g)

/-- Express every gate in the base set; the graph must have an entry. With `validated` the result is
checked. -/
def rebase (validated : Bool) (g : Graph) : (Expanded × Option Failure) × Graph :=
  match g.entry with
  | .error f => (([], some f), g)
  | .ok _ =>
    match expandGates g.outsideBase [] g with
    | ((done, some f), g) => ((done, some f), g)
    | ((done, none), g) =>
      if validated then
        match g.check with
        | .error f => ((done, some (f.within "after rebase")), g)
        | .ok _ => ((done, none), g)
      else ((done, none), g)

end Qirc.Graph
