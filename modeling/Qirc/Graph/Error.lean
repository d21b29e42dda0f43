import Qirc.Graph.Basic

/-!
# What can be wrong with a program graph

Each cause that an operation on graphs can refuse with, and its wording.
-/

namespace Qirc

inductive GraphError where
  | unknownType (name : String)
  | unknownKind (name : String)
  | noNode (id : NodeId)
  | noParent (id : NodeId)
  | notHeld (parent child : NodeKind)
  | notFunction (id : Nat)
  | notRegion (id : NodeId)
  | noBoundary (id : NodeId)
  | wrongBoundary (id : NodeId)
  | noRegion (id : NodeId)
  | cycle (region : NodeId)
  | edgeWithoutNode (src dst : Port)
  | noOutput (p : Port)
  | noInput (p : Port)
  | edgeAcross (src dst : Port)
  | edgeTypes (src dst : Port) (srcType dstType : ValueType)
  | inputTaken (dst : Port)
  | inputOpen (dst : Port)
  | rootRemoval
  | notCall (id : NodeId)
  | calleeMissing (call : NodeId) (callee : Nat)
  | callInputOpen (call : NodeId) (index : Int)
  | edgeOutOfBody (id : NodeId)
  | functionOutputOpen (name : String) (index : Nat)
  | cannotMove (id anchor : NodeId)
  | callLeft (id : NodeId)
  | gateSignature (key : OpKey) (have_ want : Signature)
  | invalid (findings : List String)
  | documentVersion (version : Int)
  | documentEmpty
  | duplicateId (id : Nat)
  | noParentGiven (id : Nat)
  | beforeParent (id parent : Nat)
  | opUnnamed
  | callWithoutCallee
  | calleeNotFunction (id : Nat)
  | constWithoutValue
  | calleeUnknown (call : NodeId) (id : Nat)
  | edgeUnknown (src : Nat) (srcPort : Int) (dst : Nat) (dstPort : Int)
  | nodeInputOpen (id : NodeId) (index : Nat)
  | readTooEarly (id : NodeId) (index : Nat) (src : Port)
  | functionYield (id : NodeId) (got want : Nat)
  | caseYield (index got want : Nat)
  | notEmittable (kind : NodeKind) (id : NodeId)
  | callUnknownFunction (call : NodeId) (callee : Nat)
  | noPredicate (id : NodeId)
  | caseCount (id : NodeId) (count : Nat)
  | unreadable (why : String)
  deriving DecidableEq, Repr

namespace GraphError

def edgeText (src dst : Port) : String := "edge " ++ src.text ++ " -> " ++ dst.text

def cause : GraphError → String
  | .unknownType n => "unknown value type " ++ Text.quote n
  | .unknownKind n => "unknown node kind " ++ Text.quote n
  | .noNode id => s!"node {id} does not exist"
  | .noParent id => s!"parent {id} does not exist"
  | .notHeld p c => p.name ++ " cannot contain " ++ c.name
  | .notFunction id => s!"call target {id} is not a function"
  | .notRegion id => s!"node {id} is not a region"
  | .noBoundary id => s!"region {id} lacks Input/Output"
  | .wrongBoundary id => s!"region {id} does not start with Input/Output"
  | .noRegion id => s!"region {id} does not exist"
  | .cycle r => s!"dataflow cycle in region {r}"
  | .edgeWithoutNode s d => edgeText s d ++ " references a missing node"
  | .noOutput p => "node " ++ toString p.node ++ " has no output " ++ toString p.index
  | .noInput p => "node " ++ toString p.node ++ " has no input " ++ toString p.index
  | .edgeAcross s d => edgeText s d ++ " crosses a region boundary"
  | .edgeTypes s d st dt => edgeText s d ++ " connects " ++ st.name ++ " to " ++ dt.name
  | .inputTaken d => "input " ++ d.text ++ " already connected"
  | .inputOpen d => "input " ++ d.text ++ " is not connected"
  | .rootRemoval => "cannot remove the module root"
  | .notCall id => s!"node {id} is not a call"
  | .calleeMissing c f => s!"call {c} targets missing function {f}"
  | .callInputOpen c i => s!"call {c} input {i} is not connected"
  | .edgeOutOfBody id => s!"edge into node {id} leaves the callee body"
  | .functionOutputOpen n i => "function " ++ Text.quote n ++ s!" output {i} is not connected"
  | .cannotMove id a => s!"cannot move {id} before {a}"
  | .callLeft id => s!"call {id} survived inlining"
  | .gateSignature k h w => k.text ++ " has signature " ++ h.text ++ ", want " ++ w.text
  | .invalid fs => String.intercalate "\n" fs
  | .documentVersion v => s!"unsupported document version {v}"
  | .documentEmpty => "document has no nodes"
  | .duplicateId id => s!"duplicate node id {id}"
  | .noParentGiven id => s!"node {id} has no parent"
  | .beforeParent id p => s!"node {id} appears before its parent {p}"
  | .opUnnamed => "op node without dialect or name"
  | .callWithoutCallee => "call without callee"
  | .calleeNotFunction id => s!"call targets {id} which is not a function"
  | .constWithoutValue => "const without value"
  | .calleeUnknown c id => s!"call {c} targets unknown node {id}"
  | .edgeUnknown s sp d dp => s!"edge {s}:{sp} -> {d}:{dp} references unknown nodes"
  | .nodeInputOpen id i => s!"node {id} input {i} is not connected"
  | .readTooEarly id i p => s!"node {id} input {i} read before " ++ p.text ++ " was emitted"
  | .functionYield id g w => s!"function {id} yields {g} values, signature has {w} outputs"
  | .caseYield i g w => s!"case {i} yields {g} values, conditional has {w} outputs"
  | .notEmittable k id => "cannot emit " ++ k.name ++ s!" node {id}"
  | .callUnknownFunction c f => s!"call {c} targets unknown function {f}"
  | .noPredicate id => s!"conditional {id} has no predicate"
  | .caseCount id n => s!"conditional {id} has {n} cases"
  | .unreadable why => why

def message (e : GraphError) : String := "malformed program graph: " ++ e.cause

end GraphError

end Qirc
