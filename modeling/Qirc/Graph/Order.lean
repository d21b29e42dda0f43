import Qirc.Graph.Edit

/-!
# Order of a region

The children of a region are put in an order in which every child comes after the producers of its
inputs: again and again the first child that waits for no other one is taken. The `Output` child
comes last.
-/

namespace Qirc.Graph

def producers (g : Graph) (id : NodeId) : List NodeId :=
  (g.edges.filter (fun e => e.dst.node == id)).map (·.src.node)

/-- Whether none of the producers of `id` is among those that still wait. -/
def isReady (g : Graph) (waiting : List NodeId) (id : NodeId) : Bool :=
  (g.producers id).all (fun p => !waiting.contains p)

/-- Take the first ready child, `count` times at most; none if all that wait, wait for one
another. -/
def takeReady (g : Graph) : Nat → List NodeId → Option (List NodeId)
  | _, [] => some []
  | 0, _ => none
  | count + 1, waiting =>
    match waiting.find? (g.isReady waiting) with
    | none => none
    | some id => (takeReady g count (waiting.erase id)).map (id :: ·)

def order (g : Graph) (region : NodeId) : Except Failure (List NodeId) :=
  match g.node? region with
  | none => .error (.graph (.noRegion region))
  | some n =>
    match g.takeReady n.children.length n.children with
    | none => .error (.graph (.cycle region))
    | some ids =>
      if n.kind.isRegion then
        match n.children with
        | _ :: output :: _ => .ok (ids.filter (· != output) ++ [output])
        | _ => .error (.abort none)
      else .ok ids

end Qirc.Graph
