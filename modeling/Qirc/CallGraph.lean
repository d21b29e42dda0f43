import Qirc.Graph.Edit

/-!
# The call graph

Functions are numbered in module order; `calls` holds the chosen call sites. A batch holds the
functions all of whose callers are in earlier batches; what is left in the end lies on or behind a
cycle.
-/

namespace Qirc

/-- A call with the numbers of the function around it and of the function it calls. -/
structure CallSite where
  call : NodeId
  caller : Nat
  callee : Nat
  deriving DecidableEq, Repr, Inhabited

structure CallGraph where
  funcs : List NodeId
  calls : List CallSite
  deriving DecidableEq, Repr, Inhabited

namespace CallGraph

def index? (cg : CallGraph) (fn : NodeId) : Option Nat := cg.funcs.findIdx? (· == fn)

def site? (g : Graph) (funcs : List NodeId) (call : NodeId) : Except Failure (Option CallSite) := do
  let caller ← g.enclosing call
  let callee := (g.node? call).bind (·.body.callee)
  pure <| do
    let i ← funcs.findIdx? (fun f => some f == caller)
    let j ← funcs.findIdx? (fun f => some f == callee)
    some ⟨call, i, j⟩

def build (g : Graph) (keep : NodeId → Bool) : Except Failure CallGraph := do
  let funcs ← g.functions
  let sites ← (g.calls.filter keep).mapM (site? g funcs)
  pure ⟨funcs, sites.filterMap (fun s => s)⟩

def hasEdge (cg : CallGraph) (i j : Nat) : Bool :=
  cg.calls.any (fun s => s.caller == i && s.callee == j)

def numbers (cg : CallGraph) : List Nat := List.range cg.funcs.length

/-- The functions that function `i` calls, in order and without repetition. -/
def edges (cg : CallGraph) (i : Nat) : List Nat := cg.numbers.filter (cg.hasEdge i)

def indegree (cg : CallGraph) (j : Nat) : Nat :=
  (cg.numbers.filter (fun i => cg.hasEdge i j)).length

def sites (cg : CallGraph) (i j : Nat) : List NodeId :=
  (cg.calls.filter (fun s => s.caller == i && s.callee == j)).map (·.call)

def funcsAt (cg : CallGraph) (is : List Nat) : List NodeId := is.filterMap (fun i => cg.funcs[i]?)

def callees (cg : CallGraph) (fn : NodeId) : List NodeId :=
  match cg.index? fn with
  | some i => cg.funcsAt (cg.edges i)
  | none => []

def spread (cg : CallGraph) (seen : List Nat) : List Nat :=
  cg.numbers.filter (fun j => seen.contains j || seen.any (fun i => cg.hasEdge i j))

def spreadTimes (cg : CallGraph) : Nat → List Nat → List Nat
  | 0, seen => seen
  | n + 1, seen => spreadTimes cg n (cg.spread seen)

def reachable (cg : CallGraph) (roots : List NodeId) : List NodeId :=
  let start := cg.numbers.filter (fun i => cg.funcs[i]?.any roots.contains)
  cg.funcsAt (cg.spreadTimes cg.funcs.length start)

def isFree (cg : CallGraph) (waiting : List Nat) (j : Nat) : Bool :=
  waiting.all (fun i => !cg.hasEdge i j)

/-- The batches of the waiting functions and what cannot be ordered, `count` batches at most. -/
def batchesOf (cg : CallGraph) : Nat → List Nat → List (List Nat) × List Nat
  | 0, waiting => ([], waiting)
  | count + 1, waiting =>
    match waiting.filter (cg.isFree waiting) with
    | [] => ([], waiting)
    | batch =>
      let (rest, stuck) := batchesOf cg count (waiting.filter (fun i => !cg.isFree waiting i))
      (batch :: rest, stuck)

end CallGraph

structure CallOrder where
  /-- Callers before callees. -/
  order : List NodeId
  /-- Functions without a waiting caller, wave by wave. -/
  batches : List (List NodeId)
  /-- Functions on or behind a cycle. -/
  cycles : List NodeId
  deriving DecidableEq, Repr, Inhabited

def CallOrder.isCyclic (t : CallOrder) : Bool := !t.cycles.isEmpty

def CallOrder.calleesFirst (t : CallOrder) : List NodeId := t.order.reverse

def CallGraph.callOrder (cg : CallGraph) : CallOrder :=
  let (batches, stuck) := cg.batchesOf cg.funcs.length cg.numbers
  ⟨cg.funcsAt batches.flatten, batches.map cg.funcsAt, cg.funcsAt stuck⟩

end Qirc
