import Qirc.CallGraph

/-!
# The entry function and what it reaches

The entry is the one function at the top level that is called `main`. Pruning removes the functions
that no chain of calls from it reaches.
-/

namespace Qirc.Graph

def entryName : String := "main"

def entry (g : Graph) : Except Failure NodeId := do
  match ← g.funcsByName entryName with
  | [] => .error (.error .entryMissing)
  | [id] => .ok id
  | ids => .error (.error (.entryAmbiguous ids.length))

structure Pruned where
  kept : Nat
  removed : List String
  deriving DecidableEq, Repr, Inhabited

def pruneFuncs (live : List NodeId) : Pruned → List NodeId → Step Graph Pruned
  | done, [] => pure done
  | done, fn :: rest => do
    if live.contains fn then pruneFuncs live { done with kept := done.kept + 1 } rest
    else do
      let name := (← get).nameOf fn
      Step.inContext ("remove " ++ Text.quote name) (removeSubtree fn)
      pruneFuncs live { done with removed := done.removed ++ [name] } rest

def prune : Step Graph Pruned := do
  let g ← get
  let entry ← Step.ofExcept g.entry
  let cg ← Step.ofExcept (CallGraph.build g (fun _ => true))
  pruneFuncs (cg.reachable [entry]) ⟨0, []⟩ cg.funcs

end Qirc.Graph
