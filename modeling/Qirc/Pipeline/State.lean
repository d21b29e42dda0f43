/-!
# States and stages of a compilation

A compilation moves along a fixed chain of states, one stage a step. `failed` is where it ends when
a stage cannot be completed.
-/

namespace Qirc.Pipeline

inductive State where
  | raw
  | rebased
  | inlined
  | pruned
  | emitted
  | addressesAssigned
  | metadataStamped
  | optimized
  | failed
  | unknown (code : Nat)
  deriving DecidableEq, Repr, Inhabited

namespace State

def all : List State :=
  [.raw, .rebased, .inlined, .pruned, .emitted, .addressesAssigned, .metadataStamped, .optimized,
    .failed]

def ofCode (n : Nat) : State := all[n]?.getD (.unknown n)

def code : State → Nat
  | .raw => 0
  | .rebased => 1
  | .inlined => 2
  | .pruned => 3
  | .emitted => 4
  | .addressesAssigned => 5
  | .metadataStamped => 6
  | .optimized => 7
  | .failed => 8
  | .unknown n => n

def name : State → String
  | .raw => "raw"
  | .rebased => "rebased"
  | .inlined => "inlined"
  | .pruned => "pruned"
  | .emitted => "emitted"
  | .addressesAssigned => "addresses-assigned"
  | .metadataStamped => "metadata-stamped"
  | .optimized => "optimized"
  | .failed => "failed"
  | .unknown n => s!"state({n})"

end State

/-- A stage of a build, in the order in which they run; a label of another kind stands for
itself. -/
inductive Stage where
  | load
  | rebase
  | inline
  | prune
  | emit
  | assign
  | stamp
  | optimize
  | write
  | other (label : String)
  deriving DecidableEq, Repr, Inhabited

namespace Stage

def all : List Stage :=
  [.load, .rebase, .inline, .prune, .emit, .assign, .stamp, .optimize, .write]

def name : Stage → String
  | .load => "load"
  | .rebase => "rebase"
  | .inline => "inline"
  | .prune => "prune"
  | .emit => "emit"
  | .assign => "assign"
  | .stamp => "stamp"
  | .optimize => "optimize"
  | .write => "write"
  | .other s => s

def ofName (s : String) : Stage := (all.find? (fun g => g.name == s)).getD (.other s)

end Stage

end Qirc.Pipeline
