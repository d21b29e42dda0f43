import Qirc.Error

/-!
# Diagnostics

A diagnostic is a finding about a node: how severe it is, its code and its wording. A bag collects
diagnostics up to a limit.
-/

namespace Qirc

inductive Severity where
  | info
  | warning
  | error
  | unknown (level : Nat)
  deriving DecidableEq, Repr, Inhabited

namespace Severity

def ofLevel : Nat → Severity
  | 0 => .info
  | 1 => .warning
  | 2 => .error
  | n => .unknown n

def level : Severity → Nat
  | .info => 0
  | .warning => 1
  | .error => 2
  | .unknown n => n

def name : Severity → String
  | .info => "INFO"
  | .warning => "WARNING"
  | .error => "ERROR"
  | .unknown _ => "UNKNOWN"

def isError (s : Severity) : Bool := 2 ≤ s.level

end Severity

structure Code where
  number : Nat
  deriving DecidableEq, Repr, Inhabited

namespace Code

def badRoot : Code := ⟨1001⟩

def badParent : Code := ⟨1002⟩

def regionShape : Code := ⟨1003⟩

def unconnectedPort : Code := ⟨1004⟩

def typeMismatch : Code := ⟨1005⟩

def crossRegionEdge : Code := ⟨1006⟩

def linearity : Code := ⟨1007⟩

def danglingCallee : Code := ⟨1008⟩

def callSignature : Code := ⟨1009⟩

def conditionalShape : Code := ⟨1010⟩

def dataflowCycle : Code := ⟨1011⟩

def badConst : Code := ⟨1012⟩

def fourDigits (n : Nat) : String :=
  let ds := Nat.toDigits 10 n
  String.ofList (List.replicate (4 - ds.length) '0' ++ ds)

def id (c : Code) : String :=
  if 1000 ≤ c.number ∧ c.number < 2000 then "GRF" ++ fourDigits c.number
  else if 2000 ≤ c.number ∧ c.number < 3000 then "ENT" ++ fourDigits c.number
  else "E0000"

def title (c : Code) : String :=
  match c.number with
  | 1000 => "Graph information"
  | 1001 => "Graph root is not a module"
  | 1002 => "Node placed under an invalid parent"
  | 1003 => "Region boundary nodes are missing or malformed"
  | 1004 => "Input port has no source"
  | 1005 => "Edge connects ports of different types"
  | 1006 => "Edge crosses a region boundary"
  | 1007 => "Linear value is not consumed exactly once"
  | 1008 => "Call refers to a missing function"
  | 1009 => "Call signature differs from callee"
  | 1010 => "Conditional must have a boolean predicate and two cases"
  | 1011 => "Dataflow region contains a cycle"
  | 1012 => "Constant value does not match its type"
  | 2000 => "Entry point information"
  | 2001 => "No top-level function named main"
  | 2002 => "More than one top-level function named main"
  | _ => "Unknown error"

def text (c : Code) : String := "[" ++ c.id ++ "]: " ++ c.title

end Code

structure Note where
  node : Nat
  text : String
  deriving DecidableEq, Repr, Inhabited

structure Diagnostic where
  severity : Severity
  code : Code
  node : Nat
  text : String
  notes : List Note
  deriving DecidableEq, Repr, Inhabited

namespace Diagnostic

def line (d : Diagnostic) : String :=
  d.severity.name ++ " " ++ d.code.id ++ s!": node {d.node}: " ++ d.text

def before (a b : Diagnostic) : Bool :=
  if a.node ≠ b.node then a.node < b.node
  else if a.severity.level ≠ b.severity.level then b.severity.level < a.severity.level
  else a.code.number < b.code.number

end Diagnostic

/-- Diagnostics in the order in which they were added, at most `limit` of them. -/
structure Bag where
  items : List Diagnostic
  limit : Nat
  deriving DecidableEq, Inhabited

namespace Bag

def empty (limit : Nat) : Bag := ⟨[], limit⟩

/-- A bag for a requested limit. What is beyond sixteen bits is cut to them; a negative number is no
limit. -/
def ofLimit? (n : Int) : Option Bag :=
  if n < 0 then none else some (empty (min n.toNat 65535))

def add (b : Bag) (d : Diagnostic) : Bag :=
  if b.limit ≤ b.items.length then b else { b with items := b.items ++ [d] }

def hasRoom (b : Bag) : Bool := b.items.length < b.limit

def addAll (b : Bag) (ds : List Diagnostic) : Bag := ds.foldl add b

def hasErrors (b : Bag) : Bool := b.items.any (·.severity.isError)

def sort (b : Bag) : Bag :=
  { b with items := b.items.mergeSort (fun x y => !y.before x) }

def dedup (b : Bag) : Bag :=
  let keep (kept : List Diagnostic) (d : Diagnostic) : List Diagnostic :=
    if kept.any (fun k => k.code.id == d.code.id && k.node == d.node) then kept else kept ++ [d]
  { b with items := b.items.foldl keep [] }

def lines (b : Bag) : List String := b.items.map Diagnostic.line

def errorLines (b : Bag) : List String :=
  (b.items.filter (·.severity.isError)).map Diagnostic.line

end Bag

end Qirc
