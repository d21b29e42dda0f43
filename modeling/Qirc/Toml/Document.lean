import Qirc.Text.Utf8
import Qirc.Toml.Reader

/-!
# TOML documents

Statements define the tables of a document one after the other. A key may be defined once; a table
that other keys only led through may still be given a header of its own.
-/

namespace Qirc.Toml

inductive Value where
  | text (s : String)
  | integer (n : Int)
  | float
  | boolean (b : Bool)
  | time
  | array (xs : List Value)
  | table (entries : List (String × Value))
  /-- The tables of an array header, in order. -/
  | tables (ts : List (List (String × Value)))
  deriving Inhabited

abbrev Table := List (String × Value)

namespace Table

def get? (t : Table) (k : String) : Option Value := (t.find? (fun e => e.1 == k)).map (·.2)

def put (k : String) (v : Value) : Table → Table
  | [] => [(k, v)]
  | e :: rest => if e.1 == k then (k, v) :: rest else e :: put k v rest

/-- Change the table that a path leads to; an array of tables stands for its last one. -/
def modifyAt (f : Table → Option Table) : Key → Table → Option Table
  | [], t => f t
  | k :: ks, t =>
    match get? t k with
    | some (.table u) => (modifyAt f ks u).map (fun u => put k (.table u) t)
    | some (.tables us) =>
      match us.getLast? with
      | some u => (modifyAt f ks u).map (fun u => put k (.tables (us.dropLast ++ [u])) t)
      | none => none
    | _ => none

end Table

structure Draft where
  root : Table := []
  /-- The table that entries go to. -/
  context : Key := []
  /-- Tables that no statement defined yet, though keys led through them. -/
  passed : List Key := []
  /-- Keys that hold arrays. -/
  arrays : List Key := []
  keys : List Key := []
  deriving Inhabited

namespace Draft

abbrev Edit (α : Type) := StateT Draft Option α

def pass (k : Key) : Edit Unit := modify fun d => { d with passed := k :: d.passed }

def unpass (k : Key) : Edit Unit :=
  modify fun d => { d with passed := d.passed.filter (fun p => p != k) }

def setArray (k : Key) (holds : Bool) : Edit Unit := modify fun d =>
  { d with arrays := if holds then k :: d.arrays else d.arrays.filter (fun p => p != k) }

/-- The key that the type of a value is noted under. A nameless value says what its table holds. -/
def typeKey (context : Key) (k : String) : Key :=
  if k = "" && !context.isEmpty then context else context ++ [k]

def noteType (k : String) (holds : Bool) : Edit Unit := do
  setArray (typeKey (← get).context k) holds

def editAt (path : Key) (f : Table → Option Table) : Edit Unit := do
  let d ← get
  match Table.modifyAt f path d.root with
  | some root => set { d with root := root }
  | none => failure

def lookupAt (path : Key) (k : String) : Edit (Option Value) := do
  let d ← get
  match Table.modifyAt some path d.root with
  | none => failure
  | some _ =>
    let rec go : Key → Table → Option Value
      | [], t => Table.get? t k
      | p :: ps, t => match Table.get? t p with
        | some (.table u) => go ps u
        | some (.tables us) => go ps (us.getLastD [])
        | _ => none
    pure (go path d.root)

def define (k : String) (v : Value) : Edit Unit := do
  let d ← get
  let full := d.context ++ [k]
  match ← lookupAt d.context k with
  | none => editAt d.context (fun t => some (Table.put k v t))
  | some _ =>
    if d.arrays.contains full then do
      unpass full
      editAt d.context (fun t => some (Table.put k v t))
    else if d.passed.contains full then unpass full
    else failure

def lead : Key → Key → Edit Unit
  | _, [] => pure ()
  | before, k :: ks => do
    match ← lookupAt before k with
    | some (.table _) => pure ()
    | some (.tables _) => pure ()
    | some _ => failure
    | none => do
      pass (before ++ [k])
      editAt before (fun t => some (Table.put k (.table []) t))
    lead (before ++ [k]) ks

def enter (k : Key) (inArray : Bool) : Edit Unit := do
  let parents := k.dropLast
  let last := k.getLastD ""
  lead [] parents
  modify fun d => { d with context := parents }
  if inArray then
    match ← lookupAt parents last with
    | none => editAt parents (fun t => some (Table.put last (.tables [[]]) t))
    | some (.tables ts) => editAt parents (fun t => some (Table.put last (.tables (ts ++ [[]])) t))
    | some _ => failure
  else define last (.table [])
  modify fun d => { d with context := k }

/-- Make the table under the context the context, whether it is there or not. -/
def enterPassing (k : String) : Edit Unit := do
  let full := (← get).context ++ [k]
  pass full
  enter full false

mutual

def evaluate (key : String) (inArray : Bool) : Literal → Edit Value
  | .text s => pure (.text s)
  | .integer n => pure (.integer n)
  | .float => pure .float
  | .boolean b => pure (.boolean b)
  | .time => pure .time
  | .array xs => do
    noteType key true
    pure (.array (← evaluateAll key xs))
  | .inline entries => do
    let outer := (← get).context
    let here := outer ++ [key]
    pass here
    enter here inArray
    let t ← evaluateEntries here [] entries
    modify fun d => { d with context := outer }
    pure (.table t)

def evaluateAll (key : String) : List Literal → Edit (List Value)
  | [] => pure []
  | x :: xs => do
    let v ← evaluate key true x
    pure (v :: (← evaluateAll key xs))

/-- Define the entries of an inline table, and collect them by the last names of their keys. -/
def evaluateEntries (here : Key) (done : Table) : List (Key × Literal) → Edit Table
  | [] => pure done
  | (k, x) :: rest => do
    k.dropLast.forM enterPassing
    let last := k.getLastD ""
    modify fun d => { d with keys := d.keys ++ [d.context ++ [last]] }
    let v ← evaluate last false x
    define last v
    noteType last (match x with | .array _ => true | _ => false)
    modify fun d => { d with context := here }
    evaluateEntries here (Table.put last v done) rest

end

def statement : Statement → Edit Unit
  | .header k => do
    enter k false
    setArray k false
    modify fun d => { d with keys := d.keys ++ [k] }
  | .arrayHeader k => do
    enter k true
    setArray k false
    modify fun d => { d with keys := d.keys ++ [k] }
  | .entry k x => do
    let outer := (← get).context
    let _ ← evaluateEntries outer [] [(k, x)]

def statements : List Statement → Edit Unit
  | [] => pure ()
  | s :: rest => do
    statement s
    statements rest

end Draft

/-- A document: its tables, and its keys in the order in which they were written. -/
structure Document where
  root : Table
  keys : List Key
  deriving Inhabited

def Document.ofText? (text : String) : Option Document :=
  match Toml.statements text with
  | none => none
  | some ss => (Draft.statements ss {}).map (fun (_, d) => ⟨d.root, d.keys⟩)

def dropByteOrderMark : List UInt8 → List UInt8
  | 0xFF :: 0xFE :: bytes => bytes
  | 0xFE :: 0xFF :: bytes => bytes
  | 0xEF :: 0xBB :: 0xBF :: bytes => bytes
  | bytes => bytes

def Document.ofBytes? (bytes : List UInt8) : Option Document :=
  let bytes := dropByteOrderMark bytes
  if Text.validUtf8 0 bytes then ofText? (Text.ofUtf8 bytes) else none

end Qirc.Toml
