import Qirc.IR.Value
import Qirc.Error

/-!
# Modules

A module owns tables of functions, blocks, instructions and byte strings. An entry stays in its
table for good: removing it takes it off the list it stood on, so that what still refers to it can
be seen.
-/

namespace Qirc.IR

structure Instr where
  op : Opcode
  ty : Ty := .void
  operands : List Value := []
  callee : Option FuncId := none
  /-- The relation an integer comparison tests. -/
  relation : String := ""
  /-- The targets of a branch, or where the operands of a phi come from. -/
  blocks : List (Option BlockId) := []
  elem : Ty := .missing
  /-- What the printed name starts with. -/
  hint : String := ""
  parent : Option BlockId := none
  deriving Inhabited

structure Block where
  name : String
  instrs : List InstrId := []
  parent : Option FuncId := none
  deriving Inhabited

structure Attr where
  key : String
  value : Option String
  deriving DecidableEq, Repr, Inhabited

structure Function where
  name : String
  proto : Prototype
  blocks : List BlockId := []
  attrs : List Attr := []
  /-- The names asked for by the blocks so far. -/
  hints : List String := []
  owned : Bool := true
  deriving Inhabited

structure Global where
  name : String
  bytes : List UInt8
  deriving DecidableEq, Inhabited

structure Flag where
  behavior : Int
  key : String
  value : Value
  deriving Inhabited

structure Module where
  name : String
  triple : String := ""
  layout : String := ""
  structs : List String := []
  /-- The byte strings the module holds, by index in the table. -/
  globals : List GlobalId := []
  functions : List FuncId := []
  flags : List Flag := []
  symbols : List (String × FuncId) := []
  strings : List (List UInt8 × GlobalId) := []
  functionTable : Array Function := #[]
  blockTable : Array Block := #[]
  instrTable : Array Instr := #[]
  globalTable : Array Global := #[]
  /-- How many tags were given out. -/
  tags : Nat := 0
  deriving Inhabited

/-- The entries with one of them set, in the place of the first of its key or as the last one. -/
def put {α : Type} (key : α → String) (a : α) : List α → List α
  | [] => [a]
  | x :: rest => if key x == key a then a :: rest else x :: put key a rest

namespace Function

def isDeclaration (f : Function) : Bool := f.blocks.isEmpty

def paramName (index : Nat) : String := s!"arg{index}"

def setAttr (f : Function) (a : Attr) : Function := { f with attrs := put Attr.key a f.attrs }

def attr? (f : Function) (key : String) : Option Attr := f.attrs.find? (fun a => a.key == key)

end Function

namespace Global

def contentType (g : Global) : Ty := .array g.bytes.length .i8

end Global

/-- A name made different from those given before: a repeated one carries how often it was asked
for. -/
def distinctName (earlier : List String) (hint : String) : String :=
  match (earlier.filter (· == hint)).length with
  | 0 => hint
  | n => hint ++ toString n

namespace Module

def new (name : String) : Module := { name := name }

/-! ## Looking things up -/

def func (m : Module) (f : FuncId) : Function := m.functionTable.getD f default

def block (m : Module) (b : BlockId) : Block := m.blockTable.getD b default

def instr (m : Module) (i : InstrId) : Instr := m.instrTable.getD i default

def global (m : Module) (g : GlobalId) : Global := m.globalTable.getD g default

def func? (m : Module) (name : String) : Option FuncId :=
  (m.symbols.find? (fun s => s.1 == name)).map (·.2)

/-- The byte string made for some bytes, if there is one. -/
def text? (m : Module) (bytes : List UInt8) : Option GlobalId :=
  (m.strings.find? (fun e => e.1 == bytes)).map (·.2)

def definitions (m : Module) : List FuncId :=
  m.functions.filter (fun f => !(m.func f).isDeclaration)

def declarations (m : Module) : List FuncId :=
  m.functions.filter (fun f => (m.func f).isDeclaration)

def body (m : Module) (f : FuncId) : List InstrId :=
  (m.func f).blocks.flatMap (fun b => (m.block b).instrs)

def typeOf (m : Module) : Value → Ty
  | .param f k => (m.func f).proto.params.getD k .missing
  | .int t _ => t
  | .float _ => .double
  | .null t => t
  | .undef t _ => t
  | .address t _ _ => t
  | .global g => .ptr (m.global g).contentType
  | .string _ _ => .bytes
  | .func _ => .ptr .void
  | .block _ => .label
  | .instr i => (m.instr i).ty
  | .missing => .missing

def operandType (m : Module) : Value → Except Failure Ty
  | .missing => .error (.abort none)
  | v => .ok (m.typeOf v)

/-! ## Changing entries -/

def updateFunc (m : Module) (f : FuncId) (change : Function → Function) : Module :=
  { m with functionTable := m.functionTable.modify f change }

def updateBlock (m : Module) (b : BlockId) (change : Block → Block) : Module :=
  { m with blockTable := m.blockTable.modify b change }

def updateInstr (m : Module) (i : InstrId) (change : Instr → Instr) : Module :=
  { m with instrTable := m.instrTable.modify i change }

/-! ## Types, strings and functions -/

def opaqueType (m : Module) (name : String) : Module :=
  if m.structs.contains name then m else { m with structs := m.structs ++ [name] }

def freshTag (m : Module) : Nat × Module := (m.tags, { m with tags := m.tags + 1 })

def freshUndef (m : Module) (ty : Ty) : Value × Module :=
  (.undef ty m.tags, { m with tags := m.tags + 1 })

def intern (m : Module) (bytes : List UInt8) : GlobalId × Module :=
  match m.text? bytes with
  | some g => (g, m)
  | none =>
    let id := m.globalTable.size
    (id, { m with
      globalTable := m.globalTable.push ⟨toString m.globals.length, bytes ++ [0]⟩
      globals := m.globals ++ [id]
      strings := (bytes, id) :: m.strings })

def stringPtr (m : Module) (s : String) : Value × Module :=
  let (g, m) := m.intern (Text.utf8 s)
  (.string g m.tags, { m with tags := m.tags + 1 })

def addFunction (m : Module) (name : String) (proto : Prototype) : FuncId × Module :=
  let id := m.functionTable.size
  (id, { m with
    functionTable := m.functionTable.push { name := name, proto := proto }
    functions := m.functions ++ [id]
    symbols := (name, id) :: m.symbols })

/-- The function of that name, declared when there is none. It must have the prototype asked for. -/
def declare (m : Module) (name : String) (proto : Prototype) : Except Failure (FuncId × Module) :=
  match m.func? name with
  | some f =>
    if (m.func f).proto = proto then .ok (f, m)
    else .error (.error (.conflict name (m.func f).proto proto))
  | none => .ok (m.addFunction name proto)

def define (m : Module) (name : String) (proto : Prototype) : Except Failure (FuncId × Module) :=
  match m.func? name with
  | some _ => .error (.error (.nameTaken name))
  | none => .ok (m.addFunction name proto)

def forget (m : Module) (name : String) : List (String × FuncId) :=
  m.symbols.filter (fun s => s.1 != name)

def removeFunction (m : Module) (f : FuncId) : Module :=
  { m with
    symbols := m.forget (m.func f).name
    functions := m.functions.filter (· != f)
    functionTable := m.functionTable.modify f (fun x => { x with owned := false }) }

def rename (m : Module) (f : FuncId) (name : String) : Except Failure Module :=
  if name = (m.func f).name then .ok m
  else match m.func? name with
    | some _ => .error (.error (.nameTaken name))
    | none => .ok { m with
        symbols := (name, f) :: m.forget (m.func f).name
        functionTable := m.functionTable.modify f (fun x => { x with name := name }) }

/-! ## Flags -/

def flag? (m : Module) (key : String) : Option Flag := m.flags.find? (fun x => x.key == key)

def addFlag (m : Module) (flag : Flag) : Module := { m with flags := m.flags ++ [flag] }

/-! ## Blocks and instructions -/

/-- Append a block to a function. It is named by the hint, made different from the earlier ones. -/
def addBlock (m : Module) (f : FuncId) (hint : String) : BlockId × Module :=
  let hint := if hint = "" then "bb" else hint
  let id := m.blockTable.size
  let name := distinctName (m.func f).hints hint
  (id, { m with
    blockTable := m.blockTable.push { name := name, parent := some f }
    functionTable := m.functionTable.modify f (fun x =>
      { x with blocks := x.blocks ++ [id], hints := hint :: x.hints }) })

def removeBlock (m : Module) (f : FuncId) (b : BlockId) : Module :=
  { m with
    functionTable :=
      m.functionTable.modify f (fun x => { x with blocks := x.blocks.filter (· != b) })
    blockTable := m.blockTable.modify b (fun x => { x with parent := none }) }

def append (m : Module) (b : BlockId) (i : Instr) : InstrId × Module :=
  let id := m.instrTable.size
  (id, { m with
    instrTable := m.instrTable.push { i with parent := some b }
    blockTable := m.blockTable.modify b (fun x => { x with instrs := x.instrs ++ [id] }) })

/-- Take an instruction off its block. One that belongs to no block stays where it is listed. -/
def erase (m : Module) (i : InstrId) : Module :=
  match (m.instr i).parent with
  | none => m
  | some b => { m with
      blockTable := m.blockTable.modify b (fun x => { x with instrs := x.instrs.erase i })
      instrTable := m.instrTable.modify i (fun x => { x with parent := none }) }

/-! ## Uses -/

def readers (m : Module) (f : FuncId) (v : Value) : List InstrId :=
  if v.isShared then (m.body f).filter (fun i => (m.instr i).operands.contains v) else []

def useCount (m : Module) (f : FuncId) (v : Value) : Nat :=
  (m.body f).foldl (fun n i => n + (m.instr i).operands.count v) 0

/-- Put a value in the place of every operand of a function that reads an instruction. -/
def replaceUses (m : Module) (f : FuncId) (old : InstrId) (new : Value) : Module :=
  (m.body f).foldl (fun m i => m.updateInstr i (fun x =>
    { x with operands := x.operands.map (fun v => if v = .instr old then new else v) })) m

end Module

end Qirc.IR
