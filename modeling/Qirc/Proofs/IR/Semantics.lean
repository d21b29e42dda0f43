import Qirc.IR.ControlFlow

/-!
# What functions do

Values are given a meaning, and with it the blocks of a function become a machine. The machine works
on registers alone; whatever leaves them (a call, a memory access) is a request that the world
around the function answers. The phis of a block are read all at once, when control enters it.
-/

namespace Qirc.IR

inductive Datum where
  | int (bits : Nat) (v : BitVec bits)
  | double (v : Float)
  /-- The address of a text, known by its bytes. -/
  | text (bytes : List UInt8)
  | null (ty : Ty)
  | address (ty : Ty) (bits : Int) (v : Int64)
  | function (f : FuncId)
  | label (b : BlockId)
  /-- Something that only the world knows more about, such as a qubit. -/
  | token (n : Nat)
  | undefined
  deriving DecidableEq, Inhabited

namespace Datum

def bool (b : Bool) : Datum := .int 1 (if b then 1 else 0)

/-- Whether a branch on this datum takes its first target. -/
def isTrue : Datum → Bool
  | .int _ v => v != 0
  | _ => false

def bitwise (op : (w : Nat) → BitVec w → BitVec w → BitVec w) : Datum → Datum → Datum
  | .int w x, .int u y => if h : u = w then .int w (op w x (y.cast h)) else .undefined
  | _, _ => .undefined

def xor : Datum → Datum → Datum := bitwise (fun _ x y => x ^^^ y)

def and : Datum → Datum → Datum := bitwise (fun _ x y => x &&& y)

def or : Datum → Datum → Datum := bitwise (fun _ x y => x ||| y)

/-- The relations between integers, signed and unsigned. -/
def holds (relation : String) {w : Nat} (x y : BitVec w) : Option Bool :=
  match relation with
  | "eq" => some (x == y)
  | "ne" => some (x != y)
  | "slt" => some (x.slt y)
  | "sle" => some (x.sle y)
  | "sgt" => some (y.slt x)
  | "sge" => some (y.sle x)
  | "ult" => some (x.ult y)
  | "ule" => some (x.ule y)
  | "ugt" => some (y.ult x)
  | "uge" => some (y.ule x)
  | _ => none

def compare (relation : String) : Datum → Datum → Datum
  | .int w x, .int u y =>
    if h : u = w then ((holds relation x (y.cast h)).map bool).getD .undefined else .undefined
  | _, _ => .undefined

def arithmetic (op : Float → Float → Float) : Datum → Datum → Datum
  | .double x, .double y => .double (op x y)
  | _, _ => .undefined

def negate : Datum → Datum
  | .double x => .double (-x)
  | _ => .undefined

def resize (bits : Nat) : Datum → Datum
  | .int _ v => .int bits (v.setWidth bits)
  | _ => .undefined

def toDouble : Datum → Datum
  | .int _ v => .double (Float.ofInt v.toInt)
  | _ => .undefined

end Datum

/-- The operations whose result follows from their operands. -/
def Opcode.computes : Opcode → Bool
  | .ret | .br | .condBr | .phi | .call | .load | .store | .alloca => false
  | _ => true

theorem Opcode.plain_of_computes {op : Opcode} (h : op.computes = true) :
    op ≠ .phi ∧ op.isTerminator = false := by
  constructor
  · rintro rfl
    cases h
  · cases op <;> first | rfl | cases h

/-- The result of an instruction that only looks at its operands. -/
def Instr.compute (x : Instr) (ds : List Datum) : Datum :=
  match x.op, ds with
  | .xor, [a, b] => a.xor b
  | .and, [a, b] => a.and b
  | .or, [a, b] => a.or b
  | .icmp, [a, b] => Datum.compare x.relation a b
  | .fadd, [a, b] => Datum.arithmetic (· + ·) a b
  | .fsub, [a, b] => Datum.arithmetic (· - ·) a b
  | .fmul, [a, b] => Datum.arithmetic (· * ·) a b
  | .fdiv, [a, b] => Datum.arithmetic (· / ·) a b
  | .fneg, [a] => a.negate
  | .trunc, [a] => a.resize x.ty.bits
  | .zext, [a] => a.resize x.ty.bits
  | .sitofp, [a] => a.toDouble
  | .select, [c, a, b] => if c.isTrue then a else b
  | _, _ => .undefined

/-- The results of the instructions of a function, as far as they were computed. -/
abbrev Registers := InstrId → Datum

def Registers.empty : Registers := fun _ => .undefined

def Registers.set (regs : Registers) (i : InstrId) (d : Datum) : Registers :=
  fun j => if j = i then d else regs j

inductive Request where
  | call (f : FuncId) (args : List Datum)
  | load (ptr : Datum) (ty : Ty)
  | store (v ptr : Datum)
  | alloca (ty : Ty)
  deriving DecidableEq, Inhabited

/-- A place in a function: the instructions of the block that are still to come, with the registers
before them. -/
structure Frame where
  block : BlockId
  rest : List InstrId
  regs : Registers

inductive Action where
  | silent (next : Frame)
  | ask (r : Request) (next : Datum → Frame)
  | ret (v : Option Datum)
  | stuck

namespace Module

/-- What a value stands for, given the arguments of its function and the registers. -/
def eval (m : Module) (args : List Datum) (regs : Registers) : Value → Datum
  | .param _ k => args.getD k .undefined
  | .int t v => .int t.bits (BitVec.ofInt t.bits v.toInt)
  | .float v => .double v
  | .null t => .null t
  | .undef _ _ => .undefined
  | .address t bits v => .address t bits v
  | .global g => .text (m.global g).bytes
  | .string g _ => .text (m.global g).bytes
  | .func f => .function f
  | .block b => .label b
  | .instr i => regs i
  | .missing => .undefined

def code (m : Module) (b : BlockId) : List InstrId :=
  (m.block b).instrs.dropWhile (fun i => (m.instr i).op == .phi)

def incoming? (m : Module) (phi : InstrId) (source : BlockId) : Option Value :=
  (((m.instr phi).operands.zip (m.instr phi).blocks).find? (fun e => e.2 == some source)).map (·.1)

/-- The registers behind the phis of `target` when control comes from `source`. -/
def enterRegs (m : Module) (args : List Datum) (regs : Registers) (source target : BlockId) :
    Registers := fun i =>
  if i ∈ m.phis target then ((m.incoming? i source).map (m.eval args regs)).getD .undefined else regs i

def enter (m : Module) (args : List Datum) (regs : Registers) (source target : BlockId) : Frame :=
  ⟨target, m.code target, m.enterRegs args regs source target⟩

def jump (m : Module) (args : List Datum) (fr : Frame) : Option BlockId → Action
  | some t => .silent (m.enter args fr.regs fr.block t)
  | none => .stuck

def act (m : Module) (args : List Datum) (fr : Frame) : Action :=
  match fr.rest with
  | [] => .stuck
  | i :: rest =>
    let x := m.instr i
    let ds := x.operands.map (m.eval args fr.regs)
    match x.op with
    | .ret => .ret ds.head?
    | .br => m.jump args fr (x.blocks.headD none)
    | .condBr => m.jump args fr
        (if (ds.headD .undefined).isTrue then x.blocks.headD none else x.blocks.getD 1 none)
    | .phi => .stuck
    | .call =>
      match x.callee with
      | some f => .ask (.call f ds) (fun d => ⟨fr.block, rest, fr.regs.set i d⟩)
      | none => .stuck
    | .load => .ask (.load (ds.headD .undefined) x.ty) (fun d => ⟨fr.block, rest, fr.regs.set i d⟩)
    | .store =>
      .ask (.store (ds.headD .undefined) (ds.getD 1 .undefined)) (fun _ => ⟨fr.block, rest, fr.regs⟩)
    | .alloca => .ask (.alloca x.elem) (fun d => ⟨fr.block, rest, fr.regs.set i d⟩)
    | _ => .silent ⟨fr.block, rest, fr.regs.set i (x.compute ds)⟩

section Actions

variable {m : Module} {args : List Datum} {fr : Frame} {i : InstrId} {rest : List InstrId}

variable (hr : fr.rest = i :: rest)

include hr

theorem act_ret (hop : (m.instr i).op = .ret) :
    m.act args fr = .ret ((m.instr i).operands.map (m.eval args fr.regs)).head? := by
  simp [act, hr, hop]

theorem act_br (hop : (m.instr i).op = .br) :
    m.act args fr = m.jump args fr ((m.instr i).blocks.headD none) := by
  simp [act, hr, hop]

theorem act_condBr (hop : (m.instr i).op = .condBr) : m.act args fr = m.jump args fr
      (if (((m.instr i).operands.map (m.eval args fr.regs)).headD .undefined).isTrue
        then (m.instr i).blocks.headD none else (m.instr i).blocks.getD 1 none) := by
  simp [act, hr, hop]

theorem act_call {f : FuncId} (hop : (m.instr i).op = .call) (hc : (m.instr i).callee = some f) :
    m.act args fr = .ask (.call f ((m.instr i).operands.map (m.eval args fr.regs)))
      (fun d => ⟨fr.block, rest, fr.regs.set i d⟩) := by
  simp [act, hr, hop, hc]

theorem act_compute (hop : (m.instr i).op.computes = true) :
    m.act args fr = .silent ⟨fr.block, rest,
      fr.regs.set i ((m.instr i).compute ((m.instr i).operands.map (m.eval args fr.regs)))⟩ := by
  unfold act
  rw [hr]
  dsimp only
  split
  case h_9 => rfl
  all_goals
    rename_i h
    rw [h] at hop
    cases hop

end Actions

def start? (m : Module) (f : FuncId) : Option Frame :=
  (m.entry? f).map (fun b => ⟨b, m.code b, Registers.empty⟩)

end Module

end Qirc.IR
