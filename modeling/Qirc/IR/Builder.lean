import Qirc.IR.Module

/-!
# Building instructions

The instructions as they are meant to be built: each operation takes the operands it needs, and the
type of its result follows from them.
-/

namespace Qirc.IR.Instr

variable (m : Module)

def call (f : FuncId) (args : List Value) : Instr :=
  { op := .call, ty := (m.func f).proto.ret, operands := args, callee := some f }

def ret (v : Value) : Instr := { op := .ret, operands := [v] }

def retVoid : Instr := { op := .ret }

def br (target : Option BlockId) : Instr := { op := .br, blocks := [target] }

def condBr (condition : Value) (yes no : Option BlockId) : Instr :=
  { op := .condBr, operands := [condition], blocks := [yes, no] }

def phi (ty : Ty) (incoming : List (Value × Option BlockId)) : Instr :=
  { op := .phi, ty := ty, operands := incoming.map (·.1), blocks := incoming.map (·.2) }

def cast (op : Opcode) (v : Value) (ty : Ty) : Instr := { op := op, ty := ty, operands := [v] }

def binary (op : Opcode) (x y : Value) : Instr :=
  { op := op, ty := m.typeOf x, operands := [x, y] }

def not (x : Value) : Instr := binary m .xor x (.bool true)

def fneg (x : Value) : Instr := { op := .fneg, ty := .double, operands := [x] }

def icmp (relation : String) (x y : Value) : Instr :=
  { op := .icmp, ty := .i1, operands := [x, y], relation := relation }

def select (condition x y : Value) : Instr :=
  { op := .select, ty := m.typeOf x, operands := [condition, x, y] }

def alloca (ty : Ty) : Instr := { op := .alloca, ty := .ptr ty, elem := ty }

def load (ptr : Value) : Instr := { op := .load, ty := (m.typeOf ptr).elem, operands := [ptr] }

def store (v ptr : Value) : Instr := { op := .store, operands := [v, ptr] }

end Qirc.IR.Instr
