import Qirc.IR.Type

/-!
# Operation codes and values

A value is a constant, a parameter or the name of an entry in a table of the module. A number or an
address is its own meaning; an undefined value and the address of a string are told apart by a tag,
because two of them need not be the same.
-/

namespace Qirc.IR

abbrev FuncId := Nat

abbrev BlockId := Nat

abbrev InstrId := Nat

abbrev GlobalId := Nat

inductive Opcode where
  | call
  | ret
  | br
  | condBr
  | phi
  | trunc
  | zext
  | xor
  | and
  | or
  | icmp
  | fadd
  | fsub
  | fmul
  | fdiv
  | fneg
  | sitofp
  | select
  | alloca
  | load
  | store
  | unknown (code : Nat)
  deriving DecidableEq, Repr, Inhabited

namespace Opcode

def all : List Opcode :=
  [.call, .ret, .br, .condBr, .phi, .trunc, .zext, .xor, .and, .or, .icmp, .fadd, .fsub, .fmul,
    .fdiv, .fneg, .sitofp, .select, .alloca, .load, .store]

def ofCode (code : Nat) : Opcode := all[code]?.getD (.unknown code)

def name : Opcode → String
  | .call => "call"
  | .ret => "ret"
  | .br => "br"
  | .condBr => "br"
  | .phi => "phi"
  | .trunc => "trunc"
  | .zext => "zext"
  | .xor => "xor"
  | .and => "and"
  | .or => "or"
  | .icmp => "icmp"
  | .fadd => "fadd"
  | .fsub => "fsub"
  | .fmul => "fmul"
  | .fdiv => "fdiv"
  | .fneg => "fneg"
  | .sitofp => "sitofp"
  | .select => "select"
  | .alloca => "alloca"
  | .load => "load"
  | .store => "store"
  | .unknown _ => "op?"

def isTerminator : Opcode → Bool
  | .ret | .br | .condBr => true
  | _ => false

def hasEffect : Opcode → Bool
  | .call | .store | .ret | .br | .condBr => true
  | _ => false

end Opcode

inductive Value where
  | param (function : FuncId) (index : Nat)
  | int (ty : Ty) (v : Int64)
  | float (v : Float)
  | null (ty : Ty)
  | undef (ty : Ty) (tag : Nat)
  | address (ty : Ty) (bits : Int) (v : Int64)
  | global (g : GlobalId)
  | string (g : GlobalId) (tag : Nat)
  | func (f : FuncId)
  | block (b : BlockId)
  | instr (i : InstrId)
  | missing
  deriving DecidableEq, Inhabited

namespace Value

def bool (b : Bool) : Value := .int .i1 (if b then 1 else 0)

def isConstant : Value → Bool
  | .int _ _ | .float _ | .null _ | .undef _ _ | .address _ _ _ | .global _ | .string _ _
  | .func _ => true
  | _ => false

/-- Constants that denote one value. Doubles are compared as numbers, and the width of an address
does not count. -/
def sameConstant : Value → Value → Bool
  | .int t v, .int u w => t == u && v == w
  | .float v, .float w => v == w
  | .address t _ v, .address u _ w => t == u && v == w
  | .null t, .null u => t == u
  | .int _ _, _ | .float _, _ | .address _ _ _, _ | .null _, _ => false
  | a, b => a == b

def same (a b : Value) : Bool := a == b || (a.isConstant && a.sameConstant b)

/-- The values that stand for one thing which several operands may share. A literal is written anew
for every operand. -/
def isShared : Value → Bool
  | .int _ _ | .float _ | .null _ | .address _ _ _ => false
  | _ => true

end Value

end Qirc.IR
