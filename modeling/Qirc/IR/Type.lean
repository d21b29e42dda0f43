/-!
# Types of the intermediate representation

Types are compared by structure. `missing` stands where a type was never given.
-/

namespace Qirc.IR

inductive Ty where
  | void
  | int (bits : Nat)
  | double
  | ptr (elem : Ty)
  | array (length : Nat) (elem : Ty)
  | struct (name : String)
  | label
  | unknown (code : Nat)
  | missing
  deriving DecidableEq, Repr, Inhabited

namespace Ty

def text : Ty → String
  | .void => "void"
  | .int bits => s!"i{bits}"
  | .double => "double"
  | .ptr elem => elem.text ++ "*"
  | .array n elem => s!"[{n} x " ++ elem.text ++ "]"
  | .struct name => "%" ++ name
  | .label => "label"
  | .unknown _ => "?"
  | .missing => "<nil>"

def i1 : Ty := .int 1

def i8 : Ty := .int 8

def i32 : Ty := .int 32

def i64 : Ty := .int 64

def bytes : Ty := .ptr i8

def isVoid : Ty → Bool
  | .void => true
  | _ => false

def isInt (bits : Nat) : Ty → Bool
  | .int b => bits == 0 || b == bits
  | _ => false

def elem : Ty → Ty
  | .ptr e => e
  | .array _ e => e
  | _ => .missing

def bits : Ty → Nat
  | .int b => b
  | _ => 0

end Ty

structure Prototype where
  ret : Ty
  params : List Ty
  deriving DecidableEq, Repr, Inhabited

def tyList (ts : List Ty) : String := String.intercalate ", " (ts.map Ty.text)

def Prototype.text (p : Prototype) : String := p.ret.text ++ " (" ++ tyList p.params ++ ")"

end Qirc.IR
