import Qirc.IR.Module

/-!
# Folding instructions

An instruction whose value is known, or equal to a value at hand, is replaced by it. This is
repeated until no instruction is left to replace. Every round but the last takes an instruction off
the function, which bounds the rounds.
-/

namespace Qirc.IR

/-- The bits that an integer type holds; all of them for a type without a width. -/
def maskOf (bits : Nat) : Int64 :=
  if bits = 0 ∨ 64 ≤ bits then -1 else (1 <<< (Int64.ofNat bits)) - 1

def signExtended (bits : Nat) (v : Int64) : Int64 :=
  if bits = 0 ∨ 64 ≤ bits then v
  else
    let shift := Int64.ofNat (64 - bits)
    (v <<< shift) >>> shift

/-- A relation between two integers of a width, compared as signed numbers; none if it is not
known. -/
def compareInts (relation : String) (bits : Nat) (x y : Int64) : Option Bool :=
  let a := signExtended bits x
  let b := signExtended bits y
  match relation with
  | "eq" => some (a == b)
  | "ne" => some (a != b)
  | "slt" => some (a < b)
  | "sle" => some (a ≤ b)
  | "sgt" => some (b < a)
  | "sge" => some (b ≤ a)
  | _ => none

def foldFloats (op : Opcode) (x y : Float) : Float :=
  match op with
  | .fadd => x + y
  | .fsub => x - y
  | .fmul => x * y
  | _ => x / y

def widthOf : Ty → Except Failure Nat
  | .missing => .error (.abort none)
  | t => .ok t.bits

def phiValue? (phi : InstrId) : List Value → Value → Option Value
  | [], .missing => none
  | [], v => some v
  | op :: rest, v =>
    if op = .instr phi then phiValue? phi rest v
    else if v ≠ .missing ∧ !v.same op then none
    else phiValue? phi rest op

namespace Module

def doubleNegation? (m : Module) : Value → Except Failure (Option Value)
  | .instr j =>
    if (m.instr j).op = .xor then
      match (m.instr j).operands with
      | [] | [_] => .error (.abort none)
      | x :: .int t c :: _ => .ok (if t.isInt 1 && c != 0 then some x else none)
      | _ => .ok none
    else .ok none
  | _ => .ok none

def foldTruth (m : Module) (op : Opcode) (x : Value) (t : Ty) (c : Int64) :
    Except Failure (Option Value) :=
  match op, c != 0 with
  | .xor, false | .and, true | .or, false => .ok (some x)
  | .and, false | .or, true => .ok (some (.int t c))
  | .xor, true => m.doubleNegation? x
  | _, _ => .ok none

def foldEqual (m : Module) (op : Opcode) (x y : Value) : Except Failure (Option Value) :=
  if x.same y then
    if op = .xor then do .ok (some (.int (← m.operandType x) 0)) else .ok (some x)
  else .ok none

def foldLogic (m : Module) (op : Opcode) (x y : Value) : Except Failure (Option Value) :=
  match x, y with
  | .int t a, .int _ b => do
    let r := match op with
      | .xor => a ^^^ b
      | .and => a &&& b
      | _ => a ||| b
    .ok (some (.int t (r &&& maskOf (← widthOf t))))
  | x, .int t c => if t.isInt 1 then m.foldTruth op x t c else m.foldEqual op x (.int t c)
  | .int t c, y => if t.isInt 1 then m.foldTruth op y t c else m.foldEqual op y (.int t c)
  | x, y => m.foldEqual op x y

def folded? (m : Module) (id : InstrId) : Except Failure (Option Value) :=
  let i := m.instr id
  match i.op, i.operands with
  | .phi, ops => .ok (phiValue? id ops .missing)
  | .select, c :: rest =>
    match c, rest with
    | .int _ v, x :: y :: _ => .ok (some (if v != 0 then x else y))
    | .int _ v, [x] => if v != 0 then .ok (some x) else .error (.abort none)
    | _, x :: y :: _ => .ok (if x.same y then some x else none)
    | _, _ => .error (.abort none)
  | .xor, x :: y :: _ | .and, x :: y :: _ | .or, x :: y :: _ => m.foldLogic i.op x y
  | .icmp, x :: y :: _ =>
    match x, y with
    | .int t a, .int _ b => do
      .ok ((compareInts i.relation (← widthOf t) a b).map Value.bool)
    | _, _ => .ok none
  | .fadd, x :: y :: _ | .fsub, x :: y :: _ | .fmul, x :: y :: _ | .fdiv, x :: y :: _ =>
    match x, y with
    | .float a, .float b => .ok (some (.float (foldFloats i.op a b)))
    | _, _ => .ok none
  | .fneg, x :: _ =>
    match x with
    | .float a => .ok (some (.float (-a)))
    | .instr j =>
      if (m.instr j).op = .fneg then
        match (m.instr j).operands with
        | v :: _ => .ok (some v)
        | [] => .error (.abort none)
      else .ok none
    | _ => .ok none
  | .zext, x :: _ =>
    match x with
    | .int t a => do .ok (some (.int i.ty (a &&& maskOf (← widthOf t))))
    | _ => .ok none
  | .trunc, x :: _ =>
    match x with
    | .int _ a => do .ok (some (.int i.ty (a &&& maskOf (← widthOf i.ty))))
    | _ => .ok none
  | .sitofp, x :: _ =>
    match x with
    | .int _ a => .ok (some (.float (Float.ofInt a.toInt)))
    | _ => .ok none
  | .select, _ | .xor, _ | .and, _ | .or, _ | .icmp, _ | .fadd, _ | .fsub, _ | .fmul, _ | .fdiv, _
  | .fneg, _ | .zext, _ | .trunc, _ | .sitofp, _ => .error (.abort none)
  | _, _ => .ok none

/-- Replace an instruction by a value equal to it; whether there is one. -/
def foldInstr (f : FuncId) (i : InstrId) : Step Module Bool := do
  let m ← get
  match ← Step.ofExcept (m.folded? i) with
  | none | some .missing => pure false
  | some v =>
    if v = .instr i then pure false
    else
      set ((m.replaceUses f i v).erase i)
      pure true

def foldEach (f : FuncId) : List InstrId → Step Module Bool
  | [] => pure false
  | i :: rest => do
    let first ← foldInstr f i
    let more ← foldEach f rest
    pure (first || more)

def foldRounds (f : FuncId) : Nat → Step Module Bool
  | 0 => throw (.abort none)
  | rounds + 1 => do
    let m ← get
    if ← foldEach f (m.body f) then
      let _ ← foldRounds f rounds
      pure true
    else pure false

def foldInstrs (f : FuncId) : Step Module Bool := do
  let m ← get
  foldRounds f ((m.body f).length + 1)

end Module

end Qirc.IR
