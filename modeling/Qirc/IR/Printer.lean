import Qirc.IR.Module
import Qirc.Decimal.Text

/-!
# Text of a module

The textual form of a module has a line per declaration, instruction or attribute set. Values are
named by number or by their hint, made different within a function. A malformed instruction, such as
a branch without a target, has no text.
-/

namespace Qirc.IR

/-- A double in decimal when seven digits are enough to read it back, else its bits. -/
def doubleText (x : Float) : String :=
  let text := Decimal.sixPlaces x
  let exact := match Decimal.Dyadic.ofFloat? x with
    | some _ => match Decimal.Literal.ofChars? text.toList with
      | some l => l.toFloat == x
      | none => false
    | none => !x.isNaN
  if exact then text else "0x" ++ (Text.hexDigits 16 x.toBits.toNat).toUpper

/-- Bytes between quotes: printable ones as they are, the others in hexadecimal. -/
def byteText (b : UInt8) : String :=
  if 0x20 ≤ b ∧ b < 0x7F ∧ b ≠ 0x22 ∧ b ≠ 0x5C then (Char.ofNat b.toNat).toString
  else "\\" ++ (Text.hexDigits 2 b.toNat).toUpper

def bytesText (bs : List UInt8) : String := String.join (bs.map byteText)

def Attr.text (a : Attr) : String :=
  match a.value with
  | some v => Text.quote a.key ++ "=" ++ Text.quote v
  | none => Text.quote a.key

def attrsText (attrs : List Attr) : String := String.intercalate " " (attrs.map Attr.text)

abbrev Names := List (InstrId × String)

/-- Name the results in program order: without a hint by the next number. -/
def nameResults (m : Module) : List InstrId → Nat → List String → Names
  | [], _, _ => []
  | i :: rest, next, hints =>
    let x := m.instr i
    if x.ty.isVoid then nameResults m rest next hints
    else if x.hint = "" then (i, toString next) :: nameResults m rest (next + 1) hints
    else (i, distinctName hints x.hint) :: nameResults m rest next (x.hint :: hints)

namespace Module

def resultNames (m : Module) (f : FuncId) : Names := nameResults m (m.body f) 0 []

def refText (m : Module) (names : Names) : Value → String
  | .param _ k => "%" ++ Function.paramName k
  | .int t v => if t.isInt 1 then (if v = 0 then "false" else "true") else toString v.toInt
  | .float v => doubleText v
  | .null _ => "null"
  | .undef _ _ => "undef"
  | .address t bits v => s!"inttoptr (i{bits} {v.toInt} to " ++ t.text ++ ")"
  | .global g => "@" ++ (m.global g).name
  | .string g _ =>
    let t := (m.global g).contentType.text
    "getelementptr inbounds (" ++ t ++ ", " ++ t ++ "* @" ++ (m.global g).name ++ ", i64 0, i64 0)"
  | .func f => "@" ++ (m.func f).name
  | .block b => "%" ++ (m.block b).name
  | .instr i => match names.find? (fun n => n.1 == i) with
    | some n => "%" ++ n.2
    | none => "%<detached>"
  | .missing => "<unknown>"

def typedText (m : Module) (names : Names) (v : Value) : String :=
  match v with
  | .missing => "<nil>"
  | v => (m.typeOf v).text ++ " " ++ m.refText names v

def blockText (m : Module) : Option (Option BlockId) → Except Failure String
  | some (some b) => .ok ("%" ++ (m.block b).name)
  | _ => .error (.abort none)

def operandAt (i : Instr) (k : Nat) : Except Failure Value :=
  match i.operands[k]? with
  | some v => .ok v
  | none => .error (.abort none)

def incomingText (m : Module) (names : Names) :
    List Value → List (Option BlockId) → Except Failure (List String)
  | [], _ => .ok []
  | v :: vs, bs => do
    let b ← m.blockText bs.head?
    let rest ← m.incomingText names vs bs.tail
    .ok (("[ " ++ m.refText names v ++ ", " ++ b ++ " ]") :: rest)

def instrText (m : Module) (names : Names) (id : InstrId) : Except Failure String := do
  let i := m.instr id
  let result := if i.ty.isVoid then "" else m.refText names (.instr id) ++ " = "
  let typed (k : Nat) : Except Failure String := do .ok (m.typedText names (← operandAt i k))
  let plain (k : Nat) : Except Failure String := do .ok (m.refText names (← operandAt i k))
  match i.op with
  | .call =>
    match i.callee with
    | none => .error (.abort none)
    | some c =>
      .ok (result ++ "call " ++ (m.func c).proto.ret.text ++ " @" ++ (m.func c).name ++ "(" ++
        String.intercalate ", " (i.operands.map (m.typedText names)) ++ ")")
  | .ret => if i.operands.isEmpty then .ok "ret void" else do .ok ("ret " ++ (← typed 0))
  | .br => do .ok ("br label " ++ (← m.blockText i.blocks[0]?))
  | .condBr => do
    .ok ("br " ++ (← typed 0) ++ ", label " ++ (← m.blockText i.blocks[0]?) ++ ", label " ++
      (← m.blockText i.blocks[1]?))
  | .phi => do
    let incoming ← m.incomingText names i.operands i.blocks
    .ok (result ++ "phi " ++ i.ty.text ++ " " ++ String.intercalate ", " incoming)
  | .trunc | .zext | .sitofp => do
    .ok (result ++ i.op.name ++ " " ++ (← typed 0) ++ " to " ++ i.ty.text)
  | .xor | .and | .or | .fadd | .fsub | .fmul | .fdiv => do
    .ok (result ++ i.op.name ++ " " ++ (← typed 0) ++ ", " ++ (← plain 1))
  | .fneg => do .ok (result ++ "fneg " ++ (← typed 0))
  | .icmp => do .ok (result ++ "icmp " ++ i.relation ++ " " ++ (← typed 0) ++ ", " ++ (← plain 1))
  | .select => do
    .ok (result ++ "select " ++ (← typed 0) ++ ", " ++ (← typed 1) ++ ", " ++ (← typed 2))
  | .alloca => .ok (result ++ "alloca " ++ i.elem.text)
  | .load => do .ok (result ++ "load " ++ i.ty.text ++ ", " ++ (← typed 0))
  | .store => do .ok ("store " ++ (← typed 0) ++ ", " ++ (← typed 1))
  | .unknown _ => .ok ("; unknown instruction " ++ i.op.name)

def blockLines (m : Module) (names : Names) (b : BlockId) : Except Failure (List String) := do
  let lines ← (m.block b).instrs.mapM (m.instrText names)
  .ok (((m.block b).name ++ ":") :: lines.map ("  " ++ ·))

def bodyLines (m : Module) (names : Names) : List BlockId → Except Failure (List String)
  | [] => .ok []
  | [b] => m.blockLines names b
  | b :: rest => do
    let first ← m.blockLines names b
    let more ← m.bodyLines names rest
    .ok (first ++ "" :: more)

def paramsText (proto : Prototype) : String :=
  String.intercalate ", " (proto.params.mapIdx (fun k t => t.text ++ " %" ++ Function.paramName k))

def definitionLines (m : Module) (f : FuncId) (group : Option Nat) :
    Except Failure (List String) := do
  let x := m.func f
  let attrs := match group with
    | some k => s!" #{k}"
    | none => ""
  let head := "define " ++ x.proto.ret.text ++ " @" ++ x.name ++ "(" ++ paramsText x.proto ++ ")" ++
    attrs ++ " \x7b"
  let body ← m.bodyLines (m.resultNames f) x.blocks
  .ok (["", head] ++ body ++ ["\x7d"])

def attrGroups (m : Module) (fs : List FuncId) : List String :=
  ((fs.map (fun f => (m.func f).attrs)).filter (fun as => !as.isEmpty)).foldl
    (fun seen as => if seen.contains (attrsText as) then seen else seen ++ [attrsText as]) []

def groupOf (groups : List String) (attrs : List Attr) : Option Nat :=
  if attrs.isEmpty then none else groups.findIdx? (· == attrsText attrs)

/-- A section of lines, opened by an empty line when there is anything in it. -/
def sectionLines (lines : List String) : List String :=
  if lines.isEmpty then [] else "" :: lines

def headLines (m : Module) : List String :=
  ["; ModuleID = '" ++ m.name ++ "'", "source_filename = " ++ Text.quote m.name] ++
  (if m.layout = "" then [] else ["target datalayout = " ++ Text.quote m.layout]) ++
  (if m.triple = "" then [] else ["target triple = " ++ Text.quote m.triple])

def globalLine (m : Module) (g : GlobalId) : String :=
  let x := m.global g
  "@" ++ x.name ++ " = private unnamed_addr constant " ++ x.contentType.text ++ " c\"" ++
    bytesText x.bytes ++ "\""

def declarationLine (m : Module) (f : FuncId) : String :=
  let x := m.func f
  "declare " ++ x.proto.ret.text ++ " @" ++ x.name ++ "(" ++ tyList x.proto.params ++ ")"

def flagLines (m : Module) : List String :=
  if m.flags.isEmpty then []
  else
    let refs := (List.range m.flags.length).map (fun k => s!"!{k}")
    ["", "!llvm.module.flags = !\x7b" ++ String.intercalate ", " refs ++ "\x7d", ""] ++
    m.flags.mapIdx (fun k x => s!"!{k} = !\x7bi32 {x.behavior}, !" ++ Text.quote x.key ++ ", " ++
      m.typedText [] x.value ++ "\x7d")

def text (m : Module) : Except Failure String := do
  let groups := m.attrGroups m.definitions
  let definitions ← m.definitions.mapM
    (fun f => m.definitionLines f (groupOf groups (m.func f).attrs))
  let lines := m.headLines ++
    sectionLines (m.structs.map (fun s => "%" ++ s ++ " = type opaque")) ++
    sectionLines (m.globals.map m.globalLine) ++
    definitions.flatten ++
    sectionLines (m.declarations.map m.declarationLine) ++
    sectionLines (groups.mapIdx (fun k s => s!"attributes #{k} = \x7b " ++ s ++ " \x7d")) ++
    m.flagLines
  .ok (String.join (lines.map (· ++ "\n")))

end Module

end Qirc.IR
