import Qirc.Graph.Document.Draft
import Qirc.Word

/-!
# Formats of documents

A format writes and reads truth values, numbers, texts, lists and records. The fields of a record are
listed once for all formats: how each is written, or left out when it is zero or empty, and how it
is read into the value that stands there.
-/

namespace Qirc.Document

abbrev Into (V α : Type) := α → V → Option α

def readItems {V α : Type} (zero : α) (read : Into V α) : List α → List V → Option (List α)
  | _, [] => some []
  | old, v :: rest => do
    let a ← read (old.headD zero) v
    let more ← readItems zero read old.tail rest
    some (a :: more)

/-- Reads the members of a record one after the other; names that no field has are passed over. -/
def readMembers {V α : Type} (fields : List (String × Into V α)) :
    α → List (String × V) → Option α
  | old, [] => some old
  | old, (name, v) :: rest =>
    match fields.find? (fun f => f.1 == name) with
    | none => readMembers fields old rest
    | some f => (f.2 old v).bind (fun a => readMembers fields a rest)

structure Format (W V : Type) where
  null : W
  flag : W
  text : String → W
  word : Nat → W
  int : Int → W
  long : Int64 → W
  float : Float → W
  list : List W → W
  record : List (String × W) → W
  isNull : V → Bool
  readFlag : Into V Bool
  readText : Into V String
  readWord : Into V Nat
  readInt : Into V Int
  readLong : Into V Int64
  readFloat : Into V Float
  readTexts : Into V (Refill String)
  readList {α : Type} (zero : α) (read : Into V α) : Into V (Refill α)
  readRecord {α : Type} (zero : α) (fields : List (String × Into V α)) : Into V α

/-- How the values of a type are written, unless they are left out, and read. -/
structure Kind (W V β : Type) where
  write : β → Option W
  read : Into V β

structure Field (W V α : Type) where
  name : String
  write : α → Option W
  read : Into V α

section

variable {W V α β : Type}

def Kind.field (k : Kind W V β) (name : String) (get : α → β) (put : α → β → α) : Field W V α :=
  ⟨name, fun a => k.write (get a), fun a v => (k.read (get a) v).map (put a)⟩

namespace Format

variable (F : Format W V)

def readOption (zero : α) (read : Into V α) : Into V (Option α) := fun old v =>
  if F.isNull v then some none else (read (old.getD zero) v).map some

def writeFields (fields : List (Field W V α)) (a : α) : W :=
  F.record (fields.filterMap fun f => (f.write a).map fun w => (f.name, w))

def readFields (zero : α) (fields : List (Field W V α)) : Into V α :=
  F.readRecord zero (fields.map fun f => (f.name, f.read))

/-! ## Kinds of fields -/

def name : Kind W V String := ⟨fun s => some (F.text s), F.readText⟩

def label : Kind W V String := ⟨fun s => if s = "" then none else some (F.text s), F.readText⟩

def labels : Kind W V (Refill String) :=
  ⟨fun r => if r.items.isEmpty then none else some (F.list (r.items.map F.text)), F.readTexts⟩

def truth : Kind W V Bool := ⟨fun b => if b then some F.flag else none, F.readFlag⟩

def number : Kind W V Int := ⟨fun i => some (F.int i), F.readInt⟩

def long0 : Kind W V Int64 := ⟨fun i => if i = 0 then none else some (F.long i), F.readLong⟩

def float0 : Kind W V Float := ⟨fun x => if x == 0.0 then none else some (F.float x), F.readFloat⟩

def id : Kind W V Nat := ⟨fun n => some (F.word n), F.readWord⟩

def link : Kind W V (Option Nat) := ⟨fun n => n.map F.word, F.readOption 0 F.readWord⟩

def part (zero : α) (fields : List (Field W V α)) : Kind W V (Option α) :=
  ⟨fun a => a.map (F.writeFields fields), F.readOption zero (F.readFields zero fields)⟩

/-- A list of records; one that has nothing in it is written as nothing. -/
def records (zero : α) (fields : List (Field W V α)) : Kind W V (Refill α) :=
  ⟨fun r => some (if r.items.isEmpty then F.null else F.list (r.items.map (F.writeFields fields))),
    F.readList zero (F.readFields zero fields)⟩

/-! ## Fields -/

def constFields : List (Field W V ConstRecord) := [
  F.name.field "type" (·.type) (fun c v => { c with type := v }),
  F.truth.field "bool" (·.bool) (fun c v => { c with bool := v }),
  F.long0.field "int" (·.int) (fun c v => { c with int := v }),
  F.float0.field "float" (·.float) (fun c v => { c with float := v }),
  F.label.field "string" (·.text) (fun c v => { c with text := v })]

def nodeFields : List (Field W V NodeDraft) := [
  F.id.field "id" (·.record.id) (fun d v => { d with record.id := v }),
  F.link.field "parent" (·.record.parent) (fun d v => { d with record.parent := v }),
  F.name.field "kind" (·.record.kind) (fun d v => { d with record.kind := v }),
  F.label.field "name" (·.record.name) (fun d v => { d with record.name := v }),
  F.labels.field "inputs" (·.inputs) (fun d v => { d with inputs := v }),
  F.labels.field "outputs" (·.outputs) (fun d v => { d with outputs := v }),
  F.label.field "dialect" (·.record.dialect) (fun d v => { d with record.dialect := v }),
  F.label.field "op" (·.record.op) (fun d v => { d with record.op := v }),
  F.label.field "tag" (·.record.tag) (fun d v => { d with record.tag := v }),
  F.label.field "angle" (·.record.angle) (fun d v => { d with record.angle := v }),
  F.link.field "callee" (·.record.callee) (fun d v => { d with record.callee := v }),
  (F.part .zero F.constFields).field "value" (·.record.value)
    (fun d v => { d with record.value := v })]

def edgeFields : List (Field W V EdgeRecord) := [
  F.id.field "src" (·.src) (fun e v => { e with src := v }),
  F.number.field "src_port" (·.srcPort) (fun e v => { e with srcPort := v }),
  F.id.field "dst" (·.dst) (fun e v => { e with dst := v }),
  F.number.field "dst_port" (·.dstPort) (fun e v => { e with dstPort := v })]

def documentFields : List (Field W V Draft) := [
  F.number.field "version" (·.version) (fun d v => { d with version := v }),
  (F.records .zero F.nodeFields).field "nodes" (·.nodes) (fun d v => { d with nodes := v }),
  (F.records .zero F.edgeFields).field "edges" (·.edges) (fun d v => { d with edges := v })]

def write (d : Document) : W := F.writeFields F.documentFields (.ofDocument d)

def read? (v : V) : Option Document := (F.readFields {} F.documentFields {} v).map Draft.finish

end Format

end

end Qirc.Document
