import Qirc.Graph.Document.Format
import Qirc.Json.Reader
import Qirc.Json.Writer

/-!
# Documents as JSON

Reading matches names without regard to case and ignores names it does not know. A value is read into
the one that stands there: `null` leaves a field alone and takes a list or an optional value away, as
an empty list does with a list, and a name that comes twice goes on from what the first left.
-/

namespace Qirc.Document

def wholeNumber? (text : String) : Option Int :=
  match text.toList with
  | '-' :: ds =>
    if ds.isEmpty || !ds.all Char.isDigit then none else some (-(Decimal.numberOf ds : Int))
  | ds => if ds.isEmpty || !ds.all Char.isDigit then none else some (Decimal.numberOf ds)

def intoInt : Into Json Int := fun old j =>
  match j with
  | .null => some old
  | .number t => (wholeNumber? t).filter Word.isSigned64
  | _ => none

def intoWord : Into Json Nat := fun old j =>
  match j with
  | .null => some old
  | .number t =>
    if t.toList.all Char.isDigit then
      (wholeNumber? t).bind (fun i => if i < Word.size32 then some i.toNat else none)
    else none
  | _ => none

def intoFloat : Into Json Float := fun old j =>
  match j with
  | .null => some old
  | .number t =>
    ((Decimal.Literal.ofChars? t.toList).map Decimal.Literal.toFloat).filter fun x =>
      (Decimal.Dyadic.ofFloat? x).isSome
  | _ => none

def intoFlag : Into Json Bool := fun old j =>
  match j with
  | .null => some old
  | .bool b => some b
  | _ => none

def intoText : Into Json String := fun old j =>
  match j with
  | .null => some old
  | .string s => some s
  | _ => none

def intoList {α : Type} (zero : α) (into : Into Json α) : Into Json (Refill α) := fun old j =>
  match j with
  | .null | .array [] => some {}
  | .array items => (readItems zero into old.all items).map old.renew
  | _ => none

def jsonFormat : Format (Except Error Json) Json where
  null := .ok .null
  flag := .ok (.bool true)
  text s := .ok (.string s)
  word n := .ok (Json.nat n)
  int i := .ok (Json.int i)
  long i := .ok (Json.int i.toInt)
  float x := match Json.ofFloat? x with
    | some j => .ok j
    | none => .error (.unwritable (Decimal.special x))
  list ws := do pure (.array (← ws.mapM id))
  record ms := do pure (.object (← ms.mapM fun m => do pure (m.1, ← m.2)))
  isNull j := match j with | .null => true | _ => false
  readFlag := intoFlag
  readText := intoText
  readWord := intoWord
  readInt := intoInt
  readLong old j := (intoInt old.toInt j).map Int64.ofInt
  readFloat := intoFloat
  readTexts := intoList "" intoText
  readList := intoList
  readRecord _ fields old j := match j with
    | .null => some old
    | .object ms => readMembers fields old (ms.map fun m => (Text.fold m.1, m.2))
    | _ => none

def toJson (d : Document) : Except Error Json := jsonFormat.write d

def ofJson? (j : Json) : Option Document := jsonFormat.read? j

end Qirc.Document
