import Qirc.Graph.Document.Format
import Qirc.MessagePack.Reader
import Qirc.MessagePack.Writer

/-!
# Documents as MessagePack

A record is a map with the same names as in JSON, or an array of all its fields in order. Integers
are read in any width and cut to the width of their field; `nil` stands for zero, for nothing and
for the empty list.
-/

namespace Qirc.Document

open MessagePack (writeText writeWord writeLong writeFloat writeInt writeBool writeNil writeArray
  writeMap)

def unpackLong : Into MessagePack Int64 := fun _ v =>
  match v with
  | .nil => some 0
  | .int i => some (Int64.ofInt i)
  | _ => none

def unpackWord : Into MessagePack Nat := fun _ v =>
  match v with
  | .nil => some 0
  | .int i => some (i % Word.size32).toNat
  | _ => none

def unpackFloat : Into MessagePack Float := fun _ v =>
  match v with
  | .nil => some 0.0
  | .float x => some x
  | .int i => some (Float.ofInt (Int64.ofInt i).toInt)
  | _ => none

def unpackFlag : Into MessagePack Bool := fun _ v =>
  match v with
  | .nil => some false
  | .bool b => some b
  | _ => none

def unpackText : Into MessagePack String := fun _ v =>
  match v with
  | .nil => some ""
  | .raw bytes => some (Text.ofBytes bytes)
  | _ => none

def unpackList {α : Type} (absent : Refill α → Refill α) (zero : α) (unpack : Into MessagePack α) :
    Into MessagePack (Refill α) := fun old v =>
  match v with
  | .nil => some (absent old)
  | .array items => (readItems zero unpack old.all items).map old.renew
  | _ => none

def unpackName : MessagePack × MessagePack → Option (String × MessagePack)
  | (.raw bytes, v) => some (Text.ofBytes bytes, v)
  | (.nil, v) => some ("", v)
  | _ => none

def unpackAll {α : Type} : List (String × Into MessagePack α) → α → List MessagePack → Option α
  | [], old, [] => some old
  | f :: fields, old, v :: rest => (f.2 old v).bind (fun a => unpackAll fields a rest)
  | _, _, _ => none

def packFormat : Format (List UInt8) MessagePack where
  null := writeNil
  flag := writeBool true
  text := writeText
  word := writeWord
  int := writeInt
  long := writeLong
  float := writeFloat
  list := writeArray
  record := writeMap
  isNull v := match v with | .nil => true | _ => false
  readFlag := unpackFlag
  readText := unpackText
  readWord := unpackWord
  readInt _ v := (unpackLong 0 v).map Int64.toInt
  readLong := unpackLong
  readFloat := unpackFloat
  readTexts := unpackList id "" unpackText
  readList := unpackList (fun _ => {})
  readRecord zero fields old v := match v with
    | .nil | .array [] => some zero
    | .map ms => (ms.mapM unpackName).bind (readMembers fields old)
    | .array items => unpackAll fields old items
    | _ => none

def toMessagePack (d : Document) : List UInt8 := packFormat.write d

def ofMessagePack? (v : MessagePack) : Option Document := packFormat.read? v

end Qirc.Document
