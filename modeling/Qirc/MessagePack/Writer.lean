import Qirc.MessagePack.Basic

/-!
# Writing MessagePack

Lengths and counts take the shortest header. Numbers are written in the width their field asks for.
-/

namespace Qirc.MessagePack

def writeNil : List UInt8 := [0xC0]

def writeBool (b : Bool) : List UInt8 := [if b then 0xC3 else 0xC2]

def writeWord (n : Nat) : List UInt8 := 0xCE :: bigEndian 4 n

def writeLong (i : Int64) : List UInt8 := 0xD3 :: bigEndian 8 i.toUInt64.toNat

def writeFloat (x : Float) : List UInt8 := 0xCB :: bigEndian 8 x.toBits.toNat

def writeInt (i : Int) : List UInt8 :=
  if 0 ≤ i then naturalHead.write i.toNat
  else if -32 ≤ i then [UInt8.ofNat (i + 256).toNat]
  else match signedWidths.find? (fun p => -(Nat.pow 256 p.2 / 2 : Int) ≤ i) with
    | some (code, width) => UInt8.ofNat code :: bigEndian width (i + Nat.pow 256 width).toNat
    | none => []

def writeText (s : String) : List UInt8 := textHead.write (Text.utf8 s).length ++ Text.utf8 s

def writeArray (items : List (List UInt8)) : List UInt8 :=
  arrayHead.write items.length ++ items.flatten

def writeMap (members : List (String × List UInt8)) : List UInt8 :=
  mapHead.write members.length ++ members.flatMap (fun m => writeText m.1 ++ m.2)

end Qirc.MessagePack
