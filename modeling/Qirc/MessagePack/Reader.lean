import Qirc.MessagePack.Basic

/-!
# Reading MessagePack

`first?` reads the first value of some bytes and ignores what follows it.
-/

namespace Qirc.MessagePack

def takeBytes (n : Nat) (bs : List UInt8) : Option (List UInt8 × List UInt8) :=
  let front := bs.take n
  if front.length = n then some (front, bs.drop n) else none

def readNat (width : Nat) (bs : List UInt8) : Option (Nat × List UInt8) :=
  (takeBytes width bs).map (fun p => (ofBigEndian p.1, p.2))

def Head.read? (h : Head) (code : Nat) (bs : List UInt8) : Option (Nat × List UInt8) :=
  if h.base ≤ code ∧ code < h.base + h.limit then some (code - h.base, bs)
  else (h.wide.find? (fun p => p.1 == code)).bind (fun p => readNat p.2 bs)

def readSigned (width : Nat) (bs : List UInt8) : Option (MessagePack × List UInt8) :=
  (readNat width bs).map (fun p => (.int (signed (8 * width) p.1), p.2))

def readRaw (n : Nat) (bs : List UInt8) : Option (MessagePack × List UInt8) :=
  (takeBytes n bs).map (fun p => (.raw p.1, p.2))

def readExtension (n : Nat) (bs : List UInt8) : Option (MessagePack × List UInt8) :=
  (takeBytes (n + 1) bs).map (fun p => (.extension, p.2))

def readScalar (code : Nat) (bs : List UInt8) : Option (MessagePack × List UInt8) :=
  if 0xE0 ≤ code then some (.int (signed 8 code), bs)
  else match signedWidths.find? (fun p => p.1 == code) with
    | some p => readSigned p.2 bs
    | none =>
      match code with
      | 0xC0 => some (.nil, bs)
      | 0xC2 => some (.bool false, bs)
      | 0xC3 => some (.bool true, bs)
      | 0xC4 => (readNat 1 bs).bind (fun p => readRaw p.1 p.2)
      | 0xC5 => (readNat 2 bs).bind (fun p => readRaw p.1 p.2)
      | 0xC6 => (readNat 4 bs).bind (fun p => readRaw p.1 p.2)
      | 0xC7 => (readNat 1 bs).bind (fun p => readExtension p.1 p.2)
      | 0xC8 => (readNat 2 bs).bind (fun p => readExtension p.1 p.2)
      | 0xC9 => (readNat 4 bs).bind (fun p => readExtension p.1 p.2)
      | 0xCA =>
        (readNat 4 bs).map (fun p => (.float (Float32.ofBits (UInt32.ofNat p.1)).toFloat, p.2))
      | 0xCB => (readNat 8 bs).map (fun p => (.float (Float.ofBits (UInt64.ofNat p.1)), p.2))
      | 0xD4 => readExtension 1 bs
      | 0xD5 => readExtension 2 bs
      | 0xD6 => readExtension 4 bs
      | 0xD7 => readExtension 8 bs
      | 0xD8 => readExtension 16 bs
      | _ => none

/-- The members of a map, whose names and values stand one after the other. -/
def pairs : List MessagePack → List (MessagePack × MessagePack)
  | k :: v :: rest => (k, v) :: pairs rest
  | _ => []

mutual

def value : Nat → List UInt8 → Option (MessagePack × List UInt8)
  | 0, _ => none
  | _ + 1, [] => none
  | fuel + 1, b :: bs =>
    let code := b.toNat
    match arrayHead.read? code bs, mapHead.read? code bs, textHead.read? code bs,
      naturalHead.read? code bs with
    | some (n, bs), _, _, _ => (items fuel n [] bs).map (fun p => (.array p.1, p.2))
    | _, some (n, bs), _, _ => (items fuel (2 * n) [] bs).map (fun p => (.map (pairs p.1), p.2))
    | _, _, some (n, bs), _ => readRaw n bs
    | _, _, _, some (n, bs) => some (.int n, bs)
    | none, none, none, none => readScalar code bs

/-- The next `n` values; `acc` holds those before them, last first. -/
def items : Nat → Nat → List MessagePack → List UInt8 → Option (List MessagePack × List UInt8)
  | 0, _, _, _ => none
  | _ + 1, 0, acc, bs => some (acc.reverse, bs)
  | fuel + 1, n + 1, acc, bs =>
    match value fuel bs with
    | some (v, bs) => items fuel n (v :: acc) bs
    | none => none

end

def first? (bs : List UInt8) : Option MessagePack := (value (2 * bs.length + 2) bs).map (·.1)

end Qirc.MessagePack
