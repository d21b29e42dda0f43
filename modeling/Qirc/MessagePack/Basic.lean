import Qirc.Text.Utf8

/-!
# MessagePack values

The values of the format. Texts and byte strings are read alike, as bytes. An integer of any width
is a whole number.
-/

namespace Qirc

inductive MessagePack where
  | nil
  | bool (b : Bool)
  | int (i : Int)
  | float (x : Float)
  | raw (bytes : List UInt8)
  | array (items : List MessagePack)
  | map (members : List (MessagePack × MessagePack))
  | extension
  deriving Inhabited

namespace MessagePack

/-- A number in `width` bytes, highest first; higher digits are dropped. -/
def bigEndian : Nat → Nat → List UInt8
  | 0, _ => []
  | width + 1, n => UInt8.ofNat (n / Nat.pow 256 width % 256) :: bigEndian width n

def ofBigEndian (bytes : List UInt8) : Nat := bytes.foldl (fun n b => n * 256 + b.toNat) 0

/-- How a number stands at the head of a value: added to `base` in one byte if it is below `limit`,
or behind a code that tells how many bytes it takes. -/
structure Head where
  base : Nat
  limit : Nat
  wide : List (Nat × Nat)
  deriving DecidableEq

def Head.write (h : Head) (n : Nat) : List UInt8 :=
  if n < h.limit then [UInt8.ofNat (h.base + n)]
  else match h.wide.find? (fun p => n < Nat.pow 256 p.2) with
    | some (code, width) => UInt8.ofNat code :: bigEndian width n
    | none => []

def arrayHead : Head := ⟨0x90, 16, [(0xDC, 2), (0xDD, 4)]⟩

def mapHead : Head := ⟨0x80, 16, [(0xDE, 2), (0xDF, 4)]⟩

def textHead : Head := ⟨0xA0, 32, [(0xD9, 1), (0xDA, 2), (0xDB, 4)]⟩

def naturalHead : Head := ⟨0, 0x80, [(0xCC, 1), (0xCD, 2), (0xCE, 4), (0xCF, 8)]⟩

/-- The codes of numbers with a sign, and how many bytes they take. -/
def signedWidths : List (Nat × Nat) := [(0xD0, 1), (0xD1, 2), (0xD2, 4), (0xD3, 8)]

def signed (bits n : Nat) : Int :=
  if n < Nat.pow 2 (bits - 1) then n else (n : Int) - Nat.pow 2 bits

end MessagePack

end Qirc
