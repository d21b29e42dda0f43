/-!
# Bytes of a text

A text that was read from bytes may hold bytes that belong to no character. Such a stray byte is
kept as a character of a private-use range, so that the text can be written again as it was.

`utf8` gives the bytes of a text. `ofBytes` reads any bytes and keeps the stray ones; `ofUtf8` puts
the replacement character for each of them.
-/

namespace Qirc.Text

/-- The character that stands for a stray byte. -/
def stray (b : UInt8) : Char := Char.ofNat (0x10FE00 + b.toNat)

/-- The stray byte that a character stands for. -/
def strayByte? (c : Char) : Option UInt8 :=
  if 0x10FE80 ≤ c.toNat ∧ c.toNat ≤ 0x10FEFF then some (UInt8.ofNat (c.toNat - 0x10FE00)) else none

def charBytes (c : Char) : List UInt8 :=
  match strayByte? c with
  | some b => [b]
  | none => String.utf8EncodeChar c

def utf8 (s : String) : List UInt8 := s.toList.flatMap charBytes

/-- The first character of some bytes and the number of bytes it takes; none if no character
starts there. -/
def leadChar? (bytes : List UInt8) : Option (Char × Nat) :=
  ((bytes.take 4).toByteArray.utf8DecodeChar? 0).map (fun c => (c, c.utf8Size))

/-- Like `leadChar?`, but a character that stands for a stray byte counts as stray bytes itself. -/
def leadPlain? (bytes : List UInt8) : Option (Char × Nat) :=
  (leadChar? bytes).filter (fun p => (strayByte? p.1).isNone)

/-- Characters of some bytes, and what `lost` puts for a byte that starts none; `skip` bytes of the
character before are passed over first. -/
def decodeBytes (lead? : List UInt8 → Option (Char × Nat)) (lost : UInt8 → Char) :
    Nat → List UInt8 → List Char
  | _, [] => []
  | skip + 1, _ :: rest => decodeBytes lead? lost skip rest
  | 0, b :: rest =>
    match lead? (b :: rest) with
    | some (ch, n) => ch :: decodeBytes lead? lost (n - 1) rest
    | none => lost b :: decodeBytes lead? lost 0 rest

def ofBytes (bytes : List UInt8) : String := String.ofList (decodeBytes leadPlain? stray 0 bytes)

def ofUtf8 (bytes : List UInt8) : String :=
  String.ofList (decodeBytes leadChar? (fun _ => Char.ofNat 0xFFFD) 0 bytes)

/-- Whether every byte belongs to a character. -/
def validUtf8 : Nat → List UInt8 → Bool
  | _, [] => true
  | skip + 1, _ :: rest => validUtf8 skip rest
  | 0, b :: rest =>
    match leadChar? (b :: rest) with
    | some (_, n) => validUtf8 (n - 1) rest
    | none => false

end Qirc.Text
