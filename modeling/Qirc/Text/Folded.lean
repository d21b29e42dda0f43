/-!
# Letter case of ASCII words

Comparing a text with an ASCII word without regard to case. Besides the ASCII letters only the long s
and the Kelvin sign fold to one, and only the dotted capital I and the Kelvin sign have an ASCII
lower case.
-/

namespace Qirc.Text

def foldChar (c : Char) : Char :=
  if c.toNat = 0x17F then 's'
  else if c.toNat = 0x212A then 'k'
  else c.toLower

/-- Characters whose lower case takes another number of bytes (Unicode 15). -/
def unevenLower : List (Nat × Nat) := [
  (0x130, 0x69), (0x23A, 0x2C65), (0x23E, 0x2C66), (0x1E9E, 0xDF), (0x2126, 0x3C9),
  (0x212A, 0x6B), (0x212B, 0xE5), (0x2C62, 0x26B), (0x2C64, 0x27D), (0x2C6D, 0x251),
  (0x2C6E, 0x271), (0x2C6F, 0x250), (0x2C70, 0x252), (0x2C7E, 0x23F), (0x2C7F, 0x240),
  (0xA78D, 0x265), (0xA7AA, 0x266), (0xA7AB, 0x25C), (0xA7AC, 0x261), (0xA7AD, 0x26C),
  (0xA7AE, 0x26A), (0xA7B0, 0x29E), (0xA7B1, 0x287), (0xA7B2, 0x29D), (0xA7C5, 0x282)]

def lowerChar (c : Char) : Char :=
  match unevenLower.find? (fun p => p.1 == c.toNat) with
  | some p => Char.ofNat p.2
  | none => c.toLower

/-- The text with its letters folded, for comparison with an ASCII word. -/
def fold (s : String) : String := String.ofList (s.toList.map foldChar)

/-- The text in lower case, for comparison with an ASCII word byte by byte. -/
def lower (s : String) : String := String.ofList (s.toList.map lowerChar)

/-- White space at the ends of a text that is dropped before it is read. -/
def isSpace (c : Char) : Bool :=
  let n := c.toNat
  (0x9 ≤ n && n ≤ 0xD) || n == 0x20 || n == 0x85 || n == 0xA0 || n == 0x1680 ||
  (0x2000 ≤ n && n ≤ 0x200A) || n == 0x2028 || n == 0x2029 || n == 0x202F || n == 0x205F ||
  n == 0x3000

def trim (s : String) : String :=
  let body := s.toList.dropWhile isSpace
  String.ofList ((body.reverse.dropWhile isSpace).reverse)

end Qirc.Text
