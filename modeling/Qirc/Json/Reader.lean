import Qirc.Json.Basic
import Qirc.Text.Hex

/-!
# Reading JSON

A reader takes the characters left and gives a value with what follows it. `first?` reads the first
value of a text and ignores what comes after it. Nesting is bounded, and an escape for half of a
surrogate pair stands for the replacement character.
-/

namespace Qirc.Json

def isBlank (c : Char) : Bool := c == ' ' || c == '\t' || c == '\n' || c == '\r'

def skipBlank (cs : List Char) : List Char := cs.dropWhile isBlank

def fourHex (a b c d : Char) : Option Nat :=
  match Text.hexDigit? a, Text.hexDigit? b, Text.hexDigit? c, Text.hexDigit? d with
  | some a, some b, some c, some d => some (((a * 16 + b) * 16 + c) * 16 + d)
  | _, _, _, _ => none

def isHigh (n : Nat) : Bool := 0xD800 ≤ n && n < 0xDC00

def isLow (n : Nat) : Bool := 0xDC00 ≤ n && n < 0xE000

/-- Pairs of surrogates become the character they encode; a lone half becomes the replacement
character. -/
def joinHalves : List Nat → List Char
  | [] => []
  | [n] => [if isHigh n || isLow n then Char.ofNat 0xFFFD else Char.ofNat n]
  | n :: m :: rest =>
    if isHigh n then
      if isLow m then Char.ofNat (0x10000 + (n - 0xD800) * 0x400 + (m - 0xDC00)) :: joinHalves rest
      else Char.ofNat 0xFFFD :: joinHalves (m :: rest)
    else if isLow n then Char.ofNat 0xFFFD :: joinHalves (m :: rest)
    else Char.ofNat n :: joinHalves (m :: rest)

def simpleEscape : Char → Option Nat
  | '"' => some 0x22
  | '\\' => some 0x5C
  | '/' => some 0x2F
  | 'b' => some 8
  | 'f' => some 12
  | 'n' => some 10
  | 'r' => some 13
  | 't' => some 9
  | _ => none

/-- The rest of a string whose opening quote is read; `acc` holds its code units, last first. -/
def stringUnits (acc : List Nat) : List Char → Option (List Nat × List Char)
  | [] => none
  | '"' :: rest => some (acc.reverse, rest)
  | '\\' :: 'u' :: a :: b :: c :: d :: rest =>
    match fourHex a b c d with
    | some n => stringUnits (n :: acc) rest
    | none => none
  | '\\' :: e :: rest =>
    match simpleEscape e with
    | some n => stringUnits (n :: acc) rest
    | none => none
  | c :: rest => if c = '\\' ∨ c.toNat < 0x20 then none else stringUnits (c.toNat :: acc) rest

def stringBody (cs : List Char) : Option (String × List Char) :=
  (stringUnits [] cs).map (fun p => (String.ofList (joinHalves p.1), p.2))

def isNumeric (c : Char) : Bool :=
  c.isDigit || c == '-' || c == '+' || c == '.' || c == 'e' || c == 'E'

/-- Whether a text is a number without a sign: it needs digits before the point and behind it, and
starts with a zero only if it has one digit before the point. -/
def isNumber (cs : List Char) : Bool :=
  let whole := cs.takeWhile Char.isDigit
  let rest := cs.dropWhile Char.isDigit
  !whole.isEmpty && (whole == ['0'] || whole.head? != some '0') &&
    (rest.head? != some '.' || !(Decimal.readPlaces rest).1.isEmpty) &&
    (Decimal.readUnsigned cs).isSome

def numberText (cs : List Char) : Option (String × List Char) :=
  let text := cs.takeWhile isNumeric
  let unsigned := if text.head? = some '-' then text.tail else text
  if isNumber unsigned then some (String.ofList text, cs.dropWhile isNumeric) else none

def afterWord (word : List Char) (cs : List Char) : Option (List Char) :=
  if word.isPrefixOf cs then some (cs.drop word.length) else none

/-- A value that holds no other values. -/
def scalar : List Char → Option (Json × List Char)
  | '"' :: rest => (stringBody rest).map (fun p => (.string p.1, p.2))
  | 't' :: rest => (afterWord "rue".toList rest).map (fun r => (.bool true, r))
  | 'f' :: rest => (afterWord "alse".toList rest).map (fun r => (.bool false, r))
  | 'n' :: rest => (afterWord "ull".toList rest).map (fun r => (.null, r))
  | cs => (numberText cs).map (fun p => (.number p.1, p.2))

/-- The name in front of an entry, if entries have names. -/
def name? (named : Bool) (cs : List Char) : Option (String × List Char) :=
  if named then
    match skipBlank cs with
    | '"' :: rest =>
      (stringBody rest).bind fun p =>
        match skipBlank p.2 with
        | ':' :: rest => some (p.1, rest)
        | _ => none
    | _ => none
  else some ("", cs)

def opener (named : Bool) : Char := if named then '\x7b' else '['

def closer (named : Bool) : Char := if named then '\x7d' else ']'

def collect (named : Bool) (entries : List (String × Json)) : Json :=
  if named then .object entries else .array (entries.map (·.2))

def depthLimit : Nat := 10000

mutual

def value : Nat → Nat → List Char → Option (Json × List Char)
  | 0, _, _ => none
  | fuel + 1, depth, cs =>
    match skipBlank cs with
    | [] => none
    | c :: rest =>
      if c = opener true ∨ c = opener false then
        let named := c == opener true
        if depthLimit ≤ depth then none
        else if (skipBlank rest).head? = some (closer named) then
          some (collect named [], (skipBlank rest).tail)
        else (entries fuel (depth + 1) named [] rest).map (fun p => (collect named p.1, p.2))
      else scalar (c :: rest)

/-- The entries of an array or an object from the next one on; `acc` holds those before it, last
first. -/
def entries : Nat → Nat → Bool → List (String × Json) → List Char →
    Option (List (String × Json) × List Char)
  | 0, _, _, _, _ => none
  | fuel + 1, depth, named, acc, cs =>
    match name? named cs with
    | none => none
    | some (k, rest) =>
      match value fuel depth rest with
      | none => none
      | some (v, rest) =>
        match skipBlank rest with
        | [] => none
        | c :: more =>
          if c = ',' then entries fuel depth named ((k, v) :: acc) more
          else if c = closer named then some (((k, v) :: acc).reverse, more)
          else none

end

def first? (s : String) : Option Json :=
  let cs := s.toList
  (value (2 * cs.length + 2) 0 cs).map (·.1)

end Qirc.Json
