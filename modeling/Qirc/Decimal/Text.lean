import Qirc.Decimal.Shortest

/-!
# Decimal texts of doubles

`sixPlaces` is the scientific form with six places behind the point. `fixed` has a fixed number of
places. `ofText?` reads the decimal form of a number and rounds it to the nearest double.
-/

namespace Qirc.Decimal

def signText (x : Float) : String := if isNegative x then "-" else ""

def special (x : Float) : String :=
  if x.isNaN then "NaN" else if isNegative x then "-Inf" else "+Inf"

/-- Seven digits, rounded to nearest with ties to even, and the power of ten of the first. -/
def sevenDigits (d : Dyadic) : Nat × Int :=
  if d.mantissa = 0 then (0, 0)
  else
    let r := d.magnitude
    let k := r.order
    let n := (r.shift (k - 6)).round
    if n = 10000000 then (1000000, k + 1) else (n, k)

/-- Scientific form with six places behind the point and at least two exponent digits. -/
def sixPlaces (x : Float) : String :=
  match Dyadic.ofFloat? x with
  | none => special x
  | some d =>
    let (n, k) := sevenDigits d
    let body : Numeral :=
      if n = 0 then ⟨['0'], List.replicate 6 '0', some 0⟩ else scientific n k
    signText x ++ String.ofList (body.chars 2)

def withPlaces (places n : Nat) : String :=
  let ds := Nat.toDigits 10 n
  let ds := List.replicate (places + 1 - ds.length) '0' ++ ds
  let whole := String.ofList (ds.take (ds.length - places))
  if places = 0 then whole else whole ++ "." ++ String.ofList (ds.drop (ds.length - places))

/-- The value with a fixed number of places, rounded to nearest with ties to even. -/
def fixed (places : Nat) (x : Float) : String :=
  match Dyadic.ofFloat? x with
  | none => special x
  | some d => signText x ++ withPlaces places (d.magnitude.shift (-(places : Int))).round

structure Literal where
  negative : Bool
  digits : Nat
  exponent : Int
  deriving DecidableEq, Repr

def numberOf (ds : List Char) : Nat := Nat.ofDigitChars 10 ds 0

def readExponent : List Char → Option Int
  | '+' :: ds => if ds.isEmpty || !ds.all Char.isDigit then none else some (numberOf ds)
  | '-' :: ds => if ds.isEmpty || !ds.all Char.isDigit then none else some (-(numberOf ds : Int))
  | ds => if ds.isEmpty || !ds.all Char.isDigit then none else some (numberOf ds)

def readPlaces : List Char → List Char × List Char
  | '.' :: more => (more.takeWhile Char.isDigit, more.dropWhile Char.isDigit)
  | rest => ([], rest)

def readPower : List Char → Option Int
  | [] => some 0
  | c :: more => if c = 'e' ∨ c = 'E' then readExponent more else none

def readUnsigned (cs : List Char) : Option (Nat × Int) :=
  let whole := cs.takeWhile Char.isDigit
  let (places, rest) := readPlaces (cs.dropWhile Char.isDigit)
  if whole.isEmpty && places.isEmpty then none
  else (readPower rest).map (fun e => (numberOf (whole ++ places), e - places.length))

def Literal.ofChars? (cs : List Char) : Option Literal :=
  match cs with
  | '-' :: rest => (readUnsigned rest).map (fun p => ⟨true, p.1, p.2⟩)
  | '+' :: rest => (readUnsigned rest).map (fun p => ⟨false, p.1, p.2⟩)
  | rest => (readUnsigned rest).map (fun p => ⟨false, p.1, p.2⟩)

def Literal.toFloat (l : Literal) : Float :=
  let sign := if l.negative then Nat.pow 2 63 else 0
  Float.ofBits (UInt64.ofNat (sign + (Digits.mk l.digits l.exponent).nearest))

end Qirc.Decimal
