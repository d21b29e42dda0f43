/-!
# The fewest digits that read back

`nearest` rounds a decimal to a double. `shortest` gives the shortest decimal that rounds to a
double, and of those the nearest to it: it looks at grids of 1, 2, ... 17 digits and takes the first
that has a point next to the double that reads back.
-/

namespace Qirc.Decimal

/-!
## Doubles as exact numbers

A finite double is a sign, a whole mantissa and a power of two. All decimal texts of doubles are
computed from this exact value by arithmetic on natural numbers.
-/

structure Dyadic where
  negative : Bool
  mantissa : Nat
  exponent : Int
  deriving DecidableEq, Repr

/-- A non-negative fraction of natural numbers; the denominator is positive. -/
structure Ratio where
  num : Nat
  den : Nat
  deriving DecidableEq, Repr

def isNegative (x : Float) : Bool := x.toBits >>> 63 == 1

def leadingBit : Nat := 0x10000000000000

/-- The exact value of a double; infinities and the value that is no number have none. -/
def Dyadic.ofFloat? (x : Float) : Option Dyadic :=
  let bits := x.toBits.toNat
  let field : Nat := bits / leadingBit % 2048
  let low : Nat := bits % leadingBit
  if field = 2047 then none
  else if field = 0 then some ⟨isNegative x, low, -1074⟩
  else some ⟨isNegative x, low + leadingBit, (field : Int) - 1075⟩

def Dyadic.bits (d : Dyadic) : Nat := d.mantissa + (d.exponent + 1074).toNat * leadingBit

def scaled (m : Nat) (q : Int) : Ratio :=
  if 0 ≤ q then ⟨m * Nat.pow 2 q.toNat, 1⟩ else ⟨m, Nat.pow 2 (-q).toNat⟩

def Dyadic.magnitude (d : Dyadic) : Ratio := scaled d.mantissa d.exponent

def Ratio.shift (r : Ratio) (k : Int) : Ratio :=
  if 0 ≤ k then ⟨r.num, r.den * Nat.pow 10 k.toNat⟩ else ⟨r.num * Nat.pow 10 (-k).toNat, r.den⟩

/-- The whole number nearest to the fraction; a tie goes to the even one. -/
def Ratio.round (r : Ratio) : Nat :=
  let q := r.num / r.den
  let twice := 2 * (r.num % r.den)
  if twice < r.den then q
  else if r.den < twice then q + 1
  else if q % 2 = 0 then q else q + 1

def digitCount (n : Nat) : Nat := (Nat.toDigits 10 n).length

/-- The power of ten of the first digit: `10 ^ k ≤ r < 10 ^ (k + 1)` for a positive fraction. -/
def Ratio.order (r : Ratio) : Int :=
  let guess : Int := (digitCount r.num : Int) - (digitCount r.den : Int)
  let s := r.shift guess
  if s.num < s.den then guess - 1 else guess

structure Digits where
  digits : Nat
  exponent : Int
  deriving DecidableEq, Repr

def Digits.value (d : Digits) : Ratio := (Ratio.mk d.digits 1).shift (-d.exponent)

def infinityBits : Nat := 2047 * leadingBit

/-- The bits of the nearest double; a tie goes to the even one. The decimal is counted in steps of
the smallest double. Decimals far outside the range of doubles are settled by their size, so that
no power of ten beyond it is computed. -/
def Digits.nearest (d : Digits) : Nat :=
  if d.digits = 0 ∨ (d.digits.log2 : Int) + d.exponent < -400 then 0
  else if 400 < d.exponent then infinityBits
  else
    let steps := d.value.num * Nat.pow 2 1074
    let s := (steps / d.value.den).log2 - 52
    min ((Ratio.mk steps (d.value.den * Nat.pow 2 s)).round + s * leadingBit) infinityBits

def dropZeros : Nat → Digits → Digits
  | 0, d => d
  | left + 1, d =>
    if d.digits ≠ 0 ∧ d.digits % 10 = 0 then dropZeros left ⟨d.digits / 10, d.exponent + 1⟩ else d

/-- The point of the grid of `n` digits that is nearest to the double among the two around it that
read back. -/
def onGrid (d : Dyadic) (n : Nat) : Option Digits :=
  let r := d.magnitude
  let e := r.order - n + 1
  let s := r.shift e
  let below := s.num / s.den
  let near := if s.round = below then [below, below + 1] else [below + 1, below]
  (near.map fun m => dropZeros 20 ⟨m, e⟩).find? (fun c => c.nearest == d.bits)

def Dyadic.exact (d : Dyadic) : Digits :=
  ⟨d.mantissa * Nat.pow 2 (d.exponent + 1074).toNat * Nat.pow 5 1074, -1074⟩

/-- The shortest decimal that reads back as the double, without its sign. -/
def shortest (d : Dyadic) : Digits :=
  if d.mantissa = 0 then ⟨0, 0⟩
  else ((List.range 17).findSome? fun n => onGrid d (n + 1)).getD d.exact

def Digits.order (d : Digits) : Int := (digitCount d.digits : Int) - 1 + d.exponent

/-! ## Numerals -/

/-- A number as it is written: the digits before and behind the point, and a power of ten. -/
structure Numeral where
  whole : List Char
  places : List Char := []
  power : Option Int := none

def Digits.positional (d : Digits) : Numeral :=
  let ds := Nat.toDigits 10 d.digits
  let places := (-d.exponent).toNat
  if d.digits = 0 then { whole := ['0'] }
  else if 0 ≤ d.exponent then { whole := ds ++ List.replicate d.exponent.toNat '0' }
  else if places < ds.length then
    { whole := ds.take (ds.length - places), places := ds.drop (ds.length - places) }
  else { whole := ['0'], places := List.replicate (places - ds.length) '0' ++ ds }

/-- One digit before the point, the others behind it, and the power of ten. -/
def scientific (digits : Nat) (order : Int) : Numeral :=
  let ds := Nat.toDigits 10 digits
  { whole := ds.take 1, places := ds.drop 1, power := some order }

def powerChars (width : Nat) (e : Int) : List Char :=
  let ds := Nat.toDigits 10 e.natAbs
  'e' :: (if e < 0 then '-' else '+') :: (List.replicate (width - ds.length) '0' ++ ds)

def Numeral.chars (width : Nat) (n : Numeral) : List Char :=
  n.whole ++ (if n.places.isEmpty then [] else '.' :: n.places) ++
    (n.power.map (powerChars width)).getD []

end Qirc.Decimal
