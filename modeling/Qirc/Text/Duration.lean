import Qirc.Text.Quoted
import Qirc.Word

/-!
# Durations

A duration is a signed number of nanoseconds of 64 bits. It is written in hours, minutes and seconds
with their fraction, or in one smaller unit if it is shorter than a second.
-/

namespace Qirc.Text

/-- A fraction of so many places, without the zeros at its end. -/
def fraction (places n : Nat) : String :=
  let ds := Nat.toDigits 10 n
  let padded := List.replicate (places - ds.length) '0' ++ ds
  let kept := (padded.reverse.dropWhile (· == '0')).reverse
  if kept.isEmpty then "" else "." ++ String.ofList kept

/-- A number of units of so many places, with its fraction. -/
def inUnit (places n : Nat) (unit : String) : String :=
  toString (n / Nat.pow 10 places) ++ fraction places (n % Nat.pow 10 places) ++ unit

def durationMagnitude (n : Nat) : String :=
  if n = 0 then "0s"
  else if n < 1000 then inUnit 0 n "ns"
  else if n < 1000000 then inUnit 3 n "µs"
  else if n < 1000000000 then inUnit 6 n "ms"
  else
    let minutes := n / 60000000000
    let seconds := inUnit 9 (n % 60000000000) "s"
    if minutes = 0 then seconds
    else if minutes < 60 then s!"{minutes}m" ++ seconds
    else s!"{minutes / 60}h{minutes % 60}m" ++ seconds

def duration (n : Int) : String :=
  if n < 0 then "-" ++ durationMagnitude n.natAbs else durationMagnitude n.natAbs

def maxDuration : Nat := Word.half64 - 1

/-- The nearest whole millisecond to a duration that is not negative; a half is rounded up. -/
def nearestMilli (n : Nat) : Nat :=
  let r := n % 1000000
  if 2 * r < 1000000 then n - r else min (n + 1000000 - r) maxDuration

/-! ## Reading -/

/-- The text in quotes; bytes that are not of the printable ASCII characters are written as
numbers. -/
def quoteBytes (s : String) : String :=
  let one (c : Char) : String :=
    if c.toNat < 0x20 ∨ 0x80 ≤ c.toNat then
      String.join ((utf8 c.toString).map (fun b => "\\x" ++ hexDigits 2 b.toNat))
    else if c = '"' ∨ c = '\\' then "\\" ++ c.toString
    else c.toString
  "\"" ++ String.join (s.toList.map one) ++ "\""

inductive DurationFault where
  | malformed
  | unitMissing
  | unitUnknown (unit : String)
  deriving DecidableEq, Repr, Inhabited

def DurationFault.text (s : String) : DurationFault → String
  | .malformed => "time: invalid duration " ++ quoteBytes s
  | .unitMissing => "time: missing unit in duration " ++ quoteBytes s
  | .unitUnknown u => "time: unknown unit " ++ quoteBytes u ++ " in duration " ++ quoteBytes s

def unitOf? (u : String) : Option Nat :=
  match u with
  | "ns" => some 1
  | "us" | "µs" | "μs" => some 1000
  | "ms" => some 1000000
  | "s" => some 1000000000
  | "m" => some 60000000000
  | "h" => some 3600000000000
  | _ => none

def isNumeral (c : Char) : Bool := c.isDigit || c == '.'

def decimalOf (ds : List Char) : Nat := ds.foldl (fun n c => 10 * n + (c.toNat - 48)) 0

/-- Numbers with units, one after the other, added to a sum. -/
def durationParts : Nat → List Char → Nat → Except DurationFault Nat
  | 0, _, _ => .error .malformed
  | _ + 1, [], n => .ok n
  | fuel + 1, cs, n =>
    let whole := cs.takeWhile Char.isDigit
    let rest := cs.drop whole.length
    let (places, rest) := match rest with
      | '.' :: more => (more.takeWhile Char.isDigit, more.dropWhile Char.isDigit)
      | other => ([], other)
    if (whole.isEmpty && places.isEmpty) || Word.half64 < decimalOf whole then .error .malformed
    else
      let unit := rest.takeWhile (fun c => !isNumeral c)
      if unit.isEmpty then .error .unitMissing
      else match unitOf? (String.ofList unit) with
        | none => .error (.unitUnknown (String.ofList unit))
        | some u =>
          let v := decimalOf whole * u + decimalOf places * u / Nat.pow 10 places.length
          if Word.half64 < v ∨ Word.half64 < n + v then .error .malformed
          else durationParts fuel (rest.drop unit.length) (n + v)

def duration? (s : String) : Except DurationFault Int :=
  let (negative, cs) := match s.toList with
    | '-' :: cs => (true, cs)
    | '+' :: cs => (false, cs)
    | cs => (false, cs)
  if cs = ['0'] then .ok 0
  else if cs.isEmpty then .error .malformed
  else match durationParts (cs.length + 1) cs 0 with
    | .error e => .error e
    | .ok n =>
      if negative then .ok (-(n : Int)) else if maxDuration < n then .error .malformed else .ok n

end Qirc.Text
