import Qirc.Text.Quoted
import Qirc.Word

/-!
# Numbers and truth values that users write

An integer may have a sign, a base by its first digits as in program texts, and underscores between
digits.
-/

namespace Qirc.Text

inductive NumberFault where
  | malformed
  | outOfRange
  deriving DecidableEq, Repr, Inhabited

def NumberFault.text : NumberFault → String
  | .malformed => "invalid syntax"
  | .outOfRange => "value out of range"

def digit? (c : Char) : Option Nat :=
  if '0' ≤ c ∧ c ≤ '9' then some (c.toNat - 48)
  else if 'a' ≤ c ∧ c ≤ 'z' then some (c.toNat - 87)
  else if 'A' ≤ c ∧ c ≤ 'Z' then some (c.toNat - 55)
  else none

def baseOfLetter? (c : Char) : Option Nat :=
  if c = 'b' ∨ c = 'B' then some 2
  else if c = 'o' ∨ c = 'O' then some 8
  else if c = 'x' ∨ c = 'X' then some 16
  else none

/-- The base of an integer, and its digits. A zero in front stands for base eight. -/
def baseAndDigits : List Char → Nat × List Char
  | '0' :: c :: d :: rest =>
    match baseOfLetter? c with
    | some b => (b, d :: rest)
    | none => (8, c :: d :: rest)
  | '0' :: rest => (8, rest)
  | cs => (10, cs)

/-- The number that digits write, below two to the power of 64. -/
def magnitude (base : Nat) : List Char → Nat → Except NumberFault Nat
  | [], n => .ok n
  | c :: cs, n =>
    if c = '_' then magnitude base cs n
    else match digit? c with
      | none => .error .malformed
      | some d =>
        if base ≤ d then .error .malformed
        else if Word.size64 ≤ base * n + d then .error .outOfRange
        else magnitude base cs (base * n + d)

/-- The characters before an underscore, as far as the rule for underscores tells them apart. -/
inductive Before where
  | start
  | digit
  | underscore
  | other
  deriving DecidableEq, Repr, Inhabited

def underscoresFrom (hex : Bool) : Before → List Char → Bool
  | b, [] => b ≠ .underscore
  | b, c :: cs =>
    if ('0' ≤ c ∧ c ≤ '9') ∨ (hex ∧ (('a' ≤ c ∧ c ≤ 'f') ∨ ('A' ≤ c ∧ c ≤ 'F'))) then
      underscoresFrom hex .digit cs
    else if c = '_' then b = .digit && underscoresFrom hex .underscore cs
    else b ≠ .underscore && underscoresFrom hex .other cs

/-- Whether each underscore stands between digits; the letter of the base counts as one. -/
def underscoresFit : List Char → Bool
  | '0' :: c :: cs =>
    match baseOfLetter? c with
    | some b => underscoresFrom (b = 16) .digit cs
    | none => underscoresFrom false .start ('0' :: c :: cs)
  | cs => underscoresFrom false .start cs

def unsignedNumber (cs : List Char) : Except NumberFault Nat :=
  if cs.isEmpty then .error .malformed
  else
    let (base, ds) := baseAndDigits cs
    match magnitude base ds 0 with
    | .error e => .error e
    | .ok n => if ds.contains '_' && !underscoresFit cs then .error .malformed else .ok n

def number (s : String) : Except NumberFault Int :=
  match s.toList with
  | '-' :: cs =>
    match unsignedNumber cs with
    | .ok n => if Word.half64 < n then .error .outOfRange else .ok (-(n : Int))
    | .error e => .error e
  | cs =>
    match unsignedNumber (match cs with | '+' :: cs => cs | cs => cs) with
    | .ok n => if Word.half64 ≤ n then .error .outOfRange else .ok n
    | .error e => .error e

def truth? (s : String) : Option Bool :=
  if ["1", "t", "T", "true", "TRUE", "True"].contains s then some true
  else if ["0", "f", "F", "false", "FALSE", "False"].contains s then some false
  else none

end Qirc.Text
