import Qirc.Text.Decomposition

/-!
# Canonical composition

`normalize` brings a text into normalization form C: its characters are taken apart by their
canonical decompositions, the marks after each starter are put in the order of their combining
classes, and what composes is composed again. A piece holds no more than thirty marks in a row; where
there are more, a grapheme joiner ends the piece.
-/

namespace Qirc.Text

/-- Every pair that is written as one character: the composite, its base and its mark. -/
def compositePairs : List (Nat × Nat × Nat) :=
  compositeRows.flatMap (fun row =>
    (row.bases.toList.zip row.composites.toList).map
      (fun p => (p.2.toNat, p.1.toNat, row.mark))) ++ compositeMarks

/-- The pair or the single character that a character is taken apart into, one step deep. -/
def splitTable : List (Nat × Nat × Option Nat) :=
  compositePairs.map (fun p => (p.1, p.2.1, some p.2.2)) ++
  splitOnly.map (fun p => (p.1, p.2.1, some p.2.2)) ++
  singletonRuns.flatMap (fun run =>
    run.targets.toList.mapIdx (fun i t => (run.first + i, t.toNat, none))) ++
  singletonMarks.map (fun p => (p.1, p.2, none))

def classIn : List (Nat × Nat × Nat) → Nat → Nat
  | [], _ => 0
  | (outside, inside, cls) :: rest, n =>
    if n < outside then 0
    else if n < outside + inside then cls
    else classIn rest (n - outside - inside)

def combiningClass (n : Nat) : Nat :=
  if n < 0x300 then 0 else classIn classes n

/-- Syllables of the Korean alphabet are composed by arithmetic: a leading consonant, a vowel and
an optional trailing consonant. -/
def syllableParts (n : Nat) : Option (List Nat) :=
  if 0xAC00 ≤ n ∧ n < 0xAC00 + 11172 then
    let i := n - 0xAC00
    let lead := 0x1100 + i / 588
    let vowel := 0x1161 + i % 588 / 28
    let trail := i % 28
    some (if trail = 0 then [lead, vowel] else [lead, vowel, 0x11A7 + trail])
  else none

def composeSyllable (a b : Nat) : Option Nat :=
  if 0x1100 ≤ a ∧ a < 0x1100 + 19 ∧ 0x1161 ≤ b ∧ b < 0x1161 + 21 then
    some (0xAC00 + ((a - 0x1100) * 21 + (b - 0x1161)) * 28)
  else if 0xAC00 ≤ a ∧ a < 0xAC00 + 11172 ∧ (a - 0xAC00) % 28 = 0 ∧
      0x11A7 < b ∧ b < 0x11A7 + 28 then
    some (a + (b - 0x11A7))
  else none

/-- The full decomposition of a code point. No chain of decompositions is longer than four. -/
def decomposeCode : Nat → Nat → List Nat
  | 0, n => [n]
  | depth + 1, n =>
    if n < 0xC0 then [n]
    else match syllableParts n with
      | some parts => parts
      | none =>
        match splitTable.find? (fun e => e.1 == n) with
        | some (_, a, some b) => decomposeCode depth a ++ [b]
        | some (_, a, none) => decomposeCode depth a
        | none => [n]

/-- The composite of a starter and a mark. Only the lower sixteen bits of the two are compared. -/
def composePair (a b : Nat) : Option Nat :=
  (compositePairs.find? (fun p =>
    p.2.1 % 0x10000 == a % 0x10000 && p.2.2 % 0x10000 == b % 0x10000)).map (·.1)

/-! ## Traits of characters -/

def joinsBack (n : Nat) : Bool :=
  (0x1161 ≤ n && n ≤ 0x1175) || (0x11A8 ≤ n && n ≤ 0x11C2) || compositePairs.any (·.2.2 == n)

def isMark (n : Nat) : Bool := combiningClass n != 0 || joinsBack n

/-- The marks that a compatible text of a character starts and ends with. -/
def marksWithin (n : Nat) : Nat × Nat :=
  match hiddenMarks.find? (fun r => r.1 ≤ n && n ≤ r.2.1) with
  | some r => (r.2.2 / 3, r.2.2 % 3)
  | none => (0, 0)

structure Traits where
  /-- The combining class of what the character starts with. -/
  cls : Nat
  /-- The number of marks it starts with. -/
  leading : Nat
  /-- The number of marks it ends with. -/
  trailing : Nat
  /-- Whether it is in normal form, whatever stands before it. -/
  settled : Bool
  deriving DecidableEq, Repr

def traits (n : Nat) : Traits :=
  let parts := decomposeCode 4 n
  let marks := (parts.reverse.takeWhile isMark).length
  let base := (parts.reverse.drop marks).headD 0
  { cls := combiningClass (parts.headD n)
    leading := max (parts.takeWhile isMark).length (marksWithin n).1
    trailing := marks + (marksWithin base).2
    settled := !joinsBack n &&
      (parts == [n] || (syllableParts n).isSome || compositePairs.any (·.1 == n)) }

/-- No more marks than this follow each other within a piece. -/
def longestMarkRun : Nat := 30

/-- What a character does to the piece before it. -/
inductive Reach where
  /-- It starts a new piece, with so many marks. -/
  | starts (marks : Nat)
  /-- It goes on with the piece, which has so many marks then. -/
  | continues (marks : Nat)
  /-- The piece has no room for it. -/
  | exceeds
  deriving DecidableEq, Repr

def reach (marks : Nat) (t : Traits) : Reach :=
  if longestMarkRun < marks + t.leading then .exceeds
  else if t.leading = 0 then .starts t.trailing
  else .continues (marks + t.leading)

/-- The number of characters at the front of a text, in whole pieces, that are in normal form.
`start` is where the last piece starts, `here` how many characters were seen, and `last` the class
of the last one. -/
def settledLength (start here marks last : Nat) : List Nat → Nat
  | [] => here
  | n :: rest =>
    if n < 0x80 then settledLength here (here + 1) 0 0 rest
    else
      let t := traits n
      match reach marks t with
      | .exceeds => start
      | .starts marks =>
        if t.settled then settledLength here (here + 1) marks t.cls rest else here
      | .continues marks =>
        if last ≤ t.cls && t.settled then settledLength start (here + 1) marks t.cls rest
        else start

/-! ## Pieces -/

/-- A character of a piece that is taken apart. -/
structure Part where
  code : Nat
  cls : Nat
  joins : Bool
  deriving DecidableEq, Repr

namespace Part

def ofCode (n : Nat) : Part := ⟨n, combiningClass n, joinsBack n⟩

def starter (n : Nat) : Part := ⟨n, 0, false⟩

/-- Whether a piece starts at this character. -/
def isBoundary (p : Part) : Bool := p.cls == 0 && !p.joins

/-- Put a mark behind the parts whose class is not larger, and anything else at the end. -/
def insert (p : Part) (parts : List Part) : List Part :=
  let passed := if p.cls = 0 then [] else parts.reverse.takeWhile (fun q => p.cls < q.cls)
  parts.take (parts.length - passed.length) ++ p :: passed.reverse

end Part

/-- A piece that is put together again. -/
structure Composition where
  /-- What stands before the base, last first. -/
  front : List Part := []
  /-- What the next part may be joined to. -/
  base : Part
  /-- What stands behind the base, last first. -/
  behind : List Part := []
  /-- Once a letter of the Korean alphabet came, only syllables are put together. -/
  syllables : Bool := false

namespace Composition

/-- A part of class zero at the end becomes the base. -/
def rebase (s : Composition) : Composition :=
  match s.behind with
  | p :: ps =>
    if p.cls = 0 then { s with front := ps ++ s.base :: s.front, base := p, behind := [] } else s
  | [] => s

/-- Whether something stands between the base and a part that keeps them apart. -/
def blocks (s : Composition) (p : Part) : Bool :=
  match s.behind with
  | q :: _ => p.cls ≤ q.cls
  | [] => false

def join? (s : Composition) (p : Part) : Option Nat :=
  if s.blocks p then none
  else if s.syllables then composeSyllable s.base.code p.code
  else composePair s.base.code p.code

def keep (s : Composition) (p : Part) : Composition := { s with behind := p :: s.behind }

/-- Join a part to the base or put it at the end. -/
def add (s : Composition) (p : Part) : Composition :=
  let s := { s with syllables := s.syllables || (0x1100 ≤ p.code && p.code ≤ 0x11FF) }
  if s.syllables || p.joins then
    let s := s.rebase
    match s.join? p with
    | some n => { s with base := .starter n }
    | none => s.keep p
  else s.keep p

def codes (s : Composition) : List Nat :=
  ((s.behind ++ s.base :: s.front).reverse).map (·.code)

end Composition

def composeParts : List Part → List Nat
  | [] => []
  | p :: ps => (ps.foldl Composition.add { base := p }).codes

/-- A piece under construction. -/
structure Piece where
  /-- The codes that are done. -/
  done : List Nat := []
  /-- The parts that may still be composed, in the order of their classes. -/
  parts : List Part := []

namespace Piece

def finish (p : Piece) : List Nat := p.done ++ composeParts p.parts

def insertPart (p : Piece) (q : Part) : Piece := { p with parts := q.insert p.parts }

/-- Insert a part of a character. One that a piece starts at ends what was before it. -/
def insertSplit (p : Piece) (q : Part) : Piece :=
  if q.isBoundary then { done := p.finish, parts := [q] } else p.insertPart q

/-- Take a character apart and put its parts in order. -/
def insert (p : Piece) (n : Nat) : Piece :=
  let parts := decomposeCode 4 n
  if parts = [n] then p.insertPart (.ofCode n)
  else (parts.map Part.ofCode).foldl insertSplit p

/-- End a piece that has no room for more marks. -/
def finishJoined (p : Piece) : List Nat :=
  (p.insertPart (.starter 0x34F)).finish

/-- The normal form of a piece, and the codes after it. -/
def take (p : Piece) (marks : Nat) : List Nat → List Nat × List Nat
  | [] => (p.finish, [])
  | n :: rest =>
    match reach marks (traits n) with
    | .exceeds => (p.finishJoined, n :: rest)
    | .continues marks => (p.insert n).take marks rest
    | .starts marks =>
      if p.parts.isEmpty then (p.insert n).take marks rest else (p.finish, n :: rest)

end Piece

/-- The normal form of the first piece and of what is settled after it, and the rest. -/
def normalizePiece (codes : List Nat) : List Nat × List Nat :=
  let (piece, rest) := Piece.take {} 0 codes
  let settled := settledLength 0 0 0 0 rest
  (piece ++ rest.take settled, rest.drop settled)

def normalizePieces (codes : List Nat) : List Nat :=
  let step := normalizePiece codes
  if step.2.length < codes.length then step.1 ++ normalizePieces step.2 else step.1
termination_by codes.length

def isPlain (c : Char) : Bool := c.toNat < 0x300

/-- The normal form of a text. Nothing combines in a text below `U+0300`. -/
def normalize (s : String) : String :=
  if s.toList.all isPlain then s
  else
    let codes := s.toList.map Char.toNat
    let settled := settledLength 0 0 0 0 codes
    let rest := codes.drop settled
    if rest.isEmpty then s
    else String.ofList ((codes.take settled ++ normalizePieces rest).map Char.ofNat)

end Qirc.Text
