import Qirc.Decimal.Text
import Qirc.Text.Hex
import Qirc.Toml.Basic
import Qirc.Word

/-!
# Reading TOML

Each reader takes what it reads off the front of the characters and gives the rest; it gives nothing
if the characters do not start with what it reads. The number that nested readers count down bounds
how often they call each other, the length of the text is enough.
-/

namespace Qirc.Toml

abbrev Chars := List Char

abbrev Reader (α : Type) := Chars → Option (α × Chars)

def isBlank (c : Char) : Bool := c == ' ' || c == '\t'

def isLineEnd (c : Char) : Bool := c == '\n' || c == '\r'

def isDigit (c : Char) : Bool := '0' ≤ c && c ≤ '9'

def isHexDigit (c : Char) : Bool := (Text.hexDigit? c).isSome

def skipBlanks (cs : Chars) : Chars := cs.dropWhile isBlank

def skipComment (cs : Chars) : Chars := cs.dropWhile (fun c => !isLineEnd c)

/-- Control characters are allowed nowhere, a carriage return only at the end of a line. The
replacement character counts as a sign of broken text. -/
def isLegal : Chars → Bool
  | [] => true
  | '\r' :: '\n' :: rest => isLegal rest
  | c :: rest =>
    (c == '\t' || c == '\n' || (0x20 ≤ c.toNat && c.toNat != 0x7F && c.toNat != 0xFFFD)) &&
      isLegal rest

/-! ## Strings -/

def hexValue (c : Char) : Nat := (Text.hexDigit? c).getD 0

def codePoint (count : Nat) : Reader Char := fun cs =>
  let ds := cs.take count
  let n := ds.foldl (fun n c => 16 * n + hexValue c) 0
  if ds.length = count ∧ ds.all isHexDigit ∧ (n < 0xD800 ∨ (0xDFFF < n ∧ n ≤ 0x10FFFF)) then
    some (Char.ofNat n, cs.drop count)
  else none

def escape : Reader Char
  | 'b' :: cs => some (Char.ofNat 8, cs)
  | 't' :: cs => some ('\t', cs)
  | 'n' :: cs => some ('\n', cs)
  | 'f' :: cs => some (Char.ofNat 12, cs)
  | 'r' :: cs => some ('\r', cs)
  | '"' :: cs => some ('"', cs)
  | '\\' :: cs => some ('\\', cs)
  | 'u' :: cs => codePoint 4 cs
  | 'U' :: cs => codePoint 8 cs
  | _ => none

def quoted : Nat → Chars → Reader String
  | 0, _, _ => none
  | _ + 1, done, '"' :: cs => some (String.ofList done.reverse, cs)
  | fuel + 1, done, '\\' :: cs =>
    match escape cs with
    | some (c, cs) => quoted fuel (c :: done) cs
    | none => none
  | fuel + 1, done, c :: cs => if isLineEnd c then none else quoted fuel (c :: done) cs
  | _ + 1, _, [] => none

def verbatim : Reader String := fun cs =>
  let inner := cs.takeWhile (fun c => c != '\'' && !isLineEnd c)
  match cs.drop inner.length with
  | '\'' :: rest => some (String.ofList inner, rest)
  | _ => none

/-- The text after three opening quotes starts behind a line end, if there is one at once. -/
def skipFirstLineEnd : Chars → Chars
  | '\n' :: cs => cs
  | '\r' :: '\n' :: cs => cs
  | cs => cs

/-- What a run of quotes within a text of several lines means: three of them or more end the text,
and all but the last three belong to it. A run longer than the limit is refused. -/
def closingRun (limit count : Nat) : Option (Option Nat) :=
  if count < 3 then some none else if count ≤ limit then some (some (count - 3)) else none

def longestRun : Nat := 5

/-- The longest run of quotes that may follow an escape: a backslash written as one makes room for
one more. -/
def longestRunAfter : Chars → Nat
  | '\\' :: _ => longestRun + 1
  | _ => longestRun

/-- A text of several lines with escapes. A backslash before the end of a line takes away all white
space up to the next character. -/
def quotedLines : Nat → Nat → Chars → Reader String
  | 0, _, _, _ => none
  | _ + 1, _, _, [] => none
  | fuel + 1, _, done, '\\' :: cs =>
    let gap := cs.takeWhile (fun c => isBlank c || isLineEnd c)
    if gap.contains '\n' then quotedLines fuel longestRun done (cs.drop gap.length)
    else match escape cs with
      | some (c, rest) => quotedLines fuel (longestRunAfter cs) (c :: done) rest
      | none => none
  | fuel + 1, limit, done, '"' :: cs =>
    let count := (cs.takeWhile (· == '"')).length + 1
    let rest := cs.drop (count - 1)
    match closingRun limit count with
    | none => none
    | some none => quotedLines fuel longestRun (List.replicate count '"' ++ done) rest
    | some (some kept) => some (String.ofList (List.replicate kept '"' ++ done).reverse, rest)
  | fuel + 1, _, done, c :: cs => quotedLines fuel longestRun (c :: done) cs

def verbatimLines : Nat → Chars → Reader String
  | 0, _, _ => none
  | _ + 1, _, [] => none
  | fuel + 1, done, '\'' :: cs =>
    let count := (cs.takeWhile (· == '\'')).length + 1
    let rest := cs.drop (count - 1)
    match closingRun longestRun count with
    | none => none
    | some none => verbatimLines fuel (List.replicate count '\'' ++ done) rest
    | some (some kept) => some (String.ofList (List.replicate kept '\'' ++ done).reverse, rest)
  | fuel + 1, done, c :: cs => verbatimLines fuel (c :: done) cs

/-! ## Keys -/

def name : Reader String
  | '"' :: cs => quoted (cs.length + 1) [] cs
  | '\'' :: cs => verbatim cs
  | cs =>
    let bare := cs.takeWhile isBare
    if bare.isEmpty then none else some (String.ofList bare, cs.drop bare.length)

def key (close : Char) : Nat → Reader Key
  | 0, _ => none
  | fuel + 1, cs =>
    match name (skipBlanks cs) with
    | none => none
    | some (n, cs) =>
      match skipBlanks cs with
      | [] => none
      | c :: cs =>
        if c = '.' then (key close fuel cs).map (fun (ns, cs) => (n :: ns, cs))
        else if c = close then some ([n], cs)
        else none

/-! ## Numbers and times -/

def underscoresOk (cs : Chars) : Bool :=
  let step (state : Bool × Bool) (c : Char) : Bool × Bool :=
    (state.1 && (c != '_' || state.2), isHexDigit c)
  let (ok, last) := cs.foldl step (true, false)
  ok && last

def hasLeadingZero : Chars → Bool
  | '0' :: c :: _ => !(c == 'b' || c == 'o' || c == 'x')
  | s :: '0' :: _ :: _ => s == '-' || s == '+'
  | _ => false

def digitsIn (base : Nat) (cs : Chars) : Int :=
  (((cs.filter (· != '_')).foldl (fun n c => base * n + hexValue c) 0 : Nat) : Int)

def integerValue (cs : Chars) : Option Int :=
  if !underscoresOk cs || hasLeadingZero cs then none
  else
    let n := match cs with
      | '0' :: 'x' :: ds => digitsIn 16 ds
      | '0' :: 'o' :: ds => digitsIn 8 ds
      | '0' :: 'b' :: ds => digitsIn 2 ds
      | '-' :: ds => -digitsIn 10 ds
      | '+' :: ds => digitsIn 10 ds
      | ds => digitsIn 10 ds
    if Word.isSigned64 n then some n else none

def integer (cs : Chars) : Option Literal := (integerValue cs).map .integer

def splitFields (isMark : Char → Bool) (cs : Chars) : List Chars :=
  (cs.splitBy (fun a b => !isMark a && !isMark b)).filter (fun f => !f.any isMark)

def pointsOk : Chars → Bool
  | [] => true
  | ['.'] => false
  | '.' :: c :: rest => isDigit c && pointsOk (c :: rest)
  | _ :: rest => pointsOk rest

/-- A number with a fraction or a power of ten, within the range of doubles. -/
def float (cs : Chars) : Option Literal :=
  let fields := splitFields (fun c => c == '.' || c == 'e' || c == 'E') cs
  if !fields.all underscoresOk || hasLeadingZero (fields.headD []) || !pointsOk cs then none
  else match Decimal.Literal.ofChars? (cs.filter (· != '_')) with
    | some x => if x.toFloat.isInf then none else some .float
    | none => none

def isLeap (year : Nat) : Bool := year % 4 == 0 && (year % 100 != 0 || year % 400 == 0)

def daysIn (year month : Nat) : Nat :=
  if month = 2 then (if isLeap year then 29 else 28)
  else if month = 4 ∨ month = 6 ∨ month = 9 ∨ month = 11 then 30
  else 31

def digits (count : Nat) : Reader Nat := fun cs =>
  let ds := cs.take count
  if ds.length = count ∧ ds.all isDigit then
    some (ds.foldl (fun n c => 10 * n + hexValue c) 0, cs.drop count)
  else none

def mark (c : Char) : Reader Unit
  | d :: cs => if c = d then some ((), cs) else none
  | [] => none

def date : Reader Unit := fun cs => do
  let (year, cs) ← digits 4 cs
  let (_, cs) ← mark '-' cs
  let (month, cs) ← digits 2 cs
  let (_, cs) ← mark '-' cs
  let (day, cs) ← digits 2 cs
  if 1 ≤ month ∧ month ≤ 12 ∧ 1 ≤ day ∧ day ≤ daysIn year month then some ((), cs) else none

def hour : Reader Nat := fun cs =>
  match digits 2 cs with
  | some h => some h
  | none => digits 1 cs

def clock : Reader Unit := fun cs => do
  let (hour, cs) ← hour cs
  let (_, cs) ← mark ':' cs
  let (minute, cs) ← digits 2 cs
  let (_, cs) ← mark ':' cs
  let (second, cs) ← digits 2 cs
  if 24 ≤ hour ∨ 60 ≤ minute ∨ 60 ≤ second then none
  else match cs with
    | '.' :: c :: rest => if isDigit c then some ((), rest.dropWhile isDigit) else some ((), cs)
    | cs => some ((), cs)

def offset : Reader Unit
  | 'Z' :: cs => some ((), cs)
  | c :: cs => do
    if c ≠ '+' ∧ c ≠ '-' then none
    else
      let (hours, cs) ← digits 2 cs
      let (_, cs) ← mark ':' cs
      let (minutes, cs) ← digits 2 cs
      if hours ≤ 24 ∧ minutes ≤ 60 then some ((), cs) else none
  | [] => none

def isTime (cs : Chars) : Bool :=
  match clock cs with
  | some (_, []) => true
  | _ => match date cs with
    | some (_, []) => true
    | some (_, 'T' :: rest) =>
      match clock rest with
      | some (_, []) => true
      | some (_, zone) => match offset zone with
        | some (_, []) => true
        | _ => false
      | none => false
    | _ => false

def time (cs : Chars) : Option Literal :=
  let trimmed := (cs.reverse.dropWhile isBlank).reverse
  let upper := trimmed.map fun c =>
    if c = 'z' then 'Z' else if c = 't' ∨ c = ' ' then 'T' else c
  if isTime upper then some .time else none

def isFloatChar (c : Char) : Bool :=
  isDigit c || c == '_' || c == '.' || c == '-' || c == '+' || c == 'e' || c == 'E'

def isTimeChar (c : Char) : Bool :=
  isDigit c || ['-', ':', 'T', 't', ' ', '.', 'Z', 'z', '+'].contains c

/-- Take the characters of a kind off the front, after some that were taken before. -/
def taken (front : Chars) (p : Char → Bool) (make : Chars → Option Literal) : Reader Literal :=
  fun cs =>
    let more := cs.takeWhile p
    (make (front ++ more)).map (fun v => (v, cs.drop more.length))

def startsPower (cs : Chars) : Bool :=
  match cs with
  | c :: _ => c == '.' || c == 'e' || c == 'E'
  | [] => false

def decimal (front : Chars) : Reader Literal := fun cs =>
  let more := cs.takeWhile (fun c => isDigit c || c == '_')
  let rest := cs.drop more.length
  if startsPower rest then taken (front ++ more) isFloatChar float rest
  else (integer (front ++ more)).map (fun v => (v, rest))

def based (letter : Char) (isIn : Char → Bool) : Reader Literal := fun cs =>
  match cs with
  | c :: _ => if isIn c then taken ['0', letter] (fun c => isIn c || c == '_') integer cs else none
  | [] => none

/-- A number without a sign, or a time. A single zero is always a number. -/
def numberOrTime : Reader Literal
  | '0' :: 'x' :: cs => based 'x' isHexDigit cs
  | '0' :: 'o' :: cs => based 'o' (fun c => '0' ≤ c && c ≤ '7') cs
  | '0' :: 'b' :: cs => based 'b' (fun c => c == '0' || c == '1') cs
  | cs =>
    let ds := cs.takeWhile isDigit
    match cs.drop ds.length with
    | c :: _ =>
      if (c = '-' ∨ c = ':') ∧ ds ≠ ['0'] then taken [] isTimeChar time cs else decimal [] cs
    | [] => decimal [] cs

def signed (sign : Char) : Reader Literal
  | 'i' :: 'n' :: 'f' :: cs => some (.float, cs)
  | 'n' :: 'a' :: 'n' :: cs => some (.float, cs)
  | '0' :: c :: cs =>
    if c == 'b' || c == 'o' || c == 'x' then none else decimal [sign] ('0' :: c :: cs)
  | c :: cs => if isDigit c then decimal [sign] (c :: cs) else none
  | [] => none

/-! ## Values -/

def skipGaps : Nat → Chars → Chars
  | 0, cs => cs
  | fuel + 1, cs =>
    match cs.dropWhile (fun c => isBlank c || isLineEnd c) with
    | '#' :: rest => skipGaps fuel (skipComment rest)
    | rest => rest

mutual

def value : Nat → Reader Literal
  | 0, _ => none
  | fuel + 1, cs =>
    match skipBlanks cs with
    | '[' :: cs => (elements fuel cs).map (fun (xs, cs) => (.array xs, cs))
    | '\x7b' :: cs => (members fuel true cs).map (fun (ms, cs) => (.inline ms, cs))
    | '"' :: '"' :: '"' :: cs =>
      (quotedLines (cs.length + 1) longestRun [] (skipFirstLineEnd cs)).map
        (fun (s, cs) => (.text s, cs))
    | '"' :: cs => (quoted (cs.length + 1) [] cs).map (fun (s, cs) => (.text s, cs))
    | '\'' :: '\'' :: '\'' :: cs =>
      (verbatimLines (cs.length + 1) [] (skipFirstLineEnd cs)).map (fun (s, cs) => (.text s, cs))
    | '\'' :: cs => (verbatim cs).map (fun (s, cs) => (.text s, cs))
    | 'i' :: 'n' :: 'f' :: cs => some (.float, cs)
    | 'n' :: 'a' :: 'n' :: cs => some (.float, cs)
    | 't' :: 'r' :: 'u' :: 'e' :: cs => some (.boolean true, cs)
    | 'f' :: 'a' :: 'l' :: 's' :: 'e' :: cs => some (.boolean false, cs)
    | '-' :: cs => signed '-' cs
    | '+' :: cs => signed '+' cs
    | c :: cs => if isDigit c then numberOrTime (c :: cs) else none
    | [] => none

def elements : Nat → Reader (List Literal)
  | 0, _ => none
  | fuel + 1, cs =>
    match skipGaps cs.length cs with
    | ']' :: cs => some ([], cs)
    | cs =>
      match value fuel cs with
      | none => none
      | some (v, cs) =>
        match skipGaps cs.length cs with
        | ',' :: cs => (elements fuel cs).map (fun (vs, cs) => (v :: vs, cs))
        | ']' :: cs => some ([v], cs)
        | _ => none

/-- The entries of an inline table up to its end, which may come at once only in an empty one. -/
def members : Nat → Bool → Reader (List (Key × Literal))
  | 0, _, _ => none
  | fuel + 1, first, cs =>
    match skipBlanks cs with
    | '\x7d' :: cs => if first then some ([], cs) else none
    | cs =>
      match key '=' (cs.length + 1) cs with
      | none => none
      | some (k, cs) =>
        match value fuel cs with
        | none => none
        | some (v, cs) =>
          match skipBlanks cs with
          | ',' :: cs => (members fuel false cs).map (fun (ms, cs) => ((k, v) :: ms, cs))
          | '\x7d' :: cs => some ([(k, v)], cs)
          | _ => none

end

/-! ## Statements -/

def endOfStatement (cs : Chars) : Option Chars :=
  match skipBlanks cs with
  | [] => some []
  | '#' :: cs => some (skipComment cs)
  | c :: cs => if isLineEnd c then some cs else none

def statement : Reader Statement
  | '[' :: '[' :: cs =>
    match key ']' (cs.length + 1) cs with
    | some (k, ']' :: cs) => some (.arrayHeader k, cs)
    | _ => none
  | '[' :: cs => (key ']' (cs.length + 1) cs).map (fun (k, cs) => (.header k, cs))
  | cs =>
    match key '=' (cs.length + 1) cs with
    | none => none
    | some (k, cs) => (value (cs.length + 1) cs).map (fun (v, cs) => (.entry k v, cs))

def statementsWith : Nat → Chars → Option (List Statement)
  | 0, _ => none
  | fuel + 1, cs =>
    match skipGaps cs.length cs with
    | [] => some []
    | cs =>
      match statement cs with
      | none => none
      | some (s, cs) =>
        match endOfStatement cs with
        | none => none
        | some cs => (statementsWith fuel cs).map (s :: ·)

def statements (text : String) : Option (List Statement) :=
  let cs := text.toList
  if isLegal cs then statementsWith (cs.length + 1) cs else none

end Qirc.Toml
