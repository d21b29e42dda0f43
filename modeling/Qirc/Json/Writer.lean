import Qirc.Json.Basic

/-!
# JSON texts

`compact` writes a value without blanks, `pretty` with one member or item a line, two blanks
deeper at each level. In strings the characters that are special in markup are escaped, and a stray
byte is written as the escape of the replacement character.
-/

namespace Qirc.Json

def escapeChar (c : Char) : String :=
  match c.toNat with
  | 0x22 => "\\\""
  | 0x5C => "\\\\"
  | 8 => "\\b"
  | 12 => "\\f"
  | 10 => "\\n"
  | 13 => "\\r"
  | 9 => "\\t"
  | n =>
    if n < 0x20 ∨ n = 0x3C ∨ n = 0x3E ∨ n = 0x26 ∨ n = 0x2028 ∨ n = 0x2029 then
      "\\u" ++ Text.hexDigits 4 n
    else if (Text.strayByte? c).isSome then "\\ufffd"
    else c.toString

def stringText (s : String) : String :=
  "\"" ++ String.join (s.toList.map escapeChar) ++ "\""

mutual

def compact : Json → String
  | .null => "null"
  | .bool b => if b then "true" else "false"
  | .number t => t
  | .string s => stringText s
  | .array items => "[" ++ String.intercalate "," (compactItems items) ++ "]"
  | .object ms => "\x7b" ++ String.intercalate "," (compactMembers ms) ++ "\x7d"

def compactItems : List Json → List String
  | [] => []
  | v :: rest => v.compact :: compactItems rest

def compactMembers : List (String × Json) → List String
  | [] => []
  | (k, v) :: rest => (stringText k ++ ":" ++ v.compact) :: compactMembers rest

end

def newline (depth : Nat) : String := "\n" ++ String.ofList (List.replicate (2 * depth) ' ')

/-- Texts between brackets, each on a line of its own. -/
def block (depth : Nat) (opener closer : String) : List String → String
  | [] => opener ++ closer
  | text :: rest =>
    opener ++ newline (depth + 1) ++ text ++
      String.join (rest.map (fun t => "," ++ newline (depth + 1) ++ t)) ++ newline depth ++ closer

mutual

def prettyAt (depth : Nat) : Json → String
  | .null => "null"
  | .bool b => if b then "true" else "false"
  | .number t => t
  | .string s => stringText s
  | .array items => block depth "[" "]" (prettyItems (depth + 1) items)
  | .object ms => block depth "\x7b" "\x7d" (prettyMembers (depth + 1) ms)

def prettyItems (depth : Nat) : List Json → List String
  | [] => []
  | v :: rest => prettyAt depth v :: prettyItems depth rest

def prettyMembers (depth : Nat) : List (String × Json) → List String
  | [] => []
  | (k, v) :: rest => (stringText k ++ ": " ++ prettyAt depth v) :: prettyMembers depth rest

end

def pretty (j : Json) : String := prettyAt 0 j ++ "\n"

end Qirc.Json
