/-!
# TOML

A TOML text is a list of statements: table headers and entries. Keys are lists of names. Numbers
with a fraction and points in time are only known to be well formed.
-/

namespace Qirc.Toml

abbrev Key := List String

inductive Literal where
  | text (s : String)
  | integer (n : Int)
  | float
  | boolean (b : Bool)
  | time
  | array (xs : List Literal)
  | inline (entries : List (Key × Literal))
  deriving Inhabited

inductive Statement where
  | header (key : Key)
  | arrayHeader (key : Key)
  | entry (key : Key) (value : Literal)
  deriving Inhabited

/-! ## Keys as text -/

def isBare (c : Char) : Bool := c.isAlphanum || c == '_' || c == '-'

def escapeChar (c : Char) : String :=
  match c with
  | '"' => "\\\""
  | '\\' => "\\\\"
  | '\t' => "\\t"
  | '\n' => "\\n"
  | '\r' => "\\r"
  | c =>
    let n := c.toNat
    if n = 8 then "\\b"
    else if n = 12 then "\\f"
    else if n < 0x20 ∨ n = 0x7F then
      "\\u00" ++ String.ofList [Nat.digitChar (n / 16), Nat.digitChar (n % 16)]
    else c.toString

def nameText (s : String) : String :=
  if s ≠ "" ∧ s.toList.all isBare then s
  else "\"" ++ String.join (s.toList.map escapeChar) ++ "\""

def keyText (k : Key) : String := String.intercalate "." (k.map nameText)

end Qirc.Toml
