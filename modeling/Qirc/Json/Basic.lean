import Qirc.Decimal.Text
import Qirc.Text.Quoted

/-!
# JSON values

A number keeps the text it was written with, an object keeps its members in order and may repeat a
name. Both are what a strict reader of records needs to see.
-/

namespace Qirc

inductive Json where
  | null
  | bool (b : Bool)
  | number (text : String)
  | string (s : String)
  | array (items : List Json)
  | object (members : List (String × Json))
  deriving Inhabited

namespace Json

def nat (n : Nat) : Json := .number (toString n)

def int (i : Int) : Json := .number (toString i)

def get? (name : String) : Json → Option Json
  | .object ms => (ms.find? (fun m => m.1 == name)).map (·.2)
  | _ => none

/-- The members of an object, a later one in the place of an earlier one of its name. -/
def put (j : Json) (name : String) (v : Json) : Json :=
  match j with
  | .object ms =>
    if ms.any (fun m => m.1 == name) then
      .object (ms.map (fun m => if m.1 == name then (name, v) else m))
    else .object (ms ++ [(name, v)])
  | j => j

/-- Positional from `1e-6` up to `1e21`, with a power of ten outside of that. -/
def numeral (s : Decimal.Digits) : Decimal.Numeral :=
  if s.digits = 0 ∨ (-6 ≤ s.order ∧ s.order < 21) then s.positional
  else Decimal.scientific s.digits s.order

/-- The shortest text of a finite double. The other doubles have no text. -/
def ofFloat? (x : Float) : Option Json :=
  (Decimal.Dyadic.ofFloat? x).map fun d =>
    let s := Decimal.shortest d
    .number (Decimal.signText x ++
      String.ofList ((numeral s).chars (if s.order < 0 then 1 else 2)))

end Json

end Qirc
