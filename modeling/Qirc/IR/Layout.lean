import Qirc.Decimal.Text
import Qirc.IR.Module
import Qirc.Word

/-!
# Data layouts

A data layout is a list of specifications divided by dashes. The one for pointers names their width;
without one they have 64 bits.
-/

namespace Qirc.IR

def signedNumber? (text : List Char) : Option Int :=
  let number (ds : List Char) : Option Nat :=
    if ds.isEmpty || !ds.all Char.isDigit then none else some (Decimal.numberOf ds)
  let value : Option Int := match text with
    | '-' :: ds => (number ds).map (fun n => -(n : Int))
    | '+' :: ds => (number ds).map (fun n => (n : Int))
    | ds => (number ds).map (fun n => (n : Int))
  value.filter Word.isSigned64

def pointerSpec? (spec : List Char) : Option (List Char) :=
  match spec with
  | 'p' :: ':' :: rest => some rest
  | 'p' :: '0' :: ':' :: rest => some rest
  | _ => none

def layoutPointerWidth? (layout : String) : Option Nat :=
  if layout = "" then none
  else match (layout.splitOn "-").findSome? (fun s => pointerSpec? s.toList) with
    | none => some 64
    | some spec =>
      match signedNumber? (spec.takeWhile (· != ':')) with
      | some n => if 0 < n then some n.toNat else none
      | none => none

def defaultPointerWidth : Nat := 64

/-- The pointer width of a module; the default comes with the error that it is not known. -/
def Module.pointerWidth (m : Module) : Nat × Option Error :=
  match layoutPointerWidth? m.layout with
  | some bits => (bits, none)
  | none => (defaultPointerWidth, some .pointerWidthUnknown)

end Qirc.IR
