/-!
# Packed tables

The character tables of Unicode are long lists of small numbers. They are written as texts: each
number in base 26, its last digit a small letter and the digits before it capital letters.
-/

namespace Qirc.Text

/-- The numbers of a packed table, after the leading digits `high` of the first one. -/
def unpackFrom (high : Nat) : List Char → List Nat
  | [] => []
  | c :: cs =>
    if c.isLower then (26 * high + (c.toNat - 'a'.toNat)) :: unpackFrom 0 cs
    else unpackFrom (26 * high + (c.toNat - 'A'.toNat)) cs

def unpack (table : String) : List Nat := unpackFrom 0 table.toList

def triples : List Nat → List (Nat × Nat × Nat)
  | a :: b :: c :: rest => (a, b, c) :: triples rest
  | _ => []

/-- Whether a code point lies in a class, given by how many code points in a row are outside of it
and inside of it, in turn. -/
def inRuns : List Nat → Nat → Bool
  | outside :: inside :: rest, n =>
    outside ≤ n && (n < outside + inside || inRuns rest (n - outside - inside))
  | _, _ => false

end Qirc.Text
