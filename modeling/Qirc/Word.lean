/-!
# Words

How many numbers fit in a machine word. Node numbers and counts are words of 32 bits; whole numbers
and durations are words of 64 bits with a sign.
-/

namespace Qirc.Word

def size32 : Nat := 0x100000000

def size64 : Nat := 0x10000000000000000

/-- Half as many: the first number that is too large for 64 bits with a sign. -/
def half64 : Nat := 0x8000000000000000

def isSigned64 (n : Int) : Bool := -(half64 : Int) ≤ n && n < half64

end Qirc.Word
