/-!
# Points in time

A point in time is a count of microseconds since the start of 1970 in universal time. Its text has
the date of the Gregorian calendar.
-/

namespace Qirc.Text

/-- Year, month and day of a day counted from the start of 1970. Years are counted from March on, in
eras of 400 years. -/
def civilDate (day : Int) : Int × Nat × Nat :=
  let z := day + 719468
  let era := z.fdiv 146097
  let doe := (z - era * 146097).toNat
  let yoe := (doe - doe / 1460 + doe / 36524 - doe / 146096) / 365
  let doy := doe - (365 * yoe + yoe / 4 - yoe / 100)
  let mp := (5 * doy + 2) / 153
  let d := doy - (153 * mp + 2) / 5 + 1
  let m := if mp < 10 then mp + 3 else mp - 9
  let y := (yoe : Int) + era * 400 + (if m ≤ 2 then 1 else 0)
  (y, m, d)

def padded (width n : Nat) : String :=
  let digits := toString n
  String.ofList (List.replicate (width - digits.length) '0') ++ digits

def timestamp (micros : Int) : String :=
  let day := micros.fdiv 86400000000
  let rest := (micros - day * 86400000000).toNat
  let seconds := rest / 1000000
  let (y, m, d) := civilDate day
  let year := if y < 0 then "-" ++ padded 4 y.natAbs else padded 4 y.natAbs
  year ++ "-" ++ padded 2 m ++ "-" ++ padded 2 d ++ "T" ++ padded 2 (seconds / 3600) ++ ":" ++
    padded 2 (seconds / 60 % 60) ++ ":" ++ padded 2 (seconds % 60) ++ "." ++
    padded 6 (rest % 1000000) ++ "Z"

end Qirc.Text
