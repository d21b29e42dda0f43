import Qirc.Diagnostic
import Qirc.Pipeline.Progress
import Qirc.Trace.Event

/-!
# Reports

What users are shown of diagnostics and timings.
-/

namespace Qirc

/-- A text between the codes that set and reset how a terminal shows it, if that is wanted. -/
def styled (on : Bool) (set reset text : String) : String :=
  let esc := (Char.ofNat 27).toString
  if on then esc ++ "[" ++ set ++ "m" ++ text ++ esc ++ "[" ++ reset ++ "m" else text

def red (on : Bool) (text : String) : String := styled on "31" "0" text

def yellow (on : Bool) (text : String) : String := styled on "33" "0" text

def green (on : Bool) (text : String) : String := styled on "32" "0" text

def Severity.label (color : Bool) (s : Severity) : String :=
  let name := Text.lower s.name
  match s with
  | .error => red color name
  | .warning => yellow color name
  | _ => name

def Note.report (n : Note) : String := s!"  note: node {n.node}: " ++ n.text ++ "\n"

def Diagnostic.report (color : Bool) (file : String) (d : Diagnostic) : String :=
  file ++ ": " ++ d.severity.label color ++ "[" ++ d.code.id ++ s!"]: node {d.node}: " ++ d.text ++
    "\n" ++ String.join (d.notes.map Note.report)

def Bag.report (color : Bool) (file : String) (b : Bag) : String :=
  String.join (b.dedup.sort.items.map (Diagnostic.report color file))

def rightAligned (width : Nat) (s : String) : String :=
  String.ofList (List.replicate (width - s.length) ' ') ++ s

namespace Pipeline.Timings

def line (name : String) (nanoseconds : Int) : String :=
  let ms := Float.ofInt nanoseconds / 1000000.0
  "  " ++ Trace.leftPadded 9 name ++ " " ++ rightAligned 8 (Decimal.fixed 1 ms) ++ " ms\n"

def report (label : String) (t : Timings) : String :=
  (if label = "" then "" else label ++ ":\n") ++
    String.join (t.stages.map (fun s => line s.name (t.duration s))) ++ line "total" t.total

end Pipeline.Timings

end Qirc
