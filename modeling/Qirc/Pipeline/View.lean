import Qirc.Report
import Qirc.Text.Duration
import Qirc.Text.Width

/-!
# The view of a batch

Builds of several files are shown as one row a file, under a title and over a bar. Messages on
progress change the rows; a clock turns the spinner before the title until the batch is done.
-/

namespace Qirc.Pipeline

structure Row where
  path : String
  label : String := "queued"
  /-- In nanoseconds. -/
  elapsed : Int := 0
  error : Option String := none
  deriving DecidableEq, Repr, Inhabited

structure View where
  title : String
  rows : List Row
  width : Int := 80
  barWidth : Int := 76
  /-- How often the spinner was turned. -/
  turns : Nat := 0
  done : Bool := false
  deriving DecidableEq, Repr, Inhabited

namespace Row

def isFinished (r : Row) : Bool := r.label == "done" || r.label == "error"

def addElapsed (r : Row) (p : Progress) : Row :=
  { r with elapsed := (r.elapsed + p.elapsed).bmod Word.size64 }

def apply (r : Row) (p : Progress) : Row :=
  match p.status with
  | .queued => { r with label := "queued" }
  | .working => { r with label := p.stage.name }
  | .done =>
    let r := r.addElapsed p
    if p.stage = .write then { r with label := "done" } else r
  | .error => { r.addElapsed p with label := "error", error := p.error.map Error.message }
  | .other _ => r

end Row

namespace View

def new (title : String) (files : List String) : View :=
  { title := title, rows := files.map (fun f => { path := f }) }

def updateLast (path : String) (f : Row → Row) : List Row → List Row
  | [] => []
  | r :: rest =>
    if r.path == path && !rest.any (fun x => x.path == path) then f r :: rest
    else r :: updateLast path f rest

def apply (v : View) (p : Progress) : View :=
  { v with rows := updateLast p.file (fun r => r.apply p) v.rows }

def resize (v : View) (width : Int) : View :=
  if 0 < width then { v with width := width, barWidth := width - 4 } else v

def turn (v : View) : View := if v.done then v else { v with turns := v.turns + 1 }

def close (v : View) : View := { v with done := true }

/-! ## Rendering -/

/-- A text as a block: tabs become blanks, and shorter lines are filled up to the widest. -/
def block (s : String) : String :=
  let lines := ((s.replace "\t" "    ").replace "\r\n" "\n").splitOn "\n"
  let widest := (lines.map Text.width).foldl max 0
  match lines with
  | [line] => line
  | lines => String.intercalate "\n" (lines.map fun l =>
      l ++ String.ofList (List.replicate (widest - Text.width l) ' '))

def spinner : List Char := ['⣾', '⣽', '⣻', '⢿', '⡿', '⣟', '⣯', '⣷']

def header (v : View) : String :=
  let finished := (v.rows.filter Row.isFinished).length
  let text := v.title ++ s!" [{finished}/{v.rows.length}]"
  block (if v.done then "done: " ++ text
    else (spinner.getD (v.turns % spinner.length) ' ').toString ++ "  " ++ text)

def statusWidth : Nat := 10

def timeWidth : Nat := 9

def nameWidth (v : View) : Nat := max (v.width - statusWidth - timeWidth - 6).toNat 20

def rowText (v : View) (r : Row) : String :=
  let elapsed := if 0 < r.elapsed then Text.duration (Text.nearestMilli r.elapsed.toNat) else ""
  "  " ++ block (rightAligned statusWidth r.label) ++ " " ++ Trace.leftPadded timeWidth elapsed ++
    " " ++ Text.shortened v.nameWidth r.path ++ "\n" ++
    (match r.error with
      | none => ""
      | some e =>
        "  " ++ rightAligned statusWidth "" ++ " " ++
          block (Text.shortened (v.nameWidth + timeWidth) e) ++ "\n")

def bar (v : View) : String :=
  let cells := (v.barWidth - 5).toNat
  if v.done then String.ofList (List.replicate cells '█') ++ " 100%"
  else String.ofList (List.replicate cells '░') ++ "   0%"

def render (v : View) : String :=
  if v.rows.isEmpty then ""
  else v.header ++ "\n\n" ++ String.join (v.rows.map v.rowText) ++ "\n" ++ v.bar ++ "\n"

end View

end Qirc.Pipeline
