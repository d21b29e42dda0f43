import Qirc.Error
import Qirc.Word

/-!
# Progress and timings

What a compilation tells while it runs, and how long its stages took.
-/

namespace Qirc.Pipeline

inductive Status where
  | queued
  | working
  | done
  | error
  | other (name : String)
  deriving DecidableEq, Repr, Inhabited

namespace Status

def all : List Status := [.queued, .working, .done, .error]

def name : Status → String
  | .queued => "queued"
  | .working => "working"
  | .done => "done"
  | .error => "error"
  | .other s => s

def ofName (s : String) : Status := (all.find? (fun x => x.name == s)).getD (.other s)

end Status

structure Progress where
  file : String
  stage : Stage
  status : Status
  error : Option Error := none
  /-- In nanoseconds. -/
  elapsed : Int := 0
  deriving Inhabited

/-- The durations of stages, in nanoseconds; the latest entry of a stage counts. -/
structure Timings where
  entries : List (Stage × Int) := []
  deriving DecidableEq, Repr, Inhabited

namespace Timings

def duration? (t : Timings) (s : Stage) : Option Int :=
  (t.entries.find? (fun e => e.1 == s)).map (·.2)

def set (t : Timings) (s : Stage) (d : Int) : Timings :=
  ⟨(s, d) :: t.entries.filter (fun e => e.1 != s)⟩

def has (t : Timings) (s : Stage) : Bool := (t.duration? s).isSome

def duration (t : Timings) (s : Stage) : Int := (t.duration? s).getD 0

def merge (t other : Timings) : Timings := other.entries.foldr (fun e t => t.set e.1 e.2) t

def sum (t : Timings) (stages : List Stage) : Int :=
  stages.foldl (fun n s => (n + t.duration s).bmod Word.size64) 0

def total (t : Timings) : Int := t.sum Stage.all

def stages (t : Timings) : List Stage := Stage.all.filter t.has

end Timings

end Qirc.Pipeline
