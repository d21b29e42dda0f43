import Qirc.Error

/-!
# Levels, scopes and kinds of traces

All of these are small numbers with names. A level admits events by their scope: the larger the
scope the finer the event.
-/

namespace Qirc.Trace

structure Level where
  code : Nat
  deriving DecidableEq, Repr, Inhabited

namespace Level

def off : Level := ⟨0⟩

def error : Level := ⟨1⟩

def phase : Level := ⟨2⟩

def detail : Level := ⟨3⟩

def debug : Level := ⟨4⟩

def name (l : Level) : String := ["off", "error", "phase", "detail", "debug"].getD l.code "unknown"

def ofName (s : String) : Except Failure Level :=
  match Text.lower s with
  | "off" => .ok off
  | "error" => .ok error
  | "phase" => .ok phase
  | "detail" => .ok detail
  | "debug" => .ok debug
  | _ => .error (.error (.traceLevel s))

def isOn (l : Level) : Bool := decide (0 < l.code)

def raise (l other : Level) : Level := if l.code < other.code then other else l

end Level

structure Scope where
  code : Nat
  deriving DecidableEq, Repr, Inhabited

namespace Scope

def driver : Scope := ⟨1⟩

def stage : Scope := ⟨2⟩

def pass : Scope := ⟨3⟩

def func : Scope := ⟨4⟩

def name (s : Scope) : String :=
  match s.code with
  | 1 => "driver"
  | 2 => "stage"
  | 3 => "pass"
  | 4 => "func"
  | _ => "unknown"

end Scope

def Level.admits (l : Level) (s : Scope) : Bool :=
  match l.code with
  | 1 | 2 => decide (s.code ≤ Scope.stage.code)
  | 3 => decide (s.code ≤ Scope.pass.code)
  | 4 => true
  | _ => false

structure Kind where
  code : Nat
  deriving DecidableEq, Repr, Inhabited

namespace Kind

def begins : Kind := ⟨1⟩

def ends : Kind := ⟨2⟩

def point : Kind := ⟨3⟩

def heartbeat : Kind := ⟨4⟩

def name (k : Kind) : String :=
  match k.code with
  | 1 => "begin"
  | 2 => "end"
  | 3 => "point"
  | 4 => "heartbeat"
  | _ => "unknown"

def mark (k : Kind) : String :=
  match k.code with
  | 1 => "→ "
  | 2 => "← "
  | 3 => "• "
  | 4 => "♡ "
  | _ => ""

end Kind

structure Mode where
  code : Nat
  deriving DecidableEq, Repr, Inhabited

namespace Mode

def stream : Mode := ⟨1⟩

def ring : Mode := ⟨2⟩

def both : Mode := ⟨3⟩

def name (m : Mode) : String :=
  match m.code with
  | 1 => "stream"
  | 2 => "ring"
  | 3 => "both"
  | _ => "unknown"

def ofName (s : String) : Except Failure Mode :=
  match Text.lower s with
  | "stream" => .ok stream
  | "ring" => .ok ring
  | "both" => .ok both
  | _ => .error (.error (.traceMode s))

end Mode

inductive Format where
  | auto
  | text
  | ndjson
  deriving DecidableEq, Repr, Inhabited

namespace Format

def code : Format → Nat
  | .auto => 0
  | .text => 1
  | .ndjson => 2

def ofName (s : String) : Except Failure Format :=
  match Text.lower s with
  | "" | "auto" => .ok .auto
  | "text" => .ok .text
  | "ndjson" | "json" => .ok .ndjson
  | _ => .error (.error (.traceFormat s))

def forPath (f : Format) (path : String) : Format :=
  match f with
  | .auto => if path.endsWith ".ndjson" || path.endsWith ".jsonl" then .ndjson else .text
  | f => f

end Format

end Qirc.Trace
