import Qirc.Trace.Event

/-!
# Tracers

A tracer writes the events that its level admits to a stream, keeps the latest of them in a ring, or
both; heartbeats always pass. A span whose scope is not admitted is inert.
-/

namespace Qirc.Trace

/-! ## Rings -/

/-- The latest events, at most `capacity` of them; `head` is where the oldest one stands once the
ring is full. -/
structure Ring where
  capacity : Nat
  slots : Array Event := #[]
  head : Nat := 0
  deriving Inhabited

namespace Ring

def defaultCapacity : Nat := 4096

/-- An empty ring; a size that is not positive stands for the default one. -/
def ofSize (size : Int) : Ring :=
  { capacity := if size ≤ 0 then defaultCapacity else size.toNat }

/-- Keep an event, in the place of the oldest one when the ring is full. -/
def push (r : Ring) (e : Event) : Ring :=
  if r.slots.size < r.capacity then { r with slots := r.slots.push e }
  else { r with slots := r.slots.setIfInBounds r.head e, head := (r.head + 1) % r.capacity }

def snapshot (r : Ring) : List Event := r.slots.toList.drop r.head ++ r.slots.toList.take r.head

def dump (r : Ring) (format : Format) : String :=
  String.join (r.snapshot.map (fun e => e.line format))

end Ring

/-! ## Streams -/

inductive WriterCall where
  | flush
  | close
  deriving DecidableEq, Repr, Inhabited

/-- A stream of lines. `fault` is what its writer answers to every line; the first such answer is
kept. -/
structure Stream where
  format : Format
  written : String := ""
  fault : Option String := none
  failure : Option String := none
  calls : List WriterCall := []
  deriving Inhabited

namespace Stream

def write (s : Stream) (e : Event) : Stream :=
  match s.fault with
  | some f => { s with failure := some (s.failure.getD f) }
  | none => { s with written := s.written ++ e.line s.format }

def flush (s : Stream) : Except Failure Unit × Stream :=
  match s.failure with
  | some f => (.error (.error (.reason f)), s)
  | none => (.ok (), { s with calls := s.calls ++ [.flush] })

def close (s : Stream) : Except Failure Unit × Stream :=
  match s.flush with
  | (.error e, s) => (.error e, s)
  | (.ok _, s) => (.ok (), { s with calls := s.calls ++ [.close] })

end Stream

/-! ## Tracers -/

structure Tracer where
  level : Level
  stream : Option Stream := none
  ring : Option Ring := none
  now : Int := 0
  /-- How many sequence numbers were given out. -/
  seqs : Nat := 0
  /-- How many spans were opened. -/
  spans : Nat := 0
  deriving Inhabited

structure Span where
  /-- Zero for an inert span. -/
  id : Nat
  parent : Nat := 0
  scope : Scope := ⟨0⟩
  name : String := ""
  extra : List (String × String) := []
  deriving Inhabited

namespace Tracer

def silent : Tracer := { level := .off }

def new (level : Level) (mode : Mode) (ringSize : Int) (stream : Stream) :
    Except Failure Tracer :=
  if !level.isOn then .ok silent
  else match mode.code with
    | 1 => .ok { level := level, stream := some stream }
    | 2 => .ok { level := level, ring := some (Ring.ofSize ringSize) }
    | 3 => .ok { level := level, stream := some stream, ring := some (Ring.ofSize ringSize) }
    | _ => .error (.error .traceModeUnknown)

def isOn (t : Tracer) : Bool := t.level.isOn

def admits (t : Tracer) (e : Event) : Bool := t.level.admits e.scope || e.kind == .heartbeat

def emitToStream (t : Tracer) (e : Event) : Tracer :=
  match t.stream with
  | some s => { t with seqs := t.seqs + 1, stream := some (s.write { e with seq := t.seqs + 1 }) }
  | none => t

def emitToRing (t : Tracer) (e : Event) : Tracer :=
  match t.ring with
  | some r => { t with seqs := t.seqs + 1, ring := some (r.push { e with seq := t.seqs + 1 }) }
  | none => t

def emit (t : Tracer) (e : Event) : Tracer :=
  if t.admits e then (t.emitToStream e).emitToRing e else t

def mainThread : Nat := 1

def begin (t : Tracer) (scope : Scope) (name : String) (parent : Nat) : Span × Tracer :=
  if t.isOn && t.level.admits scope then
    let id := t.spans + 1
    let e : Event :=
      { time := t.now, kind := .begins, scope := scope, span := id, parent := parent,
        thread := mainThread, name := name }
    ({ id := id, parent := parent, scope := scope, name := name },
      { t with spans := id }.emit e)
  else ({ id := 0 }, t)

def finish (t : Tracer) (s : Span) (detail : String) : Tracer :=
  if s.id = 0 then t
  else t.emit
    { time := t.now, kind := .ends, scope := s.scope, span := s.id, parent := s.parent,
      thread := mainThread, name := s.name, detail := detail, extra := s.extra }

def point (t : Tracer) (parent : Nat) (scope : Scope) (name detail : String) : Tracer :=
  if t.isOn && t.level.admits scope then
    t.emit
      { time := t.now, kind := .point, scope := scope, parent := parent, thread := mainThread,
        name := name, detail := detail }
  else t

def flush (t : Tracer) : Except Failure Unit × Tracer :=
  match t.stream with
  | some s => let (r, s) := s.flush; (r, { t with stream := some s })
  | none => (.ok (), t)

def close (t : Tracer) : Except Failure Unit × Tracer :=
  match t.stream with
  | some s => let (r, s) := s.close; (r, { t with stream := some s })
  | none => (.ok (), t)

end Tracer

def Span.attach (s : Span) (key value : String) : Span :=
  if s.id = 0 then s else { s with extra := putExtra key value s.extra }

def Span.current (s : Span) (outer : Nat) : Nat := if s.id = 0 then outer else s.id

end Qirc.Trace
