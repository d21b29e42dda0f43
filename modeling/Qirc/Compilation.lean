import Qirc.Pipeline.Basic

/-!
# Compilations

A compilation takes a graph, from a file if need be, and runs the pipeline over it. A check does the
same with validation and stops at the emitted module.
-/

namespace Qirc

open Pipeline IR

namespace Graph

def listing (g : Graph) (ids : List NodeId) : String :=
  commaList (ids.map fun id =>
    (if g.nameOf id = "" then "<unnamed>" else g.nameOf id) ++ s!" (node {id})")

/-- Whether a graph has exactly one entry. The error lists what was found instead. -/
def checkEntry (g : Graph) : Except Failure Unit :=
  match g.entry with
  | .ok _ => .ok ()
  | .error (.error (.entryAmbiguous n)) => do
    let ids ← g.funcsByName entryName
    .error (.error (.detailed (.entryAmbiguous n) (g.listing ids)))
  | .error (.error .entryMissing) => do
    match ← g.functions with
    | [] => .error (.error (.detailed .entryMissing "the module defines no functions"))
    | ids =>
      .error (.error (.detailed .entryMissing ("defined functions are " ++ g.listing ids)))
  | .error f => .error f

end Graph

structure CompileRequest where
  /-- Where the graph is read from when there is none yet. -/
  path : String := ""
  graph : Option Graph := none
  options : Options := {}
  /-- The name in messages on progress, the path if empty. -/
  file : String := ""

def CompileRequest.label (r : CompileRequest) : String := if r.file = "" then r.path else r.file

structure Compilation where
  /-- There only if every stage succeeded. -/
  module : Option Module := none
  entry : String := ""
  counters : Counters := ⟨0, 0⟩
  diagnostics : Option Bag := none
  timings : Timings := {}
  state : State := .raw
  target : Option Target := none
  deriving Inhabited

abbrev Attempt (α : Type) := Session → (α × Option Failure) × Session

def CompileRequest.load (r : CompileRequest) (s : Session) :
    Except Failure Graph × Timings × Session :=
  match r.graph with
  | some g => (.ok g, {}, s)
  | none =>
    if r.path = "" then (.error (.error (.absent "input path")), {}, s)
    else
      let s := s.tell { file := r.label, stage := .load, status := .working }
      let (span, tracer) := s.tracer.begin .stage Stage.load.name 0
      let span := span.attach "path" r.path
      let timings := Timings.set {} .load 0
      match Graph.load s.files r.path with
      | .ok g =>
        let s := { s with tracer := tracer.finish span "ok" }
        (.ok g, timings, s.tell { file := r.label, stage := .load, status := .done })
      | .error (.error e) =>
        let s := { s with tracer := tracer.finish span e.message }
        let e := Error.within Stage.load.name e
        (.error (.error e), timings,
          s.tell { file := r.label, stage := .load, status := .error, error := some e })
      | .error f => (.error f, {}, { s with tracer := tracer })

def Compilation.ofPipeline (p : Pipeline) (timings : Timings) : Compilation :=
  { entry := p.entryName, counters := p.counters, diagnostics := some p.diagnostics,
    timings := timings.merge p.timings, state := p.state, target := some p.target }

def compileUntil (stop : State) (r : CompileRequest) : Attempt Compilation := fun s =>
  match r.load s with
  | (.error f, timings, s) => (({ timings := timings }, some f), s)
  | (.ok g, timings, s) =>
    match g.checkEntry with
    | .error (.error e) =>
      (({ timings := timings, state := .failed }, some (.error e)),
        s.tell { file := r.label, stage := .rebase, status := .error, error := some e })
    | .error f => (({ timings := timings }, some f), s)
    | .ok _ =>
      match Pipeline.new (some g) r.options with
      | .error f => (({ timings := timings }, some f), s)
      | .ok p =>
        match runUntil stop { p with file := r.label, session := s } with
        | .error f p => ((.ofPipeline p timings, some f), p.session)
        | .ok _ p =>
          (({ Compilation.ofPipeline p timings with module := p.finished }, none), p.session)

def compile (r : CompileRequest) : Attempt Compilation := compileUntil .optimized r

def checkOnly (r : CompileRequest) : Attempt Compilation :=
  compileUntil .emitted { r with options.validate := true }

end Qirc
