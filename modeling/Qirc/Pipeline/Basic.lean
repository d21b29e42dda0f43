import Qirc.Addressing
import Qirc.Emission
import Qirc.EntryPoint
import Qirc.Graph.Codec
import Qirc.Graph.GateSet
import Qirc.Graph.Inlining
import Qirc.IR.Optimizer
import Qirc.Session
import Qirc.Target

/-!
# The pipeline

A pipeline owns a graph and the module that is made from it. Each of its seven steps leads from one
state to the next one. A step that is asked for in another state changes nothing; a step that
cannot be completed leads to `failed`, which no step leaves.
-/

namespace Qirc

open Pipeline IR

structure Options where
  /-- From 1 on single passes are traced, from 2 on also the module after each stage. -/
  debug : Int := 0
  /-- Where the pruned graph is saved; empty for nowhere. -/
  saveGraph : String := ""
  validate : Bool := false
  plainEntry : Bool := false
  target : String := ""
  deriving DecidableEq, Repr, Inhabited

def Options.traceLevel (o : Options) : Trace.Level :=
  if o.debug ≤ 0 then .off else if o.debug = 1 then .detail else .debug

structure Pipeline where
  options : Options
  target : Target
  graph : Graph
  /-- The name that messages on progress carry. -/
  file : String := ""
  /-- The calls to inline, all of them if there is no selection. -/
  selection : Option (List NodeId) := none
  session : Session := {}
  state : State := .raw
  module : Module := default
  entry : Option FuncId := none
  counters : Counters := ⟨0, 0⟩
  timings : Timings := {}
  diagnostics : Bag := Bag.empty 100
  /-- The span of the stage that runs. -/
  span : Trace.Span := { id := 0 }

namespace Pipeline

def new (g : Option Graph) (options : Options) : Except Failure Pipeline :=
  match g with
  | none => .error (.error (.absent "program graph"))
  | some g => do .ok { options := options, target := ← Target.ofName options.target, graph := g }

def finished (p : Pipeline) : Option Module :=
  if p.state = .optimized then some p.module else none

def entryName (p : Pipeline) : String :=
  match p.entry with
  | some f => (p.module.func f).name
  | none => ""

/-! ## What stages do besides their work -/

def tell (p : Pipeline) (stage : Stage) (status : Status) (error : Option Error) : Pipeline :=
  { p with session := p.session.tell ⟨p.file, stage, status, error, 0⟩ }

def attach (key value : String) : Step Pipeline Unit :=
  modify fun p => { p with span := p.span.attach key value }

def point (scope : Trace.Scope) (name detail : String) : Step Pipeline Unit :=
  modify fun p =>
    { p with session.tracer := p.session.tracer.point p.span.id scope name detail }

def onGraph {α : Type} (step : Step Graph α) : Step Pipeline α :=
  Step.zoom (fun p => p.graph) (fun g p => { p with graph := g }) step

def maxDiagnostics : Nat := 100

def validate (after : String) : Step Pipeline Unit := do
  let p ← get
  if p.options.validate then
    let findings ← Step.ofExcept p.graph.validate
    let bag := ((Bag.empty maxDiagnostics).addAll findings).sort
    set { p with diagnostics := p.diagnostics.addAll bag.items }
    if bag.hasErrors then
      throw ((Failure.graph (.invalid bag.errorLines)).within ("after " ++ after))

def dump (stage : Stage) : Step Pipeline Unit := do
  let p ← get
  if 2 ≤ p.options.debug then
    let text ← Step.ofExcept p.module.text
    point .func ("module after " ++ stage.name) text

/-! ## Steps -/

def openStage (stage : Stage) (p : Pipeline) : Pipeline :=
  let p := p.tell stage .working none
  let (span, tracer) := p.session.tracer.begin .stage stage.name 0
  { p with span := span, session.tracer := tracer }

def closeStage (stage : Stage) (detail : String) (p : Pipeline) : Pipeline :=
  { p with
    session.tracer := p.session.tracer.finish p.span detail
    span := { id := 0 }
    timings := p.timings.set stage 0 }

def advance (source target : State) (stage : Stage) (work : Step Pipeline Unit) :
    Step Pipeline Unit := fun p =>
  if p.state ≠ source then .error (.error (.transition p.state target)) p
  else if p.session.canceled then
    .error (.error .canceled) ({ p with state := .failed }.tell stage .error (some .canceled))
  else
    match work (p.openStage stage) with
    | .ok _ p => .ok () ({ p.closeStage stage "ok" with state := target }.tell stage .done none)
    | .error (.error e) p =>
      let e' := Error.within stage.name e
      .error (.error e')
        ({ p.closeStage stage e.message with state := .failed }.tell stage .error (some e'))
    | .error f p => .error f p

def rebase : Step Pipeline Unit :=
  advance .raw .rebased .rebase do
    validate "input"
    let p ← get
    match p.graph.rebase p.options.validate with
    | ((_, some f), g) => do
      set { p with graph := g }
      throw f
    | ((expanded, none), g) => do
      set { p with graph := g }
      attach "rewritten" (toString expanded.length)

def inline : Step Pipeline Unit :=
  advance .rebased .inlined .inline do
    let p ← get
    let calls := p.selection.getD p.graph.calls
    attach "calls" (toString calls.length)
    onGraph (Graph.inlineCalls calls)
    validate Stage.inline.name

/-- Remove what the entry does not reach, and save the graph if that is asked for. -/
def prune : Step Pipeline Unit :=
  advance .inlined .pruned .prune do
    let pruned ← onGraph Graph.prune
    attach "kept" (toString pruned.kept)
    attach "removed" (toString pruned.removed.length)
    pruned.removed.forM (point .pass "removed")
    validate Stage.prune.name
    let p ← get
    if p.options.saveGraph ≠ "" then
      Step.inContext "save graph"
        (Step.zoom (fun p => p.session.files) (fun fs p => { p with session.files := fs })
          (p.graph.save p.options.saveGraph))

def moduleName (file : String) : String :=
  if file = "" ∨ file = "-" then "hugr" else Path.stem file

def emit : Step Pipeline Unit :=
  advance .pruned .emitted .emit do
    let p ← get
    let fresh : Module :=
      { (default : Module) with
        name := moduleName p.file, triple := p.target.triple, layout := p.target.layout }
    let emitted ← Step.ofExcept (p.graph.emit p.options.plainEntry fresh)
    match emitted.entry with
    | none => throw (.error .entryMissing)
    | some entry => do
      set { p with module := emitted.module, entry := some entry }
      attach "funcs" (toString emitted.functions)
      attach "ops" (toString emitted.operations)
      attach "target" p.target.name
      attach "triple" p.target.triple
      p.target.codegen.forM (fun (key, value) => attach key value)
      dump .emit

def assign : Step Pipeline Unit :=
  advance .emitted .addressesAssigned .assign do
    let p ← get
    match p.module.definitions with
    | [f] => do
      let (width, doubt) := p.module.pointerWidth
      match doubt with
      | some e => point .stage "pointer-width" e.message
      | none => pure ()
      let (counters, m) ← Step.ofExcept (assignAddresses p.module f width)
      modify fun p => { p with module := m, counters := counters }
      attach "qubits" (toString counters.qubits)
      attach "results" (toString counters.results)
      dump .assign
    | fs => throw (.error (.bodies (fs.map (fun f => (p.module.func f).name))))

def stamp : Step Pipeline Unit :=
  advance .addressesAssigned .metadataStamped .stamp do
    let p ← get
    let m ← Step.ofExcept
      (stampEntry p.module p.entryName p.counters.qubits p.counters.results)
    set { p with module := m }

def changeCounts (changes : List Pass) : List (String × Nat) :=
  (Pass.all.map (fun x => (x.name, changes.count x))).filter (fun e => e.2 != 0)

def optimizedBy (p : Pipeline) (o : Optimization) : Pipeline :=
  { p with
    module := o.module
    span := (changeCounts o.changes).foldl (fun s e => s.attach e.1 (toString e.2)) p.span }

def optimize : Step Pipeline Unit :=
  advance .metadataStamped .optimized .optimize fun p =>
    match Optimization.run Pass.sequence { module := p.module } with
    | .error f o => .error f (p.optimizedBy o)
    | .ok _ o => dump .optimize (p.optimizedBy o)

/-- The step of a stage; reading the graph and writing the artifact are none. -/
def stepOf? : Stage → Option (Step Pipeline Unit)
  | .rebase => some rebase
  | .inline => some inline
  | .prune => some prune
  | .emit => some emit
  | .assign => some assign
  | .stamp => some stamp
  | .optimize => some optimize
  | _ => none

def stepFrom? : State → Option (Step Pipeline Unit)
  | .raw => some rebase
  | .rebased => some inline
  | .inlined => some prune
  | .pruned => some emit
  | .emitted => some assign
  | .addressesAssigned => some stamp
  | .metadataStamped => some optimize
  | _ => none

def stepsUntil (stop : State) : Nat → Step Pipeline Unit
  | 0 => pure ()
  | n + 1 => do
    let p ← get
    if p.state.code < stop.code then
      match stepFrom? p.state with
      | some step => do
        step
        stepsUntil stop n
      | none => pure ()

def runUntil (stop : State) : Step Pipeline Unit := do
  if State.failed.code ≤ stop.code then
    throw (.error (.transition (← get).state stop))
  stepsUntil stop State.failed.code
  let p ← get
  if p.state ≠ stop then throw (.error (.transition p.state stop))

def run : Step Pipeline Unit := runUntil .optimized

end Pipeline

end Qirc
