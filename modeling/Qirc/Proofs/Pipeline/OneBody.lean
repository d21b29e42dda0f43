import Qirc.Proofs.Emission.Functions
import Qirc.Proofs.Graph.Pruning
import Qirc.Proofs.IR.Printing
import Qirc.Proofs.Pipeline.Stages

/-!
# One body

A run that inlines every call leaves the entry as the only function, so that the module it emits has
one definition and the stage that gives addresses finds the body it looks for.
-/

namespace Qirc

open Step Graph

namespace Addressing

open IR

theorem handleCalls_aborts (m : Module) (ids : List InstrId) : OnlyAborts (handleCalls m ids) := by
  refine .bind (.mapM (fun i => .bind ?_ fun _ => .ok _) _) fun _ => .ok _
  unfold calleeName?
  dsimp only
  split
  · split
    · exact .ok _
    · exact .abort _
  · exact .ok _

theorem assignAddresses_error {m : Module} {f : FuncId} {width : Int} {e : Error}
    (h : assignAddresses m f width = .error (.error e)) :
    e = .noBody ∨ e = .pointerWidth width := by
  unfold assignAddresses at h
  split at h
  · cases h
    exact .inl rfl
  split at h
  · cases h
    exact .inr rfl
  · exact absurd h (OnlyAborts.bind (handleCalls_aborts m _) (fun _ => .ok _) e)

end Addressing

namespace Pipeline

open IR

variable {p q : Pipeline} {u : Unit} {main : NodeId}

theorem dump_error {stage : Stage} {e : Error} : dump stage p ≠ .error (.error e) q := by
  intro h
  unfold dump at h
  rw [get_bind] at h
  split at h
  · obtain htext | ⟨_, _, -, hpoint⟩ := bind_error.1 h
    · exact Module.text_aborts _ _ (ofExcept_error htext)
    · cases hpoint
  · cases h

theorem assign_error {f : FuncId} (hone : p.module.definitions = [f]) {e : Error}
    (h : assign p = .error (.error e) q) : .multipleBodies ∉ e.kinds := by
  rw [assign_eq hone] at h
  obtain ⟨s, t, rfl⟩ | rfl | ⟨e', p', hwork, rfl⟩ := advance_error h
  · simp [Error.kinds]
  · simp [Error.kinds]
  obtain hdoubt | ⟨_, p₁, -, hwork⟩ := bind_error.1 hwork
  · obtain ⟨_, hdone, -⟩ := doubtWidth_ok p.module (p.openStage .assign)
    cases hdone.symm.trans hdoubt
  obtain hassign | ⟨x, p₂, -, hwork⟩ := bind_error.1 hwork
  · obtain rfl | rfl := Addressing.assignAddresses_error (ofExcept_error hassign)
    · simp [Error.kinds]
    · simp [Error.kinds]
  · obtain hset | ⟨_, p₃, -, hwork⟩ := bind_error.1 hwork
    · cases hset
    obtain hqubits | ⟨_, p₄, -, hwork⟩ := bind_error.1 hwork
    · cases hqubits
    obtain hresults | ⟨_, p₅, -, hwork⟩ := bind_error.1 hwork
    · cases hresults
    · exact absurd hwork dump_error

/-! ## Along a run -/

/-- The graph has one entry, and all its calls are to be inlined. -/
structure Entered (main : NodeId) (p : Pipeline) : Prop where
  arena : p.graph.Arena
  entry : p.graph.funcsByName Graph.entryName = .ok [main]
  all : p.selection = none

theorem Entered.rebase (hp : Entered main p) (h : rebase p = .ok u q) : Entered main q := by
  obtain ⟨-, -, done, g, hrun, hsame⟩ := rebase_ok h
  obtain ⟨ha, hl, hs⟩ := hp.arena.rebase p.options.validate
  rw [hrun] at ha hl hs
  refine ⟨?_, ?_, hsame.selection.trans hp.all⟩
  · rw [hsame.graph]
    exact ha
  · rw [hsame.graph]
    exact funcsByName_of_same hp.arena ha hl hs hp.entry

theorem Entered.inline (hp : Entered main p) (h : inline p = .ok u q) :
    Entered main q ∧ ∀ x, q.graph.kind? x ≠ some .call := by
  obtain ⟨-, -, g, hrun, hsame⟩ := inline_ok h
  rw [hp.all] at hrun
  obtain ⟨ha, hl, hs, hcalls⟩ := no_call_of_inlineCalls hp.arena hrun
  rw [hsame.graph]
  refine ⟨⟨?_, ?_, hsame.selection.trans hp.all⟩, hcalls⟩
  · rw [hsame.graph]
    exact ha
  · rw [hsame.graph]
    exact funcsByName_of_same hp.arena ha hl hs hp.entry

structure Alone (main : NodeId) (p : Pipeline) : Prop where
  arena : p.graph.Arena
  functions : p.graph.functions = .ok [main]
  name : p.graph.nameOf main = Graph.entryName

theorem Entered.prune (hp : Entered main p) (hcalls : ∀ x, p.graph.kind? x ≠ some .call)
    (h : prune p = .ok u q) : Alone main q := by
  obtain ⟨-, -, pruned, g, hrun, hsame⟩ := prune_ok h
  obtain ⟨removed, g', hrun', ha, hl, hfuncs⟩ :=
    Graph.prune_ok_of_no_calls hp.arena hcalls hp.entry
  cases hrun.symm.trans hrun'
  obtain ⟨hkind, hname⟩ := ((Graph.funcsByName_iff hp.arena).1 hp.entry main).2 rfl
  obtain ⟨n, hn, -⟩ := Graph.node_of_kind? hkind
  have hmain : g.kind? main = some .funcDefn := by
    obtain ⟨fs, hfs, -, hmem⟩ := ha.functions
    cases hfs.symm.trans hfuncs
    exact (hmem main).1 List.mem_cons_self
  obtain ⟨n', hn', -⟩ := Graph.node_of_kind? hmain
  refine ⟨?_, ?_, ?_⟩
  · rw [hsame.graph]
    exact ha
  · rw [hsame.graph]
    exact hfuncs
  · rw [hsame.graph]
    exact (hl.nameOf (Graph.node?_lt hn) (Graph.contains_iff.2 ⟨n', hn'⟩)).trans hname

theorem Alone.emit (hp : Alone main p) (h : emit p = .ok u q) :
    ∃ f, q.module.definitions = [f] ∧ q.entry = some f ∧
      (q.module.func f).name =
        Emission.symbolName p.options.plainEntry main Graph.entryName := by
  obtain ⟨-, -, e, entry, hemit, hentry, hsame⟩ := emit_ok h
  obtain ⟨f, hdefs, hf, hname⟩ := Emission.emit_single hp.arena hp.functions hp.name hemit
  obtain rfl : entry = f := Option.some.inj (hentry.symm.trans hf)
  rw [hp.name] at hname
  refine ⟨entry, ?_, hsame.entry, ?_⟩
  · rw [hsame.module]
    exact hdefs
  · rw [hsame.module]
    exact hname

inductive Leads : Pipeline → Pipeline → Prop
  | refl (p : Pipeline) : Leads p p
  | step {p q r : Pipeline} {step : Step Pipeline Unit} (hstep : stepFrom? p.state = some step)
      (hok : step p = .ok () q) (hrest : Leads q r) : Leads p r

theorem stepsUntil_error {stop : State} {n : Nat} {e : Failure}
    (h : stepsUntil stop n p = .error e q) :
    ∃ r step, Leads p r ∧ stepFrom? r.state = some step ∧ step r = .error e q := by
  induction n generalizing p with
  | zero => cases h
  | succ n ih =>
    unfold stepsUntil at h
    rw [get_bind] at h
    split at h
    · cases hstep : stepFrom? p.state with
      | none =>
        rw [hstep] at h
        cases h
      | some step =>
        rw [hstep] at h
        obtain hfail | ⟨_, p', hok, h⟩ := bind_error.1 h
        · exact ⟨p, step, .refl p, hstep, hfail⟩
        obtain ⟨r, step', hleads, hfrom, hfail⟩ := ih h
        exact ⟨r, step', .step hstep hok hleads, hfrom, hfail⟩
    · cases h

/-- What holds before each stage of a run that inlines every call. -/
def OnWay (main : NodeId) (p : Pipeline) : Prop :=
  match p.state with
  | .raw | .rebased => Entered main p
  | .inlined => Entered main p ∧ ∀ x, p.graph.kind? x ≠ some .call
  | .pruned => Alone main p
  | .emitted => ∃ f, p.module.definitions = [f]
  | _ => True

theorem OnWay.step {step : Step Pipeline Unit} (hp : OnWay main p)
    (hstep : stepFrom? p.state = some step) (hok : step p = .ok u q) : OnWay main q := by
  unfold OnWay at hp ⊢
  cases hs : p.state with
  | raw =>
    rw [hs] at hp hstep
    cases hstep
    rw [(rebase_ok hok).2.1]
    exact hp.rebase hok
  | rebased =>
    rw [hs] at hp hstep
    cases hstep
    rw [(inline_ok hok).2.1]
    exact hp.inline hok
  | inlined =>
    rw [hs] at hp hstep
    cases hstep
    rw [(prune_ok hok).2.1]
    exact hp.1.prune hp.2 hok
  | pruned =>
    rw [hs] at hp hstep
    cases hstep
    rw [(emit_ok hok).2.1]
    obtain ⟨f, hdefs, -⟩ := hp.emit hok
    exact ⟨f, hdefs⟩
  | emitted =>
    rw [hs] at hstep
    cases hstep
    rw [(advance_ok hok).2.1]
    trivial
  | addressesAssigned =>
    rw [hs] at hstep
    cases hstep
    rw [(advance_ok hok).2.1]
    trivial
  | metadataStamped =>
    rw [hs] at hstep
    cases hstep
    rw [(advance_ok hok).2.1]
    trivial
  | optimized => cases hs ▸ hstep
  | failed => cases hs ▸ hstep
  | unknown code => cases hs ▸ hstep

theorem OnWay.leads (hp : OnWay main p) (h : Leads p q) : OnWay main q := by
  induction h with
  | refl => exact hp
  | step hstep hok _ ih => exact ih (hp.step hstep hok)

theorem stepFrom?_error {step : Step Pipeline Unit} (hstep : stepFrom? p.state = some step)
    {e : Error} (h : step p = .error (.error (.within Stage.assign.name e)) q) :
    p.state = .emitted ∧ step = assign := by
  have hother : ∀ {source target : State} {stage : Stage} {work : Step Pipeline Unit},
      stage.name ≠ Stage.assign.name →
      advance source target stage work p ≠ .error (.error (.within Stage.assign.name e)) q := by
    intro source target stage work hne h
    obtain ⟨_, _, he⟩ | he | ⟨_, _, -, he⟩ := advance_error h
    · cases he
    · cases he
    · exact hne (Error.within.inj he).1.symm
  cases hs : p.state with
  | emitted =>
    rw [hs] at hstep
    exact ⟨rfl, (Option.some.inj hstep).symm⟩
  | raw | rebased | inlined | pruned | addressesAssigned | metadataStamped =>
    rw [hs] at hstep
    cases hstep
    exact absurd h (hother (by decide))
  | optimized | failed | unknown _ => cases hs ▸ hstep

theorem run_error {e : Failure} (h : run p = .error e q) :
    stepsUntil .optimized State.failed.code p = .error e q ∨
      ∃ s, e = .error (.transition s .optimized) := by
  obtain hsteps | ⟨_, r, -, hend⟩ := bind_error.1 h
  · exact .inl hsteps
  rw [get_bind] at hend
  split at hend
  · cases hend
    exact .inr ⟨_, rfl⟩
  · cases hend

/-- A run from the start that inlines every call of a graph with one entry. Once the calls are
inlined none is left, pruning succeeds and keeps the entry alone, the module emitted has one
definition, which is the entry's, and the run never fails for want of a single body. -/
theorem run_leaves_one_body (ha : p.graph.Arena)
    (hmain : p.graph.funcsByName Graph.entryName = .ok [main]) (hall : p.selection = none)
    (hraw : p.state = .raw) :
    (∀ e q, run p = .error (.error (.within Stage.assign.name e)) q → .multipleBodies ∉ e.kinds) ∧
    ∀ p₁ p₂, rebase p = .ok () p₁ → inline p₁ = .ok () p₂ →
      (∀ x, p₂.graph.kind? x ≠ some .call) ∧
      (∃ removed g, Graph.prune p₂.graph = .ok ⟨1, removed⟩ g ∧ g.functions = .ok [main]) ∧
      ∀ p₃ p₄, prune p₂ = .ok () p₃ → emit p₃ = .ok () p₄ →
        p₃.graph.functions = .ok [main] ∧
        ∃ f, p₄.module.definitions = [f] ∧ p₄.entry = some f ∧
          (p₄.module.func f).name =
            Emission.symbolName p.options.plainEntry main Graph.entryName := by
  have hp : Entered main p := ⟨ha, hmain, hall⟩
  constructor
  · intro e q h
    obtain hsteps | ⟨_, he⟩ := run_error h
    · obtain ⟨r, step, hleads, hstep, hfail⟩ := stepsUntil_error hsteps
      have hway : OnWay main p := by
        unfold OnWay
        rw [hraw]
        exact hp
      obtain ⟨hr, rfl⟩ := stepFrom?_error hstep hfail
      have hone := hway.leads hleads
      unfold OnWay at hone
      rw [hr] at hone
      obtain ⟨f, hdefs⟩ := hone
      simpa [Error.kinds] using assign_error hdefs hfail
    · cases he
  · intro p₁ p₂ h₁ h₂
    obtain ⟨hp₂, hcalls⟩ := (hp.rebase h₁).inline h₂
    obtain ⟨removed, g, hprune, -, -, hfuncs⟩ :=
      Graph.prune_ok_of_no_calls hp₂.arena hcalls hp₂.entry
    refine ⟨hcalls, ⟨removed, g, hprune, hfuncs⟩, fun p₃ p₄ h₃ h₄ => ?_⟩
    have hp₃ := hp₂.prune hcalls h₃
    obtain ⟨-, -, _, _, -, hs₁⟩ := rebase_ok h₁
    obtain ⟨-, -, _, -, hs₂⟩ := inline_ok h₂
    obtain ⟨-, -, _, _, -, hs₃⟩ := prune_ok h₃
    have hoptions : p₃.options = p.options :=
      hs₃.options.trans (hs₂.options.trans hs₁.options)
    rw [← hoptions]
    exact ⟨hp₃.functions, hp₃.emit h₄⟩

/-- An entry that calls for a qubit, measures it and records what it found. -/
def measuredCall : Graph :=
  let none : Signature := ⟨[], []⟩
  let op (sig : Signature) (parent : NodeId) (dialect name tag : String) : Node :=
    Node.fresh { NodeBody.ofKind .op sig with op := ⟨⟨dialect, name⟩, tag, ""⟩ } (some parent)
  { nodes := #[
      { Node.fresh (NodeBody.ofKind .module none) .none with children := [1, 7] },
      { Node.fresh { NodeBody.ofKind .funcDefn none with name := "main" } (some 0) with
        children := [2, 3, 4, 5, 6] },
      plainNode .input none 1 [],
      plainNode .output none 1 [],
      Node.fresh { NodeBody.ofKind .call ⟨[], [.qubit]⟩ with callee := some 7 } (some 1),
      op ⟨[.qubit], [.bool]⟩ 1 "tket2.quantum" "MeasureFree" "",
      op ⟨[.bool], []⟩ 1 "tket2.result" "result_bool" "bit",
      { Node.fresh { NodeBody.ofKind .funcDefn ⟨[], [.qubit]⟩ with name := "fresh" } (some 0) with
        children := [8, 9, 10] },
      plainNode .input none 7 [],
      plainNode .output ⟨[.qubit], []⟩ 7 [],
      op ⟨[], [.qubit]⟩ 7 "tket2.quantum" "QAlloc" ""]
    edges := [⟨⟨4, 0⟩, ⟨5, 0⟩⟩, ⟨⟨5, 0⟩, ⟨6, 0⟩⟩, ⟨⟨10, 0⟩, ⟨9, 0⟩⟩] }

theorem run_leaves_one_body_measuredCall :
    let p : Pipeline := { options := {}, target := Target.hardware, graph := measuredCall }
    ∃ p₁ p₂ p₃ p₄ f, rebase p = .ok () p₁ ∧ inline p₁ = .ok () p₂ ∧ prune p₂ = .ok () p₃ ∧
      emit p₃ = .ok () p₄ ∧ (∀ x, p₂.graph.kind? x ≠ some .call) ∧
      p₃.graph.functions = .ok [1] ∧ p₄.module.definitions = [f] ∧
      (p₄.module.func f).name = Emission.symbolName false 1 "main" := by
  intro p
  have hruns : (match (do rebase; inline; prune; emit : Step Pipeline Unit) p with
      | .ok _ _ => true
      | .error _ _ => false) = true := by decide +kernel
  split at hruns
  · rename_i p₄ h
    obtain ⟨_, p₁, h₁, h⟩ := bind_ok.1 h
    obtain ⟨_, p₂, h₂, h⟩ := bind_ok.1 h
    obtain ⟨_, p₃, h₃, h₄⟩ := bind_ok.1 h
    have hmain : p.graph.funcsByName Graph.entryName = .ok [1] := rfl
    obtain ⟨-, hall⟩ :=
      run_leaves_one_body (arena_of_isArena (by decide +kernel)) hmain rfl rfl
    obtain ⟨hcalls, -, hrest⟩ := hall p₁ p₂ h₁ h₂
    obtain ⟨hfuncs, f, hdefs, -, hname⟩ := hrest p₃ p₄ h₃ h₄
    exact ⟨p₁, p₂, p₃, p₄, f, h₁, h₂, h₃, h₄, hcalls, hfuncs, hdefs, hname⟩
  · cases hruns

end Pipeline

end Qirc
