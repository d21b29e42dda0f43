import Qirc.Compilation
import Qirc.Proofs.Graph.Relisting
import Qirc.Proofs.Graph.RoundTrip
import Qirc.Proofs.Pipeline.OneBody

/-!
# What a compilation does not depend on

Documents that number their nodes otherwise, or list their edges in another order, are read as
graphs that differ in the order of their edges only. No stage makes anything of that order, so the
compilations of such graphs agree.
-/

namespace Qirc

open Pipeline Document Step

namespace Graph.Rearranged

variable {g h : Graph} (hr : Rearranged g h)

include hr

theorem region (depth : Nat) : Emission.region h depth = Emission.region g depth := by
  have hinputs : Emission.inputs h = Emission.inputs g := by
    have hinput : Emission.input h = Emission.input g := by
      funext id k
      simp [Emission.input, hr.source?]
    funext id
    simp [Emission.inputs, hr.node?, hinput]
  have hnode : Emission.node h = Emission.node g := by
    funext region id
    simp [Emission.node, Emission.call, Emission.conditional, hr.node?, hinputs]
  induction depth with
  | zero => rfl
  | succ depth ih =>
    funext id args
    simp [Emission.region, Emission.regionWith, ih, hr.boundary, hr.order, hnode, hinputs]

theorem emit (plainEntry : Bool) (m : IR.Module) : h.emit plainEntry m = g.emit plainEntry m := by
  have hsig : Emission.signatureOf h = Emission.signatureOf g := hr.of_nodes fun _ _ _ => rfl
  have hcontext : Emission.functionContext h = Emission.functionContext g :=
    hr.of_nodes fun _ _ _ => rfl
  have hdefine : Emission.define h = Emission.define g := hr.of_nodes fun _ _ _ => rfl
  have hbody : Emission.body h = Emission.body g := by
    funext id
    simp [Emission.body, hsig, hr.nodes, hr.region]
  simp [Graph.emit, hr.functions, hdefine, hbody, hcontext, hr.nameOf]

theorem save : h.save = g.save := by
  have hencode (format : GraphFormat) : h.encode format = g.encode format := by
    simp [encode, jsonText, hr.ofGraph]
  funext path
  simp [Graph.save, hencode]

end Graph.Rearranged

namespace Pipeline

open Graph (Rearranged)

/-- Pipelines that differ in the order of the edges of their graphs. -/
def Kin (p q : Pipeline) : Prop := ∃ h, Rearranged p.graph h ∧ q = { p with graph := h }

variable {p q : Pipeline}

section

variable (hk : Kin p q)

include hk

theorem agree_modify {f : Pipeline → Pipeline}
    (hf : ∀ p h, Rearranged p.graph h → Kin (f p) (f { p with graph := h })) :
    Agree Kin ((modify f : Step Pipeline Unit) p) ((modify f : Step Pipeline Unit) q) := by
  obtain ⟨h, hr, rfl⟩ := hk
  exact .ok _ (hf p h hr)

theorem agree_attach (key value : String) : Agree Kin (attach key value p) (attach key value q) :=
  agree_modify hk fun _ h hr => ⟨h, hr, rfl⟩

theorem agree_point (scope : Trace.Scope) (name detail : String) :
    Agree Kin (point scope name detail p) (point scope name detail q) :=
  agree_modify hk fun _ h hr => ⟨h, hr, rfl⟩

theorem agree_onGraph {α : Type} {x : Step Graph α}
    (hx : ∀ g h, Rearranged g h → Agree Rearranged (x g) (x h)) :
    Agree Kin (onGraph x p) (onGraph x q) := by
  obtain ⟨h, hr, rfl⟩ := hk
  exact .zoom (hx _ _ hr) fun _ v hv => ⟨v, hv, rfl⟩

theorem agree_validate (after : String) : Agree Kin (validate after p) (validate after q) := by
  obtain ⟨h, hr, rfl⟩ := hk
  simp only [validate, get_bind, hr.validate]
  split
  · refine .bind (.ofExcept _ ⟨h, hr, rfl⟩) fun findings _ _ _ _ => ?_
    refine .bind (.ok _ ⟨h, hr, rfl⟩) fun _ _ _ _ hk => ?_
    split
    · exact .throw _
    · exact .ok _ hk
  · exact .ok _ ⟨h, hr, rfl⟩

theorem agree_dump (stage : Stage) : Agree Kin (dump stage p) (dump stage q) := by
  obtain ⟨h, hr, rfl⟩ := hk
  simp only [dump, get_bind]
  split
  · exact .bind (.ofExcept _ ⟨h, hr, rfl⟩) fun _ _ _ _ hk => agree_point hk ..
  · exact .ok _ ⟨h, hr, rfl⟩

end

theorem agree_advance {source target : State} {stage : Stage} {work : Step Pipeline Unit}
    (hwork : ∀ p q, Kin p q → Agree Kin (work p) (work q)) (hk : Kin p q) :
    Agree Kin (advance source target stage work p) (advance source target stage work q) := by
  obtain ⟨h, hr, rfl⟩ := hk
  unfold advance
  split
  · exact .error rfl
  split
  · exact .error rfl
  have hopen := hwork (p.openStage stage) ({ p with graph := h }.openStage stage) ⟨h, hr, rfl⟩
  generalize work (p.openStage stage) = r at hopen
  generalize work ({ p with graph := h }.openStage stage) = r' at hopen
  cases hopen with
  | ok _ hk =>
    obtain ⟨h', hr', rfl⟩ := hk
    exact .ok _ ⟨h', hr', rfl⟩
  | @error e f _ _ hkind =>
    cases e with
    | error e =>
      cases f with
      | error f =>
        refine .error ?_
        rwa [← Failure.kind_within stage.name (.error e)] at hkind
      | abort cause => cases hkind
    | abort cause =>
      cases f with
      | error f => cases hkind
      | abort cause => exact .error rfl

theorem agree_rebase (hk : Kin p q) : Agree Kin (rebase p) (rebase q) := by
  refine agree_advance (fun p q hk => .bind (agree_validate hk _) fun _ p q _ hk => ?_) hk
  obtain ⟨h, hr, rfl⟩ := hk
  simp only [get_bind]
  have hrebase := hr.rebase p.options.validate
  generalize Graph.rebase _ p.graph = r at hrebase
  generalize Graph.rebase _ h = r' at hrebase
  cases hrebase with
  | @ok k k' done hk => exact agree_attach ⟨k', hk, rfl⟩ ..
  | error hf => exact .error hf

theorem agree_inline (hk : Kin p q) : Agree Kin (inline p) (inline q) := by
  refine agree_advance (fun p q hk => ?_) hk
  have hcalls : q.selection.getD q.graph.calls = p.selection.getD p.graph.calls := by
    obtain ⟨h, hr, rfl⟩ := hk
    simp [Graph.calls, Graph.kind?, hr.walk, hr.node?]
  simp only [get_bind, hcalls]
  exact .bind (agree_attach hk ..) fun _ _ _ _ hk =>
    .bind (agree_onGraph hk fun _ _ hr => hr.inlineCalls _) fun _ _ _ _ hk => agree_validate hk _

theorem agree_prune (hk : Kin p q) : Agree Kin (prune p) (prune q) := by
  refine agree_advance (fun p q hk => ?_) hk
  refine .bind (agree_onGraph hk fun _ _ hr => hr.prune) fun pruned _ _ _ hk =>
    .bind (agree_attach hk ..) fun _ _ _ _ hk => .bind (agree_attach hk ..) fun _ _ _ _ hk =>
    .bind (.forM (fun name _ _ hk => agree_point hk .pass "removed" name) hk) fun _ _ _ _ hk =>
    .bind (agree_validate hk _) fun _ p q _ hk => ?_
  obtain ⟨h, hr, rfl⟩ := hk
  simp only [get_bind, hr.save]
  split
  · refine .inContext _ (.zoom (S := Eq) ?_ fun fs _ hfs => ⟨h, hr, by rw [hfs]⟩)
    cases p.graph.save p.options.saveGraph p.session.files with
    | ok _ fs => exact .ok _ rfl
    | error f fs => exact .error rfl
  · exact .ok _ ⟨h, hr, rfl⟩

theorem agree_emit (hk : Kin p q) : Agree Kin (emit p) (emit q) := by
  refine agree_advance (fun p q hk => ?_) hk
  obtain ⟨h, hr, rfl⟩ := hk
  simp only [get_bind, hr.emit]
  refine .bind (.ofExcept _ ⟨h, hr, rfl⟩) fun emitted _ _ _ _ => ?_
  cases emitted.entry with
  | none => exact .throw _
  | some entry =>
    refine .bind (.ok _ ⟨h, hr, rfl⟩) fun _ _ _ _ hk => .bind (agree_attach hk ..) fun _ _ _ _ hk =>
      .bind (agree_attach hk ..) fun _ _ _ _ hk => .bind (agree_attach hk ..) fun _ _ _ _ hk =>
      .bind (agree_attach hk ..) fun _ _ _ _ hk =>
      .bind (.forM (fun e _ _ hk => agree_attach hk e.1 e.2) hk) fun _ _ _ _ hk => agree_dump hk _

/-! The steps after the emission do not see the graph. -/

theorem agree_assignIn (hk : Kin p q) (m : IR.Module) (f : IR.FuncId) (width : Int) :
    Agree Kin (assignIn m f width p) (assignIn m f width q) :=
  .bind (.ofExcept _ hk) fun _ _ _ _ hk =>
    .bind (agree_modify hk fun _ h hr => ⟨h, hr, rfl⟩) fun _ _ _ _ hk =>
    .bind (agree_attach hk ..) fun _ _ _ _ hk =>
    .bind (agree_attach hk ..) fun _ _ _ _ hk => agree_dump hk _

theorem agree_assign (hk : Kin p q) : Agree Kin (assign p) (assign q) := by
  refine agree_advance (fun p q hk => ?_) hk
  have hmodule : q.module = p.module := by
    obtain ⟨h, hr, rfl⟩ := hk
    rfl
  simp only [get_bind, hmodule]
  cases p.module.definitions with
  | nil => exact .throw _
  | cons f rest =>
    cases rest with
    | cons _ _ => exact .throw _
    | nil =>
      cases p.module.pointerWidth.2 with
      | none => exact agree_assignIn hk ..
      | some e => exact .bind (agree_point hk ..) fun _ _ _ _ hk => agree_assignIn hk ..

theorem agree_stamp (hk : Kin p q) : Agree Kin (stamp p) (stamp q) := by
  refine agree_advance (fun p q hk => ?_) hk
  obtain ⟨h, hr, rfl⟩ := hk
  simp only [get_bind]
  exact .bind (.ofExcept _ ⟨h, hr, rfl⟩) fun _ _ _ _ _ => .ok () ⟨h, hr, rfl⟩

theorem agree_optimize (hk : Kin p q) : Agree Kin (optimize p) (optimize q) := by
  refine agree_advance (fun p q hk => ?_) hk
  obtain ⟨h, hr, rfl⟩ := hk
  cases IR.Optimization.run IR.Pass.sequence { module := p.module } with
  | error f o => exact .error rfl
  | ok _ o => exact agree_dump (p := p.optimizedBy o) ⟨h, hr, rfl⟩ _

theorem agree_step {state : State} {step : Step Pipeline Unit} (hs : stepFrom? state = some step)
    (hk : Kin p q) : Agree Kin (step p) (step q) := by
  cases state with
  | raw => cases hs; exact agree_rebase hk
  | rebased => cases hs; exact agree_inline hk
  | inlined => cases hs; exact agree_prune hk
  | pruned => cases hs; exact agree_emit hk
  | emitted => cases hs; exact agree_assign hk
  | addressesAssigned => cases hs; exact agree_stamp hk
  | metadataStamped => cases hs; exact agree_optimize hk
  | optimized => cases hs
  | failed => cases hs
  | unknown => cases hs

theorem Kin.state (hk : Kin p q) : q.state = p.state := by
  obtain ⟨h, hr, rfl⟩ := hk
  rfl

theorem agree_stepsUntil (stop : State) (n : Nat) (hk : Kin p q) :
    Agree Kin (stepsUntil stop n p) (stepsUntil stop n q) := by
  induction n generalizing p q with
  | zero => exact .ok () hk
  | succ n ih =>
    simp only [stepsUntil, get_bind, hk.state]
    split
    · cases hs : stepFrom? p.state with
      | none => exact .ok () hk
      | some step => exact .bind (agree_step hs hk) fun _ _ _ _ => ih
    · exact .ok () hk

theorem agree_runUntil (stop : State) (hk : Kin p q) :
    Agree Kin (runUntil stop p) (runUntil stop q) := by
  unfold runUntil
  split
  · exact .error rfl
  refine .bind (agree_stepsUntil stop _ hk) fun _ p q _ hk => ?_
  simp only [get_bind, hk.state]
  split
  · exact .throw _
  · exact .ok () hk

end Pipeline

/-- Two attempts come out alike: with the same result, or with failures of the same kind. -/
def Alike {α : Type} : (α × Option Failure) × Session → (α × Option Failure) × Session → Prop
  | ((a, none), s), ((b, none), t) => a = b ∧ s = t
  | ((_, some e), _), ((_, some f), _) => e.kind = f.kind
  | _, _ => False

/-- What a compilation makes of the end of its pipeline. -/
def Compilation.ofRun : EStateM.Result Failure Pipeline Unit → (Compilation × Option Failure) × Session
  | .error f p => ((.ofPipeline p {}, some f), p.session)
  | .ok _ p => (({ Compilation.ofPipeline p {} with module := p.finished }, none), p.session)

theorem alike_ofRun {x y : EStateM.Result Failure Pipeline Unit} (h : Agree Kin x y) :
    Alike (Compilation.ofRun x) (Compilation.ofRun y) := by
  cases h with
  | error hf => exact hf
  | ok _ hk =>
    obtain ⟨k, hk, rfl⟩ := hk
    exact ⟨rfl, rfl⟩

theorem compileUntil_alike {g h : Graph} (hr : g.Rearranged h) (stop : State) (r : CompileRequest)
    (s : Session) : Alike (compileUntil stop { r with graph := some g } s)
      (compileUntil stop { r with graph := some h } s) := by
  have hentry : h.checkEntry = g.checkEntry := hr.of_nodes fun _ _ _ => rfl
  simp only [compileUntil, CompileRequest.load, hentry]
  cases g.checkEntry with
  | error f => cases f <;> rfl
  | ok _ =>
    simp only [new]
    cases Target.ofName r.options.target with
    | error f => rfl
    | ok target => exact alike_ofRun (agree_runUntil stop ⟨h, hr, rfl⟩)

/-- A document tells the same program whatever ids its nodes have and in whatever order its edges
are listed: it is read under all of them or under none, and every compilation of what is read comes
out alike. -/
theorem compile_relisted {ρ : Nat → Nat} (hρ : Function.Injective ρ) (d : Document)
    {edges : List EdgeRecord} (hedges : edges.Perm (d.rename ρ).edges) :
    ((∃ g, d.toGraph = .ok g) ↔ ∃ g, { d.rename ρ with edges }.toGraph = .ok g) ∧
    ∀ g g', d.toGraph = .ok g → { d.rename ρ with edges }.toGraph = .ok g' →
      ∀ (r : CompileRequest) (s : Session),
        Alike (compile { r with graph := some g } s) (compile { r with graph := some g' } s) := by
  have hthere (g : Graph) (hg : d.toGraph = .ok g) :
      ∃ g', { d.rename ρ with edges }.toGraph = .ok g' ∧ g.Rearranged g' :=
    toGraph_perm hedges.symm ((toGraph_rename_ok hρ).2 hg)
  refine ⟨⟨fun ⟨g, hg⟩ => ?_, fun ⟨g', hg'⟩ => ?_⟩, fun g g' hg hg' r s => ?_⟩
  · obtain ⟨g', hg', -⟩ := hthere g hg
    exact ⟨g', hg'⟩
  · obtain ⟨g, hg, -⟩ := toGraph_perm hedges hg'
    exact ⟨g, (toGraph_rename_ok hρ).1 hg⟩
  · obtain ⟨k, hk, hr⟩ := hthere g hg
    cases hk.symm.trans hg'
    exact compileUntil_alike hr ..

/-- A call that is listed before the function it calls, with ids that are spread out and edges that
are listed backwards. -/
theorem compile_relisted_measuredCall :
    let d := { ofGraph measuredCall with edges := measuredCall.edges.map Edge.record }
    let edges := (d.rename (2 * · + 5)).edges.reverse
    ∃ g g', d.toGraph = .ok g ∧ { d.rename (2 * · + 5) with edges }.toGraph = .ok g' ∧
      ∀ (r : CompileRequest) (s : Session),
        Alike (compile { r with graph := some g } s) (compile { r with graph := some g' } s) := by
  intro d edges
  have hρ : Function.Injective fun n => 2 * n + 5 := fun _ _ h => by dsimp only at h; omega
  obtain ⟨hread, halike⟩ := compile_relisted hρ d (List.reverse_perm _)
  have hd : d.toGraph.toOption.isSome = true := by decide +kernel
  cases hg : d.toGraph with
  | error f =>
    rw [hg] at hd
    cases hd
  | ok g =>
    obtain ⟨g', hg'⟩ := hread.1 ⟨g, hg⟩
    exact ⟨g, g', rfl, hg', halike g g' hg hg'⟩

end Qirc
