import Qirc.Pipeline.Basic
import Qirc.Proofs.Step

/-!
# What the stages do

Each stage changes the part of a pipeline that it is for. What it tells and traces on the way, and
what it finds in a graph it checks, touches neither the graph nor the module.
-/

namespace Qirc.Pipeline

open IR Step

variable {p q r : Pipeline} {u : Unit}

structure SameWork (p q : Pipeline) : Prop where
  options : q.options = p.options
  selection : q.selection = p.selection
  graph : q.graph = p.graph
  module : q.module = p.module
  entry : q.entry = p.entry

namespace SameWork

theorem refl (p : Pipeline) : SameWork p p := ⟨rfl, rfl, rfl, rfl, rfl⟩

theorem trans (hpq : SameWork p q) (hqr : SameWork q r) : SameWork p r :=
  ⟨hqr.options.trans hpq.options, hqr.selection.trans hpq.selection, hqr.graph.trans hpq.graph,
    hqr.module.trans hpq.module, hqr.entry.trans hpq.entry⟩

theorem attach {key value : String} (h : attach key value p = .ok u q) : SameWork p q := by
  rw [modify_ok.1 h]
  constructor <;> rfl

theorem point {scope : Trace.Scope} {name detail : String}
    (h : point scope name detail p = .ok u q) : SameWork p q := by
  rw [modify_ok.1 h]
  constructor <;> rfl

theorem forM {α : Type} {f : α → Step Pipeline Unit}
    (hf : ∀ a p q u, f a p = .ok u q → SameWork p q) {l : List α} (h : l.forM f p = .ok u q) :
    SameWork p q := by
  induction l generalizing p with
  | nil =>
    rw [forM_nil_ok.1 h]
    exact refl _
  | cons a l ih =>
    obtain ⟨p', ha, h⟩ := forM_cons_ok.1 h
    exact (hf a p p' _ ha).trans (ih h)

theorem validate {after : String} (h : validate after p = .ok u q) : SameWork p q := by
  unfold Pipeline.validate at h
  rw [get_bind] at h
  split at h
  · obtain ⟨findings, p', hfound, h⟩ := bind_ok.1 h
    obtain ⟨_, p'', hset, h⟩ := bind_ok.1 h
    rw [set_ok.1 hset] at h
    split at h
    · exact (throw_ok.1 h).elim
    rw [← (pure_ok.1 h).2]
    constructor <;> rfl
  · rw [← (pure_ok.1 h).2]
    exact refl _

theorem dump {stage : Stage} (h : dump stage p = .ok u q) : SameWork p q := by
  unfold Pipeline.dump at h
  rw [get_bind] at h
  split at h
  · obtain ⟨text, p', htext, h⟩ := bind_ok.1 h
    rw [(ofExcept_ok.1 htext).2] at h
    exact point h
  · rw [← (pure_ok.1 h).2]
    exact refl _

theorem opened (stage : Stage) (p : Pipeline) : SameWork p (p.openStage stage) := by
  constructor <;> rfl

end SameWork

variable {stage : Stage} {source target : State} {work : Step Pipeline Unit}

theorem advance_ok (h : advance source target stage work p = .ok u q) :
    p.state = source ∧ q.state = target ∧
      ∃ p', work (p.openStage stage) = .ok () p' ∧ SameWork p' q := by
  unfold advance at h
  split at h
  · cases h
  rename_i hstate
  split at h
  · cases h
  split at h
  · rename_i p' hwork
    cases h
    refine ⟨Decidable.not_not.1 hstate, rfl, p', hwork, ?_⟩
    constructor <;> rfl
  · cases h
  · cases h

theorem advance_error {e : Error} (h : advance source target stage work p = .error (.error e) q) :
    (∃ s t, e = .transition s t) ∨ e = .canceled ∨
      ∃ e' p', work (p.openStage stage) = .error (.error e') p' ∧ e = .within stage.name e' := by
  unfold advance at h
  split at h
  · cases h
    exact .inl ⟨_, _, rfl⟩
  split at h
  · cases h
    exact .inr (.inl rfl)
  split at h
  · cases h
  · rename_i e' p' hwork
    cases h
    exact .inr (.inr ⟨e', p', hwork, rfl⟩)
  · rename_i hnot hf
    cases h
    exact absurd rfl (hnot _)

/-! ## Stage by stage -/

theorem rebase_ok (h : rebase p = .ok u q) :
    p.state = .raw ∧ q.state = .rebased ∧ ∃ done g,
      p.graph.rebase p.options.validate = ((done, none), g) ∧
        SameWork { p with graph := g } q := by
  obtain ⟨hs, ht, p', hwork, hsame⟩ := advance_ok h
  refine ⟨hs, ht, ?_⟩
  obtain ⟨_, p₁, hval, hwork⟩ := bind_ok.1 hwork
  rw [get_bind] at hwork
  have h₁ := (SameWork.opened .rebase p).trans (SameWork.validate hval)
  rw [h₁.graph, h₁.options] at hwork
  generalize p.graph.rebase p.options.validate = r at hwork ⊢
  obtain ⟨⟨done, f⟩, g⟩ := r
  cases f with
  | some f =>
    obtain ⟨_, _, -, hthrow⟩ := bind_ok.1 hwork
    exact (throw_ok.1 hthrow).elim
  | none =>
    obtain ⟨_, p₂, hset, hwork⟩ := bind_ok.1 hwork
    rw [set_ok.1 hset] at hwork
    refine ⟨done, g, rfl, .trans ?_ ((SameWork.attach hwork).trans hsame)⟩
    exact ⟨rfl, h₁.selection, rfl, h₁.module, h₁.entry⟩

theorem inline_ok (h : inline p = .ok u q) :
    p.state = .rebased ∧ q.state = .inlined ∧ ∃ g,
      Graph.inlineCalls (p.selection.getD p.graph.calls) p.graph = .ok () g ∧
        SameWork { p with graph := g } q := by
  obtain ⟨hs, ht, p', hwork, hsame⟩ := advance_ok h
  refine ⟨hs, ht, ?_⟩
  rw [get_bind] at hwork
  obtain ⟨_, p₁, hattach, hwork⟩ := bind_ok.1 hwork
  obtain ⟨_, p₂, hinline, hwork⟩ := bind_ok.1 hwork
  have h₁ := SameWork.attach hattach
  obtain ⟨g, hrun, rfl⟩ := zoom_ok.1 hinline
  refine ⟨g, ?_, .trans ?_ ((SameWork.validate hwork).trans hsame)⟩
  · rw [h₁.graph] at hrun
    exact hrun
  · exact { (SameWork.opened .inline p).trans h₁ with graph := rfl }

theorem prune_ok (h : prune p = .ok u q) :
    p.state = .inlined ∧ q.state = .pruned ∧ ∃ pruned g,
      Graph.prune p.graph = .ok pruned g ∧ SameWork { p with graph := g } q := by
  obtain ⟨hs, ht, p', hwork, hsame⟩ := advance_ok h
  refine ⟨hs, ht, ?_⟩
  obtain ⟨pruned, p₁, hprune, hwork⟩ := bind_ok.1 hwork
  obtain ⟨g, hrun, rfl⟩ := zoom_ok.1 hprune
  refine ⟨pruned, g, hrun, .trans (q := { p.openStage .prune with graph := g })
    (by constructor <;> rfl) (.trans ?_ hsame)⟩
  obtain ⟨_, p₂, h₂, hwork⟩ := bind_ok.1 hwork
  obtain ⟨_, p₃, h₃, hwork⟩ := bind_ok.1 hwork
  obtain ⟨_, p₄, h₄, hwork⟩ := bind_ok.1 hwork
  obtain ⟨_, p₅, h₅, hwork⟩ := bind_ok.1 hwork
  rw [get_bind] at hwork
  have hpoints : SameWork p₃ p₄ := .forM (fun _ _ _ _ h => .point h) h₄
  refine (SameWork.attach h₂).trans ((SameWork.attach h₃).trans (hpoints.trans
    ((SameWork.validate h₅).trans ?_)))
  split at hwork
  · obtain ⟨fs, -, rfl⟩ := zoom_ok.1 (inContext_ok.1 hwork)
    constructor <;> rfl
  · rw [← (pure_ok.1 hwork).2]
    exact .refl _

def freshModule (p : Pipeline) : Module :=
  { name := moduleName p.file, triple := p.target.triple, layout := p.target.layout }

theorem emit_ok (h : emit p = .ok u q) :
    p.state = .pruned ∧ q.state = .emitted ∧ ∃ emitted entry,
      p.graph.emit p.options.plainEntry p.freshModule = .ok emitted ∧
        emitted.entry = some entry ∧
        SameWork { p with module := emitted.module, entry := some entry } q := by
  obtain ⟨hs, ht, p', hwork, hsame⟩ := advance_ok h
  refine ⟨hs, ht, ?_⟩
  rw [get_bind] at hwork
  obtain ⟨emitted, p₁, hemit, hwork⟩ := bind_ok.1 hwork
  obtain ⟨hemit, hp₁⟩ := ofExcept_ok.1 hemit
  cases hentry : emitted.entry with
  | none =>
    rw [hentry] at hwork
    exact (throw_ok.1 hwork).elim
  | some entry =>
    rw [hentry] at hwork
    refine ⟨emitted, entry, hemit, hentry, .trans (q := { p.openStage .emit with
      module := emitted.module, entry := some entry }) (by constructor <;> rfl) (.trans ?_ hsame)⟩
    obtain ⟨_, p₂, hset, hwork⟩ := bind_ok.1 hwork
    rw [set_ok.1 hset] at hwork
    obtain ⟨_, p₃, h₃, hwork⟩ := bind_ok.1 hwork
    obtain ⟨_, p₄, h₄, hwork⟩ := bind_ok.1 hwork
    obtain ⟨_, p₅, h₅, hwork⟩ := bind_ok.1 hwork
    obtain ⟨_, p₆, h₆, hwork⟩ := bind_ok.1 hwork
    obtain ⟨_, p₇, h₇, hwork⟩ := bind_ok.1 hwork
    have hcodegen : SameWork p₆ p₇ := .forM (fun _ _ _ _ h => .attach h) h₇
    exact (SameWork.attach h₃).trans ((SameWork.attach h₄).trans ((SameWork.attach h₅).trans
      ((SameWork.attach h₆).trans (hcodegen.trans (SameWork.dump hwork)))))

/-- The trace of a pointer width that the layout leaves open. -/
def doubtWidth (m : Module) : Step Pipeline Unit :=
  match m.pointerWidth.2 with
  | some e => point .stage "pointer-width" e.message
  | none => pure ()

theorem doubtWidth_ok (m : Module) (p : Pipeline) :
    ∃ q, doubtWidth m p = .ok () q ∧ SameWork p q := by
  unfold doubtWidth
  cases m.pointerWidth.2 with
  | none => exact ⟨p, rfl, .refl p⟩
  | some e => exact ⟨_, rfl, by constructor <;> rfl⟩

def assignIn (m : Module) (f : FuncId) (width : Int) : Step Pipeline Unit := do
  let (counters, m) ← Step.ofExcept (assignAddresses m f width)
  modify fun p => { p with module := m, counters := counters }
  attach "qubits" (toString counters.qubits)
  attach "results" (toString counters.results)
  dump .assign

theorem assign_eq {f : FuncId} (hone : p.module.definitions = [f]) :
    assign p = advance .emitted .addressesAssigned .assign (do
      doubtWidth p.module
      assignIn p.module f p.module.pointerWidth.1) p := by
  have hm : (p.openStage .assign).module = p.module := rfl
  unfold assign advance
  rw [get_bind, hm, hone]
  unfold doubtWidth
  obtain ⟨width, doubt⟩ := p.module.pointerWidth
  cases doubt <;> rfl

end Qirc.Pipeline
