import Qirc.Proofs.Pipeline.Stages

/-!
# What the stages tell

A stage tells that it begins and how it ends. The work in between leaves the state, the file and the
messages alone, so that the messages of a run can be read off the stages it went through.
-/

namespace Qirc.Pipeline

open IR Step

variable {p q : Pipeline} {α β : Type}

/-! ## Work that tells nothing -/

structure Undisturbed (p q : Pipeline) : Prop where
  state : q.state = p.state
  file : q.file = p.file
  progress : q.session.progress = p.session.progress

/-- A step that disturbs nothing, whether it succeeds or not. -/
def Quiet (x : Step Pipeline α) (p : Pipeline) : Prop := Undisturbed p (x.after p)

namespace Quiet

theorem refl {x : Step Pipeline α} (h : x.after p = p) : Quiet x p := by
  unfold Quiet
  rw [h]
  exact ⟨rfl, rfl, rfl⟩

theorem ofExcept (x : Except Failure α) : Quiet (Step.ofExcept x) p :=
  refl (after_ofExcept x p)

theorem bind {x : Step Pipeline α} {f : α → Step Pipeline β} (hx : Quiet x p)
    (hf : ∀ a q, x p = .ok a q → Quiet (f a) q) : Quiet (x >>= f) p := by
  unfold Quiet at hx ⊢
  obtain ⟨a, q, hq, h⟩ | ⟨e, q, hq, h⟩ := after_bind x f p
  · have hnext := hf a q hq
    rw [after_of_ok hq] at hx
    rw [h]
    exact ⟨hnext.state.trans hx.state, hnext.file.trans hx.file,
      hnext.progress.trans hx.progress⟩
  · rw [h]
    simpa only [after, hq] using hx

theorem get_bind {f : Pipeline → Step Pipeline α} (h : Quiet (f p) p) : Quiet (get >>= f) p := h

theorem modify {f : Pipeline → Pipeline} (h : Undisturbed p (f p)) : Quiet (modify f) p := h

theorem attach (key value : String) : Quiet (attach key value) p := ⟨rfl, rfl, rfl⟩

theorem point (scope : Trace.Scope) (name detail : String) : Quiet (point scope name detail) p :=
  ⟨rfl, rfl, rfl⟩

theorem forM {f : α → Step Pipeline Unit} (hf : ∀ a p, Quiet (f a) p) (l : List α) :
    Quiet (l.forM f) p := by
  induction l generalizing p with
  | nil => exact refl rfl
  | cons a l ih => exact bind (hf a p) fun _ _ _ => ih

theorem zoom {τ : Type} {part : Pipeline → τ} {put : τ → Pipeline → Pipeline} {x : Step τ α}
    (h : ∀ t, Undisturbed p (put t p)) : Quiet (zoom part put x) p := by
  unfold Quiet Step.after Step.zoom
  cases x (part p) <;> exact h _

theorem inContext {x : Step Pipeline α} (context : String) (h : Quiet x p) :
    Quiet (inContext context x) p := by
  unfold Quiet
  rw [after_inContext]
  exact h

theorem validate (after : String) : Quiet (validate after) p := by
  refine get_bind ?_
  split
  · refine bind (ofExcept _) fun findings q hq => ?_
    rw [(ofExcept_ok.1 hq).2]
    refine bind (modify ⟨rfl, rfl, rfl⟩) fun _ r _ => ?_
    split <;> exact refl rfl
  · exact refl rfl

theorem dump (stage : Stage) : Quiet (dump stage) p := by
  refine get_bind ?_
  split
  · exact bind (ofExcept _) fun _ _ _ => point _ _ _
  · exact refl rfl

end Quiet

/-! ## Legs -/

structure Leg where
  source : State
  stage : Stage
  target : State
  deriving DecidableEq

def legs : List Leg :=
  [⟨.raw, .rebase, .rebased⟩, ⟨.rebased, .inline, .inlined⟩, ⟨.inlined, .prune, .pruned⟩,
    ⟨.pruned, .emit, .emitted⟩, ⟨.emitted, .assign, .addressesAssigned⟩,
    ⟨.addressesAssigned, .stamp, .metadataStamped⟩, ⟨.metadataStamped, .optimize, .optimized⟩]

/-- A step of the pipeline that leads along a leg, with quiet work. -/
structure Covers (l : Leg) (step : Step Pipeline Unit) : Prop where
  mem : l ∈ legs
  listed : stepOf? l.stage = some step
  quiet : ∃ work, step = advance l.source l.target l.stage work ∧ ∀ p, Quiet work p

theorem covers_rebase : Covers ⟨.raw, .rebase, .rebased⟩ rebase := by
  refine ⟨by decide, rfl, _, rfl, fun _ => .bind (.validate _) fun _ p _ => .get_bind ?_⟩
  split
  · exact .bind (.modify ⟨rfl, rfl, rfl⟩) fun _ _ _ => .refl rfl
  · exact .bind (.modify ⟨rfl, rfl, rfl⟩) fun _ _ _ => .attach _ _

theorem covers_inline : Covers ⟨.rebased, .inline, .inlined⟩ inline := by
  refine ⟨by decide, rfl, _, rfl, fun _ => .get_bind (.bind (.attach _ _) fun _ _ _ => ?_)⟩
  exact .bind (.zoom fun _ => ⟨rfl, rfl, rfl⟩) fun _ _ _ => .validate _

theorem covers_prune : Covers ⟨.inlined, .prune, .pruned⟩ prune := by
  refine ⟨by decide, rfl, _, rfl, fun _ => .bind (.zoom fun _ => ⟨rfl, rfl, rfl⟩) fun _ _ _ => ?_⟩
  refine .bind (.attach _ _) fun _ _ _ => .bind (.attach _ _) fun _ _ _ =>
    .bind (.forM (fun _ _ => .point _ _ _) _) fun _ _ _ => .bind (.validate _) fun _ _ _ =>
    .get_bind ?_
  split
  · exact .inContext _ (.zoom fun _ => ⟨rfl, rfl, rfl⟩)
  · exact .refl rfl

theorem covers_emit : Covers ⟨.pruned, .emit, .emitted⟩ emit := by
  refine ⟨by decide, rfl, _, rfl, fun p => .get_bind (.bind (.ofExcept _) fun emitted q hq => ?_)⟩
  rw [(ofExcept_ok.1 hq).2]
  cases emitted.entry with
  | none => exact .refl rfl
  | some entry =>
    exact .bind (.modify ⟨rfl, rfl, rfl⟩) fun _ _ _ => .bind (.attach _ _) fun _ _ _ =>
      .bind (.attach _ _) fun _ _ _ => .bind (.attach _ _) fun _ _ _ =>
      .bind (.attach _ _) fun _ _ _ => .bind (.forM (fun _ _ => .attach _ _) _) fun _ _ _ =>
      .dump _

theorem quiet_assignIn (m : Module) (f : FuncId) (width : Int) : Quiet (assignIn m f width) p :=
  .bind (.ofExcept _) fun _ _ _ => .bind (.modify ⟨rfl, rfl, rfl⟩) fun _ _ _ =>
    .bind (.attach _ _) fun _ _ _ => .bind (.attach _ _) fun _ _ _ => .dump _

theorem covers_assign : Covers ⟨.emitted, .assign, .addressesAssigned⟩ assign := by
  refine ⟨by decide, rfl, _, rfl, fun p => .get_bind ?_⟩
  split
  · obtain ⟨width, doubt⟩ := p.module.pointerWidth
    cases doubt with
    | none => exact quiet_assignIn _ _ _
    | some e => exact .bind (.point _ _ _) fun _ _ _ => quiet_assignIn _ _ _
  · exact .refl rfl

theorem covers_stamp : Covers ⟨.addressesAssigned, .stamp, .metadataStamped⟩ stamp := by
  refine ⟨by decide, rfl, _, rfl, fun p => .get_bind (.bind (.ofExcept _) fun m q hq => ?_)⟩
  rw [(ofExcept_ok.1 hq).2]
  exact .modify ⟨rfl, rfl, rfl⟩

theorem covers_optimize : Covers ⟨.metadataStamped, .optimize, .optimized⟩ optimize := by
  refine ⟨by decide, rfl, _, rfl, fun p => ?_⟩
  unfold Quiet after
  cases hrun : Optimization.run Pass.sequence { module := p.module } with
  | error f o => simpa only [hrun] using ⟨rfl, rfl, rfl⟩
  | ok _ o =>
    have hdump : Quiet (dump .optimize) (p.optimizedBy o) := .dump _
    simpa only [hrun] using ⟨hdump.state, hdump.file, hdump.progress⟩

variable {l : Leg} {step : Step Pipeline Unit}

theorem stepOf?_covers {stage : Stage} (h : stepOf? stage = some step) :
    ∃ l, l.stage = stage ∧ Covers l step := by
  cases stage with
  | rebase => exact ⟨_, rfl, Option.some.inj h ▸ covers_rebase⟩
  | inline => exact ⟨_, rfl, Option.some.inj h ▸ covers_inline⟩
  | prune => exact ⟨_, rfl, Option.some.inj h ▸ covers_prune⟩
  | emit => exact ⟨_, rfl, Option.some.inj h ▸ covers_emit⟩
  | assign => exact ⟨_, rfl, Option.some.inj h ▸ covers_assign⟩
  | stamp => exact ⟨_, rfl, Option.some.inj h ▸ covers_stamp⟩
  | optimize => exact ⟨_, rfl, Option.some.inj h ▸ covers_optimize⟩
  | load | write | other => cases h

theorem stepFrom?_covers {s : State} (h : stepFrom? s = some step) :
    ∃ l, l.source = s ∧ Covers l step := by
  cases s with
  | raw => exact ⟨_, rfl, Option.some.inj h ▸ covers_rebase⟩
  | rebased => exact ⟨_, rfl, Option.some.inj h ▸ covers_inline⟩
  | inlined => exact ⟨_, rfl, Option.some.inj h ▸ covers_prune⟩
  | pruned => exact ⟨_, rfl, Option.some.inj h ▸ covers_emit⟩
  | emitted => exact ⟨_, rfl, Option.some.inj h ▸ covers_assign⟩
  | addressesAssigned => exact ⟨_, rfl, Option.some.inj h ▸ covers_stamp⟩
  | metadataStamped => exact ⟨_, rfl, Option.some.inj h ▸ covers_optimize⟩
  | optimized | failed | unknown => cases h

/-! ## One stage -/

def told (file : String) (stages : List Stage) : List Progress :=
  stages.flatMap fun stage =>
    [{ file := file, stage := stage, status := .working },
      { file := file, stage := stage, status := .done }]

/-- The messages of a stage that ends with an error. A stage that is canceled does not begin. -/
inductive Ending (file : String) (stage : Stage) : Error → List Progress → Prop where
  | canceled :
    Ending file stage .canceled
      [{ file := file, stage := stage, status := .error, error := some .canceled }]
  | broken (e : Error) :
    Ending file stage (.within stage.name e)
      [{ file := file, stage := stage, status := .working },
        { file := file, stage := stage, status := .error, error := some (.within stage.name e) }]

inductive Outcome (l : Leg) (p : Pipeline) : EStateM.Result Failure Pipeline Unit → Prop where
  | completed {q : Pipeline} (state : q.state = l.target) (file : q.file = p.file)
    (progress : q.session.progress = p.session.progress ++ told p.file [l.stage]) :
    Outcome l p (.ok () q)
  | failed {q : Pipeline} {e : Error} {events : List Progress} (state : q.state = .failed)
    (file : q.file = p.file) (ending : Ending p.file l.stage e events)
    (progress : q.session.progress = p.session.progress ++ events) :
    Outcome l p (.error (.error e) q)
  | aborted {q : Pipeline} {cause : Option Error} (state : q.state = l.source) :
    Outcome l p (.error (.abort cause) q)

theorem Undisturbed.closed {stage : Stage} (h : Undisturbed (p.openStage stage) q)
    (status : Status) (error : Option Error) :
    q.session.progress ++ [⟨q.file, stage, status, error, 0⟩] = p.session.progress ++
      [⟨p.file, stage, .working, none, 0⟩, ⟨p.file, stage, status, error, 0⟩] := by
  have hfile : q.file = p.file := h.file
  have hprogress : q.session.progress = p.session.progress ++ [⟨p.file, stage, .working, none, 0⟩] :=
    h.progress
  rw [hprogress, hfile, List.append_assoc, List.singleton_append]

theorem Covers.outcome (h : Covers l step) (hs : p.state = l.source) : Outcome l p (step p) := by
  obtain ⟨work, rfl, hw⟩ := h.quiet
  have hquiet := hw (p.openStage l.stage)
  unfold Quiet after at hquiet
  unfold advance
  rw [if_neg fun hne => hne hs]
  split
  · exact .failed rfl rfl .canceled rfl
  cases hrun : work (p.openStage l.stage) with
  | ok _ q =>
    rw [hrun] at hquiet
    exact .completed rfl hquiet.file (hquiet.closed .done none)
  | error f q =>
    rw [hrun] at hquiet
    cases f with
    | error e => exact .failed rfl hquiet.file (.broken e) (hquiet.closed .error _)
    | abort cause => exact .aborted (hquiet.state.trans hs)

theorem Covers.elsewhere (h : Covers l step) (hs : p.state ≠ l.source) :
    step p = .error (.error (.transition p.state l.target)) p := by
  obtain ⟨work, rfl, -⟩ := h.quiet
  exact if_pos hs

end Qirc.Pipeline
