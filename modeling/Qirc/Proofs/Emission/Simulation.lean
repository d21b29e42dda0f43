import Qirc.Proofs.Emission.Growth
import Qirc.Proofs.Emission.Meaning

/-!
# Emitted code and evaluation, side by side

A scene is a finished module that runs one of its functions. Emitting between two cursors realizes
an evaluation when the module gets from the first to the second with the same questions to the world,
or ends as early as the evaluation does.
-/

namespace Qirc

open List IR IR.Module Cursor

/-- A function of a finished module that runs, with the callers that wait for it. -/
structure Scene where
  module : Module
  oracle : Oracle
  bound : Nat
  args : List Datum
  callers : List (List Datum × (Datum → Frame))

namespace Scene

variable (w : Scene)

def config (fr : Frame) (asked : List Effect) : Config := ⟨w.args, fr, w.callers, asked⟩

def value (regs : Registers) (v : Value) : Datum := w.module.eval w.args regs v

/-- Where the instruction that is emitted next will stand. -/
def place (c : Cursor) (regs : Registers) : Frame :=
  ⟨c.block, (w.module.block c.block).instrs.drop (c.module.block c.block).instrs.length, regs⟩

abbrev step : Config → Progress Config (Ending Effect) := w.module.step w.oracle w.bound

/-- From a place, the module does what an evaluation has done. -/
def Follows {β : Type} (fr : Frame) (asked : List Effect)
    (r : EStateM.Result Halt (List Effect) β) (post : β → Frame → Prop) : Prop :=
  match r with
  | .ok b asked' => ∃ fr', Leads w.step (w.config fr asked) (w.config fr' asked') ∧ post b fr'
  | .error h asked' => h = .tooDeep ∧ Ends w.step (w.config fr asked) ⟨.tooDeep, asked'⟩

variable {w} {fr fr' : Frame} {asked asked' : List Effect}

variable {β : Type} {post : β → Frame → Prop}

theorem Follows.pure {b : β} (h : post b fr) : w.Follows fr asked ((pure b : Eval β) asked) post :=
  ⟨fr, .refl _, h⟩

variable {r : EStateM.Result Halt (List Effect) β}

theorem Follows.lead (hl : Leads w.step (w.config fr asked) (w.config fr' asked'))
    (h : w.Follows fr' asked' r post) : w.Follows fr asked r post := by
  cases r with
  | ok b last =>
    obtain ⟨fr'', hl', hp⟩ := h
    exact ⟨fr'', hl.trans hl', hp⟩
  | error e last => exact ⟨h.1, hl.ends h.2⟩

theorem Follows.bind {γ : Type} {y : Eval β} {z : β → Eval γ} {post' : γ → Frame → Prop}
    (hy : w.Follows fr asked (y asked) post)
    (hz : ∀ b fr' asked', post b fr' → w.Follows fr' asked' (z b asked') post') :
    w.Follows fr asked ((y >>= z) asked) post' := by
  change w.Follows fr asked (EStateM.bind y z asked) post'
  unfold EStateM.bind
  cases hr : y asked with
  | ok b last =>
    rw [hr] at hy
    obtain ⟨fr', hl, hp⟩ := hy
    exact (hz b fr' last hp).lead hl
  | error e last =>
    rw [hr] at hy
    exact hy

variable {post' : β → Frame → Prop}

theorem Follows.mono (h : w.Follows fr asked r post) (hp : ∀ b fr', post b fr' → post' b fr') :
    w.Follows fr asked r post' := by
  cases r with
  | ok b last =>
    obtain ⟨fr', hl, hb⟩ := h
    exact ⟨fr', hl, hp b fr' hb⟩
  | error e last => exact h

theorem Follows.extend (h : w.Follows fr asked r post)
    (hp : ∀ b fr' asked', post b fr' → ∃ fr'', Leads w.step (w.config fr' asked') (w.config fr''
      asked') ∧ post' b fr'') : w.Follows fr asked r post' := by
  cases r with
  | ok b last =>
    obtain ⟨fr', hl, hb⟩ := h
    obtain ⟨fr'', hl', hb'⟩ := hp b fr' last hb
    exact ⟨fr'', hl.trans hl', hb'⟩
  | error e last => exact h

theorem Follows.call {f : FuncId} {ds : List Datum} {next : Datum → Frame} {start : Frame}
    {r : EStateM.Result Halt (List Effect) (List Datum)} {post : List Datum → Prop}
    (hact : w.module.act w.args fr = .ask (.call f ds) next)
    (hstart : w.module.start? f = some start) (hb : w.callers.length < w.bound)
    (h : Follows { w with args := ds, callers := (w.args, next) :: w.callers } start asked r
      fun outs fr' => w.module.act ds fr' = .ret outs.head? ∧ post outs) :
    w.Follows fr asked r fun outs fr' => fr' = next (outs.head?.getD .undefined) ∧ post outs := by
  have henter : w.step (w.config fr asked) = _ := step_enter hact hstart hb
  cases r with
  | ok outs last =>
    obtain ⟨fr', hl, hret, hp⟩ := h
    have hreturn : w.step ⟨ds, fr', (w.args, next) :: w.callers, last⟩ = _ :=
      step_return hret
    exact ⟨_, .cons henter (Leads.trans hl (.single hreturn)), rfl, hp⟩
  | error e last => exact ⟨h.1, (Leads.single henter).ends h.2⟩

end Scene

/-! ## Values that were there before -/

def IR.Value.Old (m : Module) (v : Value) : Prop := ∀ i : Nat, v = .instr i → i < m.instrTable.size

namespace Cursor

/-- Registers that hold the same for every instruction behind a cursor. -/
def Agrees (c : Cursor) (regs regs' : Registers) : Prop :=
  ∀ i : Nat, i < c.module.instrTable.size → regs' i = regs i

theorem Agrees.refl (c : Cursor) (regs : Registers) : c.Agrees regs regs := fun _ _ => rfl

theorem Agrees.trans {c c' : Cursor} {regs regs' regs'' : Registers} (h : c.Agrees regs regs')
    (hg : c.module.Within c'.module) (h' : c'.Agrees regs' regs'') : c.Agrees regs regs'' :=
  fun i hi => (h' i (Nat.lt_of_lt_of_le hi hg.instrs)).trans (h i hi)

theorem Agrees.set {c : Cursor} (regs : Registers) (d : Datum) :
    c.Agrees regs (regs.set c.module.instrTable.size d) := by
  intro i hi
  simp [Registers.set, Nat.ne_of_lt hi]

end Cursor

structure Scene.Denotes (w : Scene) (c : Cursor) (regs : Registers) (vs : List Value)
    (ds : List Datum) : Prop where
  old : ∀ v ∈ vs, v.Old c.module
  data : vs.map (w.value regs) = ds

namespace Scene

variable {w : Scene} {c c' : Cursor} {regs regs' : Registers} {vs : List Value} {ds : List Datum}

theorem value_agrees {v : Value} (ho : v.Old c.module) (ha : c.Agrees regs regs') :
    w.value regs' v = w.value regs v := by
  cases v with
  | instr i => exact ha i (ho i rfl)
  | _ => rfl

theorem Denotes.mono (h : w.Denotes c regs vs ds) (hw : c.module.Within c'.module)
    (ha : c.Agrees regs regs') : w.Denotes c' regs' vs ds where
  old v hv i hi := Nat.lt_of_lt_of_le (h.old v hv i hi) hw.instrs
  data := by
    rw [← h.data]
    apply map_congr_left
    intro v hv
    exact value_agrees (h.old v hv) ha

theorem Denotes.nil : w.Denotes c regs [] [] := ⟨by simp, rfl⟩

theorem Denotes.cons {v : Value} {d : Datum} (hv : w.Denotes c regs [v] [d])
    (h : w.Denotes c regs vs ds) : w.Denotes c regs (v :: vs) (d :: ds) where
  old u hu := by
    rcases mem_cons.1 hu with rfl | hu
    · exact hv.old u (by simp)
    · exact h.old u hu
  data := by
    have := hv.data
    simp only [map_cons, map_nil, cons.injEq, and_true] at this
    rw [map_cons, this, h.data]

theorem Denotes.part {us : List Value} {es : List Datum} (h : w.Denotes c regs vs ds)
    (hs : ∀ u ∈ us, u ∈ vs) (he : us.map (w.value regs) = es) : w.Denotes c regs us es :=
  ⟨fun u hu => h.old u (hs u hu), he⟩

theorem Denotes.head {v : Value} (h : w.Denotes c regs (v :: vs) ds) :
    ∃ d es, ds = d :: es ∧ w.Denotes c regs [v] [d] ∧ w.Denotes c regs vs es := by
  refine ⟨w.value regs v, vs.map (w.value regs), h.data.symm, ?_, ?_⟩
  · exact h.part (by simp) rfl
  · exact h.part (fun u hu => by simp [hu]) rfl

theorem Denotes.result {i : Nat} (d : Datum) (hi : i < c.module.instrTable.size) :
    w.Denotes c (regs.set i d) [.instr i] [d] := by
  refine ⟨?_, by simp [value, eval, Registers.set]⟩
  rintro v hv j rfl
  cases mem_singleton.1 hv
  exact hi

/-! ## One instruction -/

theorem place_append {x : Instr} (regs : Registers) (hb : c.block < c.module.blockTable.size)
    (hf : Fits c { c with module := (c.module.append c.block x).2 } w.module) :
    (w.place c regs).rest = c.module.instrTable.size ::
        (w.place { c with module := (c.module.append c.block x).2 } regs).rest ∧
      w.module.instr c.module.instrTable.size = { x with parent := some c.block } := by
  obtain ⟨more, hi, -⟩ := hf.rest
  constructor
  · simp [place, hi, append_current hb]
  have := hf.within.instr c.module.instrTable.size (by simp)
  rw [this, c.module.append_instr, if_pos rfl]

/-! ## Realization -/

def Realizes {α β : Type} (w : Scene) (c : Cursor) (regs : Registers) (x : Step Cursor α)
    (y : Eval β) (post : Cursor → Registers → α → β → Prop) : Prop :=
  ∀ a c', x c = .ok a c' → Fits c c' w.module → ∀ asked,
    w.Follows (w.place c regs) asked (y asked) fun b fr =>
      ∃ regs', fr = w.place c' regs' ∧ c.Agrees regs regs' ∧ post c' regs' a b

variable {j k : Nat} {α β γ δ : Type}

variable {post : Cursor → Registers → α → β → Prop}

theorem Realizes.pure {a : α} {b : β} (h : post c regs a b) :
    w.Realizes c regs (pure a) (pure b) post := by
  intro a' c' hx _ asked
  obtain ⟨rfl, rfl⟩ := Step.pure_ok.1 hx
  exact Follows.pure ⟨regs, rfl, .refl c regs, h⟩

variable {x : Step Cursor α} {f : α → Step Cursor γ} {post' : Cursor → Registers → γ → δ → Prop}

theorem Realizes.bind {y : Eval β} {z : β → Eval δ} (hr : Ready k c)
    (hsx : Steady k x) (hsf : ∀ a, Steady k (f a)) (hx : w.Realizes c regs x y post)
    (hf : ∀ a b c' regs', Ready k c' → Grows c c' → c.Agrees regs regs' → post c'
      regs' a b → w.Realizes c' regs' (f a) (z b) post') :
    w.Realizes c regs (x >>= f) (y >>= z) post' := by
  intro e c'' h hfit asked
  obtain ⟨a, c', hxc, hfc⟩ := Step.bind_ok.1 h
  obtain ⟨hr', hg, -⟩ := hsx c a c' hr hxc
  obtain ⟨hr'', hg', -⟩ := hsf a c' e c'' hr' hfc
  apply Follows.bind (hx a c' hxc (hfit.first hg hr' hg' hr''.sound) asked)
  rintro b fr asked' ⟨regs', rfl, hagree, hp⟩
  apply (hf a b c' regs' hr' hg hagree hp e c'' hfc (hfit.second hg) asked').mono
  rintro d fr ⟨regs'', rfl, hagree', hp'⟩
  exact ⟨regs'', rfl, hagree.trans hg.within hagree', hp'⟩

theorem Realizes.silent {z : Eval δ} (hr : Ready k c)
    (hx : ∀ a c', x c = .ok a c' → ∃ m', c' = { c with module := m' } ∧ Entered k c.module m' ∧
      (Ready k c' → Grows c c' → w.Realizes c' regs (f a) z post')) :
    w.Realizes c regs (x >>= f) z post' := by
  intro e c'' h hfit asked
  obtain ⟨a, c', hxc, hfc⟩ := Step.bind_ok.1 h
  obtain ⟨m', rfl, he, hf⟩ := hx a c' hxc
  have hg := (he.stays (c := c)).toGrows
  have hplace : w.place c regs = w.place { c with module := m' } regs := by
    simp [place, he.blocks]
  rw [hplace]
  apply (hf (he.ready hr) hg e c'' hfc (hfit.second hg) asked).mono
  rintro d fr ⟨regs'', rfl, hagree', hp'⟩
  exact ⟨regs'', rfl, (Agrees.refl c regs).trans hg.within hagree', hp'⟩

theorem realizes_compute {build : Module → Instr} {d : Datum} (hr : Ready k c)
    (hop : (build c.module).op.computes = true)
    (hd : (build c.module).compute ((build c.module).operands.map (w.value regs)) = d) :
    w.Realizes c regs (emit build) (Pure.pure d)
      (fun c' regs' v e => w.Denotes c' regs' [v] [e]) := by
  intro v c' h hfit asked
  obtain ⟨rfl, rfl⟩ := emit_ok.1 h
  obtain ⟨hrest, hinstr⟩ := place_append regs hr.block hfit
  have hact : w.module.act w.args (w.place c regs) = _ :=
    act_compute hrest (by rw [hinstr]; exact hop)
  rw [hinstr] at hact
  refine ⟨_, Leads.single (step_silent hact), _, rfl, .set regs _, ?_⟩
  rw [← hd]
  exact .result _ (by simp)

/-- A function of the runtime that the module knows by its name. -/
structure Known (c : Cursor) (name : String) (f : FuncId) : Prop where
  found : c.module.func? name = some f
  runtime : isRuntimeName name = true

theorem Known.mono {name : String} {f : FuncId} (h : Known c name f) (hg : Grows c c') :
    Known c' name f :=
  ⟨hg.within.found name f h.found, h.runtime⟩

theorem realizes_invoke {build : Module → Instr} {name : String} {f : FuncId} {args : List Value}
    (hm : w.module.Sound j) (hr : Ready k c) (hk : Known c name f)
    (hop : (build c.module).op = .call) (hf : (build c.module).callee = some f)
    (hargs : (build c.module).operands = args) (hd : w.Denotes c regs args ds) :
    w.Realizes c regs (emit build) (Eval.invoke w.oracle name ds)
      (fun c' regs' v e => w.Denotes c' regs' [v] [e]) := by
  intro v c' h hfit asked
  obtain ⟨rfl, rfl⟩ := emit_ok.1 h
  obtain ⟨hrest, hinstr⟩ := place_append regs hr.block hfit
  have hact : w.module.act w.args (w.place c regs) = _ :=
    act_call hrest (by rw [hinstr]; exact hop) (by rw [hinstr]; exact hf)
  rw [hinstr] at hact
  have hds : (build c.module).operands.map (w.module.eval w.args (w.place c regs).regs) = ds := by
    rw [hargs]
    exact hd.data
  obtain ⟨hlt, hname⟩ := hr.sound.symbols name f hk.found
  have hname' : (w.module.func f).name = name := by
    rw [hfit.within.funcName f hlt]
    exact hname
  have hstart : w.module.start? f = none := by
    simp [start?, entry?, hm.bare f (hm.outside (hname' ▸ hk.runtime))]
  simp only [hds] at hact
  have hstep : w.step (w.config (w.place c regs) asked) = _ := step_outside hact hstart
  rw [hname'] at hstep
  exact ⟨_, Leads.single hstep, _, rfl, .set regs _, .result _ (by simp)⟩

end Scene

end Qirc
