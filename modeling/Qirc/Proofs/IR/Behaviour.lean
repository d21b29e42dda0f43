import Qirc.Proofs.IR.Machine

/-!
# The behaviour of a function

A function is run on its own, and the world answers every request. What can be seen of a run is the
sequence of requests and how it ends, if it does. Two functions behave alike when one relation
between their places leads them from request to request.
-/

namespace Qirc.IR

/-! ## Machines that go along with one another -/

section Machines

variable {σ τ ω ε : Type} {step : σ → Progress σ ω} {step' : τ → Progress τ ω}
  {seen : σ → ε} {seen' : τ → ε}

inductive Quiet (step : σ → Progress σ ω) (seen : σ → ε) : σ → σ → Prop
  | refl (s : σ) : Quiet step seen s s
  | cons {s t u : σ} (h : step s = .next t) (hq : seen t = seen s) (rest : Quiet step seen t u) :
      Quiet step seen s u

theorem Quiet.leads {s t : σ} (h : Quiet step seen s t) : Leads step s t := by
  induction h with
  | refl => exact .refl _
  | cons h _ _ ih => exact .cons h ih

theorem Quiet.seen_eq {s t : σ} (h : Quiet step seen s t) : seen t = seen s := by
  induction h with
  | refl => rfl
  | cons _ hq _ ih => exact ih.trans hq

/-- Both machines halt with the same result, or their next places are related. -/
def Meets (step : σ → Progress σ ω) (step' : τ → Progress τ ω) (R : σ → τ → Prop) (t : σ) (t' : τ) :
    Prop :=
  (∃ r, step t = .halt r ∧ step' t' = .halt r) ∨
    ∃ u u', step t = .next u ∧ step' t' = .next u' ∧ R u u'

/-- Both machines show the same, take quiet steps and then meet. -/
def Along (step : σ → Progress σ ω) (step' : τ → Progress τ ω) (seen : σ → ε) (seen' : τ → ε)
    (R : σ → τ → Prop) (s : σ) (s' : τ) : Prop :=
  seen s = seen' s' ∧ ∃ t t', Quiet step seen s t ∧ Quiet step' seen' s' t' ∧ Meets step step' R t t'

variable {R : σ → τ → Prop}

/-- A run that the other machine accompanies. The induction is on the run; in the middle of quiet
steps the other machine waits at the place `t'` where both will meet. -/
theorem Leads.accompanied (hR : ∀ s s', R s s' → Along step step' seen seen' R s s') {s u : σ}
    (h : Leads step s u) :
    ∀ {t t'}, Quiet step seen s t → seen s = seen' t' → Meets step step' R t t' →
      (∃ u', Leads step' t' u' ∧ seen' u' = seen u) ∧
        ∀ r, step u = .halt r → Ends step' t' r := by
  induction h with
  | refl s =>
    intro t t' hq hs hmeet
    refine ⟨⟨t', .refl t', hs.symm⟩, fun r hr => ?_⟩
    cases hq with
    | refl =>
      obtain ⟨r', h, h'⟩ | ⟨_, _, h, -⟩ := hmeet
      · cases hr.symm.trans h
        exact .halt h'
      · cases hr.symm.trans h
    | cons h => cases hr.symm.trans h
  | cons hstep _ ih =>
    intro t t' hq hs hmeet
    cases hq with
    | refl =>
      obtain ⟨_, h, -⟩ | ⟨v, v', h, h', hv⟩ := hmeet
      · cases hstep.symm.trans h
      cases hstep.symm.trans h
      obtain ⟨hseen, z, z', hz, hz', hmeet⟩ := hR _ _ hv
      obtain ⟨⟨u', hu', hsu⟩, hend⟩ := ih hz (hseen.trans hz'.seen_eq.symm) hmeet
      have hl : Leads step' t' z' := .cons h' hz'.leads
      exact ⟨⟨u', hl.trans hu', hsu⟩, fun r hr => hl.ends (hend r hr)⟩
    | cons h hq' rest =>
      cases hstep.symm.trans h
      exact ih rest (hq'.trans hs) hmeet

variable (hR : ∀ s s', R s s' → Along step step' seen seen' R s s') {s : σ} {s' : τ} (hs : R s s')

include hR hs

theorem Ends.along {r : ω} (h : Ends step s r) : Ends step' s' r := by
  obtain ⟨u, hl, hu⟩ := h
  obtain ⟨hseen, t, t', ht, ht', hmeet⟩ := hR s s' hs
  exact ht'.leads.ends ((hl.accompanied hR ht (hseen.trans ht'.seen_eq.symm) hmeet).2 r hu)

theorem Leads.along {u : σ} (h : Leads step s u) : ∃ u', Leads step' s' u' ∧ seen' u' = seen u := by
  obtain ⟨hseen, t, t', ht, ht', hmeet⟩ := hR s s' hs
  obtain ⟨⟨u', hu', hu⟩, -⟩ := h.accompanied hR ht (hseen.trans ht'.seen_eq.symm) hmeet
  exact ⟨u', ht'.leads.trans hu', hu⟩

end Machines

/-! ## One function and the world -/

/-- Answers to requests, given the requests before them. -/
abbrev World := List Request → Request → Datum

structure Moment where
  frame : Frame
  trace : List Request

namespace Module

def proceed (m : Module) (args : List Datum) (w : World) (s : Moment) :
    Progress Moment (Ending Request) :=
  match m.act args s.frame with
  | .silent next => .next { s with frame := next }
  | .ask r next => .next ⟨next (w s.trace r), s.trace ++ [r]⟩
  | .ret v => .halt ⟨.returned v, s.trace⟩
  | .stuck => .halt ⟨.stuck, s.trace⟩

/-- The run comes to an end, with this outcome after these requests. -/
def Finishes (m : Module) (f : FuncId) (args : List Datum) (w : World) (e : Ending Request) : Prop :=
  ∃ fr, m.start? f = some fr ∧ Ends (m.proceed args w) ⟨fr, []⟩ e

def Asks (m : Module) (f : FuncId) (args : List Datum) (w : World) (trace : List Request) : Prop :=
  ∃ fr s, m.start? f = some fr ∧ Leads (m.proceed args w) ⟨fr, []⟩ s ∧ s.trace = trace

/-- Two versions of a function cannot be told apart by the world around them: they make the same
requests, and the one ends where the other one ends, with the same outcome. -/
def Alike (f : FuncId) (m m' : Module) : Prop :=
  ∀ args w, (∀ e, m.Finishes f args w e ↔ m'.Finishes f args w e) ∧
    ∀ trace, m.Asks f args w trace ↔ m'.Asks f args w trace

theorem Alike.refl (f : FuncId) (m : Module) : Alike f m m :=
  fun _ _ => ⟨fun _ => .rfl, fun _ => .rfl⟩

theorem Alike.trans {f : FuncId} {m m' m'' : Module} (h : Alike f m m') (h' : Alike f m' m'') :
    Alike f m m'' :=
  fun args w => ⟨fun e => ((h args w).1 e).trans ((h' args w).1 e),
    fun t => ((h args w).2 t).trans ((h' args w).2 t)⟩

/-! ## Functions that go along with one another -/

inductive Glides (m : Module) (args : List Datum) : Frame → Frame → Prop
  | refl (fr : Frame) : Glides m args fr fr
  | cons {fr next last : Frame} (h : m.act args fr = .silent next) (rest : Glides m args next last) :
      Glides m args fr last

theorem Glides.quiet {m : Module} {args : List Datum} {fr fr' : Frame} (h : m.Glides args fr fr')
    (w : World) (trace : List Request) :
    Quiet (m.proceed args w) Moment.trace ⟨fr, trace⟩ ⟨fr', trace⟩ := by
  induction h with
  | refl => exact .refl _
  | @cons fr next last h _ ih =>
    have hstep : m.proceed args w ⟨fr, trace⟩ = .next ⟨next, trace⟩ := by simp [proceed, h]
    exact .cons hstep rfl ih

end Module

/-- Two actions that the world cannot tell apart and that lead to related places. -/
inductive Action.Same (R : Frame → Frame → Prop) : Action → Action → Prop
  | silent {fr fr' : Frame} (h : R fr fr') : Same R (.silent fr) (.silent fr')
  | ask (r : Request) {next next' : Datum → Frame} (h : ∀ d, R (next d) (next' d)) :
      Same R (.ask r next) (.ask r next')
  | ret (v : Option Datum) : Same R (.ret v) (.ret v)
  | stuck : Same R .stuck .stuck

theorem Action.Same.flip {R : Frame → Frame → Prop} {a a' : Action} (h : a.Same R a') :
    a'.Same (fun fr' fr => R fr fr') a := by
  cases h with
  | silent h => exact .silent h
  | ask r h => exact .ask r h
  | ret v => exact .ret v
  | stuck => exact .stuck

namespace Module

variable {f : FuncId} {m m' : Module} {args : List Datum} {R : Frame → Frame → Prop}

/-- From related places both versions come silently to where they do the same. -/
def Accords (m m' : Module) (args : List Datum) (R : Frame → Frame → Prop) : Prop :=
  ∀ fr fr', R fr fr' → ∃ g g', m.Glides args fr g ∧ m'.Glides args fr' g' ∧
    (m.act args g).Same R (m'.act args g')

theorem Accords.flip (h : Accords m m' args R) : Accords m' m args (fun fr' fr => R fr fr') := by
  intro fr' fr hr
  obtain ⟨g, g', hg, hg', hsame⟩ := h fr fr' hr
  exact ⟨g', g, hg', hg, hsame.flip⟩

theorem Accords.along (h : Accords m m' args R) (w : World) (s s' : Moment)
    (hs : s.trace = s'.trace ∧ R s.frame s'.frame) :
    Along (m.proceed args w) (m'.proceed args w) Moment.trace Moment.trace
      (fun s s' => s.trace = s'.trace ∧ R s.frame s'.frame) s s' := by
  obtain ⟨fr, trace⟩ := s
  obtain ⟨fr', trace'⟩ := s'
  obtain ⟨rfl, hr⟩ := hs
  obtain ⟨g, g', hg, hg', hsame⟩ := h fr fr' hr
  refine ⟨rfl, ⟨g, trace⟩, ⟨g', trace⟩, hg.quiet w trace, hg'.quiet w trace, ?_⟩
  unfold Meets proceed
  generalize m.act args g = a, m'.act args g' = a' at hsame
  cases hsame with
  | silent h => exact .inr ⟨_, _, rfl, rfl, rfl, h⟩
  | ask r h => exact .inr ⟨_, _, rfl, rfl, rfl, h _⟩
  | ret v => exact .inl ⟨_, rfl, rfl⟩
  | stuck => exact .inl ⟨_, rfl, rfl⟩

section Start

variable {fr fr' : Frame} {w : World} (hstart : m.start? f = some fr)
  (hstart' : m'.start? f = some fr') (hr : R fr fr') (h : Accords m m' args R)

include hstart hstart' hr h

theorem Finishes.along {e : Ending Request} (he : m.Finishes f args w e) :
    m'.Finishes f args w e := by
  obtain ⟨fr, hfr, hend⟩ := he
  cases hstart.symm.trans hfr
  have hr' : (⟨fr, []⟩ : Moment).trace = (⟨fr', []⟩ : Moment).trace ∧ R fr fr' := ⟨rfl, hr⟩
  exact ⟨fr', hstart', Ends.along (h.along w) hr' hend⟩

theorem Asks.along {trace : List Request} (ha : m.Asks f args w trace) :
    m'.Asks f args w trace := by
  obtain ⟨fr, s, hfr, hl, htrace⟩ := ha
  cases hstart.symm.trans hfr
  have hr' : (⟨fr, []⟩ : Moment).trace = (⟨fr', []⟩ : Moment).trace ∧ R fr fr' := ⟨rfl, hr⟩
  obtain ⟨s', hl', hs'⟩ := Leads.along (h.along w) hr' hl
  exact ⟨fr', s', hstart', hl', hs'.trans htrace⟩

end Start

theorem Alike.of_accords {fr fr' : Frame} {R : List Datum → Frame → Frame → Prop}
    (hstart : m.start? f = some fr) (hstart' : m'.start? f = some fr') (hr : ∀ args, R args fr fr')
    (h : ∀ args, Accords m m' args (R args)) : Alike f m m' :=
  fun args _ =>
    ⟨fun _ => ⟨.along hstart hstart' (hr args) (h args),
        .along hstart' hstart (hr args) (h args).flip⟩,
      fun _ => ⟨.along hstart hstart' (hr args) (h args),
        .along hstart' hstart (hr args) (h args).flip⟩⟩

end Module

end Qirc.IR
