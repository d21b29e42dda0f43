import Qirc.Proofs.IR.Semantics

/-!
# Runs

A machine takes one step after the other until it halts. One machine runs a single function and
leaves every request to the world; the other one runs a module, and leaves only the calls of bodiless
functions and memory to the world.
-/

namespace Qirc.IR

inductive Progress (σ ω : Type) where
  | next (s : σ)
  | halt (r : ω)

section Runs

variable {σ ω : Type} {step : σ → Progress σ ω} {s t u : σ} {r : ω}

inductive Leads (step : σ → Progress σ ω) : σ → σ → Prop
  | refl (s : σ) : Leads step s s
  | cons {s t u : σ} (h : step s = .next t) (rest : Leads step t u) : Leads step s u

def Ends (step : σ → Progress σ ω) (s : σ) (r : ω) : Prop :=
  ∃ t, Leads step s t ∧ step t = .halt r

theorem Leads.single (h : step s = .next t) : Leads step s t := .cons h (.refl t)

theorem Leads.trans (h : Leads step s t) (h' : Leads step t u) : Leads step s u := by
  induction h with
  | refl => exact h'
  | cons hs _ ih => exact .cons hs (ih h')

theorem Leads.ends (h : Leads step s t) (he : Ends step t r) : Ends step s r := by
  obtain ⟨u, hu, hr⟩ := he
  exact ⟨u, h.trans hu, hr⟩

theorem Ends.halt (h : step s = .halt r) : Ends step s r := ⟨s, .refl s, h⟩

end Runs

inductive Outcome where
  | returned (v : Option Datum)
  /-- A call would go deeper than is allowed. -/
  | tooDeep
  | stuck

/-- An outcome with what was asked of the world before it. -/
structure Ending (ε : Type) where
  outcome : Outcome
  trace : List ε

/-! ## A module -/

inductive Effect where
  | call (name : String) (args : List Datum)
  | load (ptr : Datum) (ty : Ty)
  | store (v ptr : Datum)
  | alloca (ty : Ty)
  deriving DecidableEq, Inhabited

abbrev Oracle := List Effect → Effect → Datum

/-- A running function, the callers that wait for it and what was asked so far. -/
structure Config where
  args : List Datum
  frame : Frame
  callers : List (List Datum × (Datum → Frame))
  trace : List Effect

namespace Module

/-- A function without a body is known by its name only. -/
def effect (m : Module) : Request → Effect
  | .call f args => .call (m.func f).name args
  | .load ptr ty => .load ptr ty
  | .store v ptr => .store v ptr
  | .alloca ty => .alloca ty

def entered? (m : Module) : Request → Option (List Datum × Frame)
  | .call f args => (m.start? f).map (fun fr => (args, fr))
  | _ => none

def step (m : Module) (o : Oracle) (bound : Nat) (s : Config) : Progress Config (Ending Effect) :=
  match m.act s.args s.frame with
  | .silent next => .next { s with frame := next }
  | .ask r next =>
    match m.entered? r with
    | some (args, fr) =>
      if s.callers.length < bound then .next ⟨args, fr, (s.args, next) :: s.callers, s.trace⟩
      else .halt ⟨.tooDeep, s.trace⟩
    | none =>
      let e := m.effect r
      .next { s with frame := next (o s.trace e), trace := s.trace ++ [e] }
  | .ret v =>
    match s.callers with
    | [] => .halt ⟨.returned v, s.trace⟩
    | (args, next) :: callers => .next ⟨args, next (v.getD .undefined), callers, s.trace⟩
  | .stuck => .halt ⟨.stuck, s.trace⟩

section Steps

variable {m : Module} {o : Oracle} {bound : Nat} {args ds : List Datum} {fr : Frame}
  {callers : List (List Datum × (Datum → Frame))} {trace : List Effect}

theorem step_silent {next : Frame} (h : m.act args fr = .silent next) :
    m.step o bound ⟨args, fr, callers, trace⟩ = .next ⟨args, next, callers, trace⟩ := by
  simp [step, h]

variable {f : FuncId} {next : Datum → Frame}

section

variable (h : m.act args fr = .ask (.call f ds) next)

include h

theorem step_outside (hf : m.start? f = none) : m.step o bound ⟨args, fr, callers, trace⟩ =
      .next ⟨args, next (o trace (.call (m.func f).name ds)), callers,
        trace ++ [.call (m.func f).name ds]⟩ := by
  simp [step, h, entered?, hf, effect]

theorem step_enter {fr' : Frame} (hf : m.start? f = some fr') (hb : callers.length < bound) :
    m.step o bound ⟨args, fr, callers, trace⟩ =
      .next ⟨ds, fr', (args, next) :: callers, trace⟩ := by
  simp [step, h, entered?, hf, hb]

theorem step_tooDeep {fr' : Frame} (hf : m.start? f = some fr') (hb : ¬callers.length < bound) :
    m.step o bound ⟨args, fr, callers, trace⟩ = .halt ⟨.tooDeep, trace⟩ := by
  simp [step, h, entered?, hf, hb]

end

theorem step_return {v : Option Datum} {args' : List Datum} (h : m.act args fr = .ret v) :
    m.step o bound ⟨args, fr, (args', next) :: callers, trace⟩ =
      .next ⟨args', next (v.getD .undefined), callers, trace⟩ := by
  simp [step, h]

theorem step_end {v : Option Datum} (h : m.act args fr = .ret v) :
    m.step o bound ⟨args, fr, [], trace⟩ = .halt ⟨.returned v, trace⟩ := by
  simp [step, h]

end Steps

end Module

end Qirc.IR
