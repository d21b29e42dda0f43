import Qirc.Proofs.Pipeline.Telling

/-!
# Calls in any order

Whatever is called on a pipeline, in whatever order and with a cancellation at any point, it goes
along the chain of its states or ends in `failed`, and the messages tell how far it came. The
statement is carried by `Orderly`, which each step preserves and hence each run of steps.
-/

namespace Qirc.Pipeline

open List Step IR

variable {p₀ p q : Pipeline} {l : Leg} {step : Step Pipeline Unit} {stop : State} {u : Unit}

/-! ## What an optimization leaves -/

theorem run_accepted {names : List String} {s t : Optimization}
    (h : Optimization.run names s = .ok u t) : t.module.verify = .ok [] := by
  obtain ⟨_, s', -, h⟩ := bind_ok.1 h
  obtain ⟨h, rfl⟩ := ofExcept_ok.1 h
  obtain ⟨report, hreport, h⟩ := except_bind_ok.1 h
  cases report with
  | nil => exact hreport
  | cons =>
    obtain ⟨_, -, h⟩ := except_bind_ok.1 h
    cases h

theorem optimize_accepted (h : optimize p = .ok u q) : q.module.verify = .ok [] := by
  obtain ⟨-, -, p', hwork, hsame⟩ := advance_ok h
  cases hrun : Optimization.run Pass.sequence { module := (p.openStage .optimize).module } with
  | error f o => simp only [hrun, reduceCtorEq] at hwork
  | ok _ o =>
    simp only [hrun] at hwork
    rw [hsame.module, (SameWork.dump hwork).module]
    exact run_accepted hrun

/-! ## Histories -/

def stagesTo (s : State) : List Stage := (legs.take s.code).map Leg.stage

theorem stagesTo_target : ∀ l ∈ legs, stagesTo l.target = stagesTo l.source ++ [l.stage] := by
  decide

theorem told_append (file : String) (a b : List Stage) :
    told file (a ++ b) = told file a ++ told file b := flatMap_append

inductive History (file : String) : State → List Progress → Prop where
  | along {s : State} (mem : s ∈ State.all) (well : s ≠ .failed) :
    History file s (told file (stagesTo s))
  | failed {l : Leg} {e : Error} {events : List Progress} (mem : l ∈ legs)
    (ending : Ending file l.stage e events) :
    History file .failed (told file (stagesTo l.source) ++ events)

/-- A pipeline that came from another one by whole stages. -/
structure Orderly (p₀ p : Pipeline) : Prop where
  file : p.file = p₀.file
  history : ∃ events, p.session.progress = p₀.session.progress ++ events ∧
    History p₀.file p.state events
  accepted : p.state = .optimized → p.module.verify = .ok []

namespace Orderly

theorem start (h : p₀.state = .raw) : Orderly p₀ p₀ := by
  refine ⟨rfl, ⟨[], (append_nil _).symm, ?_⟩, ?_⟩
  · rw [h]
    exact History.along (s := .raw) (by decide) (by decide)
  · rw [h]
    exact fun hopt => by cases hopt

theorem mem (h : Orderly p₀ p) : p.state ∈ State.all := by
  obtain ⟨events, -, hh⟩ := h.history
  generalize p.state = s at hh ⊢
  cases hh with
  | along mem => exact mem
  | failed => decide

theorem progress (h : Orderly p₀ p) (hs : p.state ≠ .failed) :
    p.session.progress = p₀.session.progress ++ told p₀.file (stagesTo p.state) := by
  obtain ⟨events, hp, hh⟩ := h.history
  generalize p.state = s at hs hh ⊢
  cases hh with
  | along => exact hp
  | failed => exact absurd rfl hs

theorem completed (h : Orderly p₀ p) (hl : Covers l step) (hs : p.state = l.source)
    (hok : step p = .ok u q) : Orderly p₀ q := by
  have houtcome := hl.outcome hs
  rw [hok] at houtcome
  obtain ⟨state, file, progress⟩ := houtcome
  have hwell : ∀ l ∈ legs, l.source ≠ .failed ∧ l.target ∈ State.all ∧ l.target ≠ .failed ∧
    (l.target = .optimized → l.stage = .optimize) := by decide
  obtain ⟨hsource, htarget, hnot, hlast⟩ := hwell l hl.mem
  refine ⟨file.trans h.file, ⟨told p₀.file (stagesTo l.target), ?_, ?_⟩, ?_⟩
  · rw [progress, h.progress (hs ▸ hsource), h.file, hs, stagesTo_target l hl.mem, told_append,
      append_assoc]
  · rw [state]
    exact .along htarget hnot
  intro hopt
  have hlisted := hl.listed
  rw [hlast (state.symm.trans hopt)] at hlisted
  cases hlisted
  exact optimize_accepted hok

theorem broken {e : Error} {events : List Progress} (hfile : q.file = p₀.file) (hl : l ∈ legs)
    (hs : q.state = .failed) (ending : Ending p₀.file l.stage e events)
    (hp : q.session.progress = p₀.session.progress ++ (told p₀.file (stagesTo l.source) ++ events)) :
    Orderly p₀ q := by
  refine ⟨hfile, ⟨_, hp, ?_⟩, ?_⟩
  · rw [hs]
    exact .failed hl ending
  · rw [hs]
    exact fun hopt => by cases hopt

end Orderly

/-! ## Runs -/

/-- What comes of the steps to a state, from a pipeline that did not fail. They get there if it is
within reach. -/
inductive Arrival (p₀ : Pipeline) (stop : State) (reach : Nat) :
    EStateM.Result Failure Pipeline Unit → Prop where
  | here {q : Pipeline} (orderly : Orderly p₀ q) (well : q.state ≠ .failed)
    (far : stop.code ≤ reach → stop.code ≤ State.optimized.code → stop.code ≤ q.state.code) :
    Arrival p₀ stop reach (.ok () q)
  | failed {q : Pipeline} {l : Leg} {e : Error} {events : List Progress} (mem : l ∈ legs)
    (state : q.state = .failed) (file : q.file = p₀.file)
    (ending : Ending p₀.file l.stage e events)
    (progress : q.session.progress =
      p₀.session.progress ++ (told p₀.file (stagesTo l.source) ++ events)) :
    Arrival p₀ stop reach (.error (.error e) q)
  | aborted {q : Pipeline} {cause : Option Error} (state : q.state.code < stop.code) :
    Arrival p₀ stop reach (.error (.abort cause) q)

theorem stepFrom?_none : ∀ s ∈ State.all, s ≠ .failed → stepFrom? s = none →
    s = .optimized := by
  intro s _ hs h
  cases s with
  | optimized => rfl
  | failed => exact absurd rfl hs
  | unknown => simp [State.all] at *
  | _ => cases h

theorem stepsUntil_arrival (stop : State) (h : Orderly p₀ p) (hs : p.state ≠ .failed) (n : Nat) :
    Arrival p₀ stop (p.state.code + n) (stepsUntil stop n p) := by
  induction n generalizing p with
  | zero => exact .here h hs fun hn _ => hn
  | succ n ih =>
    unfold stepsUntil
    rw [get_bind]
    by_cases hlt : p.state.code < stop.code
    · rw [if_pos hlt]
      cases hstep : stepFrom? p.state with
      | none =>
        refine .here h hs fun _ hstop => ?_
        rw [stepFrom?_none _ h.mem hs hstep]
        exact hstop
      | some step =>
        obtain ⟨l, hsource, hl⟩ := stepFrom?_covers hstep
        have houtcome := hl.outcome hsource.symm
        change Arrival p₀ stop _ (EStateM.bind step (fun _ => stepsUntil stop n) p)
        unfold EStateM.bind
        cases hrun : step p with
        | ok _ q =>
          rw [hrun] at houtcome
          cases houtcome with
          | completed state =>
            have hnext : ∀ l ∈ legs, l.target ≠ .failed ∧ l.target.code = l.source.code + 1 := by
              decide
            obtain ⟨hwell, hcode⟩ := hnext l hl.mem
            have hreach : q.state.code + n = p.state.code + (n + 1) := by
              rw [state, hcode, hsource]
              omega
            exact hreach ▸ ih (h.completed hl hsource.symm hrun) (state ▸ hwell)
        | error f q =>
          rw [hrun] at houtcome
          cases houtcome with
          | failed state file ending progress =>
            rw [h.file] at ending
            refine .failed hl.mem state (file.trans h.file) ending ?_
            rw [progress, h.progress hs, hsource, append_assoc]
          | aborted state =>
            refine .aborted ?_
            rw [state, hsource]
            exact hlt
    · rw [if_neg hlt]
      exact .here h hs fun _ _ => Nat.le_of_not_lt hlt

theorem stepsUntil_idle (h : stop.code ≤ p.state.code) (n : Nat) :
    stepsUntil stop n p = .ok () p := by
  cases n with
  | zero => rfl
  | succ n =>
    unfold stepsUntil
    rw [get_bind, if_neg (Nat.not_lt.2 h)]
    rfl

theorem runUntil_of_le (h : State.failed.code ≤ stop.code) :
    runUntil stop p = .error (.error (.transition p.state stop)) p := by
  unfold runUntil
  rw [if_pos h]
  rfl

theorem runUntil_of_lt (h : stop.code < State.failed.code) :
    runUntil stop p = match stepsUntil stop State.failed.code p with
      | .ok _ q =>
        if q.state = stop then .ok () q else .error (.error (.transition q.state stop)) q
      | .error f q => .error f q := by
  unfold runUntil
  rw [if_neg (Nat.not_le.2 h)]
  change EStateM.bind (stepsUntil stop State.failed.code) _ p = _
  unfold EStateM.bind
  cases stepsUntil stop State.failed.code p with
  | error f q => rfl
  | ok _ q =>
    dsimp only
    rw [get_bind]
    by_cases hq : q.state = stop
    · rw [if_neg fun hne => hne hq, if_pos hq]
      rfl
    · rw [if_pos hq, if_neg hq]
      rfl

theorem runUntil_failed (hs : p.state = .failed) (stop : State) :
    runUntil stop p = .error (.error (.transition .failed stop)) p := by
  by_cases hle : State.failed.code ≤ stop.code
  · rw [runUntil_of_le hle, hs]
  have hlt := Nat.lt_of_not_le hle
  have hne : p.state ≠ stop := by
    rintro rfl
    exact hle (hs ▸ Nat.le_refl _)
  rw [runUntil_of_lt hlt, stepsUntil_idle (by rw [hs]; exact Nat.le_of_lt hlt)]
  dsimp only
  rw [if_neg hne, hs]

inductive Landing (p₀ : Pipeline) (stop : State) :
    EStateM.Result Failure Pipeline Unit → Prop where
  | arrived {q : Pipeline} (orderly : Orderly p₀ q) (state : q.state = stop) :
    Landing p₀ stop (.ok () q)
  | missed {q : Pipeline} {e : Error} (orderly : Orderly p₀ q)
    (state : q.state = stop → stop = .failed) : Landing p₀ stop (.error (.error e) q)
  | aborted {q : Pipeline} {cause : Option Error} (state : q.state = stop → stop = .failed) :
    Landing p₀ stop (.error (.abort cause) q)

theorem runUntil_landing (h : Orderly p₀ p) (stop : State) : Landing p₀ stop (runUntil stop p) := by
  by_cases hs : p.state = .failed
  · rw [runUntil_failed hs]
    exact .missed h fun hstop => hstop ▸ hs
  by_cases hle : State.failed.code ≤ stop.code
  · rw [runUntil_of_le hle]
    have hlast : ∀ s ∈ State.all, State.failed.code ≤ s.code → s = .failed := by decide
    refine .missed h fun hstop => ?_
    rw [← hstop] at hle ⊢
    exact hlast _ h.mem hle
  have harrival := stepsUntil_arrival stop h hs State.failed.code
  rw [runUntil_of_lt (Nat.lt_of_not_le hle)]
  generalize stepsUntil stop State.failed.code p = result at harrival ⊢
  cases harrival with
  | here orderly well =>
    dsimp only
    split
    · exact .arrived orderly ‹_›
    · exact .missed orderly fun hstop => absurd hstop ‹_›
  | failed mem state file ending progress =>
    exact .missed (.broken file mem state ending progress) fun hstop => hstop.symm.trans state
  | aborted state => exact .aborted fun hstop => absurd state (hstop ▸ Nat.lt_irrefl _)

/-! ## Sequences of calls -/

inductive Call : Step Pipeline Unit → Prop where
  | step {stage : Stage} {step : Step Pipeline Unit} (h : stepOf? stage = some step) : Call step
  | run : Call run
  | runUntil (stop : State) : Call (runUntil stop)

def Returns (act : Step Pipeline Unit) (p q : Pipeline) : Prop :=
  act p = .ok () q ∨ ∃ e, act p = .error (.error e) q

/-- The pipelines that calls lead to. A run that is canceled on its way is a run to the state where
that happens, the cancellation, and the rest of the run. -/
inductive Called (p₀ : Pipeline) : Pipeline → Prop where
  | start : Called p₀ p₀
  | call {p q : Pipeline} {act : Step Pipeline Unit} (h : Called p₀ p) (hact : Call act)
    (hq : Returns act p q) : Called p₀ q
  | cancel {p : Pipeline} (h : Called p₀ p) : Called p₀ { p with session.canceled := true }

theorem Orderly.stepped (h : Orderly p₀ p) (hl : Covers l step) (hq : Returns step p q) :
    Orderly p₀ q := by
  by_cases hs : p.state = l.source
  · have houtcome := hl.outcome hs
    obtain hok | ⟨e, herr⟩ := hq
    · exact h.completed hl hs hok
    rw [herr] at houtcome
    obtain - | ⟨state, file, ending, progress⟩ := houtcome
    have hsource : ∀ l ∈ legs, l.source ≠ .failed := by decide
    rw [h.file] at ending
    refine .broken (file.trans h.file) hl.mem state ending ?_
    rw [progress, h.progress (hs ▸ hsource l hl.mem), hs, append_assoc]
  · unfold Returns at hq
    rw [hl.elsewhere hs] at hq
    obtain hok | ⟨e, herr⟩ := hq
    · cases hok
    cases herr
    exact h

theorem Orderly.landed (h : Orderly p₀ p) (hq : Returns (runUntil stop) p q) : Orderly p₀ q := by
  have hlanding := runUntil_landing h stop
  obtain hok | ⟨e, herr⟩ := hq
  · rw [hok] at hlanding
    cases hlanding with
    | arrived orderly => exact orderly
  · rw [herr] at hlanding
    cases hlanding with
    | missed orderly => exact orderly

theorem Called.orderly (h₀ : p₀.state = .raw) (h : Called p₀ p) : Orderly p₀ p := by
  induction h with
  | start => exact .start h₀
  | call _ hact hq ih =>
    cases hact with
    | step hstep =>
      obtain ⟨l, -, hl⟩ := stepOf?_covers hstep
      exact ih.stepped hl hq
    | run => exact ih.landed hq
    | runUntil stop => exact ih.landed hq
  | cancel _ ih => exact ⟨ih.file, ih.history, ih.accepted⟩

theorem runUntil_ok_iff (h : Orderly p₀ p) (hstop : stop ≠ .failed) :
    (∃ q, runUntil stop p = .ok () q) ↔ ((runUntil stop).after p).state = stop := by
  have hlanding := runUntil_landing h stop
  unfold Step.after
  cases hrun : runUntil stop p with
  | ok _ q =>
    rw [hrun] at hlanding
    cases hlanding with
    | arrived _ state => exact ⟨fun _ => state, fun _ => ⟨q, rfl⟩⟩
  | error f q =>
    rw [hrun] at hlanding
    have hne : q.state ≠ stop := by
      cases hlanding with
      | missed _ state => exact fun hq => hstop (state hq)
      | aborted state => exact fun hq => hstop (state hq)
    exact ⟨fun ⟨_, hok⟩ => (by cases hok), fun hq => absurd hq hne⟩

theorem call_failed {act : Step Pipeline Unit} (hs : p.state = .failed) (hact : Call act) :
    ∃ target, act p = .error (.error (.transition .failed target)) p := by
  cases hact with
  | step hstep =>
    obtain ⟨l, -, hl⟩ := stepOf?_covers hstep
    have hsource : ∀ l ∈ legs, State.failed ≠ l.source := by decide
    exact ⟨_, hs ▸ hl.elsewhere (hs ▸ hsource l hl.mem)⟩
  | run => exact ⟨_, runUntil_failed hs _⟩
  | runUntil stop => exact ⟨_, runUntil_failed hs _⟩

/-- Whatever was called before: a step that succeeds leads along its leg. Asked for elsewhere it
changes nothing, and where it fails the pipeline has failed, for good. A run to a state succeeds
exactly if it ends there; only `failed` is no state to run to. The module is there exactly in the
last state, and is then accepted. The messages tell of the stages up to the state in their order, and
at the end of the one that failed. -/
theorem calls_keep_order (h₀ : p₀.state = .raw) (h : Called p₀ p) :
    (∀ stage step, stepOf? stage = some step → ∃ l ∈ legs, l.stage = stage ∧
      (∀ q, step p = .ok () q → p.state = l.source ∧ q.state = l.target) ∧
      (p.state ≠ l.source → step p = .error (.error (.transition p.state l.target)) p) ∧
      (∀ e q, p.state = l.source → step p = .error (.error e) q → q.state = .failed)) ∧
    (p.state = .failed → ∀ act, Call act →
      ∃ target, act p = .error (.error (.transition .failed target)) p) ∧
    (∀ stop, stop ≠ .failed →
      ((∃ q, runUntil stop p = .ok () q) ↔ ((runUntil stop).after p).state = stop)) ∧
    (p.finished.isSome ↔ p.state = .optimized) ∧
    (∀ m, p.finished = some m → m.verify = .ok []) ∧
    ∃ events, p.session.progress = p₀.session.progress ++ events ∧
      History p₀.file p.state events := by
  have horderly := h.orderly h₀
  refine ⟨?_, fun hs act => call_failed hs, fun stop => runUntil_ok_iff horderly, ?_, ?_,
    horderly.history⟩
  · intro stage step hstep
    obtain ⟨l, rfl, hl⟩ := stepOf?_covers hstep
    refine ⟨l, hl.mem, rfl, ?_, hl.elsewhere, ?_⟩
    · intro q hok
      by_cases hs : p.state = l.source
      · have houtcome := hl.outcome hs
        rw [hok] at houtcome
        obtain ⟨state⟩ := houtcome
        exact ⟨hs, state⟩
      · cases (hl.elsewhere hs).symm.trans hok
    · intro e q hs herr
      have houtcome := hl.outcome hs
      rw [herr] at houtcome
      obtain - | ⟨state⟩ := houtcome
      exact state
  · unfold finished
    split <;> simp_all
  · intro m hm
    unfold finished at hm
    split at hm
    · cases hm
      exact horderly.accepted ‹_›
    · cases hm

def untouched : Pipeline :=
  { options := { target := "hardware" }, target := .hardware, graph := .empty
    session := { canceled := true } }

theorem rebase_untouched :
    Called untouched (rebase.after untouched) ∧ (rebase.after untouched).state = .failed :=
  ⟨.call .start (.step (show stepOf? .rebase = _ from rfl)) (.inr ⟨.canceled, rfl⟩), rfl⟩

/-- It stays where its first step leaves it. -/
theorem calls_keep_order_untouched :
    Called untouched (rebase.after untouched) ∧ ∀ act, Call act →
      ∃ target, act (rebase.after untouched) =
        .error (.error (.transition .failed target)) (rebase.after untouched) :=
  ⟨rebase_untouched.1, (calls_keep_order rfl rebase_untouched.1).2.1 rebase_untouched.2⟩

/-- A run to `failed` ends with an error also where the pipeline is in that state. -/
theorem runUntil_failed_misses :
    ∃ p₀ p, p₀.state = .raw ∧ Called p₀ p ∧ ((runUntil .failed).after p).state = .failed ∧
      ∀ q, runUntil .failed p ≠ .ok () q := by
  refine ⟨untouched, _, rfl, rebase_untouched.1, rfl, fun q h => ?_⟩
  cases h

end Qirc.Pipeline
