import Qirc.Build
import Qirc.Pipeline.View
import Qirc.Proofs.Pipeline.Calls

/-!
# What builds tell

The messages of a build tell its outcome: the stages that were completed come in their order, and the
one that failed ends them with its error. Two ways out of a build say nothing, a request without an
input and one for a target that does not exist. Apart from them every row of a batch gets finished.
-/

namespace Qirc

open List Pipeline

/-! ## Accounts -/

/-- The messages of a stage that ends with an error, whether it began or was refused. -/
inductive Report (file : String) (stage : Stage) (e : Error) : List Progress → Prop where
  | refused : Report file stage e [⟨file, stage, .error, some e, 0⟩]
  | broken : Report file stage e
      [⟨file, stage, .working, none, 0⟩, ⟨file, stage, .error, some e, 0⟩]

/-- Messages that tell how work in some stages came out. -/
inductive Account (file : String) (stages : List Stage) :
    Option Failure → List Progress → Prop where
  | done : Account file stages none (told file stages)
  | failed (completed : List Stage) {rest : List Stage} {stage : Stage} {e : Error}
    {report : List Progress}
    (order : stages = completed ++ stage :: rest) (last : Report file stage e report) :
    Account file stages (some (.error e)) (told file completed ++ report)

theorem Account.file_eq {file : String} {stages : List Stage} {outcome : Option Failure}
    {events : List Progress} (h : Account file stages outcome events) :
    ∀ p ∈ events, p.file = file := by
  have htold : ∀ stages, ∀ p ∈ told file stages, p.file = file := by
    intro stages p hp
    obtain ⟨stage, -, hp⟩ := mem_flatMap.1 hp
    simp only [mem_cons, not_mem_nil, or_false] at hp
    rcases hp with rfl | rfl <;> rfl
  cases h with
  | done => exact htold _
  | failed completed order last =>
    intro p hp
    rcases mem_append.1 hp with hp | hp
    · exact htold _ p hp
    cases last <;> simp only [mem_cons, not_mem_nil, or_false] at hp
    · rw [hp]
    · rcases hp with rfl | rfl <;> rfl

/-- Whatever happened between two sessions told its outcome, unless it was aborted. -/
def Accounts (file : String) (stages : List Stage) (outcome : Option Failure) (s t : Session) :
    Prop :=
  (∀ cause, outcome ≠ some (.abort cause)) →
    ∃ events, t.progress = s.progress ++ events ∧ Account file stages outcome events

variable {file : String} {stages : List Stage} {events : List Progress} {f : Failure}
  {s t u : Session}

theorem Accounts.aborted {cause : Option Error} :
    Accounts file stages (some (.abort cause)) s t := fun h => absurd rfl (h cause)

theorem Accounts.extend (h : Accounts file stages (some f) s t) (more : List Stage) :
    Accounts file (stages ++ more) (some f) s t := by
  intro hf
  obtain ⟨events, hp, _ | ⟨completed, order, last⟩⟩ := h hf
  exact ⟨_, hp, .failed _ (by rw [order, append_assoc, cons_append]) last⟩

theorem Accounts.after {outcome : Option Failure} {before : List Stage}
    (hp : t.progress = s.progress ++ told file before) (h : Accounts file stages outcome t u) :
    Accounts file (before ++ stages) outcome s u := by
  intro hf
  obtain ⟨events, hu, haccount⟩ := h hf
  refine ⟨told file before ++ events, by rw [hu, hp, append_assoc], ?_⟩
  cases haccount with
  | done =>
    rw [← told_append]
    exact .done
  | failed completed order last =>
    rw [← append_assoc, ← told_append]
    exact .failed _ (by rw [order, append_assoc]) last

theorem Pipeline.Ending.report {stage : Stage} {e : Error} (h : Ending file stage e events) :
    Report file stage e events := by
  cases h with
  | canceled => exact .refused
  | broken => exact .broken

/-! ## Compilations -/

def chain : List Stage := legs.map Leg.stage

theorem chain_split : ∀ l ∈ legs, ∃ rest, chain = stagesTo l.source ++ l.stage :: rest := by
  intro l hl
  have hdrop : ∀ l ∈ legs, chain.drop l.source.code = l.stage :: chain.drop l.target.code ∧
    stagesTo l.source = chain.take l.source.code := by decide
  obtain ⟨hrest, htake⟩ := hdrop l hl
  exact ⟨_, by rw [← hrest, htake, take_append_drop]⟩

theorem run_accounts {p : Pipeline} (hs : p.state = .raw) :
    match runUntil .optimized p with
    | .ok _ q => Accounts p.file chain none p.session q.session
    | .error f q => Accounts p.file chain (some f) p.session q.session := by
  have harrival := stepsUntil_arrival .optimized (.start hs) (by rw [hs]; decide)
    State.failed.code
  rw [runUntil_of_lt (by decide)]
  generalize stepsUntil .optimized State.failed.code p = result at harrival ⊢
  cases harrival with
  | here orderly well far =>
    have hlast : ∀ s ∈ State.all, s ≠ .failed → State.optimized.code ≤ s.code → s = .optimized := by
      decide
    have hstate := hlast _ orderly.mem well (far (by rw [hs]; decide) (Nat.le_refl _))
    have hprogress := orderly.progress well
    rw [hstate] at hprogress
    simp only [hstate, if_true]
    exact fun _ => ⟨_, hprogress, .done⟩
  | failed mem state file ending progress =>
    obtain ⟨rest, hsplit⟩ := chain_split _ mem
    exact fun _ => ⟨_, progress, .failed _ hsplit ending.report⟩
  | aborted => exact .aborted

namespace CompileRequest

variable {r : CompileRequest}

def loading (r : CompileRequest) : List Stage := if r.graph.isSome then [] else [.load]

def Answerable (r : CompileRequest) : Prop :=
  (r.graph = none → r.path ≠ "") ∧ ∃ t, Target.ofName r.options.target = .ok t

theorem load_accounts (h : r.graph = none → r.path ≠ "") :
    match r.load s with
    | (.ok _, _, t) => t.progress = s.progress ++ told r.label r.loading
    | (.error f, _, t) => Accounts r.label r.loading (some f) s t := by
  unfold load loading
  cases hg : r.graph with
  | some g => exact (append_nil _).symm
  | none =>
    simp only [if_neg (h hg)]
    generalize Graph.load _ r.path = loaded
    cases loaded with
    | ok g => exact append_assoc _ _ _
    | error f =>
      cases f with
      | abort => exact .aborted
      | error e => exact fun _ => ⟨_, append_assoc _ _ _, .failed [] rfl .broken⟩

theorem compile_accounts (h : r.Answerable) (s : Session) :
    Accounts r.label (r.loading ++ chain) (compile r s).1.2 s (compile r s).2 := by
  have hload := load_accounts (s := s) h.1
  obtain ⟨target, htarget⟩ := h.2
  unfold compile compileUntil
  generalize r.load s = result at hload ⊢
  obtain ⟨loaded, timings, t⟩ := result
  cases loaded with
  | error f => exact Accounts.extend hload chain
  | ok g =>
    refine Accounts.after hload ?_
    dsimp only
    cases g.checkEntry with
    | error f =>
      cases f with
      | abort => exact .aborted
      | error e => exact fun _ =>
        ⟨_, rfl, .failed [] (show chain = _ :: chain.tail from rfl) .refused⟩
    | ok _ =>
      have hrun := run_accounts (p := { options := r.options, target := target, graph := g
                                        file := r.label, session := t }) rfl
      simp only [new, htarget, bind, Except.bind]
      generalize runUntil .optimized _ = ran at hrun ⊢
      cases ran with
      | ok _ q => exact hrun
      | error f q => exact hrun

end CompileRequest

namespace BuildRequest

variable {r : BuildRequest}

def allStages (r : BuildRequest) : List Stage := r.loading ++ chain ++ [.write]

theorem deliver_progress (r : BuildRequest) (bytes : List UInt8) (s : Session) :
    (r.deliver bytes s).2.progress = s.progress := by
  unfold deliver
  split
  · rfl
  dsimp only
  split
  · rfl
  · split <;> rfl

theorem build_accounts (h : r.Answerable) (s : Session) :
    Accounts r.label r.allStages (build r s).1.2 s (build r s).2 := by
  have hcompile := CompileRequest.compile_accounts h s
  unfold build
  generalize compile r.toCompileRequest s = result at hcompile ⊢
  obtain ⟨⟨c, outcome⟩, t⟩ := result
  cases outcome with
  | some f => exact Accounts.extend hcompile _
  | none =>
    obtain ⟨events, hp, ⟨⟩⟩ := hcompile fun _ h => by cases h
    refine Accounts.after hp ?_
    dsimp only
    generalize encodeModule c.module _ _ = encoded
    cases encoded with
    | error f =>
      cases f with
      | abort => exact .aborted
      | error e => exact fun _ => ⟨_, append_assoc _ _ _, .failed [] rfl .broken⟩
    | ok bytes =>
      have hdeliver := deliver_progress r bytes
        (t.tell { file := r.label, stage := .write, status := .working })
      dsimp only at hdeliver ⊢
      generalize r.deliver bytes _ = delivered at hdeliver ⊢
      obtain ⟨e | _, u⟩ := delivered
      · refine fun _ => ⟨_, ?_, .failed [] rfl .broken⟩
        exact (congrArg (· ++ _) hdeliver).trans (append_assoc _ _ _)
      · exact fun _ => ⟨_, (congrArg (· ++ _) hdeliver).trans (append_assoc _ _ _), .done⟩

end BuildRequest

/-! ## Batches -/

namespace Pipeline.Row

def follow (row : Row) (events : List Progress) : Row :=
  (events.filter (fun p => p.file == row.path)).foldl Row.apply row

theorem follow_path (row : Row) (events : List Progress) : (row.follow events).path = row.path := by
  have happly : ∀ (row : Row) (p : Progress), (row.apply p).path = row.path := by
    intro row p
    unfold Row.apply Row.addElapsed
    split <;> try rfl
    split <;> rfl
  unfold follow
  generalize events.filter _ = l
  induction l generalizing row with
  | nil => rfl
  | cons p l ih => exact (ih _).trans (happly row p)

theorem follow_append (row : Row) (a b : List Progress) :
    row.follow (a ++ b) = (row.follow a).follow b := by
  have hpath := row.follow_path a
  unfold follow at hpath ⊢
  rw [filter_append, foldl_append, hpath]

theorem follow_account {row : Row} {outcome : Option Failure} {before : List Stage}
    (hrow : row.path = file) (h : Account file (before ++ [.write]) outcome events) :
    (row.follow events).isFinished = true := by
  cases h with
  | done =>
    rw [told_append, follow_append]
    have hpath := (row.follow_path (told file before)).trans hrow
    generalize row.follow _ = row at hpath ⊢
    simp [follow, told, hpath, Row.apply, isFinished]
  | @failed completed _ _ _ _ order last =>
    rw [follow_append]
    have hpath := (row.follow_path (told file completed)).trans hrow
    generalize row.follow _ = row at hpath ⊢
    cases last <;> simp [follow, hpath, Row.apply, isFinished]

end Pipeline.Row

/-- The messages of a batch that finish the rows of its files. -/
structure Finishes (rs : List BuildRequest) (events : List Progress) : Prop where
  files : ∀ p ∈ events, ∃ r ∈ rs, p.file = r.label
  rows : ∀ r ∈ rs, ∀ row : Row, row.path = r.label → (row.follow events).isFinished = true

theorem Finishes.cons {r : BuildRequest} {rs : List BuildRequest} {outcome : Option Failure}
    {more : List Progress} (h : Account r.label r.allStages outcome events)
    (hmore : Finishes rs more) : Finishes (r :: rs) (events ++ more) := by
  constructor
  · intro p hp
    rcases mem_append.1 hp with hp | hp
    · exact ⟨r, mem_cons_self, h.file_eq p hp⟩
    obtain ⟨r', hr', hfile⟩ := hmore.files p hp
    exact ⟨r', mem_cons_of_mem _ hr', hfile⟩
  · intro r' hr' row hrow
    rw [Row.follow_append]
    have hpath := (row.follow_path events).trans hrow
    by_cases hlater : ∃ x ∈ rs, x.label = r'.label
    · obtain ⟨x, hx, hlabel⟩ := hlater
      exact hmore.rows x hx _ (hpath.trans hlabel.symm)
    have hr : r' = r := (mem_cons.1 hr').resolve_right fun hx => hlater ⟨r', hx, rfl⟩
    subst hr
    have hnone : more.filter (fun p => p.file == (row.follow events).path) = [] := by
      refine filter_eq_nil_iff.2 fun p hp hfile => ?_
      obtain ⟨x, hx, hlabel⟩ := hmore.files p hp
      exact hlater ⟨x, hx, hlabel.symm.trans ((beq_iff_eq.1 hfile).trans hpath)⟩
    rw [Row.follow, hnone]
    exact Row.follow_account hrow h

theorem buildEach_finishes {rs : List (Option BuildRequest)} (hr : ∀ r, some r ∈ rs → r.Answerable)
    (hf : ∀ cause, (buildEach rs s).1.2.2 ≠ some (.abort cause)) :
    ∃ events, (buildEach rs s).2.progress = s.progress ++ events ∧
      Finishes rs.reduceOption events := by
  induction rs generalizing s with
  | nil => exact ⟨[], (append_nil _).symm, fun _ h => (by cases h), fun _ h => (by cases h)⟩
  | cons x rs ih =>
    have ih := fun s => ih (s := s) fun r h => hr r (mem_cons_of_mem _ h)
    cases x with
    | none => exact ih s hf
    | some r =>
      have hbuild := r.build_accounts (hr r mem_cons_self) s
      unfold buildEach at hf ⊢
      generalize build r s = result at hbuild hf ⊢
      obtain ⟨⟨b, outcome⟩, t⟩ := result
      have hnext : (∀ cause, outcome ≠ some (.abort cause)) →
          (∀ cause, (buildEach rs t).1.2.2 ≠ some (.abort cause)) →
          ∃ events, (buildEach rs t).2.progress = s.progress ++ events ∧
            Finishes (r :: rs.reduceOption) events := by
        intro hout hrest
        obtain ⟨events, hp, haccount⟩ := hbuild hout
        obtain ⟨more, hq, hmore⟩ := ih t hrest
        exact ⟨events ++ more, by rw [hq, hp, append_assoc], .cons haccount hmore⟩
      cases outcome with
      | none => exact hnext (fun _ h => by cases h) hf
      | some f =>
        cases f with
        | abort cause => exact absurd rfl (hf cause)
        | error e => exact hnext (fun _ h => by cases h) hf

theorem announced_progress (rs : List BuildRequest) (s : Session) :
    ∃ events, (rs.foldl (fun s r =>
      s.tell { file := r.label, stage := .load, status := .queued }) s).progress =
        s.progress ++ events := by
  induction rs generalizing s with
  | nil => exact ⟨[], (append_nil _).symm⟩
  | cons r rs ih =>
    obtain ⟨events, h⟩ := ih (s.tell { file := r.label, stage := .load, status := .queued })
    exact ⟨_ :: events, h.trans (append_assoc _ _ _)⟩

/-- The messages of a build tell its outcome, if it has an input and a target and is not aborted. So
a batch of such builds leaves no row unfinished. -/
theorem builds_tell_outcome (s : Session) :
    (∀ r : BuildRequest, r.Answerable →
      Accounts r.label r.allStages (build r s).1.2 s (build r s).2) ∧
    ∀ rs : List (Option BuildRequest), (∀ r, some r ∈ rs → r.Answerable) →
      (∀ cause, (buildAll rs s).1.2 ≠ some (.abort cause)) →
      ∃ events, (buildAll rs s).2.progress = s.progress ++ events ∧
        ∀ r, some r ∈ rs → ∀ row : Row, row.path = r.label →
          (row.follow events).isFinished = true := by
  refine ⟨fun r h => r.build_accounts h s, fun rs hr hf => ?_⟩
  obtain ⟨queued, hqueued⟩ := announced_progress rs.reduceOption s
  unfold buildAll at hf ⊢
  dsimp only at hf ⊢
  generalize rs.reduceOption.foldl _ s = t at hqueued hf ⊢
  have heach := buildEach_finishes (s := t) hr
  generalize buildEach rs t = result at heach hf ⊢
  obtain ⟨⟨bs, es, f⟩, u⟩ := result
  have hout : ∀ cause, f ≠ some (.abort cause) := by
    rintro cause rfl
    exact hf cause rfl
  obtain ⟨events, hp, hrows⟩ := heach hout
  refine ⟨queued ++ events, ?_, fun r hr row hrow => ?_⟩
  · rw [← append_assoc, ← hqueued, ← hp]
    cases f <;> cases es <;> rfl
  · rw [Row.follow_append]
    exact hrows.rows r (mem_filterMap.2 ⟨some r, hr, rfl⟩) _ ((row.follow_path _).trans hrow)

def noEntry : BuildRequest := { graph := some .empty, file := "x", options := { target := "native" } }

theorem noEntry_answerable : noEntry.Answerable := ⟨nofun, _, rfl⟩

/-- Its only message ends its row. -/
theorem builds_tell_outcome_noEntry :
    Accounts "x" noEntry.allStages (build noEntry {}).1.2 {} (build noEntry {}).2 ∧
    ∃ events, (buildAll [some noEntry] {}).2.progress = events ∧
      (Row.follow { path := "x" } events).isFinished = true := by
  have hall : ∀ r, some r ∈ [some noEntry] → r.Answerable := by
    intro r hr
    cases mem_singleton.1 hr
    exact noEntry_answerable
  refine ⟨(builds_tell_outcome {}).1 _ noEntry_answerable, ?_⟩
  obtain ⟨events, hp, hrows⟩ := (builds_tell_outcome {}).2 [some noEntry] hall fun _ h => by cases h
  exact ⟨events, hp, hrows _ mem_cons_self _ rfl⟩

/-- A build without an input and one for a target that does not exist fail and say nothing. -/
theorem build_fails_silently :
    (∃ e, (build {} {}).1.2 = some (.error e) ∧ (build {} {}).2.progress = []) ∧
    ∃ g e, Graph.checkEntry g = .ok () ∧
      (build { graph := some g, options := { target := "bogus" } } {}).1.2 = some (.error e) ∧
      (build { graph := some g, options := { target := "bogus" } } {}).2.progress = [] := by
  refine ⟨⟨_, rfl, rfl⟩, (Graph.addFunc "main" ⟨[], []⟩).after .empty, .unknownTarget "bogus", ?_⟩
  exact ⟨rfl, rfl, rfl⟩

end Qirc
