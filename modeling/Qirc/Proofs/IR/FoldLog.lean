import Qirc.Proofs.IR.Branches.Operands
import Qirc.Proofs.IR.Folding

/-!
# What folding replaces

Folding makes one replacement after the other. A log of them says in which module each was made, of
which instruction and by which value; the module after the last one is the result of the pass.
-/

namespace Qirc.IR

open List Step

/-- A replacement: an instruction of a module gives way to a value. -/
structure Replacement where
  module : Module
  instr : InstrId
  value : Value

namespace Module

/-- The replacements that folding makes in a function on the way from one module to another. -/
inductive Folds (f : FuncId) : Module → List Replacement → Module → Prop
  | done (m : Module) : Folds f m [] m
  | step {m m' : Module} {i : InstrId} {v : Value} {log : List Replacement} (hi : i ∈ m.body f)
      (hv : m.folded? i = .ok (some v)) (hgiven : v ≠ .missing) (hself : v ≠ .instr i)
      (rest : Folds f (m.supplant f i v) log m') : Folds f m (⟨m, i, v⟩ :: log) m'

variable {f : FuncId} {m m' m'' : Module} {i : InstrId} {log log' : List Replacement}

theorem Folds.append (h : Folds f m log m') (h' : Folds f m' log' m'') :
    Folds f m (log ++ log') m'' := by
  induction h with
  | done => exact h'
  | step hi hv hgiven hself _ ih => exact .step hi hv hgiven hself (ih h')

theorem Folds.forall {I : Module → Prop} {p : Replacement → Prop}
    (hI : ∀ m i v, I m → i ∈ m.body f → m.folded? i = .ok (some v) → v ≠ .missing →
      v ≠ .instr i → I (m.supplant f i v))
    (hp : ∀ m i v, I m → i ∈ m.body f → m.folded? i = .ok (some v) → p ⟨m, i, v⟩)
    (h : Folds f m log m') (hm : I m) : ∀ r ∈ log, p r := by
  induction h with
  | done => simp
  | step hi hv hgiven hself _ ih =>
    exact forall_mem_cons.2 ⟨hp _ _ _ hm hi hv, ih (hI _ _ _ hm hi hv hgiven hself)⟩

variable {changed : Bool}

theorem foldInstr_ok (h : foldInstr f i m = .ok changed m') :
    m' = m ∨ ∃ v, m.folded? i = .ok (some v) ∧ v ≠ .missing ∧ v ≠ .instr i ∧
      m' = m.supplant f i v := by
  obtain ⟨_, _, hget, h⟩ := bind_ok.1 h
  cases hget
  obtain ⟨o, _, hfold, h⟩ := bind_ok.1 h
  obtain ⟨hfold, rfl⟩ := ofExcept_ok.1 hfold
  split at h
  · exact .inl (pure_ok.1 h).2.symm
  · exact .inl (pure_ok.1 h).2.symm
  rename_i v hmissing _
  split at h
  · exact .inl (pure_ok.1 h).2.symm
  rename_i hself
  obtain ⟨_, _, hset, h⟩ := bind_ok.1 h
  obtain ⟨-, rfl⟩ := pure_ok.1 h
  exact .inr ⟨v, hfold, hmissing, hself, set_ok.1 hset⟩

theorem foldEach_folds {is : List InstrId} (hl : m.Linked) (hnd : is.Nodup)
    (his : ∀ i ∈ is, i ∈ m.body f) (h : foldEach f is m = .ok changed m') :
    m'.Linked ∧ ∃ log, Folds f m log m' := by
  induction is generalizing m changed with
  | nil =>
    obtain ⟨-, rfl⟩ := pure_ok.1 h
    exact ⟨hl, [], .done m⟩
  | cons i is ih =>
    rw [forall_mem_cons] at his
    obtain ⟨hfresh, hnd⟩ := nodup_cons.1 hnd
    obtain ⟨first, m₁, hone, h⟩ := bind_ok.1 h
    obtain ⟨more, m₂, hrest, h⟩ := bind_ok.1 h
    obtain ⟨-, rfl⟩ := pure_ok.1 h
    obtain rfl | ⟨v, hv, hgiven, hself, rfl⟩ := foldInstr_ok hone
    · exact ih hl hnd his.2 hrest
    obtain ⟨hl', log, hlog⟩ := ih hl.supplant hnd
      (fun j hj => (supplant_body hl).2 ⟨his.2 j hj, fun hji : j = i => hfresh (hji ▸ hj)⟩) hrest
    exact ⟨hl', _, .step his.1 hv hgiven hself hlog⟩

theorem foldRounds_folds {rounds : Nat} (hl : m.Linked) (h : foldRounds f rounds m = .ok changed m') :
    ∃ log, Folds f m log m' := by
  induction rounds generalizing m changed with
  | zero => exact (throw_ok.1 h).elim
  | succ rounds ih =>
    obtain ⟨_, _, hget, h⟩ := bind_ok.1 h
    cases hget
    obtain ⟨more, m₁, hround, h⟩ := bind_ok.1 h
    obtain ⟨hl', log, hlog⟩ := foldEach_folds hl (hl.body_nodup f) (fun _ h => h) hround
    cases more with
    | false =>
      obtain ⟨-, rfl⟩ := pure_ok.1 h
      exact ⟨log, hlog⟩
    | true =>
      obtain ⟨_, m₂, hrest, h⟩ := bind_ok.1 h
      obtain ⟨-, rfl⟩ := pure_ok.1 h
      obtain ⟨log', hlog'⟩ := ih hl' hrest
      exact ⟨log ++ log', hlog.append hlog'⟩

theorem foldInstrs_folds (hl : m.Linked) (h : foldInstrs f m = .ok changed m') :
    ∃ log, Folds f m log m' := by
  obtain ⟨_, _, hget, h⟩ := bind_ok.1 h
  cases hget
  exact foldRounds_folds hl h

theorem operands_of_accepted (hok : m.functionReport f = .ok []) :
    m.AllOperands f (fun v => m.operandDefect? f v = none) := by
  intro i hi v hv
  obtain ⟨b, hb, hib⟩ := mem_flatMap.1 hi
  obtain ⟨n, hn⟩ := getElem?_of_mem hv
  have hcheck := (functionDefects_eq_nil.1 (functionDefects_of_report hok hb)).2.2 b hb i hib
  exact (operandDefects_eq_nil.1 ((checkInstr_eq_nil.1 hcheck).1 n v hn)).1

end Module

end Qirc.IR
