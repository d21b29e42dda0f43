import Mathlib
import Qirc.Proofs.IR.DeadCode
import Qirc.Proofs.IR.Places
import Qirc.Proofs.IR.Scopes

/-!
# Runs without dead instructions

A run of a function and the run without its dead instructions go side by side: the registers of the
instructions that stay are the same, and what these do is the same. The shorter run waits while the
longer one comes to results that nothing needs.
-/

namespace Qirc.IR

open List

/-- What comes of an instruction that is run. -/
inductive Deed where
  | moved (target : BlockId)
  | asked (r : Request) (answer : Datum)
  | returned (v : Option Datum)

namespace Module

variable {m m' : Module} {f : FuncId} {e b c : BlockId} {i j : InstrId} {stays : InstrId → Bool}
  {fr fr' next : Frame} {args : List Datum} {rest : List InstrId} {x : InstrId × Deed}
  {log : List (InstrId × Deed)}

inductive Acts (m : Module) (args : List Datum) (fr : Frame) : InstrId × Deed → Frame → Prop
  | move {i : InstrId} {rest : List InstrId} {next : Frame} (hr : fr.rest = i :: rest)
      (hact : m.act args fr = .silent next) : Acts m args fr (i, .moved next.block) next
  | ask {i : InstrId} {rest : List InstrId} {r : Request} {next : Datum → Frame}
      (hr : fr.rest = i :: rest) (hact : m.act args fr = .ask r next) (answer : Datum) :
      Acts m args fr (i, .asked r answer) (next answer)
  | ret {i : InstrId} {rest : List InstrId} {v : Option Datum} (hr : fr.rest = i :: rest)
      (hact : m.act args fr = .ret v) : Acts m args fr (i, .returned v) ⟨fr.block, [], fr.regs⟩

/-- A run that is broken off anywhere: the instructions that were run and what came of each. -/
inductive Does (m : Module) (args : List Datum) : Frame → List (InstrId × Deed) → Prop
  | rest (fr : Frame) : Does m args fr []
  | step {fr next : Frame} {x : InstrId × Deed} {log : List (InstrId × Deed)}
      (h : m.Acts args fr x next) (more : Does m args next log) : Does m args fr (x :: log)

def Performs (m : Module) (f : FuncId) (args : List Datum) (log : List (InstrId × Deed)) : Prop :=
  ∃ fr, m.start? f = some fr ∧ m.Does args fr log

theorem Acts.rest_eq (hx : m.Acts args fr x next) : ∃ rest, fr.rest = x.1 :: rest := by
  obtain ⟨hr, -⟩ | ⟨hr, -⟩ | ⟨hr, -⟩ := hx <;> exact ⟨_, hr⟩

theorem Acts.same {R : Frame → Frame → Prop} (hx : m.Acts args fr x next)
    (hr' : fr'.rest = x.1 :: rest) (hsame : (m.act args fr).Same R (m'.act args fr'))
    (hblock : ∀ g g', R g g' → g'.block = g.block)
    (hend : R ⟨fr.block, [], fr.regs⟩ ⟨fr'.block, [], fr'.regs⟩) :
    ∃ next', m'.Acts args fr' x next' ∧ R next next' := by
  generalize hact' : m'.act args fr' = a at hsame
  cases hx with
  | move _ hact =>
    rw [hact] at hsame
    cases hsame with
    | silent h =>
      rw [← hblock _ _ h]
      exact ⟨_, .move hr' hact', h⟩
  | ask _ hact answer =>
    rw [hact] at hsame
    cases hsame with
    | ask _ h => exact ⟨_, .ask hr' hact' answer, h answer⟩
  | ret _ hact =>
    rw [hact] at hsame
    cases hsame
    exact ⟨_, .ret hr' hact', hend⟩

/-- An instruction without effect comes to a result, which it may have to ask for. -/
theorem acts_of_no_effect (hr : fr.rest = i :: rest) (hop : (m.instr i).op.hasEffect = false)
    (hphi : (m.instr i).op ≠ .phi) (args : List Datum) : (∃ y next, m.Acts args fr (i, y) next) ∧
      ∀ x next, m.Acts args fr x next → ∃ d, next = ⟨fr.block, rest, fr.regs.set i d⟩ := by
  have hact : (∃ d, m.act args fr = .silent ⟨fr.block, rest, fr.regs.set i d⟩) ∨
      ∃ r, m.act args fr = .ask r fun d => ⟨fr.block, rest, fr.regs.set i d⟩ := by
    unfold act
    rw [hr]
    cases hop' : (m.instr i).op <;> simp_all [Opcode.hasEffect]
  obtain ⟨d, hact⟩ | ⟨r, hact⟩ := hact
  · refine ⟨⟨_, _, .move hr hact⟩, ?_⟩
    rintro x next (⟨-, h⟩ | ⟨-, h⟩ | ⟨-, h⟩) <;> cases hact.symm.trans h
    exact ⟨d, rfl⟩
  · refine ⟨⟨_, _, .ask hr hact .undefined⟩, ?_⟩
    rintro x next (⟨-, h⟩ | ⟨-, h, d⟩ | ⟨-, h⟩) <;> cases hact.symm.trans h
    exact ⟨d, rfl⟩

/-- A definition and the same one without instructions that have no effect and that no others read. -/
structure Relieved (stays : InstrId → Bool) (f : FuncId) (e : BlockId) (m m' : Module) : Prop extends
    Thinned stays id f f m m' where
  before : m.Enclosed f e
  after : m'.Enclosed f e
  reads : ∀ i ∈ m.body f, stays i = true → ∀ j, .instr j ∈ (m.instr i).operands → stays j = true
  idle : ∀ i ∈ m.body f, stays i = false → (m.instr i).op.hasEffect = false

/-- The places of a run and of the run without the instructions that were taken off. -/
structure Beside (m : Module) (e : BlockId) (stays : InstrId → Bool) (fr fr' : Frame) : Prop where
  reached : Reached m.successors e fr.block
  ahead : fr.rest <:+ m.code fr.block
  block : fr'.block = fr.block
  rest : fr'.rest = fr.rest.filter stays
  regs : ∀ j, stays j = true → fr'.regs j = fr.regs j

namespace Beside

variable (h : Beside m e stays fr fr')

include h

theorem stop : Beside m e stays ⟨fr.block, [], fr.regs⟩ ⟨fr'.block, [], fr'.regs⟩ :=
  ⟨h.reached, nil_suffix, h.block, rfl, h.regs⟩

theorem wait {d : Datum} (hr : fr.rest = i :: rest) (hi : stays i = false) :
    Beside m e stays ⟨fr.block, rest, fr.regs.set i d⟩ fr' where
  reached := h.reached
  ahead := (suffix_cons i rest).trans (hr ▸ h.ahead)
  block := h.block
  rest := by rw [h.rest, hr, filter_cons_of_neg (by simp [hi])]
  regs j hj := by
    rw [h.regs j hj]
    refine (if_neg ?_).symm
    rintro rfl
    rw [hi] at hj
    cases hj

end Beside

section Sides

variable (hk : Relieved stays f e m m')

include hk

theorem Relieved.eval {regs regs' : Registers} {v : Value}
    (hregs : ∀ j, stays j = true → regs' j = regs j) (hi : i ∈ m.body f) (hs : stays i = true)
    (hv : v ∈ (m.instr i).operands) : m'.eval args regs' v = m.eval args regs v := by
  refine eval_congr hk.edited.global v fun j hj => hregs j ?_
  subst hj
  exact hk.reads i hi hs j hv

theorem Relieved.same (hi : i ∈ m.body f) (hs : stays i = true) : m'.instr i = m.instr i := by
  rw [hk.instr i hi hs, map_id]

theorem Beside.enter {regs regs' : Registers} (hregs : ∀ j, stays j = true → regs' j = regs j)
    (hr : Reached m.successors e c) :
    Beside m e stays (m.enter args regs b c) (m'.enter args regs' b c) where
  reached := hr
  ahead := suffix_refl _
  block := rfl
  rest := hk.code hk.before hk.after (hk.before.mem_of_reached hr)
  regs j hj := by
    have hc := hk.before.mem_of_reached hr
    simp only [Module.enter, enterRegs, hk.mem_phis hk.before hk.after hc, hj, and_true]
    split
    · rename_i hjc
      rw [hk.incoming? hc hjc hj, Option.map_id]
      cases hv : m.incoming? j b with
      | none => rfl
      | some v =>
        exact hk.eval hregs (mem_flatMap.2 ⟨c, hc, mem_of_mem_phis hjc⟩) hj
          (of_mem_zip (incoming?_mem hv)).1
    · exact hregs j hj

/-- What stays does the same on both sides. -/
theorem Beside.act (h : Beside m e stays fr fr') (hr : fr.rest = i :: rest) (hs : stays i = true)
    (args : List Datum) : (∃ rest', fr'.rest = i :: rest') ∧
      (m.act args fr).Same (Beside m e stays) (m'.act args fr') := by
  have hr' : fr'.rest = i :: rest.filter stays := by rw [h.rest, hr, filter_cons_of_pos hs]
  have hi : i ∈ m.body f :=
    mem_flatMap.2 ⟨fr.block, hk.before.mem_of_reached h.reached, mem_of_ahead h.ahead hr⟩
  have hx := hk.same hi hs
  have hdata : (m'.instr i).operands.map (m'.eval args fr'.regs) =
      (m.instr i).operands.map (m.eval args fr.regs) := by
    rw [hx]
    exact map_congr_left fun v hv => hk.eval h.regs hi hs hv
  have hplain (hop : (m.instr i).op ≠ .br ∧ (m.instr i).op ≠ .condBr) :
      (m.act args fr).Same (Beside m e stays) (m'.act args fr') := by
    refine act_same hr hr' hop (by rw [hx]; exact .refl _) hdata fun regs regs' hafter =>
      ⟨h.reached, (suffix_cons i rest).trans (hr ▸ h.ahead), h.block, rfl, fun j hj => ?_⟩
    cases hafter with
    | same => exact h.regs j hj
    | set d =>
      simp only [Registers.set]
      split
      · rfl
      · exact h.regs j hj
  refine ⟨⟨_, hr'⟩, ?_⟩
  have hstands : m.Stands e fr := ⟨h.reached, h.ahead, by simp [hr]⟩
  cases hstands.next hk.before args with
  | ret ht _ hop =>
    cases hr.symm.trans ht
    exact hplain (by simp [hop])
  | branch ht _ hop hc hchoice =>
    cases hr.symm.trans ht
    rw [act_branch hr hop, act_branch hr' (by rwa [hx]),
      choice_of_data (congrArg _ hx) (congrArg _ hx) hdata, hchoice]
    refine .silent ?_
    rw [h.block]
    exact .enter hk h.regs (h.reached.onward hc)
  | plain ht _ hop _ _ =>
    cases hr.symm.trans ht
    exact hplain (not_branch hop)

theorem Beside.acts_idle (h : Beside m e stays fr fr') (hr : fr.rest = i :: rest)
    (hs : stays i = false) (args : List Datum) : (∃ y next, m.Acts args fr (i, y) next) ∧
      ∀ x next, m.Acts args fr x next → next.rest = rest ∧ Beside m e stays next fr' := by
  have hb := hk.before.mem_of_reached h.reached
  have hop := hk.idle i (mem_flatMap.2 ⟨fr.block, hb, mem_of_ahead h.ahead hr⟩) hs
  have hphi := hk.before.op_of_mem_code hb (h.ahead.subset (hr ▸ mem_cons_self))
  obtain ⟨hacts, hall⟩ := acts_of_no_effect hr hop hphi args
  refine ⟨hacts, fun x next hx => ?_⟩
  obtain ⟨d, rfl⟩ := hall x next hx
  exact ⟨rfl, h.wait hr hs⟩

/-- The shorter run waits for what is taken off, whatever comes of it. -/
theorem Beside.catchUp (h : Beside m e stays fr fr') {rest' : List InstrId}
    (hr' : fr'.rest = i :: rest') (args : List Datum) :
    ∃ g rest skipped, g.rest = i :: rest ∧ stays i = true ∧ Beside m e stays g fr' ∧
      skipped.filter (fun x => stays x.1) = [] ∧
      ∀ log, m.Does args g log → m.Does args fr (skipped ++ log) := by
  induction hr : fr.rest generalizing fr with
  | nil =>
    rw [h.rest, hr] at hr'
    cases hr'
  | cons k rest ih =>
    cases hs : stays k with
    | false =>
      obtain ⟨⟨y, next, hx⟩, hall⟩ := h.acts_idle hk hr hs args
      obtain ⟨hnext, hbeside⟩ := hall _ _ hx
      obtain ⟨g, rest, skipped, hg, hi, hb, hskip, hdoes⟩ := ih hbeside hnext
      refine ⟨g, rest, (k, y) :: skipped, hg, hi, hb, ?_, fun log hlog => .step hx (hdoes log hlog)⟩
      rw [filter_cons_of_neg (by simp [hs]), hskip]
    | true =>
      have hrest := h.rest
      rw [hr, filter_cons_of_pos hs, hr', cons.injEq] at hrest
      obtain ⟨rfl, -⟩ := hrest
      exact ⟨fr, rest, [], hr, hs, h, rfl, fun log hlog => hlog⟩

theorem Does.without (h : Beside m e stays fr fr') (hlog : m.Does args fr log) :
    m'.Does args fr' (log.filter (fun x => stays x.1)) := by
  induction hlog generalizing fr' with
  | rest => exact .rest fr'
  | @step fr next x log hx _ ih =>
    obtain ⟨rest, hr⟩ := hx.rest_eq
    cases hs : stays x.1 with
    | false =>
      rw [filter_cons_of_neg (by simp [hs])]
      exact ih ((h.acts_idle hk hr hs args).2 _ _ hx).2
    | true =>
      obtain ⟨⟨rest', hr'⟩, hsame⟩ := h.act hk hr hs args
      obtain ⟨next', hx', hnext⟩ := hx.same hr' hsame (fun _ _ h => h.block) h.stop
      rw [filter_cons, if_pos hs]
      exact .step hx' (ih hnext)

theorem Does.within (h : Beside m e stays fr fr') (hlog : m'.Does args fr' log) :
    ∃ all, m.Does args fr all ∧ all.filter (fun x => stays x.1) = log := by
  induction hlog generalizing fr with
  | rest => exact ⟨[], .rest fr, rfl⟩
  | @step fr' next' x log hx _ ih =>
    obtain ⟨rest', hr'⟩ := hx.rest_eq
    obtain ⟨g, rest, skipped, hr, hs, hg, hskip, hdoes⟩ := h.catchUp hk hr' args
    obtain ⟨-, hsame⟩ := hg.act hk hr hs args
    obtain ⟨next, hx', hnext⟩ := hx.same hr hsame.flip (fun _ _ h => h.block.symm) hg.stop
    obtain ⟨all, hall, hlog⟩ := ih hnext
    refine ⟨skipped ++ x :: all, hdoes _ (.step hx' hall), ?_⟩
    rw [filter_append, hskip, filter_cons, if_pos hs, hlog, nil_append]

theorem Relieved.performs (log : List (InstrId × Deed)) : m'.Performs f args log ↔
    ∃ all, m.Performs f args all ∧ all.filter (fun x => stays x.1) = log := by
  unfold Performs
  rw [hk.before.begins, hk.after.begins]
  simp only [Option.some.injEq, exists_eq_left']
  have hstart : Beside m e stays ⟨e, m.code e, .empty⟩ ⟨e, m'.code e, .empty⟩ :=
    ⟨.entry, suffix_refl _, rfl, hk.code hk.before hk.after hk.before.entry_mem, fun _ _ => rfl⟩
  constructor
  · exact Does.within hk hstart
  · rintro ⟨all, hall, rfl⟩
    exact hall.without hk hstart

end Sides

/-- Taking off dead instructions ends, loses nothing that could be seen and leaves nothing to take
off. -/
theorem removeDead_keeps_runs (hl : m.Linked) (hok : m.functionReport f = .ok []) :
    ∃ gone, Edited f m (m.removeDead f).2 ∧
      ((m.removeDead f).2.func f).blocks = (m.func f).blocks ∧
      (∀ b, ((m.removeDead f).2.block b).instrs = (m.block b).instrs.filter (· ∉ gone)) ∧
      (∀ i, i ∉ gone → (m.removeDead f).2.instr i = m.instr i) ∧
      (∀ i ∈ gone, i ∈ m.body f ∧ (m.instr i).op.hasEffect = false) ∧
      (∀ rounds, (m.body f).length < rounds → removeDeadRounds f rounds m = m.removeDead f) ∧
      (∀ args log, (m.removeDead f).2.Performs f args log ↔
        ∃ all, m.Performs f args all ∧ all.filter (·.1 ∉ gone) = log) ∧
      (∀ i ∈ (m.removeDead f).2.body f, ((m.removeDead f).2.instr i).op.hasEffect = false →
        ∃ x ∈ (m.removeDead f).2.body f, .instr i ∈ ((m.removeDead f).2.instr x).operands) ∧
      (∀ g, m.functionReport g = .ok [] → (m.removeDead f).2.functionReport g = .ok []) ∧
      ((m.removeDead f).1 = true ↔ gone ≠ []) ∧
      (m.removeDead f).2.removeDead f = (false, (m.removeDead f).2) := by
  obtain ⟨gone, hun, hpure, hdead, heq⟩ := removeDeadRounds_eq (f := f) hl
  have hm := Erased.of_nodup hl hun.nodup hun.inside
  have ht := hm.thinned fun i hi => Opcode.isTerminator_of_no_effect (hpure i hi)
  have hremove : m.removeDead f = (!gone.isEmpty, gone.foldl Module.erase m) :=
    heq _ (Nat.lt_succ_self _)
  rw [hremove]
  generalize gone.foldl Module.erase m = m' at *
  refine ⟨gone, hm.edited, ht.blocks, hm.instrs, hm.instr,
    fun i hi => ⟨hun.inside i hi, hpure i hi⟩, heq, fun args log => ?_, ?_, fun g hg => ?_, ?_, ?_⟩
  · cases he : m.entry? f with
    | none =>
      have he' : m'.entry? f = none := by
        rw [ entry?, hm.func]
        exact he
      simp [Performs, start?, he, he']
    | some e =>
      have hf := (Admitted.of_accepted hl he
        (functionDefects_of_report hok (mem_of_head? he))).toEnclosed
      exact Relieved.performs ⟨ht, hf, ht.enclosed hf (.id hun.reads), hun.reads,
        fun i _ hi => hpure i (by simpa using hi)⟩ log
  · intro i hi hop
    by_contra hno
    have hi : i ∈ m'.dead f := mem_dead.2 ⟨hi, hop, fun x hx hread => hno ⟨x, hx, hread⟩⟩
    rw [hdead] at hi
    cases hi
  · by_cases hgf : g = f
    · subst hgf
      exact ht.accepted hl hun.reads hg
    · exact Thinned.accepted (.other hm.edited hm.linked hgf) hl (fun _ _ _ _ _ => rfl) hg
  · cases gone <;> simp
  · simp [removeDead, removeDeadRounds, hdead]

/-- A comparison that is returned, and one that only a phi reads, which nothing reads. -/
def spareCompare : Module :=
  .single ⟨.i1, [.i64]⟩ ["entry", "end"]
    [(0, .icmp "eq" (.param 0 0) (.int .i64 7)), (0, .icmp "eq" (.param 0 0) (.int .i64 8)),
      (0, .br (some 1)), (1, .phi .i1 [(.instr 1, some 0)]), (1, .ret (.instr 0))]

theorem removeDead_keeps_runs_spareCompare :
    ((spareCompare.removeDead 0).2.block 0).instrs = [0, 2] ∧ ∃ gone, gone ≠ [] ∧
      ∀ args log, (spareCompare.removeDead 0).2.Performs 0 args log ↔
        ∃ all, spareCompare.Performs 0 args all ∧ all.filter (·.1 ∉ gone) = log := by
  obtain ⟨gone, -, -, -, -, -, -, hruns, -, -, hchanged, -⟩ :=
    removeDead_keeps_runs (m := spareCompare) (f := 0) (.single (by decide)) (by cbv)
  exact ⟨by decide, gone, hchanged.1 (by decide), hruns⟩

end Module

end Qirc.IR
