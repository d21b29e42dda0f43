import Qirc.Proofs.IR.Behaviour
import Qirc.Proofs.IR.Kept

/-!
# The places of a well-formed function

A run of a well-formed function stands in a block that can be reached, behind its phis and in front
of what is left of it. So what comes next is one of three things: a return, a branch to a successor of
the block, or an instruction with more to come behind it.
-/

namespace Qirc.IR.Module

open List

variable {m m' : Module} {f : FuncId} {e b c : BlockId} {i t x : InstrId} {args : List Datum}
  {regs regs' : Registers} {fr fr' : Frame} {rest rest' : List InstrId} {R : Frame → Frame → Prop}

/-! ## Branches and phis -/

def choice (m : Module) (args : List Datum) (regs : Registers) (x : Instr) : Option BlockId :=
  if x.op = .condBr ∧ ((x.operands.map (m.eval args regs)).headD .undefined).isTrue = false then
    x.blocks.getD 1 none
  else x.blocks.headD none

theorem act_branch (hr : fr.rest = i :: rest)
    (hop : (m.instr i).op = .br ∨ (m.instr i).op = .condBr) :
    m.act args fr = m.jump args fr (m.choice args fr.regs (m.instr i)) := by
  obtain hop | hop := hop
  · rw [act_br hr hop, choice, if_neg (by simp [hop])]
  rw [act_condBr hr hop, choice]
  cases (((m.instr i).operands.map (m.eval args fr.regs)).headD .undefined).isTrue with
  | true => simp
  | false => simp [hop]

theorem eval_congr (hg : ∀ k, m'.global k = m.global k) (v : Value)
    (hv : ∀ j, v = .instr j → regs' j = regs j) : m'.eval args regs' v = m.eval args regs v := by
  cases v with
  | instr j => exact hv j rfl
  | global k => simp [eval, hg]
  | string k t => simp [eval, hg]
  | _ => rfl

theorem choice_of_data {x x' : Instr} (hop : x'.op = x.op) (hbl : x'.blocks = x.blocks)
    (hds : x'.operands.map (m'.eval args regs') = x.operands.map (m.eval args regs)) :
    m'.choice args regs' x' = m.choice args regs x := by
  unfold choice
  rw [hop, hbl, hds]

theorem choice_congr (hg : ∀ k, m'.global k = m.global k) (x : Instr) :
    m'.choice args regs x = m.choice args regs x :=
  choice_of_data rfl rfl (map_congr_left fun v _ => eval_congr hg v fun _ _ => rfl)

theorem choice_map (g : BlockId → BlockId) (x : Instr) :
    m.choice args regs { x with blocks := x.blocks.map (Option.map g) } =
      (m.choice args regs x).map g := by
  have hget : ∀ (l : List (Option BlockId)) (n : Nat),
      (l.map (Option.map g)).getD n none = (l.getD n none).map g := by
    intro l n
    simp only [getD_eq_getElem?_getD, getElem?_map]
    cases l[n]? <;> rfl
  have hhead : ∀ l : List (Option BlockId),
      (l.map (Option.map g)).headD none = (l.headD none).map g := by
    intro l
    cases l <;> rfl
  unfold choice
  split <;> simp only [hget, hhead]

theorem code_congr (hi : (m'.block c).instrs = (m.block c).instrs)
    (ho : ∀ i, (m'.instr i).op = .phi ↔ (m.instr i).op = .phi) :
    m'.code c = m.code c ∧ m'.phis c = m.phis c := by
  have hp : (fun i => (m'.instr i).op == .phi) = fun i => (m.instr i).op == .phi := by
    funext i
    rw [Bool.eq_iff_iff, beq_iff_eq, beq_iff_eq]
    exact ho i
  unfold code phis
  rw [hi, hp]
  exact ⟨rfl, rfl⟩

theorem incoming?_filter {p : Value × Option BlockId → Bool} (hp : ∀ v, p (v, some b) = true)
    (hx : (m'.instr x).operands.zip (m'.instr x).blocks =
      ((m.instr x).operands.zip (m.instr x).blocks).filter p) :
    m'.incoming? x b = m.incoming? x b := by
  unfold incoming?
  rw [hx, find?_filter]
  congr 2
  funext entry
  obtain ⟨v, u⟩ := entry
  by_cases hu : u = some b
  · simp [hu, hp]
  · simp [hu]

theorem enterRegs_of_no_phis (h : m.phis c = []) : m.enterRegs args regs b c = regs := by
  funext i
  simp [enterRegs, h]

theorem enter_congr (hcode : m'.code c = m.code c) (hphis : m'.phis c = m.phis c)
    (hg : ∀ k, m'.global k = m.global k)
    (hin : ∀ x ∈ m.phis c, m'.incoming? x b = m.incoming? x b) :
    m'.enter args regs b c = m.enter args regs b c := by
  unfold enter
  congr 1
  funext i
  unfold enterRegs
  rw [hphis]
  split
  · rename_i hi
    have heval : m'.eval args regs = m.eval args regs :=
      funext fun v => eval_congr hg v fun _ _ => rfl
    rw [hin i hi, heval]
  · rfl

/-! ## Places -/

structure Stands (m : Module) (e : BlockId) (fr : Frame) : Prop where
  reached : Reached m.successors e fr.block
  ahead : fr.rest <:+ m.code fr.block
  more : fr.rest ≠ []

inductive Next (m : Module) (e : BlockId) (args : List Datum) (fr : Frame) : Prop
  | ret {t : InstrId} (hr : fr.rest = [t]) (ht : m.terminator? fr.block = some t)
      (hop : (m.instr t).op = .ret)
  | branch {t : InstrId} {c : BlockId} (hr : fr.rest = [t]) (ht : m.terminator? fr.block = some t)
      (hop : (m.instr t).op = .br ∨ (m.instr t).op = .condBr) (hc : c ∈ m.successors fr.block)
      (hchoice : m.choice args fr.regs (m.instr t) = some c)
  | plain {i : InstrId} {rest : List InstrId} (hr : fr.rest = i :: rest)
      (hi : i ∈ (m.block fr.block).instrs) (hop : (m.instr i).op.isTerminator = false)
      (hphi : (m.instr i).op ≠ .phi) (hs : ∀ regs, m.Stands e ⟨fr.block, rest, regs⟩)

section Standing

variable (hf : m.Enclosed f e)

theorem code_suffix (m : Module) (b : BlockId) : m.code b <:+ (m.block b).instrs :=
  dropWhile_suffix _

theorem mem_of_ahead (ha : fr.rest <:+ m.code fr.block) (hr : fr.rest = i :: rest) :
    i ∈ (m.block fr.block).instrs :=
  (ha.trans (code_suffix m fr.block)).subset (by simp [hr])

theorem mem_phis_or_code (hi : i ∈ (m.block b).instrs) : i ∈ m.phis b ∨ i ∈ m.code b := by
  rw [← takeWhile_append_dropWhile (p := fun i => (m.instr i).op == .phi)
    (l := (m.block b).instrs)] at hi
  exact mem_append.1 hi

include hf

theorem Enclosed.code_eq (hb : b ∈ (m.func f).blocks) :
    m.code b = (m.block b).instrs.filter (fun i => (m.instr i).op != .phi) :=
  (phis_eq_filter (hf.phisFirst b hb)).2

theorem Enclosed.op_of_mem_code (hb : b ∈ (m.func f).blocks) (hi : i ∈ m.code b) :
    (m.instr i).op ≠ .phi := by
  rw [hf.code_eq hb, mem_filter, bne_iff_ne] at hi
  exact hi.2

theorem Enclosed.begins : m.start? f = some ⟨e, m.code e, .empty⟩ := by
  simp [start?, hf.entry]

theorem Enclosed.stands (hb : Reached m.successors e b) (regs : Registers) :
    m.Stands e ⟨b, m.code b, regs⟩ where
  reached := hb
  ahead := suffix_refl _
  more := by
    obtain ⟨t, ht⟩ := hf.ended b (hf.mem_of_reached hb)
    refine ne_nil_of_mem (a := t) ?_
    rw [hf.code_eq (hf.mem_of_reached hb), mem_filter, bne_iff_ne]
    exact ⟨terminator?_mem ht, terminator?_ne_phi ht⟩

theorem Enclosed.choice_mem (hb : b ∈ (m.func f).blocks) (ht : m.terminator? b = some t)
    (hop : (m.instr t).op = .br ∨ (m.instr t).op = .condBr) (args : List Datum)
    (regs : Registers) : ∃ c ∈ m.successors b, m.choice args regs (m.instr t) = some c := by
  simp only [mem_successors, targets_of_terminator ht]
  unfold choice
  obtain hop | hop := hop
  · obtain ⟨c, -, hbl⟩ := hf.br hb (terminator?_mem ht) ht hop
    refine ⟨c, by simp [hbl], ?_⟩
    rw [if_neg (by simp [hop]), hbl]
    rfl
  · obtain ⟨v, yes, no, -, hbl, -⟩ := hf.condBr hb ht hop
    rw [hbl]
    split
    · exact ⟨no, by simp, rfl⟩
    · exact ⟨yes, by simp, rfl⟩

theorem Stands.next (hs : m.Stands e fr) (args : List Datum) : m.Next e args fr := by
  have hb := hf.mem_of_reached hs.reached
  obtain ⟨i, rest, hr⟩ := exists_cons_of_ne_nil hs.more
  obtain ⟨done, hcode⟩ := hs.ahead
  rw [hr] at hcode
  have hi : i ∈ m.code fr.block := by simp [← hcode]
  obtain ⟨front, hinstrs⟩ := code_suffix m fr.block
  rw [← hcode] at hinstrs
  cases rest with
  | nil =>
    have hlast : (m.block fr.block).instrs.getLast? = some i := by
      rw [← hinstrs, ← append_assoc, getLast?_concat]
    obtain ⟨t, ht⟩ := hf.ended _ hb
    obtain ⟨hlast', hop⟩ := terminator?_eq_some.1 ht
    cases hlast.symm.trans hlast'
    cases hop' : (m.instr i).op with
    | ret => exact .ret hr ht hop'
    | br =>
      obtain ⟨c, hc, hchoice⟩ := hf.choice_mem hb ht (.inl hop') args fr.regs
      exact .branch hr ht (.inl hop') hc hchoice
    | condBr =>
      obtain ⟨c, hc, hchoice⟩ := hf.choice_mem hb ht (.inr hop') args fr.regs
      exact .branch hr ht (.inr hop') hc hchoice
    | _ =>
      rw [hop'] at hop
      cases hop
  | cons j rest =>
    have hpair : [i, j].Sublist (m.block fr.block).instrs := by
      rw [← hinstrs, ← append_assoc]
      exact sublist_append_of_sublist_right (.cons_cons i (.cons_cons j (nil_sublist rest)))
    refine .plain hr ((code_suffix m fr.block).subset hi) (hf.inner _ hb i j hpair)
      (hf.op_of_mem_code hb hi) fun regs => ⟨hs.reached, ⟨done ++ [i], ?_⟩, by simp⟩
    simp [← hcode]

end Standing

section Thinning

variable {stays : InstrId → Bool} {σ : Value → Value} {g : FuncId} (ht : Thinned stays σ g f m m')
  (hf : m.Enclosed f e) (hf' : m'.Enclosed f e) (hc : c ∈ (m.func f).blocks)

include ht hc

theorem Thinned.incoming? (hi : i ∈ m.phis c) (hs : stays i = true) :
    m'.incoming? i b = (m.incoming? i b).map σ := by
  unfold Module.incoming?
  rw [ht.instr i (mem_flatMap.2 ⟨c, hc, mem_of_mem_phis hi⟩) hs]
  simp only [zip_map_left, find?_map, Option.map_map]
  rfl

include hf hf'

theorem Thinned.code : m'.code c = (m.code c).filter stays := by
  rw [hf.code_eq hc, hf'.code_eq (by rwa [ht.blocks]), ht.instrs c hc, filter_filter, filter_filter]
  refine filter_congr fun i hi => ?_
  cases hs : stays i with
  | true => rw [ht.instr i (mem_flatMap.2 ⟨c, hc, hi⟩) hs, Bool.and_comm]
  | false => rw [Bool.and_false, Bool.false_and]

theorem Thinned.mem_phis : i ∈ m'.phis c ↔ i ∈ m.phis c ∧ stays i = true := by
  rw [hf.mem_phis hc, hf'.mem_phis (by rwa [ht.blocks]), ht.instrs c hc, mem_filter, and_right_comm]
  refine and_congr_left fun hs => and_congr_right fun hi => ?_
  rw [ht.instr i (mem_flatMap.2 ⟨c, hc, hi⟩) hs]

end Thinning

/-! ## Doing the same -/

/-- The instructions do the same with the same data, branches apart. -/
structure SameKind (x x' : Instr) : Prop where
  op : x'.op = x.op
  ty : x'.ty = x.ty
  callee : x'.callee = x.callee
  relation : x'.relation = x.relation
  elem : x'.elem = x.elem

theorem SameKind.refl (x : Instr) : SameKind x x := ⟨rfl, rfl, rfl, rfl, rfl⟩

/-- The registers after an instruction that both versions have, with the same result if there is one. -/
inductive After (i : InstrId) (regs regs' : Registers) : Registers → Registers → Prop
  | same : After i regs regs' regs regs'
  | set (d : Datum) : After i regs regs' (regs.set i d) (regs'.set i d)

theorem not_branch {op : Opcode} (h : op.isTerminator = false) : op ≠ .br ∧ op ≠ .condBr := by
  constructor <;> (rintro rfl; cases h)

theorem act_same (hr : fr.rest = i :: rest) (hr' : fr'.rest = i :: rest')
    (hop : (m.instr i).op ≠ .br ∧ (m.instr i).op ≠ .condBr)
    (hx : SameKind (m.instr i) (m'.instr i))
    (hds : (m'.instr i).operands.map (m'.eval args fr'.regs) =
      (m.instr i).operands.map (m.eval args fr.regs))
    (hR : ∀ regs regs', After i fr.regs fr'.regs regs regs' →
      R ⟨fr.block, rest, regs⟩ ⟨fr'.block, rest', regs'⟩) :
    (m.act args fr).Same R (m'.act args fr') := by
  have hset := fun d => hR _ _ (.set d)
  unfold act
  simp only [hr, hr', hds, hx.op, hx.ty, hx.callee, hx.elem]
  cases hop' : (m.instr i).op with
  | ret => exact .ret _
  | br => exact absurd hop' hop.1
  | condBr => exact absurd hop' hop.2
  | phi => exact .stuck
  | call =>
    cases (m.instr i).callee with
    | some g => exact .ask _ hset
    | none => exact .stuck
  | load => exact .ask _ hset
  | store => exact .ask _ fun _ => hR _ _ .same
  | alloca => exact .ask _ hset
  | _ =>
    refine .silent ?_
    have hcompute : ∀ ds, (m'.instr i).compute ds = (m.instr i).compute ds := by
      intro ds
      unfold Instr.compute
      rw [hx.op, hx.relation, hx.ty]
    rw [hcompute]
    exact hset _

end Qirc.IR.Module
