import Qirc.Proofs.IR.Branches.Rewrites
import Qirc.Proofs.IR.Scopes

/-!
# Phis that give way to their only value

While control is in blocks that the block of the phi dominates, the register of the phi holds what its
value stands for: it was set so on the way in, and what the value reads is set in no such block. All
uses of the phi are in these blocks or on edges out of them.
-/

namespace Qirc.IR.Module

open List

variable {m : Module} {f : FuncId} {e p b a c : BlockId} {t x i : InstrId} {v w : Value}
  {args : List Datum} {regs regs' : Registers} {fr fr' : Frame}

/-- The places of both versions, as long as the phi is worth its value. -/
structure Dissolved (m : Module) (e b : BlockId) (x : InstrId) (v : Value) (args : List Datum)
    (fr fr' : Frame) : Prop where
  stands : m.Stands e fr
  block : fr'.block = fr.block
  rest : fr'.rest = fr.rest
  regs : ∀ j, j ≠ x → fr'.regs j = fr.regs j
  worth : Dominates m.successors e b fr.block → fr.regs x = m.eval args fr.regs v

section Dissolving

variable (hl : m.Linked) (hf : m.Formed f e) (hj : Joint m f e p b t) (hx : x ∈ m.phis b)
  (hv : (m.instr x).operands = [v])

include hf hj hx hv

theorem Joint.phi_entries : (m.instr x).operands.zip (m.instr x).blocks = [(v, some p)] := by
  have hok := hf.phis b hj.block x (mem_of_mem_phis hx) (op_of_mem_phis hx)
  have hblocks : (m.instr x).blocks = [some p] := by
    have hperm := hok.blocks
    rw [hj.preds] at hperm
    exact perm_singleton.1 hperm
  rw [hv, hblocks]
  rfl

include hl

theorem Joint.untouched (hi : i ∈ (m.block c).instrs) (hop : (m.instr i).op.isTerminator = false)
    (hd : Dominates m.successors e b c) : v ≠ .instr i := by
  rintro rfl
  have hcarried := hf.takes b hj.block x (mem_of_mem_phis hx) (op_of_mem_phis hx) (.instr i) p
    (by simp [hj.phi_entries hf hx hv]) (hj.pred_reached hf)
  obtain ⟨-, hdom⟩ := hcarried.resolve_left (not_idle hop)
  obtain ⟨h, hp, hd'⟩ := hdom i rfl
  cases ((hl.instr c i).1 hi).symm.trans hp
  exact hj.not_dominates hf (hd.trans hd')

theorem Joint.value_ne : v ≠ .instr x :=
  hj.untouched hl hf hx hv (mem_of_mem_phis hx) (by rw [op_of_mem_phis hx]; rfl) (.refl b)

omit hf hj hv in
theorem ready_dominated (hr : m.Ready f e c i (.instr x)) : Dominates m.successors e b c := by
  obtain ⟨-, hdom⟩ := hr.resolve_left (not_idle (by rw [op_of_mem_phis hx]; rfl))
  obtain ⟨h, hp, hd⟩ := hdom x rfl
  cases ((hl.instr b x).1 (mem_of_mem_phis hx)).symm.trans hp
  obtain ⟨rfl, -⟩ | ⟨-, hd⟩ := hd
  · exact .refl b
  · exact hd

omit hf hj hv in
theorem carried_dominated (hr : m.Carried f e c (.instr x)) : Dominates m.successors e b c := by
  obtain ⟨-, hdom⟩ := hr.resolve_left (not_idle (by rw [op_of_mem_phis hx]; rfl))
  obtain ⟨h, hp, hd⟩ := hdom x rfl
  cases ((hl.instr b x).1 (mem_of_mem_phis hx)).symm.trans hp
  exact hd

theorem Dissolved.eval_swap (hd : Dissolved m e b x v args fr fr')
    (hw : w = .instr x → Dominates m.successors e b fr.block) :
    (m.supplant f x v).eval args fr'.regs (swap x v w) = m.eval args fr.regs w := by
  have hedited := Edited.supplant (v := v) hl (hl.mem_body_of_mem hj.block (mem_of_mem_phis hx))
  have hsame : ∀ w, w ≠ .instr x →
      (m.supplant f x v).eval args fr'.regs w = m.eval args fr.regs w := by
    intro w hne
    refine eval_congr hedited.global w fun j hj => hd.regs j ?_
    rintro rfl
    exact hne hj
  unfold swap
  split
  · rename_i h
    subst h
    rw [hsame v (hj.value_ne hl hf hx hv)]
    exact (hd.worth (hw rfl)).symm
  · rename_i h
    exact hsame w h

theorem Dissolved.data (hd : Dissolved m e b x v args fr fr')
    (hi : i ∈ (m.block fr.block).instrs) (hop : (m.instr i).op ≠ .phi) :
    ((m.supplant f x v).instr i).operands.map ((m.supplant f x v).eval args fr'.regs) =
      (m.instr i).operands.map (m.eval args fr.regs) := by
  have hB := hf.mem_of_reached hd.stands.reached
  rw [supplant_instr]
  simp only [if_pos (hl.mem_body_of_mem hB hi), map_map]
  refine map_congr_left fun w hw => ?_
  refine hd.eval_swap hl hf hj hx hv ?_
  rintro rfl
  exact ready_dominated hl hx (hf.reads _ hB hd.stands.reached i hi hop _ hw)

theorem supplant_code (hc : c ∈ (m.func f).blocks) : (m.supplant f x v).code c = m.code c := by
  have hf' := hf.dissolved hl hj hx hv
  rw [(hj.thinned hl hx).code hf.toEnclosed hf'.toEnclosed hc, filter_eq_self]
  refine fun y hy => decide_eq_true ?_
  rintro rfl
  exact hf.op_of_mem_code hc hy (op_of_mem_phis hx)

theorem Dissolved.incoming {y : InstrId} (hd : Dissolved m e b x v args fr fr')
    (hc : c ∈ (m.func f).blocks) (hy : y ∈ m.phis c) (hyx : y ≠ x) :
    ((m.supplant f x v).incoming? y fr.block).map ((m.supplant f x v).eval args fr'.regs) =
      (m.incoming? y fr.block).map (m.eval args fr.regs) := by
  rw [(hj.thinned hl hx).incoming? hc hy (decide_eq_true hyx), Option.map_map]
  cases hin : m.incoming? y fr.block with
  | none => rfl
  | some w =>
    refine congrArg some (hd.eval_swap hl hf hj hx hv ?_)
    rintro rfl
    exact carried_dominated hl hx (hf.takes c hc y (mem_of_mem_phis hy) (op_of_mem_phis hy) _ _
      (incoming?_mem hin) hd.stands.reached)

theorem Joint.eval_enterRegs (hdom : Dominates m.successors e b c) :
    m.eval args (m.enterRegs args regs a c) v = m.eval args regs v := by
  refine eval_congr (fun _ => rfl) v fun j hvj => if_neg fun hjc => ?_
  refine hj.untouched hl hf hx hv (mem_of_mem_phis hjc) ?_ hdom hvj
  rw [op_of_mem_phis hjc]
  rfl

theorem Dissolved.enter (hd : Dissolved m e b x v args fr fr') (hc : c ∈ m.successors fr.block) :
    Dissolved m e b x v args (m.enter args fr.regs fr.block c)
      ((m.supplant f x v).enter args fr'.regs fr'.block c) := by
  have haB := hf.mem_of_reached hd.stands.reached
  have hcB := hf.closed haB hc
  refine ⟨hf.stands (hd.stands.reached.onward hc) _, rfl, supplant_code hl hf hj hx hv hcB,
    fun y hy => ?_, fun hdom => ?_⟩
  · have hmem := (hj.thinned hl hx).mem_phis (i := y) hf.toEnclosed
      (hf.dissolved hl hj hx hv).toEnclosed hcB
    simp only [Module.enter, enterRegs, hmem, hd.block]
    by_cases hyc : y ∈ m.phis c
    · rw [if_pos ⟨hyc, decide_eq_true hy⟩, if_pos hyc, hd.incoming hl hf hj hx hv hcB hyc hy]
    · rw [if_neg fun h => hyc h.1, if_neg hyc, hd.regs y hy]
  · change Dominates m.successors e b c at hdom
    change m.enterRegs args fr.regs fr.block c x = m.eval args (m.enterRegs args fr.regs _ c) v
    rw [hj.eval_enterRegs hl hf hx hv hdom]
    unfold enterRegs
    by_cases hcb : c = b
    · subst hcb
      have hp : fr.block = p := hj.eq_of_target haB (mem_successors.1 hc)
      have hin : m.incoming? x fr.block = some v := by
        simp [incoming?, hj.phi_entries hf hx hv, hp]
      rw [if_pos hx, hin]
      rfl
    · have hxc : x ∉ m.phis c := fun h =>
        hcb (hl.block_unique (mem_of_mem_phis h) (mem_of_mem_phis hx))
      rw [if_neg hxc]
      exact hd.worth (hdom.pred hc hcb)

theorem Dissolved.accords (args : List Datum) :
    Accords m (m.supplant f x v) args (Dissolved m e b x v args) := by
  intro fr fr' hd
  refine ⟨fr, fr', .refl fr, .refl fr', ?_⟩
  cases hd.stands.next hf.toEnclosed args with
  | @ret t hr ht hop =>
    rw [act_ret hr hop, act_ret (hd.rest.trans hr) (by rw [supplant_op, hop]),
      hd.data hl hf hj hx hv (terminator?_mem ht) (by simp [hop])]
    exact .ret _
  | @branch t c hr ht hop hc hchoice =>
    have hphi : (m.instr t).op ≠ .phi := by rintro h; simp [h] at hop
    have hchoice' : (m.supplant f x v).choice args fr'.regs ((m.supplant f x v).instr t) = some c := by
      rw [← hchoice]
      exact choice_of_data supplant_op supplant_blocks
        (hd.data hl hf hj hx hv (terminator?_mem ht) hphi)
    rw [act_branch hr hop, act_branch (hd.rest.trans hr) (by rw [supplant_op]; exact hop), hchoice,
      hchoice']
    exact .silent (hd.enter hl hf hj hx hv hc)
  | @plain i rest hr hi hop hphi hnext =>
    have hix : i ≠ x := by
      rintro rfl
      exact hphi (op_of_mem_phis hx)
    refine act_same hr (hd.rest.trans hr) (not_branch hop) ?_ (hd.data hl hf hj hx hv hi hphi) ?_
    · rw [supplant_instr]
      exact ⟨rfl, rfl, rfl, rfl, rfl⟩
    · rintro _ _ (_ | d)
      · exact ⟨hnext _, hd.block, rfl, hd.regs, hd.worth⟩
      · refine ⟨hnext _, hd.block, rfl, fun j hjx => ?_, fun hdom => ?_⟩
        · simp [Registers.set, hd.regs j hjx]
        · have hne := hj.untouched hl hf hx hv hi hop hdom
          have heval : m.eval args (fr.regs.set i d) v = m.eval args fr.regs v := by
            refine eval_congr (fun _ => rfl) v fun j hvj => if_neg ?_
            rintro rfl
            exact hne hvj
          rw [heval, ← hd.worth hdom]
          exact if_neg (Ne.symm hix)

theorem Alike.dissolve : Alike f m (m.supplant f x v) := by
  have hstart' : (m.supplant f x v).start? f = some ⟨e, m.code e, Registers.empty⟩ := by
    simp [start?, (hf.dissolved hl hj hx hv).entry, supplant_code hl hf hj hx hv hf.entry_mem]
  exact .of_accords hf.begins hstart' (fun args => ⟨hf.stands Reached.entry _, rfl, rfl, fun _ _ => rfl,
    fun hdom => absurd hdom.eq_entry (hj.ne_entry hf)⟩) (Dissolved.accords hl hf hj hx hv)

end Dissolving

end Qirc.IR.Module
