import Qirc.Proofs.IR.Branches.Typed

/-!
# Operands under the rules for branches

No rewrite makes up an operand or a callee: every instruction that is left was there before, calls what
it called, and reads values that instructions of the function read before.
-/

namespace Qirc.IR.Module

variable {m m' : Module} {f : FuncId} {e : BlockId} {P : Value → Prop}

def AllOperands (m : Module) (f : FuncId) (P : Value → Prop) : Prop :=
  ∀ i ∈ m.body f, ∀ v ∈ (m.instr i).operands, P v

variable (hl : m.Linked)

include hl

theorem AllOperands.supplant {i : InstrId} {v : Value} (h : m.AllOperands f P)
    (hv : P v) : (m.supplant f i v).AllOperands f P := by
  intro j hj w hw
  obtain ⟨hj, -⟩ := (supplant_body hl).1 hj
  rw [supplant_instr] at hw
  simp only [if_pos hj, List.mem_map] at hw
  obtain ⟨u, hu, rfl⟩ := hw
  unfold swap
  split
  · exact hv
  · exact h j hj u hu

theorem Rewrite.callee (hf : m.Formed f e) (h : Rewrite f e m m') (i : InstrId) :
    (m'.instr i).callee = (m.instr i).callee := by
  cases h with
  | straighten hb hd =>
    rw [straighten_instr hl hf hb hd]
    split
    · rfl
    · split <;> rfl
  | skip =>
    rw [skipped_eq hl hf]
  | prune hu hp =>
    obtain ⟨vs, ts, hx⟩ := hp.instr_eq i
    rw [hx]
  | dissolve => rw [supplant_instr]
  | splice hj hphi hs => rw [hs.instr]

theorem Rewrite.allOperands (hf : m.Formed f e) (h : Rewrite f e m m')
    (hP : m.AllOperands f P) : m'.AllOperands f P := by
  have hbody := h.body hl
  cases h with
  | straighten hb hd =>
    intro i hi v hv
    refine hP i (hbody i hi) v ?_
    rw [straighten_instr hl hf hb hd] at hv
    split at hv
    · cases hv
    split at hv
    · exact Instr.without_operands hv
    · exact hv
  | skip =>
    intro i hi v hv
    rw [skipped_eq hl hf] at hv
    exact hP i (hbody i hi) v hv
  | prune hu hp =>
    intro i hi v hv
    refine hP i (hbody i hi) v ?_
    rw [hp.instr] at hv
    split at hv
    · exact Instr.withoutAll_operands hv
    · exact hv
  | @dissolve p b t phi v hj hphi hv =>
    exact hP.supplant hl
      (hP phi (hl.mem_body_of_mem hj.block (mem_of_mem_phis hphi)) v (by simp [hv]))
  | splice hj hphi hs =>
    intro i hi v hv
    rw [hs.operands] at hv
    exact hP i (hbody i hi) v hv

theorem Rewrites.invent_nothing (hf : m.Formed f e) (h : Rewrites f e m m') :
    (∀ i ∈ m'.body f, i ∈ m.body f) ∧ (∀ i, (m'.instr i).callee = (m.instr i).callee) ∧
      ∀ P, m.AllOperands f P → m'.AllOperands f P := by
  induction h with
  | refl => exact ⟨fun _ hi => hi, fun _ => rfl, fun _ hP => hP⟩
  | step h hr ih =>
    obtain ⟨hl', hf', -⟩ := h.keeps hl hf
    obtain ⟨hbody, hcallee, hops⟩ := ih
    exact ⟨fun i hi => hbody i (hr.body hl' i hi),
      fun i => (hr.callee hl' hf' i).trans (hcallee i),
      fun P hP => hr.allOperands hl' hf' (hops P hP)⟩

end Qirc.IR.Module
