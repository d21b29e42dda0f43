import Qirc.Proofs.IR.Branches.Forward
import Qirc.Proofs.IR.Branches.Joined
import Qirc.Proofs.IR.Branches.Removal
import Qirc.Proofs.IR.Branches.Straighten

/-!
# The rules as rewrites

Everything that the rules for branches do to a function is one of five rewrites. What holds after
each of the five holds after every run of the rules.
-/

namespace Qirc.IR.Module

open List

/-- One application of a rule to a function with its entry. -/
inductive Rewrite (f : FuncId) (e : BlockId) (m : Module) : Module → Prop
  | straighten {b keep : BlockId} {t : InstrId} {lost : List InstrId}
      (hb : b ∈ (m.func f).blocks) (hd : Decided m b t keep lost) :
      Rewrite f e m (m.straighten b t keep lost)
  | skip : Rewrite f e m (m.skipped f)
  | prune {bs : List BlockId} {m' : Module} (hu : Unreached m f e bs) (hp : Pruned m f bs m') :
      Rewrite f e m m'
  | dissolve {p b : BlockId} {t phi : InstrId} {v : Value} (hj : Joint m f e p b t)
      (hphi : phi ∈ m.phis b) (hv : (m.instr phi).operands = [v]) :
      Rewrite f e m (m.supplant f phi v)
  | splice {p b : BlockId} {t : InstrId} {m' : Module} (hj : Joint m f e p b t)
      (hphi : m.phis b = []) (hs : Spliced m f p b t m') : Rewrite f e m m'

inductive Rewrites (f : FuncId) (e : BlockId) (m : Module) : Module → Prop
  | refl : Rewrites f e m m
  | step {m' m'' : Module} (h : Rewrites f e m m') (hr : Rewrite f e m' m'') : Rewrites f e m m''

variable {m m' m'' : Module} {f : FuncId} {e p b c : BlockId} {t phi : InstrId} {v : Value}

theorem Rewrites.trans (h : Rewrites f e m m') (h' : Rewrites f e m' m'') : Rewrites f e m m'' := by
  induction h' with
  | refl => exact h
  | step _ hr ih => exact ih.step hr

theorem Rewrites.single (h : Rewrite f e m m') : Rewrites f e m m' := .step .refl h

/-! ## Phis with one entry -/

section Dissolving

variable (hl : m.Linked) (hf : m.Formed f e) (hj : Joint m f e p b t) (hphi : phi ∈ m.phis b)

include hf hj hphi

theorem Joint.phi_value :
    ∃ v, (m.instr phi).operands = [v] ∧ m.typeOf v = (m.instr phi).ty ∧ v ≠ .missing := by
  have hok := hf.phis b hj.block phi (mem_of_mem_phis hphi) (op_of_mem_phis hphi)
  rw [hj.preds] at hok
  have hlen : (m.instr phi).operands.length = 1 := by
    rw [hok.length, hok.blocks.length_eq]
    rfl
  obtain ⟨v, hv⟩ := length_eq_one_iff.1 hlen
  obtain ⟨hmissing, hty⟩ := operandType_eq_ok.1 (hok.types v (by simp [hv]))
  exact ⟨v, hv, hty, hmissing⟩

include hl

theorem Joint.phi_ready (hv : (m.instr phi).operands = [v]) : m.Ready f e b phi v := by
  refine hf.phi_ready hl hj.block (hj.ne_entry hf) (mem_of_mem_phis hphi) (op_of_mem_phis hphi)
    hj.reached fun w u hw => .inl ?_
  rw [hv] at hw
  simpa using (of_mem_zip hw).1

omit hf in
theorem Joint.thinned : Thinned (· ≠ phi) (swap phi v) f f m (m.supplant f phi v) :=
  .supplant hl hj.block (mem_of_mem_phis hphi) (by rw [op_of_mem_phis hphi]; rfl)

theorem Joint.fills (hv : (m.instr phi).operands = [v]) :
    Fills (· ≠ phi) (swap phi v) f e m := by
  obtain ⟨w, hw, hty, hmissing⟩ := hj.phi_value hf hphi
  cases hv.symm.trans hw
  exact .supplant hl (mem_of_mem_phis hphi) (by rw [op_of_mem_phis hphi]; rfl) hty hmissing
    fun _ => hj.phi_ready hl hf hphi hv

theorem Formed.dissolved (hv : (m.instr phi).operands = [v]) : (m.supplant f phi v).Formed f e :=
  (hj.thinned hl hphi).formed hl (fun _ => by rw [supplant_op]) (hj.fills hl hf hphi hv) hf

end Dissolving

/-! ## What every rewrite keeps -/

theorem Rewrite.keeps (hl : m.Linked) (hf : m.Formed f e) (h : Rewrite f e m m') :
    m'.Linked ∧ m'.Formed f e ∧ Edited f m m' := by
  cases h with
  | straighten hb hd =>
    exact ⟨hl.straighten hf hb hd, hf.straighten hl hb hd, Edited.straighten hl hf hb hd⟩
  | skip => exact ⟨hl.skipped hf, hf.skipped hl, Edited.skipped hl hf⟩
  | prune hu hp =>
    have hbs := fun b hb => ((hu b).1 hb).1
    exact ⟨hp.linked hl hbs, hf.pruned hl hu hp, hp.edited hl hbs⟩
  | dissolve hj hphi hv =>
    exact ⟨hl.supplant, hf.dissolved hl hj hphi hv,
      Edited.supplant hl (hl.mem_body_of_mem hj.block (mem_of_mem_phis hphi))⟩
  | splice hj hphi hs =>
    exact ⟨hs.linked hl hj, hf.spliced hl hj hphi hs, hs.edited hl hj⟩

theorem Rewrite.body (hl : m.Linked) (h : Rewrite f e m m') : ∀ i ∈ m'.body f, i ∈ m.body f := by
  intro i hi
  cases h with
  | straighten hb hd => simpa only [body, straighten_func, straighten_block] using hi
  | skip => simpa only [body, skipped_func, skipped_block] using hi
  | prune hu hp =>
    obtain ⟨b, hb, hib⟩ := mem_flatMap.1 hi
    rw [hp.instrs] at hib
    exact hl.mem_body_of_mem (hp.mem_blocks.1 hb).1 hib
  | dissolve => exact ((supplant_body hl).1 hi).1
  | splice hj hphi hs =>
    obtain ⟨c, hc, hic⟩ := mem_flatMap.1 hi
    obtain ⟨-, -, d, hid, hdc⟩ := (hs.mem_instrs hl hj).1 hic
    obtain rfl | rfl := absorbed_eq hdc
    · exact hl.mem_body_of_mem hj.block hid
    · exact hl.mem_body_of_mem (hs.mem_blocks.1 hc).1 hid

theorem Rewrites.keeps (hl : m.Linked) (hf : m.Formed f e) (h : Rewrites f e m m') :
    m'.Linked ∧ m'.Formed f e ∧ Edited f m m' := by
  induction h with
  | refl => exact ⟨hl, hf, Edited.refl f m⟩
  | step _ hr ih =>
    obtain ⟨hl', hf', hm⟩ := ih
    obtain ⟨hl'', hf'', hm'⟩ := hr.keeps hl' hf'
    exact ⟨hl'', hf'', hm.trans hm'⟩

end Qirc.IR.Module
