import Qirc.Proofs.IR.Branches.Rewrites
import Qirc.Proofs.IR.Typing

/-!
# Types under the rules for branches

No rewrite gives an instruction another type, and the only operands that change are the condition of a
branch that becomes plain, the entries of phis, and those that named a phi which gave way.
-/

namespace Qirc.IR

theorem Instr.withoutAll_operands {x : Instr} {ps : List BlockId} {v : Value}
    (h : v ∈ (x.withoutAll ps).operands) : v ∈ x.operands := by
  induction ps generalizing x with
  | nil => exact h
  | cons p ps ih => exact Instr.without_operands (ih h)

namespace Module

variable {m m' : Module} {f : FuncId} {e : BlockId}

theorem Rewrite.typed (hl : m.Linked) (hf : m.Formed f e) (h : Rewrite f e m m') :
    m.SameEnds m' ∧ (m.Typed f → m'.Typed f) := by
  obtain ⟨hl', -, hm⟩ := h.keeps hl hf
  have hbody := h.body hl
  cases h with
  | @straighten b keep t lost hb hd =>
    have hends : m.SameEnds (m.straighten b t keep lost) := straighten_ends hl hf hb hd
    refine ⟨hends, fun htyped i hi => ?_⟩
    have hsound := htyped i (hbody i hi)
    have hinstr := straighten_instr hl hf hb hd i
    split at hinstr
    · rename_i hit
      exact hsound.br (by rw [hit]; exact hd.op) (by rw [hinstr]) (by rw [hinstr]) (by rw [hinstr])
    split at hinstr
    · rename_i hlost
      obtain ⟨-, -, -, hphi⟩ := hd.lost_phi hf hb hlost
      refine hsound.phi hm hends ?_ ?_ fun v hv => ?_
      · rw [hinstr]
        exact hphi
      · rw [hinstr]
        rfl
      · rw [hinstr] at hv
        exact Instr.without_operands hv
    · rw [hinstr]
      exact hsound.edited hm hends
  | skip =>
    have hends : m.SameEnds (m.skipped f) := fun i => by rw [skipped_eq hl hf]
    refine ⟨hends, fun htyped i hi => ?_⟩
    rw [skipped_eq hl hf]
    exact (htyped i (hbody i hi)).congr hm hends rfl rfl rfl rfl
  | @prune bs m' hu hp =>
    have hends : m.SameEnds m' := by
      intro i
      obtain ⟨vs, ts, hx⟩ := hp.instr_eq i
      rw [hx]
    refine ⟨hends, fun htyped i hi => ?_⟩
    have hsound := htyped i (hbody i hi)
    have hinstr := hp.instr i
    split at hinstr
    · rename_i hphi
      refine hsound.phi hm hends ?_ (hm.ty i) fun v hv => ?_
      · rw [hp.op]
        exact hphi.2
      · rw [hinstr] at hv
        exact Instr.withoutAll_operands hv
    · rw [hinstr]
      exact hsound.edited hm hends
  | dissolve hj hphi hv =>
    have hi := hl.mem_body_of_mem hj.block (mem_of_mem_phis hphi)
    exact ⟨SameEnds.supplant, fun htyped => htyped.thinned (hj.thinned hl hphi) SameEnds.supplant
      (hj.fills hl hf hphi hv) ((htyped _ hi).solid _ (by simp [hv])).swap⟩
  | @splice p b t m' hj hphi hs =>
    have hends : m.SameEnds m' := fun i => by rw [hs.op]
    refine ⟨hends, fun htyped i hi => ?_⟩
    rw [hs.instr]
    exact (htyped i (hbody i hi)).congr hm hends rfl rfl rfl rfl

theorem Rewrites.typed (hl : m.Linked) (hf : m.Formed f e) (h : Rewrites f e m m') :
    m.SameEnds m' ∧ (m.Typed f → m'.Typed f) := by
  induction h with
  | refl => exact ⟨.refl m, id⟩
  | step h hr ih =>
    obtain ⟨hl', hf', -⟩ := h.keeps hl hf
    obtain ⟨hends, htyped⟩ := hr.typed hl' hf'
    exact ⟨ih.1.trans hends, fun ht => htyped (ih.2 ht)⟩

end Module

end Qirc.IR
