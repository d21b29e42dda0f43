import Mathlib.Data.List.Nodup
import Qirc.IR.Pass.DeadCode
import Qirc.Proofs.IR.Substitution

/-!
# Dead instructions

The instructions taken off in all rounds together have no effect and are read by one another only.
Every round but the last takes one off, so no more rounds are needed than there are instructions.
-/

namespace Qirc.IR

open List

theorem Opcode.isTerminator_of_no_effect {op : Opcode} (h : op.hasEffect = false) :
    op.isTerminator = false := by
  cases op <;> first | rfl | cases h

namespace Module

variable {m m' : Module} {f : FuncId} {e : BlockId} {i : InstrId} {gone more : List InstrId}

theorem Linked.body_nodup (hl : m.Linked) (f : FuncId) : (m.body f).Nodup := by
  refine nodup_flatMap.2 ⟨fun b _ => hl.instrs b, ?_⟩
  refine (hl.blocks f).imp fun {b c} hbc => ?_
  exact fun i hb hc => hbc (hl.block_unique hb hc)

theorem Linked.body_length (hl : m'.Linked) (hi : i ∈ m.body f)
    (h : ∀ j ∈ m'.body f, j ∈ m.body f ∧ j ≠ i) : (m'.body f).length < (m.body f).length := by
  have hnd : (i :: m'.body f).Nodup := nodup_cons.2 ⟨fun hi => (h i hi).2 rfl, hl.body_nodup f⟩
  have hsub : i :: m'.body f ⊆ m.body f := cons_subset.2 ⟨hi, fun j hj => (h j hj).1⟩
  exact (subperm_of_subset hnd hsub).length_le

theorem mem_dead :
    i ∈ m.dead f ↔ i ∈ m.body f ∧ (m.instr i).op.hasEffect = false ∧
      ∀ x ∈ m.body f, .instr i ∉ (m.instr x).operands := by
  simp [dead]

theorem Unneeded.dead (hl : m.Linked) : Unneeded m f (m.dead f) where
  nodup := (hl.body_nodup f).filter _
  inside _ hi := (mem_dead.1 hi).1
  readers _ hi x hx hread := absurd hread ((mem_dead.1 hi).2.2 x hx)

theorem Unneeded.append (h : Unneeded m f gone) (hm : Erased f gone m m')
    (h' : Unneeded m' f more) : Unneeded m f (gone ++ more) where
  nodup := nodup_append.2 ⟨h.nodup, h'.nodup, fun i hi j hj hij =>
    (hm.mem_body.1 (h'.inside j hj)).2 (hij ▸ hi)⟩
  inside i hi := (mem_append.1 hi).elim (h.inside i) fun hi => (hm.mem_body.1 (h'.inside i hi)).1
  readers i hi x hx hread := by
    by_cases hxg : x ∈ gone
    · exact mem_append_left _ hxg
    obtain hi | hi := mem_append.1 hi
    · exact mem_append_left _ (h.readers i hi x hx hread)
    · refine mem_append_right _ (h'.readers i hi x (hm.mem_body.2 ⟨hx, hxg⟩) ?_)
      rwa [hm.instr x hxg]

/-- Enough rounds take off what nothing else needs and leave nothing dead, however many there are. -/
theorem removeDeadRounds_eq (hl : m.Linked) :
    ∃ gone, Unneeded m f gone ∧ (∀ i ∈ gone, (m.instr i).op.hasEffect = false) ∧
      (gone.foldl Module.erase m).dead f = [] ∧ ∀ rounds, (m.body f).length < rounds →
        removeDeadRounds f rounds m = (!gone.isEmpty, gone.foldl Module.erase m) := by
  induction hn : (m.body f).length using Nat.strong_induction_on generalizing m with
  | _ n ih =>
  have hun := Unneeded.dead (f := f) hl
  have hm := Erased.of_nodup hl hun.nodup hun.inside
  cases hdead : m.dead f with
  | nil =>
    refine ⟨[], ⟨nodup_nil, by simp, by simp⟩, by simp, hdead, fun rounds hrounds => ?_⟩
    obtain ⟨k, rfl⟩ := Nat.exists_eq_succ_of_ne_zero (Nat.ne_zero_of_lt hrounds)
    simp only [removeDeadRounds, hdead, isEmpty_nil, Bool.not_true, foldl_nil]
  | cons i is =>
    rw [hdead] at hun hm
    have hlt := hm.linked.body_length (hun.inside i mem_cons_self) fun j hj =>
      (hm.mem_body.1 hj).imp_right fun hj h => hj (h ▸ mem_cons_self)
    obtain ⟨more, hmore, hpure, hnone, hall⟩ := ih _ (hn ▸ hlt) hm.linked rfl
    refine ⟨i :: is ++ more, hun.append hm hmore, fun j hj => ?_, by rwa [foldl_append],
      fun rounds hrounds => ?_⟩
    · obtain hj | hj := mem_append.1 hj
      · exact (mem_dead.1 (hdead ▸ hj)).2.1
      · rw [← hm.op]
        exact hpure j hj
    · obtain ⟨k, rfl⟩ := Nat.exists_eq_succ_of_ne_zero (Nat.ne_zero_of_lt hrounds)
      simp only [removeDeadRounds, hdead]
      rw [hall k (by omega), foldl_append]
      rfl

theorem removeDead_substituted (hr : m.Regular f e) : Substituted f e m (m.removeDead f).2 := by
  obtain ⟨gone, hun, hpure, -, heq⟩ := removeDeadRounds_eq (f := f) hr.linked
  unfold removeDead
  rw [heq _ (Nat.lt_succ_self _)]
  exact Substituted.refl.drop hr.linked hun fun i hi => Opcode.isTerminator_of_no_effect (hpure i hi)

theorem removeDead_settled (hl : m.Linked) : (m.removeDead f).2.dead f = [] := by
  obtain ⟨gone, -, -, hdead, heq⟩ := removeDeadRounds_eq (f := f) hl
  unfold removeDead
  rw [heq _ (Nat.lt_succ_self _)]
  exact hdead

end Module

end Qirc.IR
