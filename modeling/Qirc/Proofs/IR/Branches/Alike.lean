import Mathlib
import Qirc.IR.Optimizer
import Qirc.Proofs.IR.Branches.Dissolving
import Qirc.Proofs.IR.Branches.Joining
import Qirc.Proofs.IR.Branches.Rounds
import Qirc.Proofs.IR.Branches.SameWay

/-!
# Simplified functions behave as before

Each of the five rewrites keeps the behaviour of its function, so the whole pass does: whatever the
arguments are and whatever the world answers, the simplified function makes the same requests in the
same order and comes to the same end, or to none.
-/

namespace Qirc.IR

namespace Module

variable {m m' : Module} {f : FuncId} {e : BlockId}

theorem Rewrite.alike (hl : m.Linked) (hf : m.Formed f e) (hbits : m.Bits f)
    (h : Rewrite f e m m') : Alike f m m' := by
  obtain ⟨-, hf', -⟩ := h.keeps hl hf
  cases h with
  | straighten hb hd => exact (SameWay.straighten hl hf hb hd hbits).alike hf hf'.entry
  | skip => exact (SameWay.skipped hl hf).alike hf hf'.entry
  | prune hu hp => exact (SameWay.pruned hl hf hu hp).alike hf hf'.entry
  | dissolve hj hphi hv => exact .dissolve hl hf hj hphi hv
  | splice hj hphi hs => exact .splice hl hf hj hphi hs hf'

theorem Rewrites.alike (hl : m.Linked) (hf : m.Formed f e) (hbits : m.Bits f)
    (h : Rewrites f e m m') : Alike f m m' := by
  induction h with
  | refl => exact .refl f m
  | step h hr ih =>
    obtain ⟨hl', hf', -⟩ := h.keeps hl hf
    exact ih.trans (hr.alike hl' hf' ((h.invent_nothing hl hf).2.2 _ hbits))

end Module

/-- The pass comes to an end on every accepted function whose phis name each block once and whose
bits are zero or one, and the function behaves afterwards as it did before. -/
theorem Pass.simplifycfg_alike {m : Module} {f : FuncId} (hl : m.Linked)
    (hok : m.functionReport f = .ok [])
    (hdistinct : ∀ i ∈ m.body f, (m.instr i).op = .phi → (m.instr i).blocks.Nodup)
    (hbits : m.Bits f) :
    ∃ changed m', Pass.run f .simplifycfg m = .ok changed m' ∧ Module.Alike f m m' := by
  cases hblocks : (m.func f).blocks with
  | nil => exact ⟨false, m, if_pos (by simp [Function.isDeclaration, hblocks]), .refl f m⟩
  | cons e bs =>
    have hdecl : ¬(m.func f).isDeclaration = true := by simp [Function.isDeclaration, hblocks]
    have he : m.entry? f = some e := by simp [Module.entry?, hblocks]
    have hdefects := Module.functionDefects_of_report hok (List.mem_of_head? he)
    have hf := Module.Formed.of_accepted hl he hdefects hdistinct
    obtain ⟨changed, m', hrun, hrw, -⟩ := Module.simplifyBranches_spec hl hf
    exact ⟨changed, m', (if_neg hdecl).trans hrun, hrw.alike hl hf hbits⟩

/-- A definition with a branch on a constant, a loop with a phi, a block that only branches on and one
that cannot be reached. -/
def decidedAndLoop : Module :=
  .single ⟨.i64, [.i64]⟩ ["entry", "again", "test", "leave", "end", "lost"]
    [(0, .condBr (.int .i1 1) (some 2) (some 1)), (1, .br (some 2)),
      (2, .phi .i64 [(.param 0 0, some 0), (.int .i64 7, some 1)]),
      (2, .icmp "eq" (.instr 2) (.int .i64 7)), (2, .condBr (.instr 3) (some 3) (some 1)),
      (3, .br (some 4)), (4, .ret (.instr 2)), (5, .br (some 4))]

/-- The pass changes it without a change of its behaviour. -/
theorem simplifycfg_alike_decidedAndLoop :
    ∃ changed m', Pass.run 0 .simplifycfg decidedAndLoop = .ok changed m' ∧
      Module.Alike 0 decidedAndLoop m' :=
  Pass.simplifycfg_alike (.single (by decide)) (by cbv) (by decide)
    (by unfold Module.Bits Module.AllOperands; decide)

end Qirc.IR
