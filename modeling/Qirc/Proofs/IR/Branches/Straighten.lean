import Qirc.Proofs.IR.Branches.Reroute

/-!
# Branches with one possible target

A conditional branch on a constant, or with two equal targets, becomes a plain one. The target that
control no longer goes to forgets the block in its phis. Walks only lose an edge, so what dominated
before still does.
-/

namespace Qirc.IR.Module

open List Step

/-- A module after a conditional branch became a plain one. -/
def straighten (m : Module) (b : BlockId) (t : InstrId) (keep : BlockId) (lost : List InstrId) :
    Module :=
  (m.updateEach (·.without (some b)) lost).updateInstr t
    (fun x => { x with op := .br, operands := [], blocks := [some keep] })

/-- The branch at the end of a block can only go to `keep`; the phis that are lost to it are those
of its other target. -/
structure Decided (m : Module) (b : BlockId) (t : InstrId) (keep : BlockId)
    (lost : List InstrId) : Prop where
  ended : m.terminator? b = some t
  op : (m.instr t).op = .condBr
  branch : ∃ v yes no, (m.instr t).operands = [v] ∧ (m.instr t).blocks = [some yes, some no] ∧
    ((yes = keep ∧ no = keep ∧ lost = []) ∨
      ∃ ty n d, v = .int ty n ∧ d ≠ keep ∧ lost = m.phis d ∧
        ((n = 0 ∧ yes = d ∧ no = keep) ∨ (n ≠ 0 ∧ yes = keep ∧ no = d)))

variable {m : Module} {f : FuncId} {e b c keep : BlockId} {t x : InstrId} {lost : List InstrId}

@[simp] theorem straighten_func (g : FuncId) : (m.straighten b t keep lost).func g = m.func g := by
  simp [straighten]

@[simp] theorem straighten_block (c : BlockId) :
    (m.straighten b t keep lost).block c = m.block c := by
  simp [straighten]

section

variable (hf : m.Formed f e) (hb : b ∈ (m.func f).blocks)

include hf hb

theorem Formed.mem_of_target (hc : some c ∈ m.targets b) : c ∈ (m.func f).blocks :=
  hf.closed hb (mem_successors.2 hc)

theorem Formed.phi_length (hx : x ∈ m.phis b) :
    (m.instr x).operands.length = (m.instr x).blocks.length :=
  let ⟨hi, hop⟩ := (hf.mem_phis hb).1 hx
  (hf.phis b hb x hi hop).length

theorem foldBranch_spec : foldBranch b m = .ok false m ∨ ∃ t keep lost, Decided m b t keep lost ∧
        foldBranch b m = .ok true (m.straighten b t keep lost) := by
  obtain ⟨t, ht⟩ := hf.ended b hb
  by_cases hop : (m.instr t).op = .condBr
  · obtain ⟨v, yes, no, hv, hbl, -⟩ := hf.condBr hb ht hop
    have htargets : m.targets b = [some yes, some no] := by
      rw [targets_of_terminator ht, hbl]
    have hsame : ∀ keep drop, decidedBranch v (some yes) (some no) = some (some keep, drop) →
        drop = none ∨ drop = some keep →
        foldBranch b m = .ok true (m.straighten b t keep []) := by
      intro keep drop hdec hdrop
      refine bind_ok.2 ⟨m, m, rfl, ?_⟩
      simp only [ht, hop, hbl, hv, hdec, ne_eq, not_true_eq_false, if_false]
      obtain rfl | rfl := hdrop
      · rfl
      simp only [not_true_eq_false, if_false]
      rfl
    have hother : ∀ keep d, decidedBranch v (some yes) (some no) = some (some keep, some d) →
        d ≠ keep → some d ∈ m.targets b →
        foldBranch b m = .ok true (m.straighten b t keep (m.phis d)) := by
      intro keep d hdec hne hd
      have hlen : ∀ i ∈ m.phis d, (m.instr i).operands.length = (m.instr i).blocks.length :=
        fun i hi => hf.phi_length (hf.mem_of_target hb hd) hi
      refine bind_ok.2 ⟨m, m, rfl, ?_⟩
      simp only [ht, hop, hbl, hv, hdec, ne_eq, not_true_eq_false, if_false, Option.some.injEq,
        hne, not_false_eq_true, if_true]
      refine bind_ok.2 ⟨(), _, removeIncomingEach_ok hlen, ?_⟩
      exact bind_ok.2 ⟨⟨⟩, _, modify_ok.2 rfl, rfl⟩
    by_cases heq : yes = no
    · subst heq
      have hdec : ∃ drop, decidedBranch v (some yes) (some yes) = some (some yes, drop) ∧
          (drop = none ∨ drop = some yes) := by
        unfold decidedBranch
        split
        · split
          · exact ⟨_, rfl, .inr rfl⟩
          · exact ⟨_, rfl, .inr rfl⟩
        · exact ⟨none, by simp, .inl rfl⟩
      obtain ⟨drop, hdec, hdrop⟩ := hdec
      exact .inr ⟨t, yes, [], ⟨ht, hop, v, yes, yes, hv, hbl, .inl ⟨rfl, rfl, rfl⟩⟩,
        hsame yes drop hdec hdrop⟩
    · have hne : ¬(some yes : Option BlockId) = some no := fun h => heq (Option.some.inj h)
      cases hcase : v with
      | int ty n =>
        rw [hcase] at hother
        by_cases hn : n = 0
        · exact .inr ⟨t, no, m.phis yes, ⟨ht, hop, v, yes, no, hv, hbl,
            .inr ⟨ty, n, yes, hcase, heq, rfl, .inl ⟨hn, rfl, rfl⟩⟩⟩,
            hother no yes (by simp [decidedBranch, hn]) heq (by simp [htargets])⟩
        · exact .inr ⟨t, yes, m.phis no, ⟨ht, hop, v, yes, no, hv, hbl,
            .inr ⟨ty, n, no, hcase, Ne.symm heq, rfl, .inr ⟨hn, rfl, rfl⟩⟩⟩,
            hother yes no (by simp [decidedBranch, hn]) (Ne.symm heq) (by simp [htargets])⟩
      | _ =>
        left
        refine bind_ok.2 ⟨m, m, rfl, ?_⟩
        simp only [ht, hop, hbl, hv, hcase, decidedBranch, ne_eq, not_true_eq_false, if_false,
          if_neg hne]
        rfl
  · left
    refine bind_ok.2 ⟨m, m, rfl, ?_⟩
    simp only [ht, ne_eq, hop, not_false_eq_true, if_true]
    rfl

end

/-! ## The function afterwards -/

section Afterwards

variable (hl : m.Linked) (hf : m.Formed f e) (hb : b ∈ (m.func f).blocks)
  (hd : Decided m b t keep lost)

include hd

theorem Decided.targets : some keep ∈ m.targets b := by
  obtain ⟨v, yes, no, -, hbl, h⟩ := hd.branch
  rw [targets_of_terminator hd.ended, hbl]
  obtain ⟨rfl, -⟩ | ⟨ty, n, d, -, -, -, ⟨-, -, rfl⟩ | ⟨-, rfl, -⟩⟩ := h <;> simp

theorem Decided.cases :
    (lost = [] ∧ ∀ c, some c ∈ m.targets b ↔ c = keep) ∨
      ∃ d, d ≠ keep ∧ lost = m.phis d ∧ ∀ c, some c ∈ m.targets b ↔ c = keep ∨ c = d := by
  obtain ⟨v, yes, no, -, hbl, h⟩ := hd.branch
  rw [targets_of_terminator hd.ended, hbl]
  obtain ⟨rfl, rfl, hlost⟩ | ⟨ty, n, d, -, hne, hlost, ⟨-, rfl, rfl⟩ | ⟨-, rfl, rfl⟩⟩ := h
  · exact .inl ⟨hlost, fun c => by simp⟩
  · exact .inr ⟨yes, hne, hlost, fun c => by simp [or_comm]⟩
  · exact .inr ⟨no, hne, hlost, fun c => by simp⟩

include hf hb

theorem Decided.lost_phi (hx : x ∈ lost) :
    ∃ d ∈ (m.func f).blocks, x ∈ (m.block d).instrs ∧ (m.instr x).op = .phi := by
  obtain ⟨rfl, -⟩ | ⟨d, -, rfl, hc⟩ := hd.cases
  · cases hx
  have hdB := hf.mem_of_target hb ((hc d).2 (.inr rfl))
  exact ⟨d, hdB, (hf.mem_phis hdB).1 hx⟩

theorem Decided.not_lost (hx : (m.instr x).op ≠ .phi) : x ∉ lost :=
  fun h => let ⟨_, _, _, hop⟩ := hd.lost_phi hf hb h
  hx hop

include hl

theorem straighten_instr (x : InstrId) :
    (m.straighten b t keep lost).instr x =
      if x = t then { m.instr x with op := .br, operands := [], blocks := [some keep] }
      else if x ∈ lost then (m.instr x).without (some b) else m.instr x := by
  unfold straighten
  have hinstr := updateEach_instr m (·.without (some b)) (fun _ => Instr.without_without) lost x
  by_cases hx : x = t
  · subst hx
    have hlt : x < m.instrTable.size := hl.instr_lt (terminator?_mem hd.ended)
    have hsize : x < (m.updateEach (·.without (some b)) lost).instrTable.size := by
      rwa [updateEach_size]
    rw [updateInstr_self _ _ hsize, if_pos rfl, hinstr,
      if_neg fun h => hd.not_lost hf hb (by simp [hd.op]) h.1]
  · rw [updateInstr_of_ne _ _ hx, hinstr, if_neg hx]
    by_cases hlost : x ∈ lost
    · obtain ⟨d, -, hxd, -⟩ := hd.lost_phi hf hb hlost
      rw [if_pos hlost, if_pos ⟨hlost, hl.instr_lt hxd⟩]
    · rw [if_neg hlost, if_neg fun h => hlost h.1]

theorem Linked.straighten : (m.straighten b t keep lost).Linked := by
  refine hl.congr (fun _ => ?_) (fun _ => ?_) (fun _ => ?_) fun x => ?_
  · rw [straighten_func]
  · rw [straighten_block]
  · rw [straighten_block]
  rw [straighten_instr hl hf hb hd]
  split
  · rfl
  · split <;> rfl

theorem Edited.straighten : Edited f m (m.straighten b t keep lost) := by
  have hlost : ∀ i ∈ lost, i ∈ m.body f := by
    intro i hi
    obtain ⟨d, hdB, hid, -⟩ := hd.lost_phi hf hb hi
    exact hl.mem_body_of_mem hdB hid
  have hl' : (m.updateEach (·.without (some b)) lost).Linked := by
    refine hl.congr (fun _ => by simp) (fun _ => by simp) (fun _ => by simp) fun i => ?_
    rw [updateEach_instr m _ fun _ => Instr.without_without]
    split <;> rfl
  have hphis : Edited f m (m.updateEach (·.without (some b)) lost) :=
    Edited.updateEach hl hlost (fun _ => rfl) fun _ => rfl
  refine hphis.trans (Edited.updateInstr hl' ?_ fun _ => rfl)
  have ht := hl.mem_body_of_mem hb (terminator?_mem hd.ended)
  simpa [body] using ht

theorem straighten_ends (x : InstrId) :
    ((m.straighten b t keep lost).instr x).op.isTerminator = (m.instr x).op.isTerminator := by
  rw [straighten_instr hl hf hb hd]
  split
  · rename_i hx
    subst hx
    rw [hd.op]
    rfl
  · split <;> rfl

theorem straighten_phi (x : InstrId) :
    ((m.straighten b t keep lost).instr x).op = .phi ↔ (m.instr x).op = .phi := by
  rw [straighten_instr hl hf hb hd]
  split
  · rename_i hx
    subst hx
    rw [hd.op]
    simp
  · split <;> exact Iff.rfl

theorem straighten_terminator? (c : BlockId) :
    (m.straighten b t keep lost).terminator? c = m.terminator? c :=
  terminator?_congr (by rw [straighten_block]) fun _ _ => straighten_ends hl hf hb hd _

theorem straighten_targets (c : BlockId) :
    (m.straighten b t keep lost).targets c = if c = b then [some keep] else m.targets c := by
  have hterm := straighten_terminator? hl hf hb hd c
  split
  · rename_i hc
    subst hc
    rw [targets_of_terminator (hterm.trans hd.ended), straighten_instr hl hf hb hd, if_pos rfl]
  · rename_i hc
    refine targets_congr hterm fun s htc => ?_
    have hs : s ≠ t := by
      rintro rfl
      exact hc (hl.block_unique (terminator?_mem htc) (terminator?_mem hd.ended))
    rw [straighten_instr hl hf hb hd, if_neg hs, if_neg (hd.not_lost hf hb (terminator?_ne_phi htc))]

theorem straighten_successors {a : BlockId}
    (h : c ∈ (m.straighten b t keep lost).successors a) : c ∈ m.successors a := by
  rw [mem_successors, straighten_targets hl hf hb hd] at h
  rw [mem_successors]
  split at h
  · rename_i hab
    rw [mem_singleton] at h
    rw [h, hab]
    exact hd.targets
  · exact h

theorem straighten_phiOk (hc : c ∈ (m.func f).blocks) (hx : x ∈ (m.block c).instrs)
    (hop : (m.instr x).op = .phi) :
    PhiOk m ((m.straighten b t keep lost).instr x)
      ((m.straighten b t keep lost).predecessors f c) := by
  have hxt : x ≠ t := by
    rintro rfl
    rw [hd.op] at hop
    cases hop
  have hok := hf.phis c hc x hx hop
  have hpreds : (m.straighten b t keep lost).predecessors f c =
      (m.func f).blocks.filter (fun p => (if p = b then [some keep] else m.targets p).contains
        (some c)) := by
    unfold predecessors
    simp [straighten_targets hl hf hb hd]
  rw [straighten_instr hl hf hb hd, if_neg hxt, hpreds]
  by_cases hxl : x ∈ lost
  · rw [if_pos hxl]
    obtain ⟨rfl, -⟩ | ⟨d, hne, rfl, htargets⟩ := hd.cases
    · cases hxl
    have hdB := hf.mem_of_target hb ((htargets d).2 (.inr rfl))
    have hcd : c = d := hl.block_unique hx ((hf.mem_phis hdB).1 hxl).1
    subst hcd
    have hfilter := hok.without b
    rw [predecessors, filter_filter] at hfilter
    convert hfilter using 3 with p
    by_cases hp : p = b <;> simp [hp, hne]
  · rw [if_neg hxl]
    convert hok using 1
    refine filter_congr fun p _ => ?_
    split
    · rename_i hp
      subst hp
      rw [Bool.eq_iff_iff]
      simp only [contains_iff_mem, mem_singleton, Option.some.injEq]
      obtain ⟨rfl, htargets⟩ | ⟨d, hne, rfl, htargets⟩ := hd.cases
      · exact (htargets c).symm
      rw [htargets, or_iff_left]
      rintro rfl
      exact hxl ((hf.mem_phis hc).2 ⟨hx, hop⟩)
    · rfl

theorem Rerouted.straighten : Rerouted f e m (m.straighten b t keep lost) where
  edited := Edited.straighten hl hf hb hd
  entry := by
    rw [ entry?, straighten_func]
    exact hf.entry
  blocks c hc := by rwa [straighten_func] at hc
  kept c hc := by
    rw [straighten_func]
    exact hf.mem_of_reached hc
  instrs c := by rw [straighten_block]
  parent x := by
    rw [straighten_instr hl hf hb hd]
    split
    · rfl
    · split <;> rfl
  ends := straighten_ends hl hf hb hd
  phi := straighten_phi hl hf hb hd
  targets c hc s hs := by
    rw [straighten_func] at hc ⊢
    rw [straighten_targets hl hf hb hd] at hs
    split at hs
    · rw [mem_singleton] at hs
      exact ⟨keep, hf.mem_of_target hb hd.targets, hs,
        hf.ne_entry hb (mem_successors.2 hd.targets)⟩
    · obtain ⟨c', hc', rfl⟩ := hf.targets c hc s hs
      exact ⟨c', hc', rfl, hf.ne_entry hc (mem_successors.2 hs)⟩
  typed c hc x hx hop := by
    rw [straighten_func] at hc
    rw [straighten_instr hl hf hb hd]
    split
    · rfl
    rw [if_neg (hd.not_lost hf hb hop)]
    exact (Edited.straighten hl hf hb hd).instrDefect? hop rfl (hf.typed c hc x hx hop)
  phis c hc x hx hop := by
    rw [straighten_func] at hc
    exact (straighten_phiOk hl hf hb hd hc hx hop).edited (Edited.straighten hl hf hb hd)
  operands x hop v hv := by
    rw [straighten_instr hl hf hb hd] at hv
    split at hv
    · cases hv
    · rwa [if_neg (hd.not_lost hf hb hop)] at hv
  entries x hop p hp := by
    have hxt : x ≠ t := by
      rintro rfl
      rw [hd.op] at hop
      cases hop
    rw [straighten_instr hl hf hb hd, if_neg hxt] at hp
    split at hp
    · rw [Instr.without_zip] at hp
      exact (mem_filter.1 hp).1
    · exact hp
  reached c hc := hc.along fun _ _ _ h => straighten_successors hl hf hb hd h
  dominates h c j _ _ _ hdom hw :=
    hdom (hw.along fun _ _ _ h => straighten_successors hl hf hb hd h)

theorem Formed.straighten : (m.straighten b t keep lost).Formed f e :=
  hf.rerouted hl (hl.straighten hf hb hd) (Rerouted.straighten hl hf hb hd)

end Afterwards

end Qirc.IR.Module
