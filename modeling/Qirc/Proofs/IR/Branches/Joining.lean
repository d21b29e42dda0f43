import Mathlib.Data.List.Find
import Qirc.Proofs.IR.Branches.Rewrites
import Qirc.Proofs.IR.Places

/-!
# Blocks that are appended to their predecessor

The places of the two blocks become places of the joined one. The branch between them was a silent step
that is left out; the phis of other blocks take from the joined block what they took from the second
one, and none took anything from the first one, which had no other successor.
-/

namespace Qirc.IR.Module

open List

variable {m m' : Module} {f : FuncId} {e p b a c : BlockId} {t x i : InstrId} {v w : Value}
  {args : List Datum} {regs regs' : Registers} {fr fr' : Frame}

def joined (m : Module) (p b : BlockId) (fr : Frame) : Frame :=
  if fr.block = b then ⟨p, fr.rest, fr.regs⟩
  else if fr.block = p then ⟨p, fr.rest.dropLast ++ m.code b, fr.regs⟩
  else fr

theorem joined_of_ne {rest : List InstrId} (h : c ≠ p) :
    m.joined p b ⟨c, rest, regs⟩ = ⟨absorbed p b c, rest, regs⟩ := by
  unfold joined absorbed
  split
  · rfl
  · rfl

section Joining

variable (hl : m.Linked) (hf : m.Formed f e) (hj : Joint m f e p b t) (hphi : m.phis b = [])
  (hs : Spliced m f p b t m')

include hs

theorem Spliced.sameKind (i : InstrId) : SameKind (m.instr i) (m'.instr i) := by
  rw [hs.instr]
  exact ⟨rfl, rfl, rfl, rfl, rfl⟩

theorem Spliced.data (i : InstrId) :
    (m'.instr i).operands.map (m'.eval args regs) = (m.instr i).operands.map (m.eval args regs) := by
  rw [hs.operands]
  exact map_congr_left fun v _ => eval_congr hs.global v fun _ _ => rfl

theorem Spliced.code_of_ne (hcb : c ≠ b) (hcp : c ≠ p) : m'.code c = m.code c :=
  (code_congr (by rw [hs.block_of_ne hcp hcb]) fun i => by rw [hs.op]).1

include hl hf hj

theorem Spliced.incoming? (hc : c ∈ (m.func f).blocks) (hcb : c ≠ b) (hx : x ∈ m.phis c)
    (ha : a ≠ p) : m'.incoming? x (absorbed p b a) = m.incoming? x a := by
  have hok := hf.phis c hc x (mem_of_mem_phis hx) (op_of_mem_phis hx)
  have hnot : some p ∉ (m.instr x).blocks := by
    intro hp
    obtain ⟨u, hu, heq⟩ := mem_map.1 (hok.blocks.mem_iff.1 hp)
    cases heq
    have htarget := (mem_predecessors.1 hu).2
    rw [hj.targets hf, mem_singleton] at htarget
    exact hcb (Option.some.inj htarget)
  unfold Module.incoming?
  rw [hs.operands, hs.phi_blocks hl hc (mem_of_mem_phis hx) (op_of_mem_phis hx), Instr.renamed]
  simp only [zip_map_right, find?_map, Option.map_map]
  congr 1
  apply find?_congr
  rintro ⟨w, u⟩ hw
  have hup : u ≠ some p := by
    rintro rfl
    exact hnot (of_mem_zip hw).2
  simp only [Function.comp_apply, Prod.map_apply, id_eq, absorbed]
  by_cases hub : u = some b
  · by_cases hab : a = b
    · simp [hub, hab]
    · simp [hub, hab, Ne.symm hab, Ne.symm ha]
  · by_cases hab : a = b
    · simp [hab, hub, hup]
    · simp [hub, hab]

variable (hf' : m'.Formed f e)

include hf'

theorem Spliced.code_into : m'.code p = (m.code p).dropLast ++ m.code b := by
  have hpB := hj.pred.1
  have hcode : m.code p =
      ((m.block p).instrs.erase t).filter (fun i => (m.instr i).op != .phi) ++ [t] := by
    rw [hf.code_eq hpB]
    conv => lhs; rw [hj.instrs hl]
    simp [hj.op]
  rw [hcode, hf'.code_eq (hs.mem_blocks.2 ⟨hpB, hj.ne⟩), hs.into,
    hf.code_eq hj.block]
  simp [hs.op]

include hphi

theorem Spliced.mem_phis (hc : c ∈ (m.func f).blocks) (hcb : c ≠ b) :
    x ∈ m'.phis c ↔ x ∈ m.phis c := by
  rw [hf'.mem_phis (hs.mem_blocks.2 ⟨hc, hcb⟩), hf.mem_phis hc, hs.op]
  by_cases hcp : c = p
  · subst hcp
    have hxt : (m.instr x).op = .phi → x ≠ t := by
      rintro hop rfl
      rw [hj.op] at hop
      cases hop
    rw [hs.into, mem_append, (hl.instrs c).mem_erase_iff]
    constructor
    · rintro ⟨⟨-, hx⟩ | hx, hop⟩
      · exact ⟨hx, hop⟩
      · exact absurd hop (hf.ne_phi hj.block hphi hx)
    · rintro ⟨hx, hop⟩
      exact ⟨.inl ⟨hxt hop, hx⟩, hop⟩
  · rw [hs.block_of_ne hcp hcb]

theorem Spliced.enter (ha : a ∈ (m.func f).blocks) (hap : a ≠ p) (hc : c ∈ m.successors a) :
    m'.enter args regs (absorbed p b a) c = m.joined p b (m.enter args regs a c) := by
  have hcB := hf.closed ha hc
  have hcb : c ≠ b := by
    rintro rfl
    exact hap (hj.eq_of_target ha (Module.mem_successors.1 hc))
  have hregs : m'.enterRegs args regs (absorbed p b a) c = m.enterRegs args regs a c := by
    funext x
    unfold enterRegs
    by_cases hx : x ∈ m.phis c
    · have heval : m'.eval args regs = m.eval args regs :=
        funext fun v => eval_congr hs.global v fun _ _ => rfl
      rw [if_pos hx, if_pos ((hs.mem_phis hl hf hj hphi hf' hcB hcb).2 hx),
        hs.incoming? hl hf hj hcB hcb hx hap, heval]
    · rw [if_neg hx, if_neg (mt (hs.mem_phis hl hf hj hphi hf' hcB hcb).1 hx)]
  unfold Module.enter joined
  rw [hregs]
  rw [if_neg hcb]
  split
  · rename_i hcp
    subst hcp
    rw [hs.code_into hl hf hj hf']
  · rename_i hcp
    rw [hs.code_of_ne hcb hcp]

theorem Spliced.act_apart (hstands : m.Stands e fr) (hne : fr.block ≠ p) :
    (m.act args fr).Same (fun fr fr' => m.Stands e fr ∧ fr' = m.joined p b fr)
      (m'.act args (m.joined p b fr)) := by
  have hfr : m.joined p b fr = ⟨absorbed p b fr.block, fr.rest, fr.regs⟩ := joined_of_ne hne
  rw [hfr]
  generalize hfr' : (⟨absorbed p b fr.block, fr.rest, fr.regs⟩ : Frame) = fr'
  have hrest : fr'.rest = fr.rest := by rw [← hfr']
  have hregs : fr'.regs = fr.regs := by rw [← hfr']
  cases hstands.next hf.toEnclosed args with
  | @ret t hr ht hop =>
    rw [act_ret hr hop, act_ret (hrest.trans hr) (by rw [hs.op, hop]), hs.data, hregs]
    exact .ret _
  | @branch t c hr ht hop hc hchoice =>
    have hnot : (m.instr t).op ≠ .phi := by rintro h; simp [h] at hop
    have hchoice' : m'.choice args fr'.regs (m'.instr t) = some c := by
      rw [← hchoice, hregs]
      exact choice_of_data (hs.op t) (hs.blocks_of_not_phi hnot) (hs.data t)
    rw [act_branch hr hop, act_branch (hrest.trans hr) (by rw [hs.op]; exact hop), hchoice,
      hchoice', ← hfr']
    exact .silent ⟨hf.stands (hstands.reached.onward hc) _,
      hs.enter hl hf hj hphi hf' (hf.mem_of_reached hstands.reached) hne hc⟩
  | @plain i rest hr hi hop _ hnext =>
    refine act_same hr (hrest.trans hr) (not_branch hop) (hs.sameKind i) (by rw [hs.data, hregs]) ?_
    rw [hregs]
    have hblock : fr'.block = absorbed p b fr.block := by rw [← hfr']
    rintro _ _ (_ | d) <;> exact ⟨hnext _, by rw [joined_of_ne hne, hblock]⟩

theorem Spliced.accords (args : List Datum) :
    Accords m m' args (fun fr fr' => m.Stands e fr ∧ fr' = m.joined p b fr) := by
  rintro fr _ ⟨hstands, rfl⟩
  by_cases hne : fr.block = p
  · have hfr' : m.joined p b fr = ⟨p, fr.rest.dropLast ++ m.code b, fr.regs⟩ := by
      rw [joined, if_neg (hne ▸ hj.ne), if_pos hne]
    cases hstands.next hf.toEnclosed args with
    | @ret s hr ht hop =>
      rw [hne] at ht
      cases hj.ended.symm.trans ht
      rw [hj.op] at hop
      cases hop
    | @branch s c hr ht hop hc hchoice =>
      -- Control is at the branch between the blocks, which is gone afterwards.
      rw [hne, Module.mem_successors, hj.targets hf, mem_singleton] at hc
      cases hc
      have hstep : m.act args fr = .silent ⟨b, m.code b, fr.regs⟩ := by
        rw [act_branch hr hop, hchoice]
        simp [jump, Module.enter, enterRegs_of_no_phis hphi]
      have hsame : m.joined p b fr = m.joined p b ⟨b, m.code b, fr.regs⟩ := by
        rw [hfr', hr, joined, if_pos rfl]
        rfl
      rw [hsame]
      exact ⟨_, _, .cons hstep (.refl _), .refl _,
        hs.act_apart hl hf hj hphi hf' (hf.stands hj.reached _) (Ne.symm hj.ne)⟩
    | @plain i rest hr hi hop _ hnext =>
      have hmore : rest ≠ [] := (hnext fr.regs).more
      refine ⟨_, _, .refl _, .refl _, ?_⟩
      rw [hfr']
      have hr' : fr.rest.dropLast ++ m.code b = i :: (rest.dropLast ++ m.code b) := by
        rw [hr, dropLast_cons_of_ne_nil hmore]
        rfl
      refine act_same hr hr' (not_branch hop) (hs.sameKind i) (hs.data i) ?_
      rintro _ _ (_ | d) <;> exact ⟨hnext _, by rw [joined, if_neg (hne ▸ hj.ne), if_pos hne]⟩
  · exact ⟨_, _, .refl _, .refl _, hs.act_apart hl hf hj hphi hf' hstands hne⟩

theorem Alike.splice : Alike f m m' := by
  have hstart' : m'.start? f = some (m.joined p b ⟨e, m.code e, Registers.empty⟩) := by
    have hb : e ≠ b := Ne.symm (hj.ne_entry hf)
    simp only [start?, hf'.entry, Option.map_some, joined, if_neg hb]
    split
    · rename_i hp
      rw [hp, hs.code_into hl hf hj hf']
    · rename_i hp
      rw [hs.code_of_ne hb hp]
  exact .of_accords hf.begins hstart' (fun _ => ⟨hf.stands Reached.entry _, rfl⟩)
    (hs.accords hl hf hj hphi hf')

end Joining

end Qirc.IR.Module
