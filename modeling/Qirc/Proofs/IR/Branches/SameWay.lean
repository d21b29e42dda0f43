import Qirc.Proofs.IR.Branches.Operands
import Qirc.Proofs.IR.Places

/-!
# Rewrites that keep to the way of control

Three of the five rewrites leave every instruction in its block and only change where branches go.
The phis at the end of the way select the same values.
-/

namespace Qirc.IR.Module

variable {m m' : Module} {f : FuncId} {e b c keep : BlockId} {t x : InstrId} {args : List Datum}
  {regs : Registers} {lost : List InstrId} {bs : List BlockId}

/-- Control goes the same way in both versions, up to blocks that the second one passes over. -/
structure SameWay (m m' : Module) (e : BlockId) : Prop where
  global : ∀ k, m'.global k = m.global k
  instrs : ∀ b, (m'.block b).instrs = (m.block b).instrs
  phi : ∀ i, (m'.instr i).op = .phi ↔ (m.instr i).op = .phi
  same : ∀ i, (m.instr i).op ≠ .phi → (m.instr i).op ≠ .br → (m.instr i).op ≠ .condBr →
    SameKind (m.instr i) (m'.instr i) ∧ (m'.instr i).operands = (m.instr i).operands
  branch : ∀ b t args regs, Reached m.successors e b → m.terminator? b = some t →
    (m.instr t).op = .br ∨ (m.instr t).op = .condBr → ∀ c, c ∈ m.successors b →
    m.choice args regs (m.instr t) = some c →
    ((m'.instr t).op = .br ∨ (m'.instr t).op = .condBr) ∧
      ∃ c', m'.choice args regs (m'.instr t) = some c' ∧ Reached m.successors e c' ∧
        m.Glides args (m.enter args regs b c) (m'.enter args regs b c')

theorem SameWay.code (h : SameWay m m' e) (c : BlockId) :
    m'.code c = m.code c ∧ m'.phis c = m.phis c := code_congr (h.instrs c) h.phi

theorem SameWay.accords (hf : m.Formed f e) (h : SameWay m m' e) (args : List Datum) :
    Accords m m' args (fun fr fr' => m.Glides args fr fr' ∧ m.Stands e fr') := by
  rintro fr fr' ⟨hglide, hs⟩
  refine ⟨fr', fr', hglide, .refl fr', ?_⟩
  have hdata : ∀ x : Instr, x.operands.map (m'.eval args fr'.regs) =
      x.operands.map (m.eval args fr'.regs) :=
    fun x => List.map_congr_left fun v _ => eval_congr h.global v fun _ _ => rfl
  cases hs.next hf.toEnclosed args with
  | @ret t hr ht hop =>
    obtain ⟨hx, hops⟩ := h.same t (by simp [hop]) (by simp [hop]) (by simp [hop])
    rw [act_ret hr hop, act_ret hr (by rw [hx.op, hop]), hops, hdata]
    exact .ret _
  | @branch t c hr ht hop hc hchoice =>
    obtain ⟨hop', c', hchoice', hc', hglide'⟩ :=
      h.branch fr'.block t args fr'.regs hs.reached ht hop c hc hchoice
    rw [act_branch hr hop, act_branch hr hop', hchoice, hchoice']
    refine .silent ⟨hglide', ?_⟩
    unfold enter
    rw [(h.code c').1]
    exact hf.stands hc' _
  | @plain i rest hr hi hop hphi hnext =>
    have hbr := not_branch hop
    obtain ⟨hx, hops⟩ := h.same i hphi hbr.1 hbr.2
    refine act_same hr hr hbr hx (by rw [hops, hdata]) ?_
    rintro _ _ (_ | d) <;> exact ⟨.refl _, hnext _⟩

theorem SameWay.alike (hf : m.Formed f e) (he : m'.entry? f = some e) (h : SameWay m m' e) :
    Alike f m m' := by
  have hstart' : m'.start? f = some ⟨e, m.code e, Registers.empty⟩ := by
    simp [start?, he, (h.code e).1]
  exact .of_accords hf.begins hstart' (fun args => ⟨.refl _, hf.stands Reached.entry _⟩) (h.accords hf)

/-! ## Decided branches -/

def fitsBit : Value → Bool
  | .int ty n => !ty.isInt 1 || n == 0 || n == 1
  | _ => true

/-- The integers of one bit among the operands of a function are zero and one. -/
def Bits (m : Module) (f : FuncId) : Prop := m.AllOperands f (fun v => fitsBit v = true)

theorem Decided.choice (hl : m.Linked) (hf : m.Formed f e) (hbits : m.Bits f)
    (hb : b ∈ (m.func f).blocks) (hd : Decided m b t keep lost) (args : List Datum)
    (regs : Registers) : m.choice args regs (m.instr t) = some keep := by
  obtain ⟨v, yes, no, hv, hbl, h⟩ := hd.branch
  unfold Module.choice
  rw [hv, hbl]
  obtain ⟨rfl, rfl, -⟩ | ⟨ty, n, d, rfl, -, -, h⟩ := h
  · split <;> rfl
  obtain ⟨v', -, -, hv', -, hty⟩ := hf.condBr hb hd.ended hd.op
  cases hv.symm.trans hv'
  have hbit := hbits t (hl.mem_body_of_mem hb (terminator?_mem hd.ended)) (.int ty n)
    (by simp [hv])
  have hone : ty = .int 1 := by
    change ty.isInt 1 = true at hty
    cases ty with
    | int w => simpa [Ty.isInt] using hty
    | _ => cases hty
  subst hone
  obtain ⟨rfl, rfl, rfl⟩ | ⟨hn, rfl, rfl⟩ := h
  · rw [if_pos ⟨hd.op, rfl⟩]
    rfl
  obtain rfl : n = 1 := by simpa [fitsBit, Ty.isInt, hn] using hbit
  rw [if_neg fun h => Bool.noConfusion h.2]
  rfl

section Straighten

variable (hl : m.Linked) (hf : m.Formed f e) (hb : b ∈ (m.func f).blocks)
  (hd : Decided m b t keep lost)

include hl hf hb hd

theorem straighten_incoming {a : BlockId} (ha : a ≠ b ∨ c = keep) (hx : x ∈ m.phis c) :
    (m.straighten b t keep lost).incoming? x a = m.incoming? x a := by
  have hxt : x ≠ t := by
    rintro rfl
    have hop := op_of_mem_phis hx
    rw [hd.op] at hop
    cases hop
  by_cases hlost : x ∈ lost
  · have hab : a ≠ b := by
      refine ha.resolve_right ?_
      rintro rfl
      obtain ⟨rfl, -⟩ | ⟨d, hdk, rfl, -⟩ := hd.cases
      · cases hlost
      · exact hdk (hl.block_unique (mem_of_mem_phis hlost) (mem_of_mem_phis hx))
    refine incoming?_filter (p := fun q => q.2 ≠ some b) (fun v => by simpa using hab) ?_
    rw [straighten_instr hl hf hb hd, if_neg hxt, if_pos hlost, Instr.without_zip]
  · unfold incoming?
    rw [straighten_instr hl hf hb hd, if_neg hxt, if_neg hlost]

theorem SameWay.straighten (hbits : m.Bits f) : SameWay m (m.straighten b t keep lost) e where
  global k := (Edited.straighten hl hf hb hd).global k
  instrs c := by rw [straighten_block]
  phi := straighten_phi hl hf hb hd
  same i hphi hbr hcond := by
    have hit : i ≠ t := by
      rintro rfl
      exact hcond hd.op
    rw [straighten_instr hl hf hb hd, if_neg hit, if_neg (hd.not_lost hf hb hphi)]
    exact ⟨.refl _, rfl⟩
  branch a s args regs ha hs hop c hc hchoice := by
    have henter : a ≠ b ∨ c = keep →
        (m.straighten b t keep lost).enter args regs a c = m.enter args regs a c := by
      intro hac
      obtain ⟨hcode, hphis⟩ := code_congr (congrArg Block.instrs (straighten_block c))
        (straighten_phi hl hf hb hd)
      exact enter_congr hcode hphis (Edited.straighten hl hf hb hd).global
        fun x hx => straighten_incoming hl hf hb hd hac hx
    by_cases hab : a = b
    · subst hab
      cases hs.symm.trans hd.ended
      cases hchoice.symm.trans (hd.choice hl hf hbits hb args regs)
      refine ⟨.inl ?_, keep, ?_, ha.onward hc, ?_⟩
      · rw [straighten_instr hl hf hb hd, if_pos rfl]
      · rw [straighten_instr hl hf hb hd]
        simp [Module.choice]
      · rw [henter (.inr rfl)]
        exact .refl _
    · have hst : s ≠ t := by
        rintro rfl
        exact hab (hl.terminator?_unique hs hd.ended)
      have hx : (m.straighten b t keep lost).instr s = m.instr s := by
        rw [straighten_instr hl hf hb hd, if_neg hst,
          if_neg (hd.not_lost hf hb (by rintro h; simp [h] at hop))]
      rw [hx]
      refine ⟨hop, c, ?_, ha.onward hc, ?_⟩
      · rw [choice_congr (Edited.straighten hl hf hb hd).global, hchoice]
      rw [henter (.inl hab)]
      exact .refl _

end Straighten

/-! ## Blocks that control does not get to -/

theorem SameWay.pruned (hl : m.Linked) (hf : m.Formed f e) (hu : Unreached m f e bs)
    (hp : Pruned m f bs m') : SameWay m m' e where
  global := hp.global
  instrs := hp.instrs
  phi i := by rw [hp.op]
  same i hphi _ _ := by
    rw [hp.same hphi]
    exact ⟨.refl _, rfl⟩
  branch a s args regs ha hs hop c hc hchoice := by
    have hx : m'.instr s = m.instr s := hp.same (by rintro h; simp [h] at hop)
    have hin : ∀ x ∈ m.phis c, m'.incoming? x a = m.incoming? x a := by
      intro x hx
      have hcB := hf.closed (hf.mem_of_reached ha) hc
      refine incoming?_filter (p := fun q =>
        ∀ b ∈ bs.filter fun b => some c ∈ m.targets b, q.2 ≠ some b) (fun v => ?_) ?_
      · rw [decide_eq_true_iff]
        rintro b hb hab
        cases hab
        exact ((hu a).1 (List.mem_filter.1 hb).1).2 ha
      · rw [hp.phi hl hcB (mem_of_mem_phis hx) (op_of_mem_phis hx), Instr.withoutAll_zip]
    rw [hx]
    refine ⟨hop, c, ?_, ha.onward hc, ?_⟩
    · rw [choice_congr hp.global, hchoice]
    have hcode := code_congr (hp.instrs c) fun i => by rw [hp.op]
    rw [enter_congr hcode.1 hcode.2 hp.global hin]
    exact .refl _

/-! ## Blocks that only branch on -/

theorem glides_of_hops {u : BlockId} (h : Hops m.onward b u) (args : List Datum) (regs : Registers) :
    m.Glides args ⟨b, m.code b, regs⟩ ⟨u, m.code u, regs⟩ := by
  induction h with
  | refl => exact .refl _
  | @step b c u hs _ ih =>
    obtain ⟨i, rest, hi, hop, hbl, -, hphi⟩ := onward_eq_some.1 hs
    refine .cons ?_ ih
    have hcode : m.code b = [i] := by simp [code, hi, hop]
    rw [hcode, act_br rfl hop, hbl]
    simp [jump, enter, enterRegs_of_no_phis hphi]

theorem SameWay.skipped (hl : m.Linked) (hf : m.Formed f e) : SameWay m (m.skipped f) e where
  global k := (Edited.skipped hl hf).global k
  instrs c := by rw [skipped_block]
  phi i := by
    rw [skipped_eq hl hf]
  same i _ _ _ := by
    rw [skipped_eq hl hf]
    exact ⟨⟨rfl, rfl, rfl, rfl, rfl⟩, rfl⟩
  branch a s args regs ha hs hop c hc hchoice := by
    have hx := skipped_branch hl hf (hf.mem_of_reached ha) hs
    have hcode : ∀ u, (m.skipped f).code u = m.code u ∧ (m.skipped f).phis u = m.phis u := by
      intro u
      refine code_congr (by rw [skipped_block]) fun i => ?_
      rw [skipped_eq hl hf]
    refine ⟨by rw [hx]; exact hop, m.detour a c, ?_, ?_, ?_⟩
    · rw [choice_congr (Edited.skipped hl hf).global, hx, choice_map, hchoice]
      rfl
    · obtain h | ⟨h, -⟩ := detour_cases m a c
      · rw [h]
        exact ha.onward hc
      · exact Walk.hops (fun _ _ _ => trivial) (ha.onward hc) h trivial
    · obtain h | ⟨h, hne⟩ := detour_cases m a c
      · rw [h, enter_congr (hcode c).1 (hcode c).2 (Edited.skipped hl hf).global]
        · exact .refl _
        intro x hx
        rw [incoming?, skipped_phi hl (op_of_mem_phis hx)]
        rfl
      · -- Neither end of a chain has phis, so the registers stay as they are.
        have hphi : m.phis (m.detour a c) = [] := (hops_phis h).resolve_left hne
        have hfirst : m.phis c = [] := by
          apply Classical.byContradiction
          intro hphis
          generalize m.detour a c = u at h hne
          cases h with
          | refl => exact hne rfl
          | step hs _ =>
            rw [onward_of_phi hphis] at hs
            cases hs
        unfold enter
        rw [enterRegs_of_no_phis hfirst,
          enterRegs_of_no_phis ((hcode _).2.trans hphi), (hcode _).1]
        exact glides_of_hops h args regs

end Qirc.IR.Module
