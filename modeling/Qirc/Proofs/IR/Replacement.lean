import Qirc.Proofs.IR.Kept

/-!
# Replacing an instruction by a value

A function stays well-formed when a value of its type takes the place of an instruction and the
value is there where the instruction stood: every reachable use of the instruction comes after it.
-/

namespace Qirc.IR.Module

open List

/-! ## What is there stays there -/

section Order

variable {m : Module} {f : FuncId} {e b c u : BlockId} {i x : InstrId} {v : Value}

theorem not_idle (hop : (m.instr i).op.isTerminator = false) : ¬m.Idle (.instr i) := by
  rintro ⟨j, ⟨⟩, hj⟩
  rw [hop] at hj
  cases hj

section

variable (hl : m.Linked) (hi : (m.instr i).parent = some c)
  (hop : (m.instr i).op.isTerminator = false) (hv : m.Ready f e c i v)

include hl hi hop hv

/-- What is there before an instruction is there wherever its result is read in its block or in one
that it dominates. -/
theorem Ready.trans (hx : m.Ready f e b x (.instr i)) (hb : Reached m.successors e b) :
    m.Ready f e b x v := by
  refine hv.imp_right fun hv => ⟨hv.1, fun j hj => ?_⟩
  obtain ⟨h, hp, hd⟩ := hv.2 j hj
  refine ⟨h, hp, ?_⟩
  obtain ⟨c', hc', hx'⟩ := (hx.resolve_left (not_idle hop)).2 i rfl
  cases hi.symm.trans hc'
  obtain ⟨rfl, hix⟩ | ⟨hcb, hdom⟩ := hx'
  · obtain ⟨rfl, hji⟩ | hd := hd
    · exact .inl ⟨rfl, pair_sublist_trans (hl.instrs h) hji hix⟩
    · exact .inr hd
  · obtain ⟨rfl, -⟩ | ⟨hhc, hd⟩ := hd
    · exact .inr ⟨hcb, hdom⟩
    refine .inr ⟨?_, hd.trans hdom⟩
    rintro rfl
    exact hcb (hdom.antisymm hd hb)

theorem Ready.ne_self : v ≠ .instr i := by
  rintro rfl
  obtain ⟨h, hp, hd⟩ := (hv.resolve_left (not_idle hop)).2 i rfl
  cases hi.symm.trans hp
  obtain ⟨-, hs⟩ | ⟨hne, -⟩ := hd
  · exact absurd (hs.nodup (hl.instrs c)) (by simp)
  · exact hne rfl

end

theorem Ready.carry (hi : (m.instr i).parent = some c) (hop : (m.instr i).op.isTerminator = false)
    (hv : m.Ready f e c i v) (hx : m.Carried f e u (.instr i)) : m.Carried f e u v := by
  refine hv.imp_right fun hv => ⟨hv.1, fun j hj => ?_⟩
  obtain ⟨h, hp, hd⟩ := hv.2 j hj
  obtain ⟨c', hc', hx'⟩ := (hx.resolve_left (not_idle hop)).2 i rfl
  cases hi.symm.trans hc'
  refine ⟨h, hp, ?_⟩
  obtain ⟨rfl, -⟩ | ⟨-, hd⟩ := hd
  · exact hx'
  · exact hd.trans hx'

end Order

/-! ## Phis -/

/-- A phi that takes one value only, apart from itself, can give way to it. Every walk to the phi
comes for the first time from a block where that value is there, so the value is there before the
phi; and it is defined elsewhere, because the phi is not passed before. -/
theorem Formed.phi_ready {m : Module} {f : FuncId} {e c : BlockId} {x : InstrId} {v : Value}
    (hl : m.Linked) (hf : m.Formed f e) (hc : c ∈ (m.func f).blocks)
    (hce : c ≠ e) (hx : x ∈ (m.block c).instrs) (hop : (m.instr x).op = .phi)
    (hr : Reached m.successors e c)
    (hall : ∀ w u, (w, some u) ∈ (m.instr x).operands.zip (m.instr x).blocks →
      w = v ∨ w = .instr x) : m.Ready f e c x v := by
  have hfirst : ∀ u, Walk m.successors (· ≠ c) e u → c ∈ m.successors u → m.Carried f e u v := by
    intro u hu huc
    have hru : Reached m.successors e u := hu.mono fun _ _ => trivial
    have hpred : u ∈ m.predecessors f c :=
      mem_predecessors.2 ⟨hf.mem_of_reached hru, mem_successors.1 huc⟩
    obtain ⟨w, hw⟩ := (hf.phis c hc x hx hop).entry hpred
    have hcarried := hf.takes c hc x hx hop w u hw hru
    obtain rfl | rfl := hall w u hw
    · exact hcarried
    obtain ⟨h, hp, hd⟩ := (hcarried.resolve_left (not_idle (by rw [hop]; rfl))).2 x rfl
    cases ((hl.instr c x).1 hx).symm.trans hp
    exact absurd hu hd
  by_cases hidle : m.Idle v
  · exact .inl hidle
  have hfirst : ∀ u, Walk m.successors (· ≠ c) e u → c ∈ m.successors u →
      m.operandDefect? f v = none ∧ ∀ j, v = .instr j → ∃ h, (m.instr j).parent = some h ∧
        Dominates m.successors e h u :=
    fun u hu huc => (hfirst u hu huc).resolve_left hidle
  obtain ⟨d, hd, -, hde | ⟨u, hu, huc⟩⟩ := hr.hit (· = c) rfl
  · exact absurd (hd.symm.trans hde) hce
  rw [hd] at huc
  have hcarried := hfirst u (hu.mono fun _ hx => hx.2) huc
  refine .inr ⟨hcarried.1, fun j hj => ?_⟩
  obtain ⟨h, hp, -⟩ := hcarried.2 j hj
  have hdom : ∀ u, Walk m.successors (· ≠ c) e u → c ∈ m.successors u →
      Dominates m.successors e h u := by
    intro u hu huc
    obtain ⟨h', hp', hd⟩ := (hfirst u hu huc).2 j hj
    cases hp.symm.trans hp'
    exact hd
  exact ⟨h, hp, .inr ⟨Dominates.ne_of_pred hr hce hdom, Dominates.of_preds hce hdom⟩⟩

/-! ## Replacing -/

variable {m : Module} {f : FuncId} {e b c : BlockId} {i j : InstrId} {v w : Value}

/-- A module after an instruction of a function gave way to a value. -/
def supplant (m : Module) (f : FuncId) (i : InstrId) (v : Value) : Module :=
  (m.replaceUses f i v).erase i

@[simp] theorem supplant_func (g : FuncId) : (m.supplant f i v).func g = m.func g := by
  rw [supplant, erase_func, replaceUses_func]

theorem supplant_instr (j : InstrId) :
    (m.supplant f i v).instr j = { m.instr j with
      operands := if j ∈ m.body f then (m.instr j).operands.map (swap i v) else (m.instr j).operands
      parent := if j = i then none else (m.instr j).parent } := by
  rw [supplant, erase_instr, replaceUses_instr]
  by_cases hb : j ∈ m.body f
  · split <;> rfl
  · split <;> rfl

theorem supplant_op : ((m.supplant f i v).instr j).op = (m.instr j).op := by
  rw [supplant_instr]

theorem supplant_blocks : ((m.supplant f i v).instr j).blocks = (m.instr j).blocks := by
  rw [supplant_instr]

theorem Linked.supplant (hl : m.Linked) : (m.supplant f i v).Linked :=
  (hl.replaceUses i v).erase i

theorem Linked.supplant_instrs (hl : m.Linked) :
    ((m.supplant f i v).block b).instrs = (m.block b).instrs.erase i := by
  rw [Module.supplant, (hl.replaceUses i v).erase_instrs, replaceUses_block]

theorem Linked.replaceUses_body (m : Module) : (m.replaceUses f i v).body f = m.body f := by
  simp [body]

theorem Edited.supplant (hl : m.Linked) (hi : i ∈ m.body f) : Edited f m (m.supplant f i v) :=
  (Edited.replaceUses hl i v).trans (Edited.erase (hl.replaceUses i v) (by
    rwa [Linked.replaceUses_body]))

theorem supplant_body (hl : m.Linked) : j ∈ (m.supplant f i v).body f ↔ j ∈ m.body f ∧ j ≠ i := by
  rw [supplant, erase_body (hl.replaceUses i v), Linked.replaceUses_body]

section Replaced

variable (hl : m.Linked) (hc : c ∈ (m.func f).blocks) (hi : i ∈ (m.block c).instrs)
  (hop : (m.instr i).op.isTerminator = false)

include hl hc hi hop

theorem Thinned.supplant : Thinned (· ≠ i) (swap i v) f f m (m.supplant f i v) where
  edited := Edited.supplant hl (hl.mem_body_of_mem hc hi)
  linked := hl.supplant
  blocks := by rw [supplant_func]
  instrs b _ := by
    rw [hl.supplant_instrs, (hl.instrs b).erase_eq_filter]
    exact filter_congr fun j _ => (decide_not ..).symm
  instr j hj hs := by rw [supplant_instr, if_pos hj, if_neg (of_decide_eq_true hs)]
  ends j _ hs := by
    simp only [ne_eq, decide_not, Bool.not_eq_false', decide_eq_true_eq] at hs
    rw [hs, hop]

omit hc in
/-- A value of the type of an instruction fills its place when it is there where the instruction
stood. -/
theorem Fills.supplant (hty : m.typeOf v = (m.instr i).ty) (hv : v ≠ .missing)
    (hready : Reached m.successors e c → m.Ready f e c i v) :
    Fills (· ≠ i) (swap i v) f e m := by
  have hpi := (hl.instr c i).1 hi
  -- Where the result is read, control has been in the block of the instruction.
  have hstood : ∀ {b x}, Reached m.successors e b →
      m.Ready f e b x (.instr i) ∨ m.Carried f e b (.instr i) → m.Ready f e c i v := by
    intro b x hb hw
    refine hready ?_
    obtain hw | hw := hw <;> obtain ⟨c', hc', hd⟩ := (hw.resolve_left (not_idle hop)).2 i rfl <;>
      cases hpi.symm.trans hc'
    · obtain ⟨rfl, -⟩ | ⟨-, hd⟩ := hd
      · exact hb
      · exact hd.reached hb
    · exact hd.reached hb
  have hself : swap i v (.instr i) = v := if_pos rfl
  have hother : ∀ {w}, w ≠ .instr i → swap i v w = w := fun h => if_neg h
  refine ⟨fun w => ?_, fun x _ _ w _ b hb hw j hj => ?_, fun b x w hb hw => ?_,
    fun u w hu hw => ?_⟩ <;> obtain rfl | hwi := eq_or_ne w (.instr i)
  · rw [hself, hty]
    exact ⟨rfl, by simp [hv]⟩
  · rw [hother hwi]
    exact ⟨rfl, Iff.rfl⟩
  · rw [hself] at hj
    refine decide_eq_true fun hji => (hstood hb hw).ne_self hl hpi hop ?_
    rw [hj, hji]
  · rw [hother hwi] at hj
    exact decide_eq_true fun hji => hwi (by rw [hj, hji])
  · rw [hself]
    exact (hstood hb (.inl hw)).trans hl hpi hop hw hb
  · rwa [hother hwi]
  · rw [hself]
    exact (hstood (x := i) hu (.inr hw)).carry hpi hop hw
  · rwa [hother hwi]

end Replaced

end Qirc.IR.Module
