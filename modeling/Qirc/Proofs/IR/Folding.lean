import Qirc.IR.Pass.Folding
import Qirc.Proofs.IR.DeadCode
import Qirc.Proofs.Step

/-!
# Folded instructions

A value that an instruction folds to can take its place: it has the type of the instruction, and it
is a constant, one of the operands, an operand of an operand, or the one value that a phi can take.
Every round but the last takes an instruction off, so that the rounds do not run out.
-/

namespace Qirc.IR

open List Step

theorem Value.eq_of_same {a b : Value} (h : a.same b = true) :
    a = b ∨ (a.isShared = false ∧ b.isShared = false) := by
  rw [same, Bool.or_eq_true, beq_iff_eq, Bool.and_eq_true] at h
  obtain h | ⟨-, h⟩ := h
  · exact .inl h
  cases a <;> cases b <;>
    simp_all [sameConstant, isShared]

/-- The value of a phi is one of its operands, and the only one apart from the phi itself unless it
is a literal. -/
theorem phiValue?_spec {phi : InstrId} {ops : List Value} {w v : Value} (hops : .missing ∉ ops)
    (h : phiValue? phi ops w = some v) :
    v ≠ .missing ∧ (v = w ∨ v ∈ ops) ∧
      (v.isShared = true → (w = .missing ∨ w = v) ∧ ∀ u ∈ ops, u = v ∨ u = .instr phi) := by
  induction ops generalizing w with
  | nil =>
    unfold phiValue? at h
    split at h
    · cases h
    · rename_i hw
      cases h
      exact ⟨hw, by simp⟩
    · contradiction
  | cons op ops ih =>
    rw [mem_cons, not_or] at hops
    unfold phiValue? at h
    split at h
    · rename_i hop
      obtain ⟨hne, hv, hall⟩ := ih hops.2 h
      refine ⟨hne, hv.imp_right (mem_cons_of_mem _), fun hs => ⟨(hall hs).1, ?_⟩⟩
      exact forall_mem_cons.2 ⟨.inr hop, (hall hs).2⟩
    · split at h
      · cases h
      rename_i hw
      obtain ⟨hne, hv, hall⟩ := ih hops.2 h
      refine ⟨hne, .inr ?_, fun hs => ?_⟩
      · obtain rfl | hv := hv
        · exact mem_cons_self
        · exact mem_cons_of_mem _ hv
      · obtain ⟨hop, hrest⟩ := hall hs
        obtain rfl := hop.resolve_left (Ne.symm hops.1)
        refine ⟨?_, forall_mem_cons.2 ⟨.inl rfl, hrest⟩⟩
        by_cases hmissing : w = .missing
        · exact .inl hmissing
        have hsame : w.same op = true := by
          cases hsw : w.same op with
          | true => rfl
          | false => exact absurd ⟨hmissing, by simp [hsw]⟩ hw
        refine .inr ((Value.eq_of_same hsame).resolve_right fun hno => ?_)
        rw [hno.2] at hs
        cases hs

namespace Module

variable {m m' : Module} {f : FuncId} {e c : BlockId} {i j : InstrId} {v w x y : Value}

theorem widthOf_ok {t : Ty} (h : t ≠ .missing) : widthOf t = .ok t.bits := by
  unfold widthOf
  split
  · contradiction
  · rfl

/-! ## Values that can take the place of an instruction -/

theorem StandsIn.literal (hs : (m.instr i).Sound m) (hty : m.typeOf v = (m.instr i).ty)
    (hv : v.isShared = false) : StandsIn m f e c i v := by
  refine ⟨hty, ⟨by rw [hty]; exact hs.given, ?_⟩, fun _ => .inr ⟨?_, ?_⟩⟩
  · rintro j rfl
    cases hv
  · cases v <;> first | rfl | cases hv
  · rintro j rfl
    cases hv

section Operands

variable (hr : m.Regular f e) (hc : c ∈ (m.func f).blocks) (hi : i ∈ (m.block c).instrs)

include hr hc hi

theorem Regular.sound : (m.instr i).Sound m := hr.typed i (hr.linked.mem_body_of_mem hc hi)

theorem StandsIn.operand (hop : (m.instr i).op ≠ .phi) (hv : v ∈ (m.instr i).operands)
    (hty : m.typeOf v = (m.instr i).ty) : StandsIn m f e c i v :=
  ⟨hty, (hr.sound hc hi).solid v hv, fun h => hr.formed.reads c hc h i hi hop v hv⟩

variable (hreach : Reached m.successors e c) (hop : (m.instr i).op ≠ .phi)

include hreach hop

theorem Regular.operand_inside (hj : .instr j ∈ (m.instr i).operands) :
    ∃ d ∈ (m.func f).blocks, j ∈ (m.block d).instrs ∧ Reached m.successors e d := by
  have hnot := hr.typed.not_idle (hr.linked.mem_body_of_mem hc hi) hj
  obtain ⟨hdef, hdom⟩ := (hr.formed.reads c hc hreach i hi hop _ hj).resolve_left hnot
  obtain ⟨d, hp, hd⟩ := hdom j rfl
  obtain ⟨d', hp', hdf, -⟩ := operandDefect?_instr.1 hdef
  cases hp.symm.trans hp'
  refine ⟨d, (hr.linked.block f d).2 hdf, (hr.linked.instr d j).2 hp, ?_⟩
  obtain ⟨rfl, -⟩ | ⟨-, hd⟩ := hd
  · exact hreach
  · exact hd.reached hreach

theorem StandsIn.inner (hj : .instr j ∈ (m.instr i).operands) (hopj : (m.instr j).op ≠ .phi)
    (hv : v ∈ (m.instr j).operands) (hty : m.typeOf v = (m.instr i).ty) : StandsIn m f e c i v := by
  obtain ⟨d, hd, hjd, hreachd⟩ := hr.operand_inside hc hi hreach hop hj
  have hsolid := (hr.sound hc hi).solid _ hj
  refine ⟨hty, (hr.sound hd hjd).solid v hv, fun _ => ?_⟩
  exact (hr.formed.reads d hd hreachd j hjd hopj v hv).trans hr.linked
    ((hr.linked.instr d j).1 hjd) (hsolid.result j rfl).2
    (hr.formed.reads c hc hreach i hi hop _ hj) hreach

end Operands

/-! ## What an instruction folds to -/

/-- Folding comes to an end, and a value that it gives has a property. -/
def Yields (P : Value → Prop) (r : Except Failure (Option Value)) : Prop :=
  ∃ o, r = .ok o ∧ ∀ v, o = some v → P v

/-- What logical rules may make of an operand. -/
structure LogicOperand (m : Module) (P : Value → Prop) (x : Value) : Prop where
  self : P x
  given : m.typeOf x ≠ .missing
  masked : ∀ k, P (.int (m.typeOf x) (k &&& maskOf (m.typeOf x).bits))
  inner : ∀ j, x = .instr j → (m.instr j).op = .xor →
    ∃ v w, (m.instr j).operands = [v, w] ∧ P v

/-- What the rules for an instruction give has a property, and there are as many operands as they
look at. -/
def Foldable (m : Module) (i : InstrId) (P : Value → Prop) : Prop :=
  match (m.instr i).op with
  | .phi => ∀ v, phiValue? i (m.instr i).operands .missing = some v → P v
  | .select => ∃ c v w, (m.instr i).operands = [c, v, w] ∧ P v ∧ P w
  | .xor | .and | .or =>
    ∃ v w, (m.instr i).operands = [v, w] ∧ m.LogicOperand P v ∧ m.LogicOperand P w
  | .icmp =>
    ∃ v w, (m.instr i).operands = [v, w] ∧ m.typeOf v ≠ .missing ∧ ∀ r, P (.bool r)
  | .fadd | .fsub | .fmul | .fdiv =>
    ∃ v w, (m.instr i).operands = [v, w] ∧ (m.typeOf v = .double → ∀ d, P (.float d))
  | .fneg => ∃ v, (m.instr i).operands = [v] ∧ (∀ d, P (.float d)) ∧
    ∀ j, v = .instr j → (m.instr j).op = .fneg → ∃ w, (m.instr j).operands = [w] ∧ P w
  | .sitofp => ∃ v, (m.instr i).operands = [v] ∧ ∀ d, P (.float d)
  | .zext => ∃ v, (m.instr i).operands = [v] ∧ m.typeOf v ≠ .missing ∧
    ∀ t k, v = .int t k → P (.int (m.instr i).ty (k &&& maskOf t.bits))
  | .trunc => ∃ v, (m.instr i).operands = [v] ∧ (m.instr i).ty ≠ .missing ∧
    ∀ k, P (.int (m.instr i).ty (k &&& maskOf (m.instr i).ty.bits))
  | _ => True

section Yields

variable {P : Value → Prop} {op : Opcode}

theorem Yields.none : Yields P (.ok none) := ⟨_, rfl, by simp⟩

theorem Yields.some (h : P v) : Yields P (.ok (some v)) :=
  ⟨_, rfl, fun _ hv => Option.some.inj hv ▸ h⟩

theorem Yields.ite {b : Prop} [Decidable b] (h : P v) :
    Yields P (.ok (if b then Option.some v else Option.none)) := by
  split
  · exact .some h
  · exact .none

theorem Yields.width {t : Ty} {k : Nat → Except Failure (Option Value)} (ht : t ≠ .missing)
    (h : Yields P (k t.bits)) : Yields P (widthOf t >>= k) := by
  rw [widthOf_ok ht]
  exact h

section

variable (hx : m.LogicOperand P x)

include hx

theorem doubleNegation?_yields : Yields P (m.doubleNegation? x) := by
  unfold doubleNegation?
  split
  · split
    · rename_i j hop
      obtain ⟨v, w, hops, hv⟩ := hx.inner j rfl hop
      rw [hops]
      cases w with
      | int t k => exact .ite hv
      | _ => exact .none
    · exact .none
  · exact .none

theorem foldTruth_yields {t : Ty} {k : Int64} (ht : P (.int t k)) :
    Yields P (m.foldTruth op x t k) := by
  unfold foldTruth
  split
  · exact .some hx.self
  · exact .some hx.self
  · exact .some hx.self
  · exact .some ht
  · exact .some ht
  · exact doubleNegation?_yields hx
  · exact .none

theorem foldEqual_yields : Yields P (m.foldEqual op x y) := by
  have hne : x ≠ .missing := by
    rintro rfl
    exact hx.given rfl
  have hzero := hx.masked 0
  rw [Int64.zero_and] at hzero
  unfold foldEqual
  rw [operandType_eq_ok.2 ⟨hne, rfl⟩]
  split
  · split
    · exact .some hzero
    · exact .some hx.self
  · exact .none

theorem foldLogic_yields (hy : m.LogicOperand P y) : Yields P (m.foldLogic op x y) := by
  unfold foldLogic
  split
  · exact .width hx.given (.some (hx.masked _))
  · split
    · exact foldTruth_yields hx hy.self
    · exact foldEqual_yields hx
  · split
    · exact foldTruth_yields hy hx.self
    · exact foldEqual_yields hy
  · exact foldEqual_yields hx

end

theorem Foldable.yields (h : m.Foldable i P) : Yields P (m.folded? i) := by
  unfold Foldable at h
  cases hop : (m.instr i).op <;> simp only [hop] at h
  case phi =>
    simp only [folded?, hop]
    exact ⟨_, rfl, h⟩
  case select =>
    obtain ⟨c, v, w, hops, hv, hw⟩ := h
    simp only [folded?, hop, hops]
    cases c with
    | int t n =>
      dsimp only
      split
      · exact .some hv
      · exact .some hw
    | _ => exact .ite hv
  case xor | and | or =>
    obtain ⟨v, w, hops, hv, hw⟩ := h
    simp only [folded?, hop, hops]
    exact foldLogic_yields hv hw
  case icmp =>
    obtain ⟨v, w, hops, hgiven, h⟩ := h
    simp only [folded?, hop, hops]
    split
    · rename_i t a _ b
      refine .width hgiven ?_
      cases compareInts (m.instr i).relation t.bits a b with
      | none => exact .none
      | some r => exact .some (h r)
    · exact .none
  case fadd | fsub | fmul | fdiv =>
    obtain ⟨v, w, hops, h⟩ := h
    simp only [folded?, hop, hops]
    split
    · exact .some (h rfl _)
    · exact .none
  case fneg =>
    obtain ⟨v, hops, h, hinner⟩ := h
    simp only [folded?, hop, hops]
    split
    · exact .some (h _)
    · rename_i j
      split
      · rename_i hj
        obtain ⟨w, hopsj, hw⟩ := hinner j rfl hj
        rw [hopsj]
        exact .some hw
      · exact .none
    · exact .none
  case zext =>
    obtain ⟨v, hops, hgiven, h⟩ := h
    simp only [folded?, hop, hops]
    split
    · exact .width hgiven (.some (h _ _ rfl))
    · exact .none
  case trunc =>
    obtain ⟨v, hops, hgiven, h⟩ := h
    simp only [folded?, hop, hops]
    split
    · exact .width hgiven (.some (h _))
    · exact .none
  case sitofp =>
    obtain ⟨v, hops, h⟩ := h
    simp only [folded?, hop, hops]
    split
    · exact .some (h _)
    · exact .none
  all_goals
    simp only [folded?, hop]
    exact .none

end Yields

theorem typeOf_eq_of_compared {d : InstrDefect} (hx : x.Solid m) (hy : y.Solid m)
    (h : (do
      let s ← m.operandType x
      let t ← m.operandType y
      Except.ok (if s = t then Option.none else Option.some d)) = Except.ok Option.none) :
    m.typeOf y = m.typeOf x := by
  rw [operandType_eq_ok.2 ⟨hx.ne_missing, rfl⟩, operandType_eq_ok.2 ⟨hy.ne_missing, rfl⟩] at h
  by_cases hxy : m.typeOf x = m.typeOf y
  · exact hxy.symm
  · simp [bind, Except.bind, hxy] at h

section

variable (hr : m.Regular f e) (hc : c ∈ (m.func f).blocks) (hi : i ∈ (m.block c).instrs)

include hr hc hi

theorem Regular.binary_types (hops : (m.instr i).operands = [x, y])
    (hop : (m.instr i).op ∈ [.xor, .and, .or, .icmp, .fadd, .fsub, .fmul, .fdiv]) :
    m.typeOf y = m.typeOf x := by
  have hne : (m.instr i).op ≠ .phi := by
    intro h
    simp [h] at hop
  have htyped := hr.formed.typed c hc i hi hne
  have hsolid := (hr.sound hc hi).solid
  rw [hops] at hsolid
  unfold instrDefect? at htyped
  simp only [mem_cons, not_mem_nil, or_false] at hop
  obtain h | h | h | h | h | h | h | h := hop <;>
    (rw [h, hops] at htyped
     exact typeOf_eq_of_compared (hsolid x (by simp)) (hsolid y (by simp)) htyped)

theorem Regular.select_types {b : Value} (hops : (m.instr i).operands = [b, x, y])
    (hop : (m.instr i).op = .select) : m.typeOf y = m.typeOf x := by
  have htyped := hr.formed.typed c hc i hi (by simp [hop])
  have hsolid := (hr.sound hc hi).solid
  rw [hops] at hsolid
  unfold instrDefect? at htyped
  rw [hop, hops] at htyped
  dsimp only at htyped
  rw [operandType_eq_ok.2 ⟨(hsolid b (by simp)).ne_missing, rfl⟩] at htyped
  dsimp only [bind, Except.bind] at htyped
  split at htyped
  · cases htyped
  · exact typeOf_eq_of_compared (hsolid x (by simp)) (hsolid y (by simp)) htyped

end

section Cases

variable (hr : m.Regular f e) (hc : c ∈ (m.func f).blocks) (hi : i ∈ (m.block c).instrs)
  (hreach : Reached m.successors e c)

include hr hc hi hreach

theorem StandsIn.phi (hop : (m.instr i).op = .phi)
    (hv : phiValue? i (m.instr i).operands .missing = some v) : StandsIn m f e c i v := by
  have hsound := hr.sound hc hi
  have hops : Value.missing ∉ (m.instr i).operands := fun h => (hsound.solid _ h).given rfl
  have hok := hr.formed.phis c hc i hi hop
  obtain ⟨hne, hmem, hall⟩ := phiValue?_spec hops hv
  have hvops := hmem.resolve_left hne
  have hty := (operandType_eq_ok.1 (hok.types v hvops)).2
  by_cases hshared : v.isShared = true
  · refine ⟨hty, hsound.solid v hvops, fun _ => ?_⟩
    refine hr.formed.phi_ready hr.linked hc ?_ hi hop hreach fun w u hw => ?_
    · -- The entry has no predecessors, so that a phi there takes no value.
      rintro rfl
      have hlen := hok.length
      rw [hok.blocks.length_eq, hr.formed.predecessors_entry] at hlen
      rw [length_eq_zero_iff.1 hlen] at hvops
      cases hvops
    · exact (hall hshared).2 w (of_mem_zip hw).1
  · exact .literal hsound hty (Bool.eq_false_iff.2 hshared)

theorem Regular.operand_fits (hop : (m.instr i).op ≠ .phi) (hj : .instr j ∈ (m.instr i).operands) :
    (m.instr j).Fits m := by
  obtain ⟨d, hd, hjd, -⟩ := hr.operand_inside hc hi hreach hop hj
  exact (hr.sound hd hjd).fits

theorem Regular.logicOperand (hop : (m.instr i).op ∈ [.xor, .and, .or])
    (hx : x ∈ (m.instr i).operands) (hty : m.typeOf x = (m.instr i).ty) :
    m.LogicOperand (StandsIn m f e c i) x := by
  have hsound := hr.sound hc hi
  have hne : (m.instr i).op ≠ .phi := by
    intro h
    simp [h] at hop
  refine ⟨.operand hr hc hi hne hx hty, (hsound.solid x hx).given,
    fun _ => .literal hsound hty rfl, ?_⟩
  rintro j rfl hxor
  have hfits := hr.operand_fits hc hi hreach hne hx
  unfold Instr.Fits at hfits
  rw [hxor] at hfits
  obtain ⟨v, w, hops, htyj⟩ := hfits
  exact ⟨v, w, hops, .inner hr hc hi hreach hne hx (by simp [hxor]) (by simp [hops])
    (htyj.symm.trans hty)⟩

theorem Regular.foldable : m.Foldable i (StandsIn m f e c i) := by
  have hsound := hr.sound hc hi
  have hfits := hsound.fits
  have hliteral : ∀ {v : Value}, m.typeOf v = (m.instr i).ty → v.isShared = false →
      StandsIn m f e c i v := .literal hsound
  unfold Instr.Fits at hfits
  unfold Foldable
  cases hop : (m.instr i).op <;> rw [hop] at hfits
  case phi => exact fun v hv => .phi hr hc hi hreach hop hv
  case select =>
    obtain ⟨b, x, y, hops, hty⟩ := hfits
    exact ⟨b, x, y, hops, .operand hr hc hi (by simp [hop]) (by simp [hops]) hty.symm,
      .operand hr hc hi (by simp [hop]) (by simp [hops])
        ((hr.select_types hc hi hops hop).trans hty.symm)⟩
  case xor | and | or =>
    obtain ⟨x, y, hops, hty⟩ := hfits
    have hlogic := fun {x} => hr.logicOperand (x := x) hc hi hreach (by simp [hop])
    exact ⟨x, y, hops, hlogic (by simp [hops]) hty.symm, hlogic (by simp [hops])
      ((hr.binary_types hc hi hops (by simp [hop])).trans hty.symm)⟩
  case icmp =>
    obtain ⟨x, y, hops, hty⟩ := hfits
    exact ⟨x, y, hops, (hsound.solid x (by simp [hops])).given, fun _ => hliteral hty.symm rfl⟩
  case fadd | fsub | fmul | fdiv =>
    obtain ⟨x, y, hops, hty⟩ := hfits
    exact ⟨x, y, hops, fun hx _ => hliteral (hx.symm.trans hty.symm) rfl⟩
  case fneg =>
    obtain ⟨x, hops, hty, hx⟩ := hfits
    refine ⟨x, hops, fun _ => hliteral hty.symm rfl, ?_⟩
    rintro j rfl hj
    have hne : (m.instr i).op ≠ .phi := by simp [hop]
    have hmem : .instr j ∈ (m.instr i).operands := by simp [hops]
    have hfits := hr.operand_fits hc hi hreach hne hmem
    unfold Instr.Fits at hfits
    rw [hj] at hfits
    obtain ⟨v, hopsj, -, hv⟩ := hfits
    exact ⟨v, hopsj, .inner hr hc hi hreach hne hmem (by simp [hj]) (by simp [hopsj])
      (hv.trans hty.symm)⟩
  case zext =>
    obtain ⟨x, hops⟩ := hfits
    exact ⟨x, hops, (hsound.solid x (by simp [hops])).given, fun _ _ _ => hliteral rfl rfl⟩
  case trunc =>
    obtain ⟨x, hops⟩ := hfits
    exact ⟨x, hops, hsound.given, fun _ => hliteral rfl rfl⟩
  case sitofp =>
    obtain ⟨x, hops, hty⟩ := hfits
    exact ⟨x, hops, fun _ => hliteral hty.symm rfl⟩
  all_goals trivial

end Cases

/-! ## Rounds -/

def AllReached (m : Module) (f : FuncId) (e : BlockId) : Prop :=
  ∀ b ∈ (m.func f).blocks, Reached m.successors e b

theorem AllReached.unbent (h : m.AllReached f e) (hr : m.Regular f e) (hu : Unbent f m m') :
    m'.AllReached f e := by
  intro b hb
  rw [hu.blocks] at hb
  exact (hr.formed.walk_congr hu.successors).2 (h b hb)

theorem folded?_of_terminator (h : (m.instr i).op.isTerminator = true) :
    m.folded? i = .ok none := by
  cases hop : (m.instr i).op <;> simp_all [folded?, Opcode.isTerminator]

theorem foldInstr_of_kept {o : Option Value} (h : m.folded? i = .ok o)
    (ho : o = none ∨ o = some (.instr i)) : foldInstr f i m = .ok false m := by
  refine bind_ok.2 ⟨m, m, rfl, bind_ok.2 ⟨o, m, ofExcept_ok.2 ⟨h, rfl⟩, ?_⟩⟩
  obtain rfl | rfl := ho
  · rfl
  · exact congrFun (if_pos rfl) m

theorem foldInstr_of_folded (h : m.folded? i = .ok (some v)) (hv : v ≠ .missing)
    (hne : v ≠ .instr i) : foldInstr f i m = .ok true (m.supplant f i v) := by
  refine bind_ok.2 ⟨m, m, rfl, bind_ok.2 ⟨_, m, ofExcept_ok.2 ⟨h, rfl⟩, ?_⟩⟩
  cases v with
  | missing => exact absurd rfl hv
  | instr j =>
    dsimp only
    rw [if_neg hne]
    rfl
  | _ => rfl

section Total

/-- The pass comes to an end when an invariant that the replacements keep says that no instruction
makes it fail. -/
structure Unfailing (f : FuncId) (I : Module → Prop) : Prop where
  linked : ∀ m, I m → m.Linked
  folded : ∀ m i, I m → i ∈ m.body f → ∃ o, m.folded? i = .ok o
  step : ∀ m i v, I m → i ∈ m.body f → m.folded? i = .ok (some v) → v ≠ .missing → v ≠ .instr i →
    I (m.supplant f i v)

variable {I : Module → Prop} (hI : Unfailing f I)

include hI

theorem Unfailing.foldInstr (hm : I m) (hi : i ∈ m.body f) :
    foldInstr f i m = .ok false m ∨ ∃ v, foldInstr f i m = .ok true (m.supplant f i v) ∧
      I (m.supplant f i v) := by
  obtain ⟨o, ho⟩ := hI.folded m i hm hi
  cases o with
  | none => exact .inl (foldInstr_of_kept ho (.inl rfl))
  | some v =>
    by_cases hself : v = .instr i
    · exact .inl (foldInstr_of_kept ho (.inr (by rw [hself])))
    by_cases hmissing : v = .missing
    · subst hmissing
      exact .inl (bind_ok.2 ⟨m, m, rfl, bind_ok.2 ⟨_, m, ofExcept_ok.2 ⟨ho, rfl⟩,
        rfl⟩⟩)
    · exact .inr ⟨v, foldInstr_of_folded ho hmissing hself,
        hI.step m i v hm hi ho hmissing hself⟩

theorem Unfailing.foldEach {is : List InstrId} (hm : I m) (hnd : is.Nodup)
    (his : ∀ i ∈ is, i ∈ m.body f) :
    ∃ changed m', foldEach f is m = .ok changed m' ∧ I m' ∧
      (m'.body f).length ≤ (m.body f).length ∧
      (changed = true → (m'.body f).length < (m.body f).length) := by
  induction is generalizing m with
  | nil => exact ⟨false, m, rfl, hm, Nat.le_refl _, by simp⟩
  | cons i is ih =>
    rw [forall_mem_cons] at his
    obtain ⟨hi, hnd⟩ := nodup_cons.1 hnd
    have hl := hI.linked m hm
    obtain hstep | ⟨v, hstep, hm'⟩ := hI.foldInstr hm his.1
    · obtain ⟨changed, m', hrun, hm', hle, hlt⟩ := ih hm hnd his.2
      exact ⟨_, m', bind_ok.2 ⟨_, _, hstep, bind_ok.2 ⟨_, _, hrun, rfl⟩⟩, hm', hle, hlt⟩
    have hlen : ((m.supplant f i v).body f).length < (m.body f).length :=
      hl.supplant.body_length his.1 fun _ => (supplant_body hl).1
    obtain ⟨changed, m', hrun, hm'', hle, hlt⟩ := ih hm' hnd fun j hj =>
      (supplant_body hl).2 ⟨his.2 j hj, fun h => hi (h ▸ hj)⟩
    exact ⟨_, m', bind_ok.2 ⟨_, _, hstep, bind_ok.2 ⟨_, _, hrun, rfl⟩⟩, hm'',
      by omega, fun _ => by omega⟩

theorem Unfailing.foldRounds {rounds : Nat} (hm : I m) (hn : (m.body f).length < rounds) :
    ∃ changed m', foldRounds f rounds m = .ok changed m' ∧ I m' := by
  induction rounds generalizing m with
  | zero => omega
  | succ rounds ih =>
    obtain ⟨changed, m', hrun, hm', -, hlt⟩ :=
      hI.foldEach hm ((hI.linked m hm).body_nodup f) fun _ h => h
    cases changed with
    | false => exact ⟨false, m', bind_ok.2 ⟨_, _, rfl, bind_ok.2 ⟨_, _, hrun, rfl⟩⟩, hm'⟩
    | true =>
      have hlen := hlt rfl
      obtain ⟨changed, m'', hrun', hm''⟩ := ih hm' (by omega)
      exact ⟨true, m'', bind_ok.2 ⟨_, _, rfl, bind_ok.2 ⟨_, _, hrun,
        bind_ok.2 ⟨_, _, hrun', rfl⟩⟩⟩, hm''⟩

theorem Unfailing.foldInstrs (hm : I m) : ∃ changed m', foldInstrs f m = .ok changed m' ∧ I m' := by
  obtain ⟨changed, m', hrun, hm'⟩ := hI.foldRounds hm (Nat.lt_succ_self _)
  exact ⟨changed, m', bind_ok.2 ⟨_, _, rfl, hrun⟩, hm'⟩

end Total

theorem Regular.unfailing (hr : m.Regular f e) (hall : m.AllReached f e) :
    Unfailing f (Substituted f e m) where
  linked _ h := (h.keeps hr).1.linked
  folded m' i h hi := by
    obtain ⟨hr', hu⟩ := h.keeps hr
    obtain ⟨c, hp, hc⟩ := hr'.linked.mem_body.1 hi
    obtain ⟨o, ho, -⟩ :=
      (hr'.foldable hc ((hr'.linked.instr c i).2 hp) (hall.unbent hr hu c hc)).yields
    exact ⟨o, ho⟩
  step m' i v h hi hv _ _ := by
    obtain ⟨hr', hu⟩ := h.keeps hr
    obtain ⟨c, hp, hc⟩ := hr'.linked.mem_body.1 hi
    have hic := (hr'.linked.instr c i).2 hp
    obtain ⟨o, ho, hstands⟩ := (hr'.foldable hc hic (hall.unbent hr hu c hc)).yields
    cases ho.symm.trans hv
    have hop : (m'.instr i).op.isTerminator = false := by
      rw [Bool.eq_false_iff]
      intro hterm
      cases hv.symm.trans (folded?_of_terminator hterm)
    exact h.supplant hr'.linked hc hic hop (hstands v rfl)

/-- Folding the instructions of a definition without unreachable blocks comes to an end, and it is a
sequence of substitutions. -/
theorem foldInstrs_spec (hr : m.Regular f e) (hall : m.AllReached f e) :
    ∃ changed m', foldInstrs f m = .ok changed m' ∧ Substituted f e m m' :=
  (hr.unfailing hall).foldInstrs .refl

end Module

end Qirc.IR
