import Qirc.IR.Optimizer
import Qirc.Proofs.IR.Doubles
import Qirc.Proofs.IR.FoldLog
import Qirc.Proofs.IR.Integers

/-!
# Constants that folding takes for one

A phi or a selection gives way to a value when all that it can yield counts as the same. Doubles are
compared as numbers, which overlooks the sign of a zero, and addresses without their width. The
conversion of an integer to a double takes the number as it is stored.
-/

namespace Qirc.IR

open List

inductive Value.Blurred : Value → Value → Prop
  | zeros {x y : Float} (hx : (x == 0.0) = true) (hy : (y == 0.0) = true) (hne : x ≠ y) :
      Blurred (.float x) (.float y)
  | widths (ty : Ty) (v : Int64) {bits bits' : Int} (hne : bits ≠ bits') :
      Blurred (.address ty bits v) (.address ty bits' v)

def Value.Near (a b : Value) : Prop := a = b ∨ a.Blurred b

namespace Value

variable {a b c : Value}

theorem Near.refl (a : Value) : a.Near a := .inl rfl

theorem Near.zeros {x y : Float} (hx : (x == 0.0) = true) (hy : (y == 0.0) = true) :
    (Value.float x).Near (.float y) := by
  by_cases hne : x = y
  · exact .inl (by rw [hne])
  · exact .inr (.zeros hx hy hne)

theorem Near.widths (ty : Ty) (v : Int64) (bits bits' : Int) :
    (Value.address ty bits v).Near (.address ty bits' v) := by
  by_cases hne : bits = bits'
  · exact .inl (by rw [hne])
  · exact .inr (.widths ty v hne)

theorem Near.symm (h : a.Near b) : b.Near a := by
  obtain rfl | h := h
  · exact .refl a
  cases h with
  | zeros hx hy => exact .zeros hy hx
  | widths => exact .widths _ _ _ _

theorem Near.trans (h : a.Near b) (h' : b.Near c) : a.Near c := by
  obtain rfl | h := h
  · exact h'
  obtain rfl | h' := h'
  · exact .inr h
  cases h with
  | zeros hx =>
    cases h' with
    | zeros _ hz => exact .zeros hx hz
  | widths =>
    cases h' with
    | widths => exact .widths _ _ _ _

theorem Near.eq_instr {j : InstrId} (h : a.Near (.instr j)) : a = .instr j := by
  obtain h | h := h
  · exact h
  · cases h

theorem near_of_same (h : a.same b = true) : a.Near b := by
  rw [same, Bool.or_eq_true, beq_iff_eq, Bool.and_eq_true] at h
  obtain rfl | ⟨-, h⟩ := h
  · exact .refl a
  unfold sameConstant at h
  split at h
  · rw [Bool.and_eq_true, beq_iff_eq, beq_iff_eq] at h
    obtain ⟨rfl, rfl⟩ := h
    exact .refl _
  · obtain rfl | ⟨hx, hy⟩ := Double.eq_or_zeros h
    · exact .refl _
    · exact .zeros hx hy
  · rw [Bool.and_eq_true, beq_iff_eq, beq_iff_eq] at h
    obtain ⟨rfl, rfl⟩ := h
    exact .widths _ _ _ _
  · rw [beq_iff_eq] at h
    rw [h]
    exact .refl _
  · cases h
  · cases h
  · cases h
  · cases h
  · rw [beq_iff_eq] at h
    rw [h]
    exact .refl _

end Value

theorem phiValue?_near {phi : InstrId} {ops : List Value} {w v : Value}
    (hops : ∀ u ∈ ops, u ≠ .missing) (h : phiValue? phi ops w = some v) :
    (w ≠ .missing → w.Near v) ∧ ∀ u ∈ ops, u ≠ .instr phi → u.Near v := by
  induction ops generalizing w with
  | nil =>
    unfold phiValue? at h
    split at h
    · cases h
    · cases h
      exact ⟨fun _ => .refl _, by simp⟩
    · contradiction
  | cons op ops ih =>
    rw [forall_mem_cons] at hops
    unfold phiValue? at h
    split at h
    · rename_i hop
      obtain ⟨hw, hall⟩ := ih hops.2 h
      exact ⟨hw, forall_mem_cons.2 ⟨absurd hop, hall⟩⟩
    · split at h
      · cases h
      rename_i hsame
      obtain ⟨hop, hall⟩ := ih hops.2 h
      refine ⟨fun hw => ?_, forall_mem_cons.2 ⟨fun _ => hop hops.1, hall⟩⟩
      have hnear : w.Near op := by
        refine Value.near_of_same ?_
        cases hs : w.same op with
        | true => rfl
        | false => exact absurd ⟨hw, by simp [hs]⟩ hsame
      exact hnear.trans (hop hops.1)

namespace Module

/-- What a phi or a selection can yield, apart from itself. -/
def outcomes (m : Module) (i : InstrId) : List Value :=
  match (m.instr i).op, (m.instr i).operands with
  | .phi, ops => ops.filter (fun v => v ≠ .instr i)
  | .select, .int _ c :: x :: y :: _ => [if c != 0 then x else y]
  | .select, _ :: x :: y :: _ => [x, y]
  | _, _ => []

variable {m m' : Module} {f : FuncId} {i : InstrId} {v : Value}

theorem folded?_near (hops : ∀ u ∈ (m.instr i).operands, u ≠ .missing)
    (h : m.folded? i = .ok (some v)) : ∀ u ∈ m.outcomes i, u.Near v := by
  unfold outcomes
  split
  · rename_i hop
    simp only [folded?, hop, Except.ok.injEq] at h
    intro u hu
    obtain ⟨hu, hself⟩ := mem_filter.1 hu
    exact (phiValue?_near hops h).2 u hu (of_decide_eq_true hself)
  · rename_i hop hx
    simp only [folded?, hop, hx, Except.ok.injEq, Option.some.injEq] at h
    rw [forall_mem_singleton, h]
    exact .refl v
  · rename_i c x y _ hconst hop hx
    simp only [folded?, hop, hx] at h
    have hxy : (if x.same y then some x else none) = some v := by
      cases c with
      | int t n => exact absurd rfl (hconst t n)
      | _ => exact Except.ok.inj h
    split at hxy
    · rename_i hsame
      cases hxy
      exact forall_mem_cons.2
        ⟨.refl v, forall_mem_singleton.2 (Value.near_of_same hsame).symm⟩
    · cases hxy
  · simp

theorem folded?_sitofp {t : Ty} {n : Int64} {rest : List Value}
    (hop : (m.instr i).op = .sitofp) (hx : (m.instr i).operands = .int t n :: rest)
    (h : m.folded? i = .ok (some v)) : v = .float (Float.ofInt n.toInt) := by
  simp only [folded?, hop, hx, Except.ok.injEq, Option.some.injEq] at h
  exact h.symm

/-- What folding puts in the place of a phi or a selection is each of the values that it could have
yielded, up to the sign of a zero and the width of an address. What it puts in the place of a
converted integer constant is the double of the number as it is stored; the constant's value is that
number when it is stored with its sign. -/
theorem foldInstrs_merges_near {changed : Bool} (hl : m.Linked) (hok : m.functionReport f = .ok [])
    (h : foldInstrs f m = .ok changed m') :
    ∃ log, Folds f m log m' ∧ ∀ r ∈ log,
      (∀ u ∈ r.module.outcomes r.instr, u = r.value ∨ u.Blurred r.value) ∧
      ∀ t n rest, (r.module.instr r.instr).op = .sitofp →
        (r.module.instr r.instr).operands = .int t n :: rest →
        r.value = .float (Float.ofInt n.toInt) ∧
        (0 < t.bits → signExtended t.bits n = n →
          r.value = .float (Float.ofInt (reading t.bits n).toInt)) := by
  obtain ⟨log, hlog⟩ := foldInstrs_folds hl h
  refine ⟨log, hlog, Folds.forall (I := fun m => m.Linked ∧ m.AllOperands f (· ≠ .missing)) ?_ ?_ hlog ?_⟩
  · rintro m i v ⟨hl, hops⟩ - - hv -
    exact ⟨hl.supplant, hops.supplant hl hv⟩
  · rintro m i v ⟨-, hops⟩ hi hv
    refine ⟨folded?_near (hops i hi) hv, fun t n rest hop hx => ?_⟩
    have hfloat := folded?_sitofp hop hx hv
    refine ⟨hfloat, fun hbits hsigned => ?_⟩
    rw [← signExtended_toInt hbits, hsigned]
    exact hfloat
  · refine ⟨hl, fun i hi v hv => ?_⟩
    rintro rfl
    cases operands_of_accepted hok i hi _ hv

end Module

def chooses (ty : Ty) (x y : Value) : Module :=
  .single ⟨ty, [.i1]⟩ ["entry"]
    [(0, { op := .select, ty := ty, operands := [.param 0 0, x, y] }), (0, .ret (.instr 0))]

/-- A definition that converts a truth value to a double. -/
def convertsTruth : Module :=
  .single ⟨.double, []⟩ ["entry"] [(0, .cast .sitofp (.bool true) .double), (0, .ret (.instr 0))]

theorem chooses_doubles_verify (x y : Float) :
    (chooses .double (.float x) (.float y)).verify = .ok [] := by cbv

/-- The choice between the two zeros gives way to the first of them. -/
theorem foldInstrs_merges_near_zeros :
    ∃ log m', Module.Folds 0 (chooses .double (.float 0.0) (.float (-0.0))) log m' ∧ ∀ r ∈ log,
      (∀ u ∈ r.module.outcomes r.instr, u = r.value ∨ u.Blurred r.value) ∧
      ∀ t n rest, (r.module.instr r.instr).op = .sitofp →
        (r.module.instr r.instr).operands = .int t n :: rest →
        r.value = .float (Float.ofInt n.toInt) ∧
        (0 < t.bits → signExtended t.bits n = n →
          r.value = .float (Float.ofInt (reading t.bits n).toInt)) := by
  have hok := Module.verify_eq_nil.1 (chooses_doubles_verify 0.0 (-0.0)) 0 (by decide)
  have hrun : Module.foldInstrs 0 (chooses .double (.float 0.0) (.float (-0.0))) = .ok true
      ((chooses .double (.float 0.0) (.float (-0.0))).supplant 0 0 (.float 0.0)) := by
    rfl
  obtain ⟨log, hlog⟩ := Module.foldInstrs_merges_near (.single (by simp)) hok hrun
  exact ⟨log, _, hlog⟩

/-- Accepted definitions whose results folding changes: the negative zero is lost, an address is
read at another width, and the truth value, which is minus one as a signed integer, becomes one. -/
theorem foldInstrs_changes_constants :
    (∃ m', (chooses .double (.float 0.0) (.float (-0.0))).verify = .ok [] ∧
      Module.foldInstrs 0 (chooses .double (.float 0.0) (.float (-0.0))) = .ok true m' ∧
      (m'.instr 1).operands = [.float 0.0] ∧ (0.0 : Float).toBits ≠ (-0.0 : Float).toBits) ∧
    (∃ m', (chooses (.ptr .i1) (.address (.ptr .i1) 64 5) (.address (.ptr .i1) 1 5)).verify =
        .ok [] ∧
      Module.foldInstrs 0 (chooses (.ptr .i1) (.address (.ptr .i1) 64 5)
        (.address (.ptr .i1) 1 5)) = .ok true m' ∧
      (m'.instr 1).operands = [.address (.ptr .i1) 64 5] ∧ reading 1 5 = 1) ∧
    (∃ m', convertsTruth.verify = .ok [] ∧ Module.foldInstrs 0 convertsTruth = .ok true m' ∧
      (m'.instr 1).operands = [.float 1.0] ∧ (reading 1 1).toInt = -1) := by
  exact ⟨⟨_, chooses_doubles_verify _ _, rfl, rfl, by decide⟩, ⟨_, by cbv, rfl, rfl, by decide⟩,
    ⟨_, by cbv, rfl, rfl, by decide⟩⟩

end Qirc.IR
