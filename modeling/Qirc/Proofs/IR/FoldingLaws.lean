import Qirc.Proofs.IR.FoldedConstants
import Qirc.Proofs.IR.Branches.SameWay
import Qirc.Proofs.IR.Runs

/-!
# The laws that folding uses

What an instruction computes from its operands is compared with the value that folding puts in its
place. The operands may have been replaced before by others; all that is asked of these is that they
are the same integers wherever the first ones are integers.
-/

namespace Qirc.IR

/-- If the first datum is an integer, the second one is the same. -/
def Datum.SameInteger (a b : Datum) : Prop := ∀ w n, a = .int w n → b = .int w n

namespace Datum.SameInteger

variable {a b c : Datum}

theorem refl (a : Datum) : a.SameInteger a := fun _ _ h => h

theorem trans (h : a.SameInteger b) (h' : b.SameInteger c) : a.SameInteger c :=
  fun w n ha => h' w n (h w n ha)

end Datum.SameInteger

def Opcode.onBits (op : Opcode) (w : Nat) (x y : BitVec w) : BitVec w :=
  match op with
  | .xor => x ^^^ y
  | .and => x &&& y
  | _ => x ||| y

namespace Module

variable {m : Module} {args : List Datum} {regs : Registers} {a b d : Datum} {x y v : Value}
  {op : Opcode} {t u : Ty} {k l : Int64}

theorem eval_int (t : Ty) (k : Int64) :
    m.eval args regs (.int t k) = .int t.bits (reading t.bits k) := rfl

theorem sameInteger_of_near (h : x.Near y) :
    (m.eval args regs x).SameInteger (m.eval args regs y) := by
  obtain rfl | h := h
  · exact .refl _
  cases h with
  | zeros => rintro w n ⟨⟩
  | widths => rintro w n ⟨⟩

theorem eq_reading {w : Nat} {n : BitVec w} (h : a.SameInteger (m.eval args regs (.int t k)))
    (ha : a = .int w n) : t.bits = w ∧ n ≍ reading t.bits k := by
  have := h w n ha
  injection this with hw hn
  exact ⟨hw, hn.symm⟩

/-! ## Logical operations -/

theorem onBits_comm (op : Opcode) (w : Nat) (x y : BitVec w) : op.onBits w x y = op.onBits w y x := by
  unfold Opcode.onBits
  split
  · exact BitVec.xor_comm x y
  · exact BitVec.and_comm x y
  · exact BitVec.or_comm x y

theorem logic_constants (ha : a.SameInteger (m.eval args regs (.int t k)))
    (hb : b.SameInteger (m.eval args regs (.int u l))) :
    (Datum.bitwise op.onBits a b).SameInteger (m.eval args regs (.int t ((match op with
      | .xor => k ^^^ l
      | .and => k &&& l
      | _ => k ||| l) &&& maskOf t.bits))) := by
  intro w n h
  obtain ⟨p, q, hp, hq, rfl⟩ := Datum.bitwise_int h
  obtain ⟨rfl, hp⟩ := eq_reading ha hp
  obtain ⟨hw, hq⟩ := eq_reading hb hq
  rw [hw] at hq
  cases hp
  cases hq
  rw [eval_int, reading_masked]
  unfold Opcode.onBits
  split
  · rw [reading_xor]
  · rw [reading_and]
  · rw [reading_or]

theorem logic_equal (hop : op = .xor ∨ op = .and ∨ op = .or)
    (htype : ∀ w n, m.eval args regs x = .int w n → (m.typeOf x).bits = w)
    (ha : a.SameInteger (m.eval args regs x)) (hb : b.SameInteger (m.eval args regs y))
    (h : m.foldEqual op x y = .ok (some v)) :
    (Datum.bitwise op.onBits a b).SameInteger (m.eval args regs v) := by
  intro w n hn
  obtain ⟨p, q, hp, hq, rfl⟩ := Datum.bitwise_int hn
  unfold foldEqual at h
  split at h
  · rename_i hsame
    have hx := ha w p hp
    have hy := sameInteger_of_near (Value.near_of_same hsame) w p hx
    cases hy.symm.trans (hb w q hq)
    obtain rfl | rfl | rfl := hop
    · cases hty : m.operandType x with
      | error => simp [hty, bind, Except.bind] at h
      | ok s =>
        simp only [hty, bind, Except.bind, if_pos] at h
        cases h
        have hs := htype w p hx
        rw [(operandType_eq_ok.1 hty).2] at hs
        subst hs
        simp [eval_int, Opcode.onBits, reading]
    · cases h
      simp [hx, Opcode.onBits]
    · cases h
      simp [hx, Opcode.onBits]
  · cases h

theorem isInt_one (h : t.isInt 1 = true) : t = .int 1 := by
  cases t with
  | int w =>
    rw [Ty.isInt, Bool.or_eq_true, beq_iff_eq, beq_iff_eq] at h
    rw [h.resolve_left (by decide)]
  | _ => cases h

theorem bit_cases (h : fitsBit (.int (.int 1) k) = true) : k = 0 ∨ k = 1 := by
  simpa [fitsBit, Ty.isInt] using h

theorem bits_with_zero : ∀ p : BitVec 1, Opcode.xor.onBits 1 p (reading 1 0) = p ∧
    Opcode.and.onBits 1 p (reading 1 0) = reading 1 0 ∧
    Opcode.or.onBits 1 p (reading 1 0) = p := by decide

theorem bits_with_one : ∀ p : BitVec 1, Opcode.and.onBits 1 p (reading 1 1) = p ∧
    Opcode.or.onBits 1 p (reading 1 1) = reading 1 1 := by decide

theorem bits_negated_twice : ∀ p : BitVec 1, p ^^^ reading 1 1 ^^^ 1 = p := by decide

/-- What the result of a negation says about its operand. -/
structure Negates (m : Module) (args : List Datum) (regs : Registers) (j : InstrId) (p : Value)
    (s : Ty) (l : Int64) : Prop where
  bit : fitsBit (.int s l) = true
  value : ∃ a b, regs j = Datum.xor a b ∧ a.SameInteger (m.eval args regs p) ∧
    b.SameInteger (m.eval args regs (.int s l))

theorem logic_negation {n : BitVec 1}
    (hneg : ∀ j p s l rest, x = .instr j → (m.instr j).op = .xor →
      (m.instr j).operands = p :: .int s l :: rest → m.Negates args regs j p s l)
    (h : m.doubleNegation? x = .ok (some v)) (hx : m.eval args regs x = .int 1 n) :
    m.eval args regs v = .int 1 (n ^^^ 1) := by
  unfold doubleNegation? at h
  split at h
  · rename_i j
    split at h
    · rename_i hop
      split at h
      · cases h
      · cases h
      · rename_i l rest hops
        split at h
        · rename_i hs
          cases h
          rw [Bool.and_eq_true, bne_iff_ne] at hs
          obtain rfl := isInt_one hs.1
          obtain ⟨hbit, a, b, hj, ha, hb⟩ := hneg j v _ l rest rfl hop hops
          obtain rfl := (bit_cases hbit).resolve_left hs.2
          obtain ⟨p, q, hp, hq, rfl⟩ := Datum.bitwise_int (hj.symm.trans hx)
          obtain ⟨-, hq⟩ := eq_reading hb hq
          cases hq
          exact (ha 1 p hp).trans (congrArg _ (bits_negated_twice p).symm)
        · cases h
      · cases h
    · cases h
  · cases h

theorem logic_truth (hop : op = .xor ∨ op = .and ∨ op = .or) (ht : t.isInt 1 = true)
    (hbit : fitsBit (.int t k) = true) (ha : a.SameInteger (m.eval args regs x))
    (hb : b.SameInteger (m.eval args regs (.int t k)))
    (hneg : ∀ j p s l rest, x = .instr j → (m.instr j).op = .xor →
      (m.instr j).operands = p :: .int s l :: rest → m.Negates args regs j p s l)
    (h : m.foldTruth op x t k = .ok (some v)) :
    (Datum.bitwise op.onBits a b).SameInteger (m.eval args regs v) := by
  intro w n hn
  obtain ⟨p, q, hp, hq, rfl⟩ := Datum.bitwise_int hn
  obtain rfl := isInt_one ht
  obtain ⟨rfl, hq⟩ := eq_reading hb hq
  cases hq
  have hx := ha _ p hp
  obtain rfl | rfl := bit_cases hbit
  · obtain ⟨hxor, hand, hor⟩ := bits_with_zero p
    obtain rfl | rfl | rfl := hop
    · cases h
      exact hx.trans (congrArg _ hxor.symm)
    · cases h
      exact congrArg _ hand.symm
    · cases h
      exact hx.trans (congrArg _ hor.symm)
  · obtain ⟨hand, hor⟩ := bits_with_one p
    obtain rfl | rfl | rfl := hop
    · exact logic_negation hneg h hx
    · cases h
      exact hx.trans (congrArg _ hand.symm)
    · cases h
      exact congrArg _ hor.symm

theorem bitwise_comm (op : Opcode) (a b : Datum) :
    Datum.bitwise op.onBits a b = Datum.bitwise op.onBits b a := by
  cases a with
  | int w p =>
    cases b with
    | int u q =>
      by_cases hw : u = w
      · subst hw
        simp [Datum.bitwise, onBits_comm op u p q]
      · simp [Datum.bitwise, hw, Ne.symm hw]
    | _ => rfl
  | _ => cases b <;> rfl

structure Tame (m : Module) (args : List Datum) (regs : Registers) (x : Value) : Prop where
  bit : fitsBit x = true
  type : ∀ w n, m.eval args regs x = .int w n → (m.typeOf x).bits = w
  negated : ∀ j p s l rest, x = .instr j → (m.instr j).op = .xor →
    (m.instr j).operands = p :: .int s l :: rest → m.Negates args regs j p s l

theorem widthOf_bind {α : Type} {r : α} {g : Nat → Except Failure α}
    (h : (widthOf t >>= g) = .ok r) : g t.bits = .ok r := by
  cases t with
  | missing => cases h
  | _ => exact h

theorem logic_folded (hop : op = .xor ∨ op = .and ∨ op = .or) (hx : m.Tame args regs x)
    (hy : m.Tame args regs y) (ha : a.SameInteger (m.eval args regs x))
    (hb : b.SameInteger (m.eval args regs y)) (h : m.foldLogic op x y = .ok (some v)) :
    (Datum.bitwise op.onBits a b).SameInteger (m.eval args regs v) := by
  unfold foldLogic at h
  split at h
  · cases widthOf_bind h
    exact logic_constants ha hb
  · split at h
    · rename_i ht
      exact logic_truth hop ht hy.bit ha hb hx.negated h
    · exact logic_equal hop hx.type ha hb h
  · rw [bitwise_comm]
    split at h
    · rename_i ht
      exact logic_truth hop ht hx.bit hb ha hy.negated h
    · exact logic_equal hop hy.type hb ha h
  · exact logic_equal hop hx.type ha hb h

/-! ## Comparisons, conversions and selections -/

theorem compare_constants {relation : String} {r : Bool} (hw : ∀ w n, a = .int w n → 0 < w)
    (ha : a.SameInteger (m.eval args regs (.int t k)))
    (hb : b.SameInteger (m.eval args regs (.int u l)))
    (h : compareInts relation t.bits k l = some r) :
    (Datum.compare relation a b).SameInteger (m.eval args regs (.bool r)) := by
  intro w n hn
  obtain ⟨w', p, q, r', hp, hq, hholds, hbool⟩ := Datum.compare_int hn
  have hpos := hw w' p hp
  obtain ⟨rfl, hp⟩ := eq_reading ha hp
  obtain ⟨hu, hq⟩ := eq_reading hb hq
  rw [hu] at hq
  cases hp
  cases hq
  cases (holds_of_compareInts hpos h).symm.trans hholds
  rw [hbool]
  cases r <;> rfl

theorem widened_constant (hw : ∀ w n, a = .int w n → 0 < w ∧ w < u.bits) (hu : u.bits ≤ 64)
    (ha : a.SameInteger (m.eval args regs (.int t k))) :
    (a.resize u.bits).SameInteger (m.eval args regs (.int u (k &&& maskOf t.bits))) := by
  intro w n hn
  obtain ⟨w', p, hp, hint⟩ := Datum.resize_int hn
  obtain ⟨hpos, hlt⟩ := hw w' p hp
  obtain ⟨rfl, hp⟩ := eq_reading ha hp
  cases hp
  rw [hint, eval_int, reading_widened hpos hlt hu]

theorem narrowed_constant (hw : ∀ w n, a = .int w n → u.bits ≤ w)
    (ha : a.SameInteger (m.eval args regs (.int t k))) :
    (a.resize u.bits).SameInteger (m.eval args regs (.int u (k &&& maskOf u.bits))) := by
  intro w n hn
  obtain ⟨w', p, hp, hint⟩ := Datum.resize_int hn
  have hle := hw w' p hp
  obtain ⟨rfl, hp⟩ := eq_reading ha hp
  cases hp
  rw [hint, eval_int, reading_narrowed hle]

theorem isTrue_constant {n : BitVec 1} (hbit : fitsBit (.int t k) = true)
    (ha : d.SameInteger (m.eval args regs (.int t k))) (hd : d = .int 1 n) :
    d.isTrue = (k != 0) := by
  obtain ⟨ht, hn⟩ := eq_reading ha hd
  have ht : t = .int 1 := by
    cases t with
    | int w => exact congrArg _ ht
    | _ => cases ht
  subst ht
  cases hn
  subst hd
  obtain rfl | rfl := bit_cases hbit <;> rfl

/-! ## Where the values come from -/

/-- The values that folding may put in the place of an instruction. -/
inductive Arises (m : Module) (i : InstrId) : Value → Prop
  | operand {v : Value} (hv : v ∈ (m.instr i).operands) : Arises m i v
  | literal {v : Value} (hinstr : ∀ j, v ≠ .instr j) (hparam : ∀ g k, v ≠ .param g k)
      (hbit : fitsBit v = true) (hgiven : m.typeOf v ≠ .missing) : Arises m i v
  | inner {j : InstrId} {v : Value} (hj : .instr j ∈ (m.instr i).operands)
      (hop : (m.instr j).op ≠ .phi) (hv : v ∈ (m.instr j).operands) : Arises m i v

variable {i : InstrId}

theorem and_mask_one (n : Int64) : n &&& maskOf 1 = 0 ∨ n &&& maskOf 1 = 1 := by
  have hmask : (maskOf 1).toBitVec = 1#64 := by decide
  simp only [← Int64.toBitVec_inj, Int64.toBitVec_and, hmask,
    BitVec.and_one_eq_setWidth_ofBool_getLsbD]
  cases n.toBitVec.getLsbD 0
  · exact .inl rfl
  · exact .inr rfl

theorem Arises.int (ht : t ≠ .missing) (k : Int64) : m.Arises i (.int t (k &&& maskOf t.bits)) := by
  refine .literal (by simp) (by simp) ?_ ht
  unfold fitsBit
  by_cases h : t.isInt 1 = true
  · obtain rfl := isInt_one h
    obtain h | h := and_mask_one k <;> simp [Ty.bits, h]
  · simp [h]

theorem Arises.double (d : Float) : m.Arises i (.float d) :=
  .literal (by simp) (by simp) rfl (by simp [typeOf])

theorem Arises.bool (r : Bool) : m.Arises i (.bool r) :=
  .literal (by simp [Value.bool]) (by simp [Value.bool]) (by cases r <;> rfl) (by
    simp [typeOf, Value.bool, Ty.i1])

end Module

end Qirc.IR
