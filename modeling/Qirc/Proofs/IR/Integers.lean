import Mathlib.Algebra.Group.Nat.Defs
import Qirc.IR.Pass.Folding
import Qirc.Proofs.IR.Semantics

/-!
# Integers of a width

A constant is stored in 64 bits, whatever its width, and only its low bits count. So the same integer
can be stored in several ways, with the bits above filled up with zeros or with the sign. Folding
works on the stored form; what it computes reads as the operation on the integers.
-/

namespace Qirc.IR

/-- The integer of a width that a stored number stands for. -/
def reading (bits : Nat) (n : Int64) : BitVec bits := BitVec.ofInt bits n.toInt

variable {u w : Nat} {x y : Int64}

theorem reading_eq_signExtend (w : Nat) (n : Int64) : reading w n = n.toBitVec.signExtend w := rfl

theorem reading_eq_setWidth (hw : w ≤ 64) (n : Int64) : reading w n = n.toBitVec.setWidth w :=
  BitVec.signExtend_eq_setWidth_of_le _ hw

/-! ## Bits -/

theorem reading_xor : reading w (x ^^^ y) = reading w x ^^^ reading w y := by
  simp [reading_eq_signExtend, Int64.toBitVec_xor, BitVec.signExtend_xor]

theorem reading_and : reading w (x &&& y) = reading w x &&& reading w y := by
  simp [reading_eq_signExtend, Int64.toBitVec_and, BitVec.signExtend_and]

theorem reading_or : reading w (x ||| y) = reading w x ||| reading w y := by
  simp [reading_eq_signExtend, Int64.toBitVec_or, BitVec.signExtend_or]

theorem maskOf_toBitVec :
    ∀ w : Fin 64, 0 < w.val → (maskOf w).toBitVec = BitVec.ofNat 64 (2 ^ w.val - 1) := by
  decide +kernel

theorem maskOf_getLsbD (hw : 0 < w) (hw' : w < 64) (k : Nat) :
    (maskOf w).toBitVec.getLsbD k = decide (k < w) := by
  rw [maskOf_toBitVec ⟨w, hw'⟩ hw, BitVec.getLsbD_ofNat]
  by_cases hk : k < w
  · simp [hk, Nat.lt_trans hk hw']
  · simp [hk]

theorem maskOf_eq_neg_one (hw : w = 0 ∨ 64 ≤ w) : maskOf w = -1 := if_pos hw

theorem and_neg_one (n : Int64) : n &&& -1 = n := by
  apply Int64.toBitVec_inj.1
  exact BitVec.and_allOnes

theorem reading_masked (w : Nat) (n : Int64) : reading w (n &&& maskOf w) = reading w n := by
  by_cases hw : w = 0 ∨ 64 ≤ w
  · rw [maskOf_eq_neg_one hw, and_neg_one]
  rw [not_or, Nat.not_le] at hw
  have hle : w ≤ 64 := Nat.le_of_lt hw.2
  rw [reading_eq_setWidth hle, reading_eq_setWidth hle]
  ext k hk
  simp [maskOf_getLsbD (Nat.pos_of_ne_zero hw.1) hw.2, hk]

theorem reading_widened (hw : 0 < w) (hu : w < u) (hu' : u ≤ 64) (n : Int64) :
    reading u (n &&& maskOf w) = (reading w n).setWidth u := by
  have hw' : w < 64 := Nat.lt_of_lt_of_le hu hu'
  rw [reading_eq_setWidth hu', reading_eq_setWidth (Nat.le_of_lt hw')]
  ext k hk
  simp [maskOf_getLsbD hw hw', Bool.and_comm]

theorem reading_narrowed (hu : u ≤ w) (n : Int64) :
    reading u (n &&& maskOf u) = (reading w n).setWidth u := by
  rw [reading_masked]
  ext k hk
  simp [reading_eq_signExtend, BitVec.getElem_signExtend, Nat.lt_of_lt_of_le hk hu]

/-! ## Comparisons -/

theorem shifted_toBitVec :
    ∀ w : Fin 64, 0 < w.val → ((Int64.ofNat (64 - w.val)).toBitVec.smod 64).toNat = 64 - w.val := by
  decide +kernel

theorem signExtended_toInt (hw : 0 < w) (n : Int64) :
    (signExtended w n).toInt = (reading w n).toInt := by
  unfold signExtended
  split
  · rename_i h
    rw [reading_eq_signExtend, BitVec.toInt_signExtend_of_le (h.resolve_left (Nat.ne_of_gt hw))]
    rfl
  · rename_i h
    rw [not_or, Nat.not_le] at h
    have hle : w ≤ 64 := Nat.le_of_lt h.2
    rw [reading_eq_setWidth hle, ← BitVec.toInt_signExtend_of_le hle]
    refine congrArg BitVec.toInt (?_ : (_ : Int64).toBitVec = _)
    rw [Int64.toBitVec_shiftRight, Int64.toBitVec_shiftLeft, BitVec.sshiftRight', BitVec.shiftLeft_eq',
      shifted_toBitVec ⟨w, h.2⟩ hw]
    ext k hk
    rw [BitVec.getElem_sshiftRight, BitVec.getElem_signExtend]
    by_cases hkw : k < w
    · have hin : 64 - w + k < 64 := by omega
      have hback : 64 - w + k - (64 - w) = k := by omega
      simp [hkw, hin, hback, BitVec.getLsbD_eq_getElem, hk]
    · have hout : ¬64 - w + k < 64 := by omega
      have hshift : ¬63 < 64 - w := by omega
      have hlast : 63 - (64 - w) = w - 1 := by omega
      have htop : w - 1 < 64 := by omega
      have hpred : w - 1 < w := by omega
      simp [hkw, hout, hshift, hlast, htop, hpred, BitVec.msb_eq_getLsbD_last,
        BitVec.getLsbD_eq_getElem]

theorem holds_of_compareInts {relation : String} {r : Bool} (hw : 0 < w)
    (h : compareInts relation w x y = some r) :
    Datum.holds relation (reading w x) (reading w y) = some r := by
  have heq : (signExtended w x == signExtended w y) = (reading w x == reading w y) := by
    rw [Bool.eq_iff_iff, beq_iff_eq, beq_iff_eq, ← Int64.toInt_inj, signExtended_toInt hw,
      signExtended_toInt hw, BitVec.toInt_inj]
  have hlt : ∀ x y, decide (signExtended w x < signExtended w y) =
      (reading w x).slt (reading w y) := by
    intro x y
    rw [Bool.eq_iff_iff, decide_eq_true_iff, Int64.lt_iff_toInt_lt, signExtended_toInt hw,
      signExtended_toInt hw, BitVec.slt_iff_toInt_lt]
  have hle : ∀ x y, decide (signExtended w x ≤ signExtended w y) =
      (reading w x).sle (reading w y) := by
    intro x y
    rw [Bool.eq_iff_iff, decide_eq_true_iff, Int64.le_iff_toInt_le, signExtended_toInt hw,
      signExtended_toInt hw, BitVec.sle_iff_toInt_le]
  unfold compareInts at h
  dsimp only at h
  split at h
  · rw [← h, heq]
    rfl
  · rw [← h, bne, heq]
    rfl
  · rw [← h, hlt]
    rfl
  · rw [← h, hle]
    rfl
  · rw [← h, hlt]
    rfl
  · rw [← h, hle]
    rfl
  · cases h

end Qirc.IR
