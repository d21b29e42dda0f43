import Mathlib

/-!
# Doubles that compare as equal

A double is its bits. Two doubles compare as equal numbers when their bits are the same or when both
are zeros, so the sign of a zero is all that the comparison overlooks.
-/

namespace Qirc.Double

open Float.Model Float.Model.UnpackedFloat

theorem same_or_zeros {a b : UnpackedFloat} (h : a.compare b = some .eq) :
    a = b ∨ ∃ s t, a = .zero s ∧ b = .zero t := by
  unfold UnpackedFloat.compare at h
  split at h <;> simp_all
  rename_i s t
  cases s <;> cases t <;> first | rfl | cases h

theorem sign_injective {a b : BitVec 1} (h : Sign.ofBitVec a = Sign.ofBitVec b) : a = b := by
  obtain rfl | rfl := BitVec.eq_zero_or_eq_one a <;>
    obtain rfl | rfl := BitVec.eq_zero_or_eq_one b <;> first | rfl | cases h

theorem bits_eq {a b : BitVec Format.binary64.numBits} (hs : unpackSign a = unpackSign b)
    (he : unpackExponent a = unpackExponent b) (hm : unpackMantissa a = unpackMantissa b) :
    a = b := by
  ext k hk
  rcases Nat.lt_or_ge k 52 with h | h
  · have hbit := congrArg (fun v => v.getLsbD k) hm
    simpa [unpackMantissa, h, hk] using hbit
  rcases Nat.lt_or_ge k 63 with h' | h'
  · have hbit := congrArg (fun v => v.getLsbD (k - 52)) he
    have hlt : k - 52 < 11 := by omega
    have hadd : 52 + (k - 52) = k := by omega
    simpa [unpackExponent, hlt, hadd, hk] using hbit
  · have hlt : k < 64 := hk
    obtain rfl : k = 63 := by omega
    have hbit := congrArg (fun v => v.getLsbD 0) hs
    simpa [unpackSign, hk] using hbit

theorem toNat_implicit (v : BitVec 52) : (1#1 ++ v).toNat = 2 ^ 52 + v.toNat := by
  rw [BitVec.toNat_append, ← Nat.shiftLeft_add_eq_or_of_lt v.isLt]
  rfl

/-- What the bits stand for determines them, unless it is no number. A number below the normal ones
has no implicit bit in its mantissa, which keeps it apart from those. -/
theorem unpack_injective {a b : BitVec Format.binary64.numBits}
    (h : unpack Format.binary64 a = unpack Format.binary64 b)
    (hnumber : unpack Format.binary64 a ≠ .notANumber) : a = b := by
  have hfields : unpackSign a = unpackSign b ∧ unpackExponent a = unpackExponent b ∧
      unpackMantissa a = unpackMantissa b := by
    unfold UnpackedFloat.unpack at h hnumber
    dsimp only at h hnumber
    split_ifs at h hnumber with ha ha' hb hb' <;>
      simp only [reduceCtorEq, not_true_eq_false, ne_eq, infinity.injEq, zero.injEq, finite.injEq,
        toNat_implicit] at h hnumber
    · exact ⟨sign_injective h, ha.trans hb.symm, by simp_all⟩
    · exact ⟨sign_injective h, by simp_all, by simp_all⟩
    · exact ⟨sign_injective h.1, by simp_all, BitVec.eq_of_toNat_eq h.2.1⟩
    · omega
    · omega
    · refine ⟨sign_injective h.1, BitVec.eq_of_toNat_eq ?_, BitVec.eq_of_toNat_eq ?_⟩ <;> omega
  exact bits_eq hfields.1 hfields.2.1 hfields.2.2

theorem eq_of_unpack {x y : Float} (h : x.toModel.unpack = y.toModel.unpack)
    (hnumber : x.toModel.unpack ≠ .notANumber) : x = y := by
  obtain ⟨⟨a, ha⟩⟩ := x
  obtain ⟨⟨b, hb⟩⟩ := y
  have hbits : a = b := UInt64.eq_of_toBitVec_eq (unpack_injective h hnumber)
  subst hbits
  rfl

theorem beq_zero {x : Float} {s : Sign} (h : x.toModel.unpack = .zero s) : (x == 0.0) = true := by
  change (x.toModel.unpack.compare (0.0 : Float).toModel.unpack == some .eq) = true
  rw [h]
  rfl

theorem eq_or_zeros {x y : Float} (h : (x == y) = true) :
    x = y ∨ ((x == 0.0) = true ∧ (y == 0.0) = true) := by
  have hcompare : x.toModel.unpack.compare y.toModel.unpack = some .eq := by
    change (x.toModel.unpack.compare y.toModel.unpack == some .eq) = true at h
    simpa using h
  obtain heq | ⟨s, t, hx, hy⟩ := same_or_zeros hcompare
  · refine .inl (eq_of_unpack heq fun hnan => ?_)
    rw [hnan] at hcompare
    cases hcompare
  · exact .inr ⟨beq_zero hx, beq_zero hy⟩

example : ((0.0 : Float) == -0.0) = true ∧ (0.0 : Float) ≠ -0.0 := by decide

end Qirc.Double
