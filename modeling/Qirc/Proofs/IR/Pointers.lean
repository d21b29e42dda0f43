import Mathlib
import Qirc.Addressing
import Qirc.Proofs.IR.Replacement
import Qirc.Proofs.Step

/-!
# Pointers of qubits and results

The handles of each class are numbered from zero in program order, and a pointer has the low bits of
its number. The numbers fit the width, and the pointers are different, exactly when the width has
room for as many as the counters say.
-/

namespace Qirc.Addressing

open List IR IR.Module

/-- Calls with their class and number. -/
abbrev Numbered := List (InstrId × Bool × Nat)

def numbered : List (InstrId × String) → Counters → Numbered
  | [], _ => []
  | (i, name) :: rest, c =>
    let isResult := name == Intrinsic.qubitToResult
    (i, isResult, c.count isResult) :: numbered rest (c.next isResult)

def numbersOf (r : Bool) (ns : Numbered) : List Nat := (ns.filter (·.2.1 == r)).map (·.2.2)

/-- A value, or the address that takes the place of a call. -/
def addressed (m : Module) (width : Nat) (ns : Numbered) (v : Value) : Value :=
  ns.foldl (fun v p => swap p.1 (.address (m.instr p.1).ty width (Int64.ofNat p.2.2)) v) v

/-- What an address of some width points to. -/
def pointer (width : Nat) (n : Int64) : Nat := n.toBitVec.toNat % 2 ^ width

variable {m m' : Module} {f : FuncId} {i j : InstrId} {v : Value} {width : Nat}

/-! ## Numbers -/

theorem count_next (c : Counters) (r s : Bool) :
    (c.next s).count r = if s = r then c.count r + 1 else c.count r := by
  cases r <;> cases s <;> rfl

/-- Each class has the numbers from its counter on. -/
theorem numbersOf_numbered (m : Module) (f : FuncId) (width : Nat) (r : Bool)
    (calls : List (InstrId × String)) (c : Counters) :
    ∃ n, numbersOf r (numbered calls c) = range' (c.count r) n ∧
      (replaceCalls f width calls c m).1.count r = c.count r + n := by
  induction calls generalizing c m with
  | nil => exact ⟨0, rfl, rfl⟩
  | cons p rest ih =>
    obtain ⟨i, name⟩ := p
    rw [replaceCalls, ← supplant, numbered]
    generalize (name == Intrinsic.qubitToResult) = s
    obtain ⟨n, hn, hc⟩ := ih (m.supplant f i
      (.address (m.instr i).ty width (Int64.ofNat (c.count s)))) (c.next s)
    rw [count_next] at hn hc
    rw [hc]
    by_cases hs : s = r
    · subst hs
      rw [if_pos rfl] at hn ⊢
      refine ⟨n + 1, ?_, by omega⟩
      rw [range'_succ, ← hn]
      simp [numbersOf]
    · rw [if_neg hs] at hn ⊢
      refine ⟨n, ?_, rfl⟩
      rw [← hn]
      simp [numbersOf, hs]

/-! ## Operands -/

theorem addressed_congr (h : ∀ i, (m'.instr i).ty = (m.instr i).ty) (ns : Numbered) :
    addressed m' width ns = addressed m width ns := by
  funext v
  simp only [addressed, h]

theorem mem_body_supplant (hj : j ∈ m.body f) (hne : j ≠ i) : j ∈ (m.supplant f i v).body f := by
  obtain ⟨b, hb, hjb⟩ := mem_flatMap.1 hj
  refine mem_flatMap.2 ⟨b, by rwa [supplant_func], ?_⟩
  rw [supplant, erase_block, replaceUses_block]
  split
  · exact (mem_erase_of_ne hne).2 hjb
  · exact hjb

theorem replaceCalls_operands {calls : List (InstrId × String)} {c : Counters}
    (hj : j ∈ m.body f) (hcall : j ∉ calls.map (·.1)) :
    ((replaceCalls f width calls c m).2.instr j).operands =
      (m.instr j).operands.map (addressed m width (numbered calls c)) := by
  induction calls generalizing c m with
  | nil => exact (map_id _).symm
  | cons p rest ih =>
    obtain ⟨i, name⟩ := p
    rw [map_cons, mem_cons, not_or] at hcall
    have hty : ∀ v k, ((m.supplant f i v).instr k).ty = (m.instr k).ty := by
      intro v k
      rw [supplant_instr]
    rw [replaceCalls, ← supplant, numbered, ih (mem_body_supplant hj hcall.1) hcall.2,
      addressed_congr (hty _), supplant_instr]
    simp only [if_pos hj, map_map]
    rfl

theorem dropUnused_instr (name : String) : (dropUnused m name).instr j = m.instr j := by
  unfold dropUnused
  split
  · rfl
  · split <;> rfl

/-! ## Pointers -/

theorem pointer_ofNat (hw : width ≤ 64) (n : Nat) :
    pointer width (Int64.ofNat n) = n % 2 ^ width := by
  rw [pointer, Int64.toBitVec_ofNat', BitVec.toNat_ofNat, Nat.mod_mod_of_dvd _ (pow_dvd_pow 2 hw)]

theorem nodup_pointers_iff (hw : width ≤ 64) (n : Nat) :
    ((range n).map fun k => pointer width (Int64.ofNat k)).Nodup ↔ n ≤ 2 ^ width := by
  simp only [pointer_ofNat hw]
  constructor
  · intro h
    have hpos := Nat.two_pow_pos width
    generalize 2 ^ width = k at *
    by_contra hn
    have hzero : 0 ∈ range n := mem_range.2 (by omega)
    have hfull : k ∈ range n := mem_range.2 (by omega)
    have heq := inj_on_of_nodup_map h hzero hfull (by simp)
    omega
  · intro hn
    refine nodup_range.map_on fun k hk l hl heq => ?_
    rw [mem_range] at hk hl
    rwa [Nat.mod_eq_of_lt (by omega), Nat.mod_eq_of_lt (by omega)] at heq

/-- The operands of a function hold the addresses of its handles, whose numbers fit the width and
whose pointers are different just when the counters are no more than the width has room for. -/
theorem assignAddresses_fit_iff {width : Int} {c : Counters}
    (h : assignAddresses m f width = .ok (c, m')) :
    ∃ calls, handleCalls m (m.body f) = .ok calls ∧
      (∀ j ∈ m.body f, j ∉ calls.map (·.1) → (m'.instr j).operands =
        (m.instr j).operands.map (addressed m width.toNat (numbered calls ⟨0, 0⟩))) ∧
      ∀ r, numbersOf r (numbered calls ⟨0, 0⟩) = range (c.count r) ∧
        ((∀ n ∈ numbersOf r (numbered calls ⟨0, 0⟩), n < 2 ^ width.toNat) ↔
          c.count r ≤ 2 ^ width.toNat) ∧
        (((numbersOf r (numbered calls ⟨0, 0⟩)).map fun n =>
          pointer width.toNat (Int64.ofNat n)).Nodup ↔ c.count r ≤ 2 ^ width.toNat) := by
  unfold assignAddresses at h
  split at h
  · cases h
  split at h
  · cases h
  rename_i hwidth
  have hw : width.toNat ≤ 64 := by omega
  cases hcalls : handleCalls m (m.body f) with
  | error e =>
    rw [hcalls] at h
    cases h
  | ok calls =>
  rw [hcalls] at h
  obtain ⟨rfl, rfl⟩ := Prod.mk.inj (Except.ok.inj h)
  refine ⟨calls, rfl, fun j hj hcall => ?_, fun r => ?_⟩
  · rw [← replaceCalls_operands hj hcall]
    split
    · rw [dropUnused_instr, dropUnused_instr]
    · rfl
  · obtain ⟨n, hn, hc⟩ := numbersOf_numbered m f width.toNat r calls ⟨0, 0⟩
    have hzero : Counters.count ⟨0, 0⟩ r = 0 := by cases r <;> rfl
    rw [hzero, Nat.zero_add] at hc
    rw [hzero, ← range_eq_range', ← hc] at hn
    rw [hn]
    refine ⟨rfl, ?_, nodup_pointers_iff hw _⟩
    simp only [mem_range]
    exact forall_lt_iff_le

/-- A function that obtains three qubits and gives one of them back. -/
def threeQubits : Module :=
  let m := ((new "m").addFunction "f" { params := [], ret := .void }).2
  let steps : Step Cursor Unit := do
    let _ ← Cursor.allocate
    let _ ← Cursor.allocate
    Cursor.release (← Cursor.allocate)
  (Step.after steps { module := (m.addBlock 0 "entry").2, block := 0 }).module

/-- One bit is not enough for three. -/
theorem assignAddresses_fit_iff_threeQubits :
    ∃ c m', assignAddresses threeQubits 0 1 = .ok (c, m') ∧ c = ⟨3, 0⟩ ∧
      ∃ calls, handleCalls threeQubits (threeQubits.body 0) = .ok calls ∧
        ¬((numbersOf false (numbered calls ⟨0, 0⟩)).map fun n =>
          pointer 1 (Int64.ofNat n)).Nodup := by
  have hrun : assignAddresses threeQubits 0 1 = .ok (⟨3, 0⟩, _) := rfl
  obtain ⟨calls, hcalls, -, h⟩ := assignAddresses_fit_iff hrun
  exact ⟨_, _, hrun, rfl, calls, hcalls, fun hdiff => absurd ((h false).2.2.1 hdiff) (by decide)⟩

end Qirc.Addressing
