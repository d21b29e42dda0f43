import Mathlib
import Qirc.IR.Printer
import Qirc.Proofs.IR.SymbolTables
import Qirc.Text.Hex

/-!
# Names and texts of a module

However functions are declared, renamed and removed and texts are asked for, lists and tables agree:
names stay different, and equal texts share one byte string, which can be read back from print.
-/

namespace Qirc.IR

open List

/-! ## Bytes in print -/

/-- The bytes of a printed text: a backslash and two hexadecimal digits are one of them. -/
def readBytes : List Char → List UInt8
  | '\\' :: high :: low :: rest =>
    UInt8.ofNat ((Text.hexDigit? high).getD 0 * 16 + (Text.hexDigit? low).getD 0) :: readBytes rest
  | c :: rest => UInt8.ofNat c.toNat :: readBytes rest
  | [] => []

theorem byteText_cases : ∀ n < 256, let text := (byteText (UInt8.ofNat n)).toList
    (text = [Char.ofNat n] ∧ Char.ofNat n ≠ '\\' ∧ (Char.ofNat n).toNat = n) ∨
      text = ['\\', (Nat.digitChar (n / 16)).toUpper, (Nat.digitChar (n % 16)).toUpper] := by
  decide +kernel

theorem hexDigit?_toUpper : ∀ n < 16, Text.hexDigit? (Nat.digitChar n).toUpper = some n := by
  decide +kernel

theorem readBytes_bytesText (bs : List UInt8) : readBytes (bytesText bs).toList = bs := by
  unfold bytesText
  rw [String.toList_join, flatMap_map]
  induction bs with
  | nil => rfl
  | cons b bs ih =>
    obtain ⟨n, hn, rfl⟩ : ∃ n < 256, b = UInt8.ofNat n := ⟨b.toNat, b.toNat_lt, by simp⟩
    rw [flatMap_cons]
    obtain ⟨htext, hc, hnat⟩ | htext := byteText_cases n hn
    · simp [htext, readBytes, hc, hnat, ih]
    · have hhigh := hexDigit?_toUpper (n / 16) (by omega)
      have hlow := hexDigit?_toUpper (n % 16) (by omega)
      simp [htext, readBytes, hhigh, hlow, ih, Nat.div_add_mod']

/-! ## Edits -/

inductive TableEdit where
  | opaqueType (name : String)
  | text (s : String)
  | declare (name : String) (proto : Prototype)
  | define (name : String) (proto : Prototype)
  | rename (f : FuncId) (name : String)
  | remove (f : FuncId)

namespace TableEdit

def run (m : Module) : TableEdit → Except Failure Module
  | .opaqueType name => .ok (m.opaqueType name)
  | .text s => .ok (m.stringPtr s).2
  | .declare name proto => (m.declare name proto).map (·.2)
  | .define name proto => (m.define name proto).map (·.2)
  | .rename f name => m.rename f name
  | .remove f => .ok (m.removeFunction f)

/-- Functions are renamed and removed as long as the module has them. -/
def isFor (m : Module) : TableEdit → Bool
  | .rename f _ | .remove f => m.functions.contains f
  | _ => true

/-- The module that an edit leaves behind, also when it fails. -/
def leave (m : Module) (edit : TableEdit) : Module :=
  if edit.isFor m then (edit.run m).toOption.getD m else m

end TableEdit

namespace Module

variable {m : Module}

theorem Indexed.run (h : m.Indexed) {edit : TableEdit} (hfor : edit.isFor m = true) {m' : Module}
    (hrun : edit.run m = .ok m') : m.Follows m' := by
  have hsame : m.Follows m := ⟨h, fun _ _ hg => hg⟩
  cases edit with
  | opaqueType name =>
    cases hrun
    unfold Module.opaqueType
    split
    · exact hsame
    · exact ⟨{ h with }, fun _ _ hg => hg⟩
  | text s =>
    cases hrun
    obtain ⟨hindexed, hkept⟩ := h.intern (Text.utf8 s)
    exact ⟨{ hindexed with }, hkept⟩
  | declare name proto =>
    rw [TableEdit.run, Module.declare] at hrun
    split at hrun
    · split at hrun
      · cases hrun
        exact hsame
      · cases hrun
    · cases hrun
      exact h.addFunction ‹_› proto
  | define name proto =>
    rw [TableEdit.run, Module.define] at hrun
    split at hrun
    · cases hrun
    · cases hrun
      exact h.addFunction ‹_› proto
  | rename f name => exact h.rename (contains_iff_mem.1 hfor) hrun
  | remove f =>
    cases hrun
    exact h.remove (contains_iff_mem.1 hfor)

theorem Indexed.leaveAll (h : m.Indexed) (edits : List TableEdit) :
    m.Follows (edits.foldl TableEdit.leave m) := by
  induction edits generalizing m with
  | nil => exact ⟨h, fun _ _ hg => hg⟩
  | cons edit edits ih =>
    have hstep : m.Follows (edit.leave m) := by
      unfold TableEdit.leave
      split
      · cases hrun : edit.run m with
        | error => exact ⟨h, fun _ _ hg => hg⟩
        | ok m' => exact h.run ‹_› hrun
      · exact ⟨h, fun _ _ hg => hg⟩
    obtain ⟨hlast, hkept⟩ := ih hstep.1
    exact ⟨hlast, fun bytes g hg => hkept bytes g (hstep.2 bytes g hg)⟩

/-- The tables of a module after any edits. -/
theorem tables_agree (name : String) (edits : List TableEdit) :
    let m := edits.foldl TableEdit.leave (new name)
    (m.functions.map fun f => (m.func f).name).Nodup ∧
    (∀ n f, m.func? n = some f ↔ f ∈ m.functions ∧ (m.func f).name = n) ∧
    (∀ (edit : TableEdit) failure, edit.run m = .error failure → edit.leave m = m) ∧
    (m.globals.map fun g => (m.global g).name).Nodup ∧
    (∀ s, ∃ g tag, (m.stringPtr s).1 = .string g tag ∧ ∀ more : List TableEdit,
      let m' := more.foldl TableEdit.leave (m.stringPtr s).2
      ∀ g', g' ∈ m'.globals ∧ (m'.global g').bytes = Text.utf8 s ++ [0] ↔ g' = g) ∧
    ∀ bytes, readBytes (bytesText bytes).toList = bytes := by
  intro m
  have h : m.Indexed := ((Indexed.new name).leaveAll edits).1
  refine ⟨?_, h.symbols, ?_, ?_, ?_, readBytes_bytesText⟩
  · rw [nodup_map_iff_inj_on h.distinct]
    exact fun f hf g hg => h.name_inj hg hf
  · intro edit failure hrun
    simp [TableEdit.leave, hrun, Except.toOption]
  · have hnodup : m.globals.Nodup := by simp [h.globals, nodup_range]
    rw [nodup_map_iff_inj_on hnodup]
    intro g hg g' hg' hname
    rw [h.numbered g hg, h.numbered g' hg'] at hname
    exact Nat.repr_inj.1 hname
  · intro s
    obtain ⟨hnext, -⟩ : m.Follows (m.stringPtr s).2 := h.run (rfl : (TableEdit.text s).isFor m = true) rfl
    refine ⟨(m.intern (Text.utf8 s)).1, _, rfl, fun more g => ?_⟩
    obtain ⟨hlast, hkept⟩ := hnext.leaveAll more
    have hfound := hkept _ _ (intern_text? m (Text.utf8 s))
    refine (hlast.texts (Text.utf8 s) g).symm.trans ?_
    rw [show Option.map _ _ = _ from hfound, Option.some_inj, eq_comm]

end Module

end Qirc.IR
