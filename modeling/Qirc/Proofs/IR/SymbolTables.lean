import Qirc.Proofs.IR.Tables

/-!
# Lists and tables of a module

A module lists its functions and finds them through a table of their names, and likewise its byte
strings. What declares, renames or removes a function or asks for a text keeps the two in agreement.
-/

namespace Qirc.IR

open List

/-- A table finds an entry under a key exactly when the entry has the key. -/
def Finds {κ ι : Type} [BEq κ] (table : List (κ × ι)) (has : ι → κ → Prop) : Prop :=
  ∀ key i, (table.find? (fun e => e.1 == key)).map (·.2) = some i ↔ has i key

section Finds

variable {κ ι : Type} [BEq κ] {table : List (κ × ι)} {has has' : ι → κ → Prop} {key : κ}

theorem Finds.free (h : Finds table has)
    (hn : (table.find? (fun e => e.1 == key)).map (·.2) = none) (i : ι) : ¬has i key := by
  rw [← h key i, hn]
  exact nofun

theorem Finds.cons [DecidableEq κ] [LawfulBEq κ] (h : Finds table has) {i : ι}
    (hfree : ∀ j, ¬has j key) (hhas : ∀ j k, has' j k ↔ has j k ∨ j = i ∧ k = key) :
    Finds ((key, i) :: table) has' := by
  intro k j
  rw [find?_entry, hhas]
  split
  · rename_i hk
    subst hk
    simp [hfree, eq_comm]
  · rename_i hk
    rw [h k j]
    simp [Ne.symm hk]

end Finds

theorem Finds.forget {m : Module} {name : String} {has has' : FuncId → String → Prop}
    (h : Finds m.symbols has) (hhas : ∀ f key, has' f key ↔ has f key ∧ key ≠ name) :
    Finds (m.forget name) has' := by
  intro key f
  rw [hhas, ← h key f, Module.forget, find?_filter]
  by_cases hk : key = name
  · have hnone : m.symbols.find? (fun _ => false) = none := by simp
    simp [hk, hnone]
  · have hsame : (fun e : String × FuncId => decide ((e.1 != name) = true ∧ (e.1 == key) = true)) =
        fun e => e.1 == key := by
      funext e
      by_cases he : e.1 = key <;> simp [he, hk]
    rw [hsame]
    simp [hk]

namespace Module

variable {m : Module} {f : FuncId} {name : String}

/-- The tables find exactly what the lists hold, and byte strings are named by their numbers. -/
structure Indexed (m : Module) : Prop where
  symbols : Finds m.symbols fun f name => f ∈ m.functions ∧ (m.func f).name = name
  distinct : m.functions.Nodup
  inTable : ∀ f ∈ m.functions, f < m.functionTable.size
  texts : Finds m.strings fun g bytes => g ∈ m.globals ∧ (m.global g).bytes = bytes ++ [0]
  globals : m.globals = range m.globalTable.size
  numbered : ∀ g ∈ m.globals, (m.global g).name = toString g

theorem Indexed.new (name : String) : (new name).Indexed := by
  constructor <;> simp [Module.new, Finds]

theorem Indexed.name_inj (h : m.Indexed) (hf : f ∈ m.functions) {g : FuncId}
    (hg : g ∈ m.functions) (hname : (m.func g).name = (m.func f).name) : g = f :=
  Option.some.inj (((h.symbols _ g).2 ⟨hg, hname⟩).symm.trans ((h.symbols _ f).2 ⟨hf, rfl⟩))

/-- What an edit leaves: the tables agree, and texts are found where they were before. -/
def Follows (m m' : Module) : Prop :=
  m'.Indexed ∧ ∀ bytes g, m.text? bytes = some g → m'.text? bytes = some g

theorem Indexed.addFunction (h : m.Indexed) (hn : m.func? name = none) (proto : Prototype) :
    m.Follows (m.addFunction name proto).2 := by
  have hlist : (m.addFunction name proto).2.functions = m.functions ++ [m.functionTable.size] := rfl
  refine ⟨{ h with
    symbols := h.symbols.cons (h.symbols.free hn) ?_
    distinct := ?_
    inTable := ?_ }, fun _ _ hg => hg⟩
  · intro f key
    rw [addFunction_func, hlist, mem_append, mem_singleton]
    have := h.inTable f
    grind
  · rw [hlist, nodup_append]
    have := h.inTable m.functionTable.size
    exact ⟨h.distinct, by simp, by grind⟩
  · intro f hf
    have := h.inTable f
    simp [Module.addFunction] at hf ⊢
    grind

theorem Indexed.rename (h : m.Indexed) (hf : f ∈ m.functions) {m' : Module}
    (hr : m.rename f name = .ok m') : m.Follows m' := by
  unfold Module.rename at hr
  split at hr
  · cases hr
    exact ⟨h, fun _ _ hg => hg⟩
  split at hr
  · cases hr
  rename_i hn
  cases hr
  have hfunc : ∀ g, ((m.functionTable.modify f fun x => { x with name := name }).getD g
      default).name = if g = f then name else (m.func g).name := by
    intro g
    rw [getD_modify]
    have := h.inTable f hf
    grind [Module.func]
  have hold : Finds (m.forget (m.func f).name) _ := h.symbols.forget fun _ _ => .rfl
  refine ⟨{ h with
    symbols := hold.cons (fun g hg => h.symbols.free hn g hg.1) ?_
    inTable := by simpa using h.inTable }, fun _ _ hg => hg⟩
  intro g key
  change g ∈ m.functions ∧ Function.name (Array.getD _ g default) = key ↔ _
  rw [hfunc]
  have := h.name_inj hf (g := g)
  grind

theorem Indexed.remove (h : m.Indexed) (hf : f ∈ m.functions) :
    m.Follows (m.removeFunction f) := by
  refine ⟨{ h with
    symbols := h.symbols.forget ?_
    distinct := h.distinct.filter _
    inTable := ?_ }, fun _ _ hg => hg⟩
  · intro g key
    have hfunc : ((m.removeFunction f).func g).name = (m.func g).name := by
      unfold removeFunction Module.func
      rw [getD_modify]
      split <;> rfl
    change g ∈ m.functions.filter (· != f) ∧ _ ↔ _
    rw [hfunc, mem_filter]
    have := h.name_inj hf (g := g)
    grind
  · intro g hg
    simpa [removeFunction] using h.inTable g (mem_filter.1 hg).1

theorem Indexed.intern (h : m.Indexed) (bytes : List UInt8) : m.Follows (m.intern bytes).2 := by
  unfold Module.intern
  split
  · exact ⟨h, fun _ _ hg => hg⟩
  rename_i hn
  have hglobal : ∀ x g, (m.globalTable.push x).getD g default =
      if g = m.globalTable.size then x else m.global g := fun x g => getD_push ..
  have hmem : ∀ g, g ∈ m.globals ↔ g < m.globalTable.size := by simp [h.globals]
  refine ⟨{ h with
    texts := h.texts.cons (h.texts.free hn) ?_
    globals := by simp [h.globals, range_succ]
    numbered := ?_ }, ?_⟩
  · intro g key
    change g ∈ m.globals ++ [m.globalTable.size] ∧ Global.bytes (Array.getD _ g default) = _ ↔ _
    rw [hglobal, mem_append, mem_singleton, hmem]
    split
    · rename_i hg
      simp [hg, eq_comm]
    · rename_i hg
      simp [hg]
  · intro g hg
    change Global.name (Array.getD _ g default) = _
    rw [hglobal, h.globals, length_range]
    split
    · rename_i hg'
      rw [hg']
    · rename_i hg'
      exact h.numbered g ((mem_append.1 hg).resolve_right (by simpa using hg'))
  · intro key g hg
    refine (find?_entry ..).trans ((if_neg ?_).trans hg)
    rintro rfl
    cases hn.symm.trans hg

theorem intern_text? (m : Module) (bytes : List UInt8) :
    (m.intern bytes).2.text? bytes = some (m.intern bytes).1 := by
  unfold Module.intern
  split
  · assumption
  · exact (find?_entry ..).trans (if_pos rfl)

end Module

end Qirc.IR
