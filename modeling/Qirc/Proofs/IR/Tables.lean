import Qirc.IR.ControlFlow

/-!
# Entries after a change

What the tables of a module hold after an entry was added or changed. An entry outside its table
reads as the empty one, so the laws need no bounds except for the entry that is changed.
-/

namespace Qirc

open List

variable {α : Type}

theorem getD_push (xs : Array α) (x d : α) (i : Nat) :
    (xs.push x).getD i d = if i = xs.size then x else xs.getD i d := by
  simp only [Array.getD_eq_getD_getElem?, Array.getElem?_push]
  split <;> rfl

theorem getD_modify (xs : Array α) (f : α → α) (d : α) (i j : Nat) :
    (xs.modify i f).getD j d = if i = j ∧ j < xs.size then f (xs.getD j d) else xs.getD j d := by
  simp only [Array.getD_eq_getD_getElem?, Array.getElem?_modify]
  by_cases hj : j < xs.size
  · by_cases hi : i = j <;> simp [hi, hj]
  · simp [hj]

theorem getD_modify_of_fixed (xs : Array α) {f : α → α} {d : α} (hf : f d = d) (i j : Nat) :
    (xs.modify i f).getD j d = if j = i then f (xs.getD j d) else xs.getD j d := by
  rw [getD_modify]
  by_cases hj : j < xs.size
  · by_cases hi : j = i
    · rw [if_pos hi, if_pos ⟨hi.symm, hj⟩]
    · rw [if_neg hi, if_neg fun h => hi h.1.symm]
  · have hd : xs.getD j d = d := by simp [Array.getD_eq_getD_getElem?, hj]
    rw [if_neg fun h => hj h.2, hd, hf, ite_self]

theorem getD_of_size_le (xs : Array α) (d : α) {i : Nat} (h : xs.size ≤ i) : xs.getD i d = d := by
  simp [Array.getD_eq_getD_getElem?, h]

theorem modify_modify (xs : Array α) (i : Nat) (f g : α → α) :
    (xs.modify i f).modify i g = xs.modify i (g ∘ f) := by
  apply Array.toList_inj.1
  simp [modify_modify_eq]

theorem modify_congr (xs : Array α) (i : Nat) {f g : α → α} {d : α}
    (h : f (xs.getD i d) = g (xs.getD i d)) : xs.modify i f = xs.modify i g := by
  apply Array.ext_getElem?
  intro j
  rw [Array.getElem?_modify, Array.getElem?_modify]
  split
  · rename_i hij
    subst hij
    cases hx : xs[i]? with
    | none => rfl
    | some x => simpa [Array.getD_eq_getD_getElem?, hx] using h
  · rfl

theorem find?_entry {β γ : Type} [DecidableEq β] [BEq β] [LawfulBEq β] (b key : β) (c : γ)
    (l : List (β × γ)) : (((b, c) :: l).find? (fun e => e.1 == key)).map (·.2) =
      if b = key then some c else (l.find? (fun e => e.1 == key)).map (·.2) := by
  by_cases h : b = key <;> simp [h]

namespace IR.Module

variable (m : Module)

theorem addFunction_func (name : String) (proto : Prototype) (f : Nat) :
    (m.addFunction name proto).2.func f =
      if f = m.functionTable.size then { name := name, proto := proto } else m.func f :=
  getD_push ..

theorem addFunction_func? (name : String) (proto : Prototype) (key : String) :
    (m.addFunction name proto).2.func? key =
      if name = key then some m.functionTable.size else m.func? key :=
  find?_entry name key _ _

theorem block_of_size_le {b : Nat} (h : m.blockTable.size ≤ b) : m.block b = default :=
  getD_of_size_le _ _ h

theorem func_of_size_le {f : Nat} (h : m.functionTable.size ≤ f) : m.func f = default :=
  getD_of_size_le _ _ h

theorem instr_of_size_le {i : Nat} (h : m.instrTable.size ≤ i) : m.instr i = default :=
  getD_of_size_le _ _ h

/-- The list of functions and the global constants are the same. -/
structure SameGlobals (m m' : Module) : Prop where
  functions : m'.functions = m.functions
  globals : m'.globals = m.globals
  global : ∀ k, m'.global k = m.global k

namespace SameGlobals

variable {m m' m'' : Module}

theorem of_instrs {is : Array Instr} (h : m' = { m with instrTable := is }) : SameGlobals m m' := by
  subst h
  exact ⟨rfl, rfl, fun _ => rfl⟩

theorem trans (h : SameGlobals m m') (h' : SameGlobals m' m'') : SameGlobals m m'' :=
  ⟨h'.functions.trans h.functions, h'.globals.trans h.globals, fun k =>
    (h'.global k).trans (h.global k)⟩

end SameGlobals

section Append

variable (b : BlockId) (x : Instr)

@[simp] theorem append_id : (m.append b x).1 = m.instrTable.size := rfl

@[simp] theorem append_instrs_size :
    (m.append b x).2.instrTable.size = m.instrTable.size + 1 := by
  simp [append]

@[simp] theorem append_blocks_size : (m.append b x).2.blockTable.size = m.blockTable.size := by
  simp [append]

theorem append_instr (i : InstrId) :
    (m.append b x).2.instr i =
      if i = m.instrTable.size then { x with parent := some b } else m.instr i :=
  getD_push ..

theorem append_block (c : BlockId) :
    (m.append b x).2.block c =
      if b = c ∧ c < m.blockTable.size then
        { m.block c with instrs := (m.block c).instrs ++ [m.instrTable.size] }
      else m.block c :=
  getD_modify ..

end Append

section AddBlock

variable (f : FuncId) (hint : String)

@[simp] theorem addBlock_id : (m.addBlock f hint).1 = m.blockTable.size := rfl

@[simp] theorem addBlock_blocks_size :
    (m.addBlock f hint).2.blockTable.size = m.blockTable.size + 1 := by
  simp [addBlock]

@[simp] theorem addBlock_funcs_size :
    (m.addBlock f hint).2.functionTable.size = m.functionTable.size := by
  simp [addBlock]

theorem addBlock_block (c : Nat) (h : c < m.blockTable.size) :
    (m.addBlock f hint).2.block c = m.block c := by
  rw [show (m.addBlock f hint).2.block c = _ from getD_push .., if_neg (Nat.ne_of_lt h)]
  rfl

@[simp] theorem addBlock_new_instrs :
    ((m.addBlock f hint).2.block m.blockTable.size).instrs = [] := by
  simp [addBlock, block]

@[simp] theorem addBlock_new_parent :
    ((m.addBlock f hint).2.block m.blockTable.size).parent = some f := by
  simp [addBlock, block]

theorem addBlock_instrs (c : Nat) :
    ((m.addBlock f hint).2.block c).instrs = (m.block c).instrs := by
  rcases Nat.lt_trichotomy c m.blockTable.size with h | rfl | h
  · rw [addBlock_block m f hint c h]
  · rw [addBlock_new_instrs, block_of_size_le m (Nat.le_refl _)]
    rfl
  · rw [block_of_size_le m (Nat.le_of_lt h), block_of_size_le _ (by
      rw [addBlock_blocks_size]; omega)]

theorem addBlock_func (k : FuncId) :
    (m.addBlock f hint).2.func k =
      if f = k ∧ k < m.functionTable.size then
        { m.func k with
          blocks := (m.func k).blocks ++ [m.blockTable.size]
          hints := (if hint = "" then "bb" else hint) :: (m.func k).hints }
      else m.func k :=
  getD_modify ..

end AddBlock

section UpdateInstr

variable (i : InstrId) (change : Instr → Instr)

@[simp] theorem updateInstr_block (b : BlockId) : (m.updateInstr i change).block b = m.block b := rfl

@[simp] theorem updateInstr_func (f : FuncId) : (m.updateInstr i change).func f = m.func f := rfl

theorem updateInstr_instr (j : InstrId) :
    (m.updateInstr i change).instr j =
      if i = j ∧ j < m.instrTable.size then change (m.instr j) else m.instr j :=
  getD_modify ..

variable {i : InstrId}

theorem updateInstr_of_ne {j : InstrId} (h : j ≠ i) :
    (m.updateInstr i change).instr j = m.instr j := by
  rw [updateInstr_instr, if_neg fun hi => h hi.1.symm]

theorem updateInstr_self (h : i < m.instrTable.size) :
    (m.updateInstr i change).instr i = change (m.instr i) := by
  rw [updateInstr_instr, if_pos ⟨rfl, h⟩]

theorem updateInstr_congr {change change' : Instr → Instr}
    (h : change (m.instr i) = change' (m.instr i)) :
    m.updateInstr i change = m.updateInstr i change' := by
  unfold updateInstr
  rw [modify_congr m.instrTable i h]

@[simp] theorem updateInstr_size :
    (m.updateInstr i change).instrTable.size = m.instrTable.size := by
  simp [updateInstr]

end UpdateInstr

section UpdateBlock

variable (b : BlockId) (change : Block → Block)

@[simp] theorem updateBlock_instr (i : InstrId) :
    (m.updateBlock b change).instr i = m.instr i := rfl

@[simp] theorem updateBlock_func (f : FuncId) : (m.updateBlock b change).func f = m.func f := rfl

theorem updateBlock_of_ne {b c : BlockId} (h : c ≠ b) :
    (m.updateBlock b change).block c = m.block c := by
  rw [show (m.updateBlock b change).block c = _ from getD_modify .., if_neg fun hb => h hb.1.symm]
  rfl

theorem updateBlock_self {b : Nat} (h : b < m.blockTable.size) :
    (m.updateBlock b change).block b = change (m.block b) := by
  rw [show (m.updateBlock b change).block b = _ from getD_modify .., if_pos ⟨rfl, h⟩]
  rfl

@[simp] theorem updateBlock_size :
    (m.updateBlock b change).blockTable.size = m.blockTable.size := by
  simp [updateBlock]

end UpdateBlock

section UpdateEach

variable (change : Instr → Instr)

def updateEach (is : List InstrId) : Module := is.foldl (fun m i => m.updateInstr i change) m

theorem updateEach_cons (i : InstrId) (is : List InstrId) :
    m.updateEach change (i :: is) = (m.updateInstr i change).updateEach change is := rfl

theorem updateEach_eq (is : List InstrId) :
    m.updateEach change is = { m with instrTable := (m.updateEach change is).instrTable } := by
  induction is generalizing m with
  | nil => rfl
  | cons i is ih =>
    exact ih (m.updateInstr i change)

@[simp] theorem updateEach_block (is : List InstrId) (b : BlockId) :
    (m.updateEach change is).block b = m.block b := by
  rw [updateEach_eq]
  rfl

@[simp] theorem updateEach_func (is : List InstrId) (f : FuncId) :
    (m.updateEach change is).func f = m.func f := by
  rw [updateEach_eq]
  rfl

@[simp] theorem updateEach_size (is : List InstrId) :
    (m.updateEach change is).instrTable.size = m.instrTable.size := by
  induction is generalizing m with
  | nil => rfl
  | cons i is ih => rw [updateEach_cons, ih, updateInstr_size]

@[simp] theorem updateEach_blocks_size (is : List InstrId) :
    (m.updateEach change is).blockTable.size = m.blockTable.size := by
  rw [updateEach_eq]

theorem updateEach_instr (hid : ∀ x, change (change x) = change x) (is : List InstrId)
    (j : InstrId) :
    (m.updateEach change is).instr j =
      if j ∈ is ∧ j < m.instrTable.size then change (m.instr j) else m.instr j := by
  induction is generalizing m with
  | nil => simp [updateEach]
  | cons i is ih =>
    rw [updateEach_cons, ih]
    by_cases hj : j < m.instrTable.size
    · by_cases hi : j = i
      · subst hi
        rw [updateInstr_self m change hj]
        simp [hj, hid]
      · rw [updateInstr_of_ne m change hi]
        simp [hi]
    · simp [hj, updateInstr_instr]

end UpdateEach

section Erase

variable (i : InstrId)

theorem erase_instr (j : InstrId) :
    (m.erase i).instr j = if j = i then { m.instr j with parent := none } else m.instr j := by
  unfold erase
  split
  · rename_i h
    split
    · rename_i hj
      rw [hj, ← h]
    · rfl
  · exact getD_modify_of_fixed _ rfl _ _

theorem erase_block (b : BlockId) :
    (m.erase i).block b =
      if (m.instr i).parent = some b then
        { m.block b with instrs := (m.block b).instrs.erase i }
      else m.block b := by
  unfold erase
  split
  · rename_i h
    simp [h]
  rename_i c h
  rw [h]
  simp only [Option.some.injEq, eq_comm (a := c)]
  exact getD_modify_of_fixed _ rfl _ _

@[simp] theorem erase_func (f : FuncId) : (m.erase i).func f = m.func f := by
  unfold erase
  split <;> rfl

theorem erase_globals : SameGlobals m (m.erase i) := by
  unfold erase
  split <;> exact ⟨rfl, rfl, fun _ => rfl⟩

@[simp] theorem erase_size : (m.erase i).instrTable.size = m.instrTable.size := by
  unfold erase
  split <;> simp

@[simp] theorem erase_blocks_size : (m.erase i).blockTable.size = m.blockTable.size := by
  unfold erase
  split <;> simp

end Erase

section RemoveBlock

variable (f : FuncId) (b : BlockId)

@[simp] theorem removeBlock_instr (i : InstrId) : (m.removeBlock f b).instr i = m.instr i := rfl

theorem removeBlock_func (g : FuncId) :
    (m.removeBlock f b).func g =
      if g = f then { m.func g with blocks := (m.func g).blocks.filter (· != b) }
      else m.func g :=
  getD_modify_of_fixed _ rfl _ _

theorem removeBlock_block (c : BlockId) :
    (m.removeBlock f b).block c =
      if c = b then { m.block c with parent := none } else m.block c :=
  getD_modify_of_fixed _ rfl _ _

end RemoveBlock

section ReplaceUses

variable (f : FuncId) (old : InstrId) (new : Value)

def swap (v : Value) : Value := if v = .instr old then new else v

theorem replaceUses_eq :
    m.replaceUses f old new =
      m.updateEach (fun x => { x with operands := x.operands.map (swap old new) }) (m.body f) :=
  rfl

@[simp] theorem replaceUses_block (b : BlockId) :
    (m.replaceUses f old new).block b = m.block b := updateEach_block ..

@[simp] theorem replaceUses_func (g : FuncId) :
    (m.replaceUses f old new).func g = m.func g := updateEach_func ..

theorem swap_swap (v : Value) : swap old new (swap old new v) = swap old new v := by
  unfold swap
  split <;> simp_all

theorem replaceUses_instr (i : InstrId) :
    (m.replaceUses f old new).instr i =
      if i ∈ m.body f then
        { m.instr i with operands := (m.instr i).operands.map (swap old new) }
      else m.instr i := by
  rw [replaceUses_eq, updateEach_instr]
  · by_cases hi : i < m.instrTable.size
    · simp [hi]
    simp only [hi, and_false, if_false]
    rw [instr_of_size_le m (Nat.le_of_not_lt hi)]
    split <;> rfl
  · intro x
    simp only [map_map]
    congr 1
    exact map_congr_left fun v _ => swap_swap old new v

end ReplaceUses

end IR.Module

end Qirc
