import Qirc.Proofs.IR.Tables

/-!
# Linked modules

A block is on the list of its function and an instruction on the list of its block, once, and on no
other list. Building a module keeps it linked, and so do the edits of the passes. An edit of one
function also keeps the types of all instructions and everything that belongs to other functions.
-/

namespace Qirc.IR.Module

open List

/-- The lists of a module and what its entries say they belong to are the same. -/
structure Linked (m : Module) : Prop where
  block : ∀ f b, b ∈ (m.func f).blocks ↔ (m.block b).parent = some f
  instr : ∀ b i, i ∈ (m.block b).instrs ↔ (m.instr i).parent = some b
  blocks : ∀ f, (m.func f).blocks.Nodup
  instrs : ∀ b, (m.block b).instrs.Nodup

section Members

variable {m : Module} (hl : m.Linked) {f g : FuncId} {b c : BlockId} {i : InstrId}

include hl

theorem Linked.block_lt {b : Nat} (h : b ∈ (m.func f).blocks) : b < m.blockTable.size := by
  apply Decidable.byContradiction
  intro hb
  rw [hl.block, block_of_size_le m (Nat.le_of_not_lt hb)] at h
  cases h

theorem Linked.instr_lt {i : Nat} (h : i ∈ (m.block b).instrs) : i < m.instrTable.size := by
  apply Decidable.byContradiction
  intro hi
  rw [hl.instr, instr_of_size_le m (Nat.le_of_not_lt hi)] at h
  cases h

theorem Linked.block_unique (h : i ∈ (m.block b).instrs) (h' : i ∈ (m.block c).instrs) : b = c := by
  rw [hl.instr] at h h'
  exact Option.some.inj (h.symm.trans h')

theorem Linked.func_unique (h : b ∈ (m.func f).blocks) (h' : b ∈ (m.func g).blocks) : f = g := by
  rw [hl.block] at h h'
  exact Option.some.inj (h.symm.trans h')

theorem Linked.mem_body :
    i ∈ m.body f ↔ ∃ b, (m.instr i).parent = some b ∧ b ∈ (m.func f).blocks := by
  unfold body
  rw [mem_flatMap]
  constructor
  · rintro ⟨b, hb, hi⟩
    exact ⟨b, (hl.instr b i).1 hi, hb⟩
  · rintro ⟨b, hi, hb⟩
    exact ⟨b, hb, (hl.instr b i).2 hi⟩

theorem Linked.mem_body_of_mem (hb : b ∈ (m.func f).blocks) (hi : i ∈ (m.block b).instrs) :
    i ∈ m.body f := hl.mem_body.2 ⟨b, (hl.instr b i).1 hi, hb⟩

end Members

/-! ## Building -/

theorem Linked.new (name : String) : (Module.new name).Linked where
  block f b := by simp [Module.new, Module.func, Module.block, default, instInhabitedFunction.default,
    instInhabitedBlock.default]
  instr b i := by simp [Module.new, Module.instr, Module.block, default, instInhabitedInstr.default,
    instInhabitedBlock.default]
  blocks f := by simp [Module.new, Module.func, default, instInhabitedFunction.default]
  instrs b := by simp [Module.new, Module.block, default, instInhabitedBlock.default]

variable {m m' m'' : Module} {f : FuncId} {b : BlockId} {i : InstrId}

theorem Linked.congr (hl : m.Linked) (hb : ∀ f, (m'.func f).blocks = (m.func f).blocks)
    (hp : ∀ b, (m'.block b).parent = (m.block b).parent)
    (hi : ∀ b, (m'.block b).instrs = (m.block b).instrs)
    (hq : ∀ i, (m'.instr i).parent = (m.instr i).parent) : m'.Linked where
  block f b := by rw [hb, hp, hl.block]
  instr b i := by rw [hi, hq, hl.instr]
  blocks f := by rw [hb]; exact hl.blocks f
  instrs b := by rw [hi]; exact hl.instrs b

theorem Linked.addFunction (hl : m.Linked) (name : String) (proto : Prototype) :
    (m.addFunction name proto).2.Linked := by
  refine hl.congr (fun f => ?_) (fun _ => rfl) (fun _ => rfl) fun _ => rfl
  have h : (m.addFunction name proto).2.func f = _ := getD_push ..
  rw [h]
  split
  · rename_i hf
    rw [hf, func_of_size_le m (Nat.le_refl _)]
    rfl
  · rfl

theorem Linked.addBlock (hl : m.Linked) {f : Nat} (hf : f < m.functionTable.size) (hint : String) :
    (m.addBlock f hint).2.Linked := by
  have hnew : ∀ g, m.blockTable.size ∉ (m.func g).blocks :=
    fun g hg => absurd (hl.block_lt hg) (Nat.lt_irrefl _)
  have hblocks : ∀ g, ((m.addBlock f hint).2.func g).blocks =
      if f = g then (m.func g).blocks ++ [m.blockTable.size] else (m.func g).blocks := by
    intro g
    rw [addBlock_func]
    by_cases hg : f = g
    · rw [if_pos hg, if_pos ⟨hg, hg ▸ hf⟩]
    · rw [if_neg hg, if_neg fun h => hg h.1]
  have hparent : ∀ c : Nat, ((m.addBlock f hint).2.block c).parent =
      if c = m.blockTable.size then some f else (m.block c).parent := by
    intro c
    have h : (m.addBlock f hint).2.block c = _ := getD_push ..
    rw [h]
    split <;> rfl
  constructor
  · intro g c
    rw [hblocks, hparent]
    have hold := hl.block g c
    by_cases hc : c = m.blockTable.size
    · subst hc
      by_cases hg : f = g
      · simp [hg]
      · simp [hg, hnew g]
    · rw [if_neg hc, ← hold]
      split <;> simp [hc]
  · intro c i
    rw [addBlock_instrs]
    exact hl.instr c i
  · intro g
    rw [hblocks]
    split
    · rw [nodup_append]
      refine ⟨hl.blocks g, by simp, ?_⟩
      rintro x hx y hy rfl
      rw [mem_singleton.1 hy] at hx
      exact hnew g hx
    · exact hl.blocks g
  · intro c
    rw [addBlock_instrs]
    exact hl.instrs c

theorem Linked.append (hl : m.Linked) {b : Nat} (hb : b < m.blockTable.size) (x : Instr) :
    (m.append b x).2.Linked := by
  have hnew : ∀ c, m.instrTable.size ∉ (m.block c).instrs :=
    fun c hc => absurd (hl.instr_lt hc) (Nat.lt_irrefl _)
  have hinstrs : ∀ c, ((m.append b x).2.block c).instrs =
      if b = c then (m.block c).instrs ++ [m.instrTable.size] else (m.block c).instrs := by
    intro c
    rw [append_block]
    by_cases hc : b = c
    · rw [if_pos hc, if_pos ⟨hc, hc ▸ hb⟩]
    · rw [if_neg hc, if_neg fun h => hc h.1]
  have hparent : ∀ c, ((m.append b x).2.block c).parent = (m.block c).parent := by
    intro c
    rw [append_block]
    split <;> rfl
  constructor
  · intro g c
    rw [hparent]
    exact hl.block g c
  · intro c i
    rw [hinstrs, append_instr]
    have hold := hl.instr c i
    by_cases hi : i = m.instrTable.size
    · subst hi
      by_cases hc : b = c
      · simp [hc]
      · simp [hc, hnew c]
    · rw [if_neg hi, ← hold]
      split <;> simp [hi]
  · exact hl.blocks
  · intro c
    rw [hinstrs]
    split
    · rw [nodup_append]
      refine ⟨hl.instrs c, by simp, ?_⟩
      rintro y hy z hz rfl
      rw [mem_singleton.1 hz] at hy
      exact hnew c hy
    · exact hl.instrs c

/-- A module with one definition, given by its prototype, the names of its blocks and its instructions
with their blocks. -/
def single (proto : Prototype) (blocks : List String) (code : List (Nat × Instr)) : Module :=
  code.foldl (fun m x => (m.append x.1 x.2).2)
    (blocks.foldl (fun m hint => (m.addBlock 0 hint).2) ((new "m").addFunction "f" proto).2)

theorem Linked.addBlocks (hl : m.Linked) {f : Nat} (hf : f < m.functionTable.size)
    (hints : List String) :
    (hints.foldl (fun m hint => (m.addBlock f hint).2) m).Linked ∧
      (hints.foldl (fun m hint => (m.addBlock f hint).2) m).blockTable.size =
        m.blockTable.size + hints.length := by
  induction hints generalizing m with
  | nil => exact ⟨hl, rfl⟩
  | cons hint hints ih =>
    obtain ⟨hl', hsize⟩ := ih (hl.addBlock hf hint) (by simpa using hf)
    refine ⟨hl', ?_⟩
    rw [foldl_cons, hsize]
    simp [Module.addBlock]
    omega

theorem Linked.appendAll (hl : m.Linked) {code : List (Nat × Instr)}
    (hcode : ∀ x ∈ code, x.1 < m.blockTable.size) :
    (code.foldl (fun m x => (m.append x.1 x.2).2) m).Linked := by
  induction code generalizing m with
  | nil => exact hl
  | cons x code ih =>
    rw [forall_mem_cons] at hcode
    exact ih (hl.append hcode.1 x.2) (by simpa using hcode.2)

theorem Linked.single {proto : Prototype} {blocks : List String} {code : List (Nat × Instr)}
    (hcode : ∀ x ∈ code, x.1 < blocks.length) : (single proto blocks code).Linked := by
  have hnew := (Linked.new "m").addFunction "f" proto
  obtain ⟨hl, hsize⟩ := hnew.addBlocks (f := 0) (by simp [Module.addFunction]) blocks
  refine hl.appendAll fun x hx => ?_
  rw [hsize]
  exact Nat.lt_of_lt_of_le (hcode x hx) (Nat.le_add_left _ _)

/-! ## Editing -/

theorem Linked.updateInstr (hl : m.Linked) {change : Instr → Instr}
    (hc : ∀ x, (change x).parent = x.parent) : (m.updateInstr i change).Linked := by
  refine hl.congr (fun _ => rfl) (fun _ => rfl) (fun _ => rfl) fun j => ?_
  rw [updateInstr_instr]
  split
  · exact hc _
  · rfl

theorem Linked.replaceUses (hl : m.Linked) (old : InstrId) (new : Value) :
    (m.replaceUses f old new).Linked := by
  refine hl.congr (fun _ => ?_) (fun _ => ?_) (fun _ => ?_) fun j => ?_
  · rw [replaceUses_func]
  · rw [replaceUses_block]
  · rw [replaceUses_block]
  rw [replaceUses_instr]
  split <;> rfl

theorem Linked.erase_instrs (hl : m.Linked) (i : InstrId) (b : BlockId) :
    ((m.erase i).block b).instrs = (m.block b).instrs.erase i := by
  rw [erase_block]
  split
  · rfl
  rename_i h
  rw [← hl.instr] at h
  exact (erase_of_not_mem h).symm

theorem erase_parent (i : InstrId) (b : BlockId) :
    ((m.erase i).block b).parent = (m.block b).parent := by
  rw [erase_block]
  split <;> rfl

theorem Linked.erase (hl : m.Linked) (i : InstrId) : (m.erase i).Linked := by
  constructor
  · intro f b
    rw [erase_func, erase_parent]
    exact hl.block f b
  · intro b j
    rw [hl.erase_instrs, (hl.instrs b).mem_erase_iff, erase_instr, hl.instr]
    split <;> simp_all
  · intro f
    rw [erase_func]
    exact hl.blocks f
  · intro b
    rw [hl.erase_instrs]
    exact (hl.instrs b).erase i

structure Edited (f : FuncId) (m m' : Module) : Prop extends SameGlobals m m' where
  ty : ∀ i, (m'.instr i).ty = (m.instr i).ty
  proto : ∀ g, (m'.func g).proto = (m.func g).proto
  owned : ∀ g, (m'.func g).owned = (m.func g).owned
  otherBlocks : ∀ g, g ≠ f → (m'.func g).blocks = (m.func g).blocks
  otherBlock : ∀ g b, g ≠ f → b ∈ (m.func g).blocks → m'.block b = m.block b
  otherInstr : ∀ g b i, g ≠ f → b ∈ (m.func g).blocks → i ∈ (m.block b).instrs →
    m'.instr i = m.instr i

namespace Edited

theorem refl (f : FuncId) (m : Module) : Edited f m m :=
  ⟨.of_instrs rfl, fun _ => rfl, fun _ => rfl, fun _ => rfl, fun _ _ => rfl,
    fun _ _ _ _ => rfl, fun _ _ _ _ _ _ => rfl⟩

theorem trans (h : Edited f m m') (h' : Edited f m' m'') : Edited f m m'' where
  ty i := (h'.ty i).trans (h.ty i)
  proto g := (h'.proto g).trans (h.proto g)
  owned g := (h'.owned g).trans (h.owned g)
  toSameGlobals := h.toSameGlobals.trans h'.toSameGlobals
  otherBlocks g hg := (h'.otherBlocks g hg).trans (h.otherBlocks g hg)
  otherBlock g b hg hb := by
    rw [h'.otherBlock g b hg (by rwa [h.otherBlocks g hg]), h.otherBlock g b hg hb]
  otherInstr g b i hg hb hi := by
    rw [h'.otherInstr g b i hg (by rwa [h.otherBlocks g hg]) (by rwa [h.otherBlock g b hg hb]),
      h.otherInstr g b i hg hb hi]

theorem typeOf (h : Edited f m m') (v : Value) : m'.typeOf v = m.typeOf v := by
  cases v with
  | param g k => simp [Module.typeOf, h.proto]
  | global g => simp [Module.typeOf, h.global]
  | instr i => simp [Module.typeOf, h.ty]
  | _ => rfl

theorem updateInstr (hl : m.Linked) (hi : i ∈ m.body f) {change : Instr → Instr}
    (hc : ∀ x, (change x).ty = x.ty) : Edited f m (m.updateInstr i change) where
  ty j := by
    rw [updateInstr_instr]
    split
    · exact hc _
    · rfl
  proto _ := rfl
  owned _ := rfl
  toSameGlobals := .of_instrs rfl
  otherBlocks _ _ := rfl
  otherBlock _ _ _ _ := rfl
  otherInstr g b j hg hb hj := by
    apply updateInstr_of_ne
    rintro rfl
    obtain ⟨c, hc, hcf⟩ := hl.mem_body.1 hi
    have hbc : b = c := hl.block_unique hj ((hl.instr c j).2 hc)
    exact hg (hl.func_unique hb (hbc ▸ hcf))

theorem erase (hl : m.Linked) (hi : i ∈ m.body f) : Edited f m (m.erase i) := by
  obtain ⟨c, hc, hcf⟩ := hl.mem_body.1 hi
  have hapart : ∀ g b, g ≠ f → b ∈ (m.func g).blocks → b ≠ c := by
    rintro g b hg hb rfl
    exact hg (hl.func_unique hb hcf)
  refine ⟨erase_globals m i, fun j => ?_, fun g => by rw [erase_func],
    fun g => by rw [erase_func], fun g _ => by rw [erase_func], fun g b hg hb => ?_,
    fun g b j hg hb hj => ?_⟩
  · rw [erase_instr]
    split <;> rfl
  · rw [erase_block, hc, if_neg]
    rintro ⟨⟩
    exact hapart g _ hg hb rfl
  · rw [erase_instr, if_neg]
    rintro rfl
    exact hapart g b hg hb (hl.block_unique hj ((hl.instr c j).2 hc))

theorem updateEach (hl : m.Linked) {is : List InstrId} (his : ∀ i ∈ is, i ∈ m.body f)
    {change : Instr → Instr} (hc : ∀ x, (change x).ty = x.ty)
    (hp : ∀ x, (change x).parent = x.parent) : Edited f m (m.updateEach change is) := by
  induction is generalizing m with
  | nil => exact refl f m
  | cons i is ih =>
    refine (updateInstr hl (his i mem_cons_self) hc).trans
      (ih (hl.updateInstr hp) fun j hj => ?_)
    exact his j (mem_cons_of_mem _ hj)

theorem replaceUses (hl : m.Linked) (old : InstrId) (new : Value) :
    Edited f m (m.replaceUses f old new) :=
  updateEach hl (fun _ h => h) (fun _ => rfl) fun _ => rfl

end Edited

end Qirc.IR.Module
