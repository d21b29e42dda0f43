import Qirc.Emission
import Qirc.Proofs.IR.Links
import Qirc.Proofs.IR.SymbolTables
import Qirc.Proofs.Step

/-!
# How a module grows

Emission only adds: entries stay in their tables, the block under the cursor gets longer, and the
cursor moves to new blocks only. What a part of the emission has written is found again in the
finished module, except that the block it ends in may have been continued.
-/

namespace Qirc

open List IR IR.Module

/-- The names of runtime functions start differently from those of emitted ones. -/
def isRuntimeName (name : String) : Bool :=
  name.toList.take 3 == ['_', '_', 'q'] || name.toList.take 3 == ['_', '_', 'Q']

theorem symbolName_not_runtime (plain : Bool) (id : NodeId) (name : String) :
    isRuntimeName (Emission.symbolName plain id name) = false := by
  unfold Emission.symbolName
  split
  · rename_i h
    simp only [Bool.and_eq_true, beq_iff_eq] at h
    rw [h.2]
    decide
  · have h : (toString "__hugr__.").toList = ['_', '_', 'h', 'u', 'g', 'r', '_', '_', '.'] := by
      decide
    simp [isRuntimeName, String.toList_append, h]

/-! ## Tables -/

/-- Every entry of a module is found again in another one. -/
structure IR.Module.Within (m m' : Module) : Prop where
  instrs : m.instrTable.size ≤ m'.instrTable.size
  instr : ∀ i : Nat, i < m.instrTable.size → m'.instr i = m.instr i
  globals : m.globalTable.size ≤ m'.globalTable.size
  global : ∀ k : Nat, k < m.globalTable.size → m'.global k = m.global k
  blocks : m.blockTable.size ≤ m'.blockTable.size
  parent : ∀ b : Nat, b < m.blockTable.size → (m'.block b).parent = (m.block b).parent
  funcs : m.functionTable.size ≤ m'.functionTable.size
  funcName : ∀ f : Nat, f < m.functionTable.size → (m'.func f).name = (m.func f).name
  funcProto : ∀ f : Nat, f < m.functionTable.size → (m'.func f).proto = (m.func f).proto
  funcBlocks : ∀ f : Nat, f < m.functionTable.size →
    ∃ more, (m'.func f).blocks = (m.func f).blocks ++ more
  found : ∀ name f, m.func? name = some f → m'.func? name = some f

namespace IR.Module.Within

variable {m m' m'' : Module}

theorem refl (m : Module) : m.Within m where
  instrs := Nat.le_refl _
  instr _ _ := rfl
  globals := Nat.le_refl _
  global _ _ := rfl
  blocks := Nat.le_refl _
  parent _ _ := rfl
  funcs := Nat.le_refl _
  funcName _ _ := rfl
  funcProto _ _ := rfl
  funcBlocks _ _ := ⟨[], by simp⟩
  found _ _ h := h

theorem trans (h : m.Within m') (h' : m'.Within m'') : m.Within m'' where
  instrs := Nat.le_trans h.instrs h'.instrs
  instr i hi := (h'.instr i (Nat.lt_of_lt_of_le hi h.instrs)).trans (h.instr i hi)
  globals := Nat.le_trans h.globals h'.globals
  global k hk := (h'.global k (Nat.lt_of_lt_of_le hk h.globals)).trans (h.global k hk)
  blocks := Nat.le_trans h.blocks h'.blocks
  parent b hb := (h'.parent b (Nat.lt_of_lt_of_le hb h.blocks)).trans (h.parent b hb)
  funcs := Nat.le_trans h.funcs h'.funcs
  funcName f hf := (h'.funcName f (Nat.lt_of_lt_of_le hf h.funcs)).trans (h.funcName f hf)
  funcProto f hf := (h'.funcProto f (Nat.lt_of_lt_of_le hf h.funcs)).trans (h.funcProto f hf)
  funcBlocks f hf := by
    obtain ⟨more, hm⟩ := h.funcBlocks f hf
    obtain ⟨more', hm'⟩ := h'.funcBlocks f (Nat.lt_of_lt_of_le hf h.funcs)
    exact ⟨more ++ more', by rw [hm', hm, append_assoc]⟩
  found name f hf := h'.found name f (h.found name f hf)

end IR.Module.Within

/-- The tables of a module under construction: the first `k` functions are those of the graph. -/
structure IR.Module.Sound (k : Nat) (m : Module) : Prop where
  indexed : m.Indexed
  placed : ∀ i : Nat, i < m.instrTable.size → ∃ b, (m.instr i).parent = some b
  homed : ∀ b : Nat, b < m.blockTable.size → ∃ f : Nat, f < k ∧ (m.block b).parent = some f
  listed : ∀ b i, i ∈ (m.block b).instrs → i < m.instrTable.size
  count : k ≤ m.functionTable.size
  named : ∀ f : Nat, f < k → isRuntimeName (m.func f).name = false
  bare : ∀ f : Nat, k ≤ f → (m.func f).blocks = []
  functions : m.functions = range m.functionTable.size
  owned : ∀ f, (m.func f).owned = true
  linked : m.Linked
  rising : ∀ b, (m.block b).instrs.Pairwise (· < ·)

theorem IR.Module.Sound.symbols {k : Nat} {m : Module} (h : m.Sound k) (name : String) (f : FuncId)
    (hf : m.func? name = some f) : f < m.functionTable.size ∧ (m.func f).name = name := by
  obtain ⟨hmem, hname⟩ := (h.indexed.symbols name f).1 hf
  exact ⟨h.indexed.inTable f hmem, hname⟩

theorem IR.Module.Sound.texts {k : Nat} {m : Module} (h : m.Sound k) {bytes : List UInt8}
    {g : GlobalId} (hg : m.text? bytes = some g) :
    g < m.globalTable.size ∧ (m.global g).bytes = bytes ++ [0] := by
  obtain ⟨hmem, hbytes⟩ := (h.indexed.texts bytes g).1 hg
  rw [h.indexed.globals, mem_range] at hmem
  exact ⟨hmem, hbytes⟩

theorem IR.Module.Sound.outside {k : Nat} {m : Module} (h : m.Sound k) {f : Nat}
    (hf : isRuntimeName (m.func f).name = true) : k ≤ f := by
  rcases Nat.lt_or_ge f k with hlt | hge
  · rw [h.named f hlt] at hf
    cases hf
  · exact hge

namespace Cursor

/-! ## Cursors -/

variable {k : Nat} {c c' c'' : Cursor}

/-- The cursor stands in a block of a function of the graph. -/
structure Ready (k : Nat) (c : Cursor) : Prop where
  sound : c.module.Sound k
  block : c.block < c.module.blockTable.size
  parent : ∃ f, (c.module.block c.block).parent = some f ∧ f < k

/-- What an emission does to a cursor. A phi is only ever written where a block begins. -/
structure Grows (c c' : Cursor) : Prop where
  within : c.module.Within c'.module
  others : ∀ b : Nat, b < c.module.blockTable.size → b ≠ c.block →
    c'.module.block b = c.module.block b
  current : ∃ more, (c'.module.block c.block).instrs = (c.module.block c.block).instrs ++ more ∧
    ∀ i ∈ more, (c'.module.instr i).op ≠ .phi
  moved : c'.block = c.block ∨ c.module.blockTable.size ≤ c'.block
  parent : (c'.module.block c'.block).parent = (c.module.block c.block).parent
  added : ∀ b : Nat, c.module.blockTable.size ≤ b → b < c'.module.blockTable.size →
    (c'.module.block b).parent = (c.module.block c.block).parent

theorem Grows.refl (c : Cursor) : Grows c c where
  within := .refl _
  others _ _ _ := rfl
  current := ⟨[], by simp, by simp⟩
  moved := .inl rfl
  parent := rfl
  added b hge hlt := absurd hlt (Nat.not_lt.2 hge)

theorem Grows.trans (h : Grows c c') (hb : c.block < c.module.blockTable.size)
    (hs : c'.module.Sound k) (h' : Grows c' c'') : Grows c c'' where
  within := h.within.trans h'.within
  others b hlt hne := by
    rw [h'.others b (Nat.lt_of_lt_of_le hlt h.within.blocks), h.others b hlt hne]
    obtain hm | hm := h.moved
    · rwa [hm]
    · exact fun he => Nat.lt_irrefl b (Nat.lt_of_lt_of_le hlt (he ▸ hm))
  current := by
    obtain ⟨more, hi, hp⟩ := h.current
    have hp' : ∀ i ∈ more, (c''.module.instr i).op ≠ .phi := by
      intro i hm
      rw [h'.within.instr i (hs.listed c.block i (by simp [hi, hm]))]
      exact hp i hm
    by_cases hm : c'.block = c.block
    · obtain ⟨more', hi', hq⟩ := h'.current
      rw [hm] at hi'
      refine ⟨more ++ more', by rw [hi', hi, append_assoc], ?_⟩
      intro i hmem
      rcases mem_append.1 hmem with hmem | hmem
      · exact hp' i hmem
      · exact hq i hmem
    · rw [h'.others c.block (Nat.lt_of_lt_of_le hb h.within.blocks) (Ne.symm hm)]
      exact ⟨more, hi, hp'⟩
  moved := by
    obtain hm | hm := h'.moved
    · rw [hm]
      exact h.moved
    · exact .inr (Nat.le_trans h.within.blocks hm)
  parent := h'.parent.trans h.parent
  added b hge hlt := by
    rcases Nat.lt_or_ge b c'.module.blockTable.size with hb' | hb'
    · rw [h'.within.parent b hb']
      exact h.added b hge hb'
    · rw [h'.added b hb' hlt]
      exact h.parent

/-! ## The finished module -/

/-- What was emitted between two cursors stands in a finished module as it was written; only the
block under the second cursor may go on. -/
structure Fits (c c' : Cursor) (m : Module) : Prop where
  within : c'.module.Within m
  done : ∀ b : Nat, b = c.block ∨ c.module.blockTable.size ≤ b → b < c'.module.blockTable.size →
    b ≠ c'.block → (m.block b).instrs = (c'.module.block b).instrs
  rest : ∃ more, (m.block c'.block).instrs = (c'.module.block c'.block).instrs ++ more ∧
    ∀ i ∈ more, (m.instr i).op ≠ .phi

variable {m : Module}

theorem Fits.first (h : Fits c c'' m) (hg : Grows c c') (hr : Ready k c') (hg' : Grows c' c'')
    (hs : c''.module.Sound k) : Fits c c' m where
  within := hg'.within.trans h.within
  done b hz hlt hne := by
    have hne' : b ≠ c''.block := by
      obtain hm | hm := hg'.moved
      · rwa [hm]
      · exact fun he => Nat.lt_irrefl b (Nat.lt_of_lt_of_le hlt (he ▸ hm))
    rw [h.done b hz (Nat.lt_of_lt_of_le hlt hg'.within.blocks) hne', hg'.others b hlt hne]
  rest := by
    obtain ⟨more, hi, hp⟩ := hg'.current
    have hp' : ∀ i ∈ more, (m.instr i).op ≠ .phi := by
      intro i hm
      rw [h.within.instr i (hs.listed c'.block i (by simp [hi, hm]))]
      exact hp i hm
    by_cases hm : c''.block = c'.block
    · obtain ⟨more', hi', hq⟩ := h.rest
      rw [hm, hi] at hi'
      refine ⟨more ++ more', by rw [hi', append_assoc], ?_⟩
      intro i hmem
      rcases mem_append.1 hmem with hmem | hmem
      · exact hp' i hmem
      · exact hq i hmem
    · have hz : c'.block = c.block ∨ c.module.blockTable.size ≤ c'.block := hg.moved
      rw [h.done c'.block hz (Nat.lt_of_lt_of_le hr.block hg'.within.blocks) (Ne.symm hm), hi]
      exact ⟨more, rfl, hp'⟩

theorem Fits.second (h : Fits c c'' m) (hg : Grows c c') : Fits c' c'' m where
  within := h.within
  done b hz := by
    apply h.done b
    obtain rfl | hz := hz
    · exact hg.moved
    · exact .inr (Nat.le_trans hg.within.blocks hz)
  rest := h.rest

/-! ## Steps -/

/-- The cursor is where it was, and what was written ends no block. -/
structure Stays (c c' : Cursor) : Prop extends Grows c c' where
  block : c'.block = c.block
  size : c'.module.blockTable.size = c.module.blockTable.size
  plain : ∀ i : Nat, c.module.instrTable.size ≤ i → i < c'.module.instrTable.size →
    (c'.module.instr i).op.isTerminator = false

theorem Stays.refl (c : Cursor) : Stays c c :=
  ⟨.refl c, rfl, rfl, fun _ hge hlt => absurd hlt (Nat.not_lt.2 hge)⟩

theorem Stays.trans (h : Stays c c') (hr : Ready k c) (hr' : Ready k c') (h' : Stays c' c'') :
    Stays c c'' where
  toGrows := h.toGrows.trans hr.block hr'.sound h'.toGrows
  block := h'.block.trans h.block
  size := h'.size.trans h.size
  plain i hge hlt := by
    rcases Nat.lt_or_ge i c'.module.instrTable.size with hi | hi
    · rw [h'.within.instr i hi]
      exact h.plain i hge hi
    · exact h'.plain i hi hlt

def Steady {α : Type} (k : Nat) (x : Step Cursor α) : Prop :=
  ∀ c a c', Ready k c → x c = .ok a c' → Ready k c' ∧ Stays c c'

variable {α : Type}

theorem Steady.pure (a : α) : Steady k (pure a) := by
  intro c b c' hr h
  obtain ⟨-, rfl⟩ := Step.pure_ok.1 h
  exact ⟨hr, .refl c⟩

theorem Steady.bind {β : Type} {x : Step Cursor α} {f : α → Step Cursor β} (hx : Steady k x)
    (hf : ∀ a, Steady k (f a)) : Steady k (x >>= f) := by
  intro c b c' hr h
  obtain ⟨a, d, hxd, hfd⟩ := Step.bind_ok.1 h
  obtain ⟨hr', hs⟩ := hx c a d hr hxd
  obtain ⟨hr'', hs'⟩ := hf a d b c' hr' hfd
  exact ⟨hr'', hs.trans hr hr' hs'⟩

theorem Steady.throw (e : Failure) : Steady k (throw e : Step Cursor α) := by
  intro c a c' _ h
  exact (Step.throw_ok.1 h).elim

theorem Steady.ite {p : Prop} [Decidable p] {x y : Step Cursor α} (hx : Steady k x)
    (hy : Steady k y) : Steady k (if p then x else y) := by
  split
  · exact hx
  · exact hy

variable {build : Module → Instr} {v : Value}

theorem emit_ok :
    emit build c = .ok v c' ↔
      v = .instr c.module.instrTable.size ∧
        c' = { c with module := (c.module.append c.block (build c.module)).2 } := by
  unfold emit
  simp only [append_id, EStateM.Result.ok.injEq]
  exact ⟨fun h => ⟨h.1.symm, h.2.symm⟩, fun h => ⟨h.1.symm, h.2.symm⟩⟩

theorem append_within (m : Module) (b : BlockId) (x : Instr) : m.Within (m.append b x).2 :=
  { Within.refl m with
    instrs := by simp
    instr := fun i hi => by rw [m.append_instr, if_neg (Nat.ne_of_lt hi)]
    blocks := by simp
    parent := fun b' _ => by rw [m.append_block]; split <;> rfl }

theorem append_sound {b : Nat} {x : Instr} (hs : m.Sound k) (hb : b < m.blockTable.size) :
    (m.append b x).2.Sound k := by
  refine { hs with
    indexed := { hs.indexed with }, placed := ?_, homed := ?_, listed := ?_,
    linked := hs.linked.append hb x, rising := ?_ }
  · intro i hi
    rw [m.append_instr]
    split
    · exact ⟨b, rfl⟩
    rename_i hne
    rw [m.append_instrs_size] at hi
    exact hs.placed i (Nat.lt_of_le_of_ne (Nat.le_of_lt_succ hi) hne)
  · intro b' hb'
    rw [m.append_blocks_size] at hb'
    rw [(append_within m b x).parent b' hb']
    exact hs.homed b' hb'
  · intro b' i hi
    rw [m.append_block] at hi
    rw [m.append_instrs_size]
    split at hi
    · rcases mem_append.1 hi with hi | hi
      · exact Nat.lt_succ_of_lt (hs.listed b' i hi)
      rw [mem_singleton.1 hi]
      exact Nat.lt_succ_self _
    · exact Nat.lt_succ_of_lt (hs.listed b' i hi)
  · intro b'
    rw [m.append_block]
    split
    · refine pairwise_append.2 ⟨hs.rising b', pairwise_singleton _ _, ?_⟩
      intro i hi j hj
      rw [mem_singleton.1 hj]
      exact hs.listed b' i hi
    · exact hs.rising b'

theorem append_current (hb : c.block < c.module.blockTable.size) (x : Instr) :
    ((c.module.append c.block x).2.block c.block).instrs =
      (c.module.block c.block).instrs ++ [c.module.instrTable.size] := by
  rw [c.module.append_block, if_pos ⟨rfl, hb⟩]

theorem append_ready {x : Instr} (hr : Ready k c) :
    Ready k { c with module := (c.module.append c.block x).2 } where
  sound := append_sound hr.sound hr.block
  block := by simpa using hr.block
  parent := by
    have h := (append_within c.module c.block x).parent c.block hr.block
    simpa only [h] using hr.parent

theorem Grows.append (hr : Ready k c) {x : Instr} (hp : x.op ≠ .phi) :
    Grows c { c with module := (c.module.append c.block x).2 } where
  within := append_within ..
  others b _ hne := by rw [c.module.append_block, if_neg fun h => hne h.1.symm]
  current := by
    refine ⟨[c.module.instrTable.size], append_current hr.block _, ?_⟩
    intro i hi
    rw [mem_singleton.1 hi, c.module.append_instr, if_pos rfl]
    exact hp
  moved := .inl rfl
  parent := (append_within c.module c.block _).parent c.block hr.block
  added b hge hlt := by
    rw [append_blocks_size] at hlt
    exact absurd hlt (Nat.not_lt.2 hge)

theorem Stays.append (hr : Ready k c) {x : Instr} (hp : x.op ≠ .phi)
    (hop : x.op.isTerminator = false) :
    Stays c { c with module := (c.module.append c.block x).2 } where
  toGrows := .append hr hp
  block := rfl
  size := by simp
  plain i hge hlt := by
    rw [append_instrs_size] at hlt
    obtain rfl : i = c.module.instrTable.size := by omega
    rw [append_instr, if_pos rfl]
    exact hop

theorem Steady.emit (hp : ∀ m, (build m).op ≠ .phi ∧ (build m).op.isTerminator = false) :
    Steady k (emit build) := by
  intro c v c' hr h
  obtain ⟨rfl, rfl⟩ := emit_ok.1 h
  exact ⟨append_ready hr, .append hr (hp _).1 (hp _).2⟩

variable {name : String} {proto : Prototype}

theorem addFunction_within (hn : m.func? name = none) : m.Within (m.addFunction name proto).2 := by
  have hold : ∀ f : Nat, f < m.functionTable.size →
      (m.addFunction name proto).2.func f = m.func f := fun f hf =>
    (addFunction_func m name proto f).trans (if_neg (Nat.ne_of_lt hf))
  refine { Within.refl m with
    funcs := by simp [addFunction]
    funcName := fun f hf => by rw [hold f hf]
    funcProto := fun f hf => by rw [hold f hf]
    funcBlocks := fun f hf => ⟨[], by rw [hold f hf, append_nil]⟩
    found := ?_ }
  · intro name' f hf
    rw [addFunction_func?, if_neg]
    · exact hf
    rintro rfl
    rw [hn] at hf
    cases hf

theorem addFunction_sound (hs : m.Sound k) (hn : m.func? name = none) (proto : Prototype) :
    (m.addFunction name proto).2.Sound k where
  indexed := (hs.indexed.addFunction hn proto).1
  placed := hs.placed
  homed := hs.homed
  listed := hs.listed
  count := by
    have := hs.count
    simp [addFunction]
    omega
  named f hf := by
    have := hs.count
    rw [addFunction_func, if_neg (by omega)]
    exact hs.named f hf
  bare f hf := by
    rw [addFunction_func]
    split
    · rfl
    · exact hs.bare f hf
  functions := by
    simp [addFunction, hs.functions, range_succ]
  owned f := by
    rw [addFunction_func]
    split
    · rfl
    · exact hs.owned f
  linked := hs.linked.addFunction name proto
  rising := hs.rising

/-- A module with a new entry in its tables that touches no block. -/
structure Entered (k : Nat) (m m' : Module) : Prop where
  within : m.Within m'
  sound : m'.Sound k
  blocks : ∀ b, m'.block b = m.block b
  size : m'.blockTable.size = m.blockTable.size
  instrs : m'.instrTable.size = m.instrTable.size

theorem Entered.refl (hs : m.Sound k) : Entered k m m := ⟨.refl m, hs, fun _ => rfl, rfl, rfl⟩

variable {m' : Module}

theorem Entered.ready (h : Entered k c.module m') (hr : Ready k c) :
    Ready k { c with module := m' } where
  sound := h.sound
  block := by simpa only [h.size] using hr.block
  parent := by simpa only [h.blocks] using hr.parent

theorem Entered.stays (h : Entered k c.module m') : Stays c { c with module := m' } where
  within := h.within
  others b _ _ := h.blocks b
  current := ⟨[], by simp [h.blocks], by simp⟩
  moved := .inl rfl
  parent := by simp [h.blocks]
  added b hge hlt := absurd hlt (by simp only [h.size]; omega)
  block := rfl
  size := h.size
  plain _ hge hlt := absurd (h.instrs ▸ hlt) (Nat.not_lt.2 hge)

structure Declared (k : Nat) (m m' : Module) (name : String) (proto : Prototype) (f : FuncId) :
    Prop extends Entered k m m' where
  found : m'.func? name = some f
  proto : (m'.func f).proto = proto

theorem declare_spec (hs : m.Sound k) {f : FuncId}
    (h : m.declare name proto = .ok (f, m')) : Declared k m m' name proto f := by
  unfold Module.declare at h
  split at h
  · rename_i hf
    split at h
    · rename_i hproto
      cases h
      exact ⟨.refl hs, hf, hproto⟩
    · cases h
  · rename_i hn
    cases h
    have hfound := (addFunction_func? m name proto name).trans (if_pos rfl)
    have hnew := (addFunction_func m name proto m.functionTable.size).trans (if_pos rfl)
    exact ⟨⟨addFunction_within hn, addFunction_sound hs hn proto, fun _ => rfl, rfl, rfl⟩, hfound,
      congrArg Function.proto hnew⟩

theorem declare_ok {ret : Ty} {params : List Ty} {f : FuncId} (hr : Ready k c)
    (h : declare name ret params c = .ok f c') :
    ∃ m', c' = { c with module := m' } ∧ Declared k c.module m' name ⟨ret, params⟩ f := by
  unfold declare at h
  split at h
  · rename_i m' hd
    cases h
    exact ⟨m', rfl, declare_spec hr.sound hd⟩
  · cases h

theorem Steady.declare (name : String) (ret : Ty) (params : List Ty) :
    Steady k (declare name ret params) := by
  intro c f c' hr h
  obtain ⟨m', rfl, hd⟩ := declare_ok hr h
  exact ⟨hd.ready hr, hd.stays⟩

structure Interned (k : Nat) (m m' : Module) (bytes : List UInt8) (id : GlobalId) : Prop
    extends Entered k m m' where
  found : m'.text? bytes = some id

theorem intern_spec (hs : m.Sound k) (bytes : List UInt8) :
    Interned k m (m.intern bytes).2 bytes (m.intern bytes).1 := by
  have hindexed := (hs.indexed.intern bytes).1
  cases hg : m.text? bytes with
  | some g =>
    simp only [intern, hg]
    exact ⟨.refl hs, hg⟩
  | none =>
    simp only [intern, hg] at hindexed ⊢
    refine ⟨⟨{ Within.refl m with
        globals := by simp
        global := fun k hk => (getD_push ..).trans (if_neg (Nat.ne_of_lt hk)) },
      { hs with
        indexed := hindexed
        linked := hs.linked.congr (fun _ => rfl) (fun _ => rfl) (fun _ => rfl) (fun _ => rfl) },
      fun _ => rfl, rfl, rfl⟩, (find?_entry ..).trans (if_pos rfl)⟩

theorem stringPtr_ok {s : String} (hr : Ready k c) (h : stringPtr s c = .ok v c') :
    ∃ m' id tag, c' = { c with module := m' } ∧ v = .string id tag ∧
      Interned k c.module m' (Text.utf8 s) id := by
  cases h
  have hi := intern_spec hr.sound (Text.utf8 s)
  exact ⟨_, _, _, rfl, rfl,
    { hi with
      within := { hi.within with }
      sound := { hi.sound with
        indexed := { hi.sound.indexed with }
        linked := hi.sound.linked.congr (fun _ => rfl) (fun _ => rfl) (fun _ => rfl)
          (fun _ => rfl) } }⟩

theorem Steady.stringPtr (s : String) : Steady k (stringPtr s) := by
  intro c v c' hr h
  obtain ⟨m', id, tag, rfl, -, hi⟩ := stringPtr_ok hr h
  exact ⟨hi.ready hr, hi.stays⟩

theorem addBlock_within (m : Module) (f : FuncId) (hint : String) :
    m.Within (m.addBlock f hint).2 := by
  refine { Within.refl m with
    blocks := by simp
    parent := fun b hb => by rw [m.addBlock_block f hint b hb]
    funcs := by simp
    funcName := fun f' _ => by rw [m.addBlock_func]; split <;> rfl
    funcProto := fun f' _ => by rw [m.addBlock_func]; split <;> rfl
    funcBlocks := fun f' _ => ?_ }
  rw [m.addBlock_func]
  split
  · exact ⟨_, rfl⟩
  · exact ⟨[], by simp⟩

theorem addBlock_sound {f : Nat} (hs : m.Sound k) (hf : f < k) (hint : String) :
    (m.addBlock f hint).2.Sound k where
  indexed :=
    { hs.indexed with
      symbols := fun name f' => (hs.indexed.symbols name f').trans (and_congr_right fun hf' => by
        rw [(addBlock_within m f hint).funcName f' (hs.indexed.inTable f' hf')])
      inTable := fun f' hf' => by
        rw [m.addBlock_funcs_size]
        exact hs.indexed.inTable f' hf' }
  placed := hs.placed
  homed b hb := by
    rw [m.addBlock_blocks_size] at hb
    rcases Nat.lt_succ_iff_lt_or_eq.1 hb with hlt | rfl
    · rw [m.addBlock_block f hint b hlt]
      exact hs.homed b hlt
    · exact ⟨f, hf, m.addBlock_new_parent ..⟩
  listed b i hi := by
    rcases Nat.lt_trichotomy b m.blockTable.size with hb | rfl | hb
    · rw [m.addBlock_block f hint b hb] at hi
      exact hs.listed b i hi
    · simp at hi
    · rw [block_of_size_le _ (by rw [m.addBlock_blocks_size]; omega)] at hi
      exact absurd hi (not_mem_nil)
  count := by simpa using hs.count
  named f' hf' := by
    rw [(addBlock_within m f hint).funcName f' (Nat.lt_of_lt_of_le hf' hs.count)]
    exact hs.named f' hf'
  bare f' hf' := by
    have hne : ¬(f = f' ∧ f' < m.functionTable.size) := by omega
    rw [m.addBlock_func, if_neg hne]
    exact hs.bare f' hf'
  functions := by
    rw [m.addBlock_funcs_size]
    exact hs.functions
  owned f' := by
    rw [m.addBlock_func]
    split
    · exact hs.owned f'
    · exact hs.owned f'
  linked := hs.linked.addBlock (Nat.lt_of_lt_of_le hf hs.count) hint
  rising b := by
    rw [m.addBlock_instrs]
    exact hs.rising b

end Cursor

end Qirc
