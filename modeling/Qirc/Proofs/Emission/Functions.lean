import Qirc.Proofs.Emission.Faithful

/-!
# Functions of an emitted module

All functions of a graph are defined before the first body is filled, in one order. A body is filled
into new blocks of its own function, so the finished module holds every body as it was written.
-/

namespace Qirc.Emission

open List Step IR Qirc.Graph

/-! ## Definitions -/

theorem prototype_types {sig : Signature} {p : Prototype} (h : prototype sig = .ok p) :
    sig.inputs.mapM ValueType.ty = .ok p.params ∧
      (sig.outputs = [] ∧ p.ret = .void ∨ ∃ vt, sig.outputs = [vt] ∧ vt.ty = .ok p.ret) := by
  obtain ⟨params, hp, h⟩ := except_bind_ok.1 h
  match hout : sig.outputs with
  | [] =>
    rw [hout] at h
    cases h
    exact ⟨hp, .inl ⟨rfl, rfl⟩⟩
  | [vt] =>
    rw [hout] at h
    obtain ⟨ret, hret, h⟩ := except_bind_ok.1 h
    cases h
    exact ⟨hp, .inr ⟨vt, rfl, hret⟩⟩
  | _ :: _ :: _ =>
    rw [hout] at h
    cases h

theorem prototype_outputs {sig : Signature} {p : Prototype} (h : prototype sig = .ok p) :
    sig.outputs.length ≤ 1 := by
  obtain ⟨hout, -⟩ | ⟨vt, hout, -⟩ := (prototype_types h).2
  · simp [hout]
  · simp [hout]

/-- The functions of a graph as a module knows them, in order. -/
structure Listed (g : Graph) (plain : Bool) (fs : List (NodeId × FuncId)) (ids : List NodeId)
    (m : Module) : Prop where
  symbol : ∀ (j : Nat) id, ids[j]? = some id →
    m.func? (symbolName plain id (g.nameOf id)) = some j
  proto : ∀ (j : Nat) id, ids[j]? = some id →
    prototype (signatureOf g id) = .ok (m.func j).proto
  entries : ∀ e ∈ fs, ids[e.2]? = some e.1

/-- The functions defined so far. Nothing is filled yet. -/
structure Defined (g : Graph) (plain : Bool) (ids : List NodeId) (s : State) : Prop
    extends Listed g plain s.functions ids s.cursor.module where
  count : s.cursor.module.functionTable.size = ids.length
  noValue : s.values = []
  sound : s.cursor.module.Sound 0
  named : ∀ f : Nat, f < s.cursor.module.functionTable.size →
    isRuntimeName (s.cursor.module.func f).name = false
  found : ∀ (j : Nat) id, ids[j]? = some id →
    s.functions.find? (fun e => e.1 == id) = some (id, j)

variable {g : Graph} {plain : Bool} {ids : List NodeId} {id : NodeId} {s t : State}

variable {u : Unit}

theorem define_ok (h : define g plain id s = .ok u t) :
    ∃ proto, prototype (signatureOf g id) = .ok proto ∧
      s.cursor.module.func? (symbolName plain id (g.nameOf id)) = none ∧
      t = { s with
        cursor := { s.cursor with
          module := (s.cursor.module.addFunction (symbolName plain id (g.nameOf id)) proto).2 }
        functions := (id, s.cursor.module.functionTable.size) ::
          s.functions.filter (fun e => e.1 != id) } := by
  obtain ⟨proto, s1, hproto, h1⟩ := bind_ok.1 h
  obtain ⟨hp, rfl⟩ := ofExcept_ok.1 (inContext_ok.1 hproto)
  obtain ⟨_, s2, hget, h2⟩ := bind_ok.1 h1
  obtain ⟨rfl, rfl⟩ := get_ok.1 hget
  obtain ⟨⟨f, m⟩, s3, hdef, h3⟩ := bind_ok.1 h2
  obtain ⟨hd, rfl⟩ := ofExcept_ok.1 hdef
  rw [set_ok.1 h3]
  unfold Module.define at hd
  split at hd
  · cases hd
  rename_i hn
  cases hd
  exact ⟨proto, hp, hn, rfl⟩

theorem getElem?_concat {j : Nat} {x : NodeId} (h : (ids ++ [id])[j]? = some x) :
    ids[j]? = some x ∨ j = ids.length ∧ x = id := by
  rw [getElem?_append] at h
  split at h
  · exact .inl h
  · rw [getElem?_singleton] at h
    split at h
    · exact .inr ⟨by omega, (Option.some.inj h).symm⟩
    · cases h

theorem Defined.lt (h : Defined g plain ids s) {j : Nat} (hj : ids[j]? = some id) :
    j < s.cursor.module.functionTable.size := by
  rw [h.count]
  exact (List.getElem?_eq_some_iff.1 hj).1

theorem Defined.step (h : Defined g plain ids s) (hid : id ∉ ids)
    (hd : define g plain id s = .ok u t) : Defined g plain (ids ++ [id]) t := by
  obtain ⟨proto, hp, hn, rfl⟩ := define_ok hd
  have hsize : (s.cursor.module.addFunction
      (symbolName plain id (g.nameOf id)) proto).2.functionTable.size =
      s.cursor.module.functionTable.size + 1 := by
    simp [Module.addFunction]
  have hkeys : s.functions.filter (fun e => e.1 != id) = s.functions := by
    rw [filter_eq_self]
    intro e he
    have := mem_of_getElem? (h.entries e he)
    simp only [bne_iff_ne, ne_eq]
    rintro rfl
    exact hid this
  have hcount := h.count
  refine ⟨⟨?_, ?_, ?_⟩, ?_, h.noValue, Cursor.addFunction_sound h.sound hn proto, ?_, ?_⟩
  · intro j x hx
    rw [Module.addFunction_func?]
    obtain hx | ⟨rfl, rfl⟩ := getElem?_concat hx
    · have hsym := h.symbol j x hx
      rw [if_neg]
      · exact hsym
      intro hname
      rw [← hname, hn] at hsym
      cases hsym
    · simp [hcount]
  · intro j x hx
    rw [Module.addFunction_func]
    obtain hx | ⟨rfl, rfl⟩ := getElem?_concat hx
    · rw [if_neg (Nat.ne_of_lt (h.lt hx))]
      exact h.proto j x hx
    rw [if_pos hcount.symm]
    exact hp
  · intro e he
    rw [hkeys] at he
    rcases mem_cons.1 he with rfl | he
    · simp [hcount]
    rw [List.getElem?_append_left (List.getElem?_eq_some_iff.1 (h.entries e he)).1]
    exact h.entries e he
  · rw [hsize]
    simp [hcount]
  · intro f hf
    dsimp only at hf ⊢
    rw [Module.addFunction_func]
    split
    · exact symbolName_not_runtime _ _ _
    · exact h.named f (by omega)
  · intro j x hx
    rw [hkeys, find?_cons]
    obtain hx | ⟨rfl, rfl⟩ := getElem?_concat hx
    · have hne : id ≠ x := by
        rintro rfl
        exact hid (mem_of_getElem? hx)
      rw [beq_false_of_ne hne, h.found j x hx]
    · simp [hcount]

theorem defined_all {done : List NodeId} (h : Defined g plain done s) (hnodup : (done ++ ids).Nodup)
    (hd : ids.forM (define g plain) s = .ok u t) : Defined g plain (done ++ ids) t := by
  induction ids generalizing done s with
  | nil =>
    rw [forM_nil_ok.1 hd, append_nil]
    exact h
  | cons id ids ih =>
    obtain ⟨s1, hs1, hrest⟩ := forM_cons_ok.1 hd
    have hid : id ∉ done := by
      intro hmem
      exact (nodup_append.1 hnodup).2.2 id hmem id (by simp) rfl
    have := ih (h.step hid hs1) (by simpa using hnodup) hrest
    simpa using this

/-! ## Bodies -/

/-- A later module keeps every block; the new ones belong to one function. -/
structure Later (k : FuncId) (m m' : Module) : Prop where
  within : m.Within m'
  block : ∀ b : Nat, b < m.blockTable.size → m'.block b = m.block b
  added : ∀ b : Nat, m.blockTable.size ≤ b → b < m'.blockTable.size →
    (m'.block b).parent = some k

variable {m m' : Module} {j k : Nat}

theorem fits_later {c c' : Cursor} {i : Nat} (hm : m.Sound j) (hr : Cursor.Ready k c')
    (hf : Cursor.Fits c c' m) (hl : Later i m m') : Cursor.Fits c c' m' where
  within := hf.within.trans hl.within
  done b hz hlt hne := by
    rw [hl.block b (Nat.lt_of_lt_of_le hlt hf.within.blocks)]
    exact hf.done b hz hlt hne
  rest := by
    obtain ⟨more, hi, hp⟩ := hf.rest
    refine ⟨more, ?_, ?_⟩
    · rw [hl.block _ (Nat.lt_of_lt_of_le hr.block hf.within.blocks), hi]
    intro i hmem
    rw [hl.within.instr i (hm.listed c'.block i (by simp [hi, hmem]))]
    exact hp i hmem

def returning : List Value → Instr
  | [] => Instr.retVoid
  | v :: _ => Instr.ret v

/-- A module holds the body of a function as it was emitted between two states; its blocks are those
that were added on the way. -/
structure Spans (g : Graph) (fs : List (NodeId × FuncId)) (id : NodeId) (f : FuncId) (m : Module)
    (k : Nat) (s t : State) (vs : List Value) : Prop where
  region : region g (g.nodes.size + 1) id
    ((range (signatureOf g id).inputs.length).map (Value.param f)) s = .ok vs t
  start : Cursor.Ready k s.cursor
  empty : (s.cursor.module.block s.cursor.block).instrs = []
  functions : s.functions = fs
  fresh : Fresh g id s
  length : vs.length = (signatureOf g id).outputs.length
  finish : Cursor.Ready k (t.append (returning vs)).cursor
  fits : Cursor.Fits s.cursor (t.append (returning vs)).cursor m
  head : (m.func f).blocks.head? = some s.cursor.block
  parent : (m.block s.cursor.block).parent = some f
  last : s.cursor.module.blockTable.size = s.cursor.block + 1
  extent : ∀ x : Nat, (m.block x).parent = some f →
    s.cursor.block ≤ x ∧ x < t.cursor.module.blockTable.size
  kept : ∀ x : Nat, x < t.cursor.module.blockTable.size →
    m.block x = (t.append (returning vs)).cursor.module.block x
  known : ∀ x ∈ fs, x.2 < s.cursor.module.functionTable.size

structure Filled (g : Graph) (fs : List (NodeId × FuncId)) (id : NodeId) (f : FuncId) (m : Module) :
    Prop where
  spans : ∃ k s t vs, Spans g fs id f m k s t vs

variable {fs : List (NodeId × FuncId)} {f : FuncId}

theorem Filled.later {i : FuncId} (h : Filled g fs id f m) (hm : m.Sound j)
    (hf : f < m.functionTable.size) (hfi : f ≠ i) (hl : Later i m m') : Filled g fs id f m' := by
  obtain ⟨k, s, t, vs, h⟩ := h.spans
  obtain ⟨more, hmore⟩ := hl.within.funcBlocks f hf
  have hlt : s.cursor.block < m.blockTable.size := (hm.linked.block_lt
    ((hm.linked.block f s.cursor.block).2 h.parent))
  refine ⟨k, s, t, vs, { h with
    fits := fits_later hm h.finish h.fits hl
    head := by rw [hmore, head?_append, h.head]; rfl
    parent := by rw [hl.block _ hlt]; exact h.parent
    extent := fun x hx => ?_
    kept := fun x hx => ?_ }⟩
  · rcases Nat.lt_or_ge x m.blockTable.size with hold | hnew
    · rw [hl.block x hold] at hx
      exact h.extent x hx
    rcases Nat.lt_or_ge x m'.blockTable.size with hx' | hx'
    · rw [hl.added x hnew hx'] at hx
      exact absurd (Option.some.inj hx).symm hfi
    · rw [Module.block_of_size_le _ hx'] at hx
      cases hx
  · have hle := h.fits.within.blocks
    rw [State.append, Module.append_blocks_size] at hle
    rw [hl.block x (Nat.lt_of_lt_of_le hx hle)]
    exact h.kept x hx

theorem body_ok (h : body g id s = .ok u t) :
    ∃ f vs s', s.functions.find? (fun e => e.1 == id) = some (id, f) ∧
      region g (g.nodes.size + 1) id
          ((range (signatureOf g id).inputs.length).map (Value.param f))
          ((s.addBlock f "entry").moveTo s.cursor.module.blockTable.size) = .ok vs s' ∧
      vs.length = (signatureOf g id).outputs.length ∧ t = s'.append (returning vs) := by
  obtain ⟨_, s1, hget, h1⟩ := bind_ok.1 h
  obtain ⟨rfl, rfl⟩ := get_ok.1 hget
  cases hfind : s1.functions.find? (fun e => e.1 == id) with
  | none =>
    rw [hfind] at h1
    exact (throw_ok.1 h1).elim
  | some e =>
    rw [hfind] at h1
    have hkey : e.1 = id := by simpa using find?_some hfind
    obtain ⟨x, f⟩ := e
    obtain rfl : x = id := hkey
    obtain ⟨entry, s2, hadd, h2⟩ := bind_ok.1 h1
    obtain ⟨rfl, rfl⟩ := addBlock_ok.1 hadd
    obtain ⟨_, s3, hset, h3⟩ := bind_ok.1 h2
    rw [setBlock_ok.1 hset] at h3
    obtain ⟨vs, s4, hreg, h4⟩ := bind_ok.1 h3
    rcases ite_ok.1 h4 with ⟨-, h5⟩ | ⟨hlen, h5⟩
    · obtain ⟨_, _, ht, -⟩ := bind_ok.1 h5
      exact (throw_ok.1 ht).elim
    obtain ⟨_, s5, hemit, h6⟩ := bind_ok.1 h5
    obtain ⟨-, rfl⟩ := emit_ok.1 hemit
    obtain ⟨-, rfl⟩ := pure_ok.1 h6
    refine ⟨f, vs, s4, rfl, hreg, by simpa using hlen, ?_⟩
    cases vs <;> rfl

theorem sound_succ (hm : m.Sound k) (hk : k < m.functionTable.size)
    (hn : isRuntimeName (m.func k).name = false) : m.Sound (k + 1) := by
  refine { hm with
    homed := fun b hb => ?_, count := hk, named := fun f hf => ?_
    bare := fun f hf => hm.bare f (Nat.le_of_succ_le hf) }
  · obtain ⟨f, hf, hp⟩ := hm.homed b hb
    exact ⟨f, Nat.lt_succ_of_lt hf, hp⟩
  · rcases Nat.lt_succ_iff_lt_or_eq.1 hf with hlt | rfl
    · exact hm.named f hlt
    · exact hn

theorem returning_ne_phi (vs : List Value) : (returning vs).op ≠ .phi := by
  cases vs <;> simp [returning, Instr.retVoid, Instr.ret]

theorem entry_ready (hm : s.cursor.module.Sound k) (hk : k < s.cursor.module.functionTable.size)
    (hn : isRuntimeName (s.cursor.module.func k).name = false) :
    Cursor.Ready (k + 1)
      ((s.addBlock k "entry").moveTo s.cursor.module.blockTable.size).cursor where
  sound := Cursor.addBlock_sound (sound_succ hm hk hn) (Nat.lt_succ_self k) _
  block := by simp [State.addBlock, State.moveTo]
  parent := ⟨k, Module.addBlock_new_parent .., Nat.lt_succ_self k⟩

theorem body_filled (ha : g.Arena) (hm : s.cursor.module.Sound k)
    (hk : k < s.cursor.module.functionTable.size)
    (hn : isRuntimeName (s.cursor.module.func k).name = false)
    (hfind : s.functions.find? (fun e => e.1 == id) = some (id, k)) (hfresh : Fresh g id s)
    (hknown : ∀ x ∈ s.functions, x.2 < s.cursor.module.functionTable.size)
    (h : body g id s = .ok u t) :
    t.cursor.module.Sound (k + 1) ∧ Later k s.cursor.module t.cursor.module ∧
      t.functions = s.functions ∧
      (∀ p, ¬g.Under id p.node → portValue t.values p = portValue s.values p) ∧
      Filled g s.functions id k t.cursor.module := by
  obtain ⟨f, vs, s', hf, hreg, hlen, ht⟩ := body_ok h
  rw [hfind] at hf
  cases hf
  have hr := entry_ready hm hk hn
  generalize hb : s.cursor.module.blockTable.size = b at hreg hr
  generalize hs0 : (s.addBlock k "entry").moveTo b = s0 at hreg hr
  have hblock : s0.cursor.block = b := by rw [← hs0]; rfl
  have hmodule : s0.cursor.module = (s.cursor.module.addBlock k "entry").2 := by rw [← hs0]; rfl
  have hvalues : s0.values = s.values := by rw [← hs0]; rfl
  have hfuncs : s0.functions = s.functions := by rw [← hs0]; rfl
  have hw0 : s.cursor.module.Within s0.cursor.module := hmodule ▸ Cursor.addBlock_within _ _ _
  have hin : Advances (k + 1) (g.Under id) s0 s' := region_advances ha _ _ _ _ _ _ hr hreg
  have hout : Advances (k + 1) (g.Under id) s' t := by
    rw [ht]
    exact append_advances hin.ready (returning_ne_phi vs)
  have hall := hin.trans hout
  have hself : Cursor.Fits s0.cursor t.cursor t.cursor.module :=
    ⟨.refl _, fun _ _ _ _ => rfl, [], by simp, by simp⟩
  have hempty : (s0.cursor.module.block s0.cursor.block).instrs = [] := by
    rw [hblock, hmodule, ← hb]
    exact Module.addBlock_new_instrs ..
  have hhead : (t.cursor.module.func k).blocks.head? = some s0.cursor.block := by
    have hk0 : k < s0.cursor.module.functionTable.size := Nat.lt_of_lt_of_le hk hw0.funcs
    obtain ⟨more, hmore⟩ := hall.grows.within.funcBlocks k hk0
    rw [hmore, hmodule, Module.addBlock_func, if_pos ⟨rfl, hk⟩, hm.bare k (Nat.le_refl k), hb, hblock]
    rfl
  have hparent0 : (s0.cursor.module.block s0.cursor.block).parent = some k := by
    rw [hblock, hmodule, ← hb]
    exact Module.addBlock_new_parent ..
  have hlast : s0.cursor.module.blockTable.size = s0.cursor.block + 1 := by
    rw [hmodule, Module.addBlock_blocks_size, hblock, hb]
  have hlt0 : s0.cursor.block < s0.cursor.module.blockTable.size := hr.block
  have hparent : (t.cursor.module.block s0.cursor.block).parent = some k := by
    rw [hall.grows.within.parent _ hlt0]
    exact hparent0
  have hadded : ∀ x : Nat, s.cursor.module.blockTable.size ≤ x →
      x < t.cursor.module.blockTable.size → (t.cursor.module.block x).parent = some k := by
    intro x hge hlt
    rcases Nat.lt_or_ge x s0.cursor.module.blockTable.size with hx | hx
    · rw [hlast, hblock] at hx
      obtain rfl : x = b := Nat.le_antisymm (Nat.le_of_lt_succ hx) (hb ▸ hge)
      rw [← hblock]
      exact hparent
    · rw [hall.grows.added x hx hlt]
      exact hparent0
  have hkept : ∀ x : Nat, x < s.cursor.module.blockTable.size →
      t.cursor.module.block x = s.cursor.module.block x := by
    intro x hx
    have hx0 : x < s0.cursor.module.blockTable.size := Nat.lt_of_lt_of_le hx hw0.blocks
    rw [hall.grows.others x hx0 (by rw [hblock, ← hb]; exact Nat.ne_of_lt hx), hmodule,
      Module.addBlock_block _ _ _ x hx]
  refine ⟨hall.ready.sound, ⟨hw0.trans hall.grows.within, hkept, hadded⟩,
    hall.functions.trans hfuncs, ?_, k + 1, s0, s', vs, ?_⟩
  · intro p hp
    rw [hall.values p hp, hvalues]
  · refine ⟨hreg, hr, hempty, hfuncs, ?_, hlen, ht ▸ hall.ready, ht ▸ hself, hhead, hparent, hlast,
      ?_, fun x _ => by rw [ht], fun x hx => Nat.lt_of_lt_of_le (hknown x hx) hw0.funcs⟩
    · intro p hp
      rw [hvalues]
      exact hfresh p hp
    · intro x hx
      have hlt : x < t.cursor.module.blockTable.size :=
        hall.ready.sound.linked.block_lt ((hall.ready.sound.linked.block k x).2 hx)
      rcases Nat.lt_or_ge x s.cursor.module.blockTable.size with hold | hnew
      · rw [hkept x hold] at hx
        have hmem := (hm.linked.block k x).2 hx
        rw [hm.bare k (Nat.le_refl k)] at hmem
        cases hmem
      · refine ⟨by rw [hblock, ← hb]; exact hnew, ?_⟩
        rw [ht] at hlt
        simpa [State.append] using hlt

theorem bodies_filled (ha : g.Arena) {base : State} (hd : Defined g plain ids base)
    (htop : ∀ id ∈ ids, ∃ n, g.node? id = some n ∧ n.kind = .funcDefn ∧ n.parent = some root)
    {done rest : List NodeId} (hids : ids = done ++ rest) (hnodup : ids.Nodup) (hfs : s.functions = base.functions)
    (hlater : base.cursor.module.Within s.cursor.module) (hm : s.cursor.module.Sound done.length)
    (hdone : ∀ (j : Nat) id, done[j]? = some id → Filled g base.functions id j s.cursor.module)
    (hfresh : ∀ id ∈ rest, Fresh g id s)
    (h : rest.forM (fun id => inContext (functionContext g id) (body g id)) s = .ok u t) :
    base.cursor.module.Within t.cursor.module ∧ t.cursor.module.Sound ids.length ∧
      t.functions = base.functions ∧
      ∀ (j : Nat) id, ids[j]? = some id → Filled g base.functions id j t.cursor.module := by
  induction rest generalizing done s with
  | nil =>
    rw [forM_nil_ok.1 h]
    rw [append_nil] at hids
    subst hids
    exact ⟨hlater, hm, hfs, hdone⟩
  | cons id rest ih =>
    obtain ⟨s1, hbody, hrest⟩ := forM_cons_ok.1 h
    have hj : ids[done.length]? = some id := by simp [hids]
    have hlt := hd.lt hj
    obtain ⟨hm1, hl1, hf1, hv1, hfill⟩ := body_filled ha hm
      (Nat.lt_of_lt_of_le hlt hlater.funcs)
      (by rw [hlater.funcName _ hlt]; exact hd.named _ hlt) (hfs ▸ hd.found _ id hj) (hfresh id (by simp))
      (fun x hx => Nat.lt_of_lt_of_le (hd.lt (hd.entries x (hfs ▸ hx))) hlater.funcs)
      (inContext_ok.1 hbody)
    refine ih (show ids = (done ++ [id]) ++ rest by simp [hids]) (hf1.trans hfs)
      (hlater.trans hl1.within) (by simpa using hm1) ?_ ?_ hrest
    · intro j x hx
      obtain hx | ⟨rfl, rfl⟩ := getElem?_concat hx
      · have hjlt := (List.getElem?_eq_some_iff.1 hx).1
        exact (hdone j x hx).later hm (Nat.lt_trans hjlt (Nat.lt_of_lt_of_le hlt hlater.funcs))
          (Nat.ne_of_lt hjlt) hl1
      · exact hfs ▸ hfill
    · intro x hx p hp
      obtain ⟨n, hn, -, hpar⟩ := htop id (by simp [hids])
      obtain ⟨nx, hnx, -, hparx⟩ := htop x (by simp [hids, hx])
      have hne : id ≠ x := by
        rintro rfl
        rw [hids] at hnodup
        have := (nodup_append.1 hnodup).2.1
        exact (nodup_cons.1 this).1 hx
      rw [hv1 p, hfresh x (by simp [hx]) p hp]
      intro hpid
      exact under_siblings_disjoint ha hne hn hpar hnx hparx hpid hp

/-- What a successful emission into an empty module leaves. -/
structure Emits (g : Graph) (plain : Bool) (fs : List (NodeId × FuncId)) (ids : List NodeId)
    (m : Module) : Prop extends Listed g plain fs ids m where
  sound : m.Sound ids.length
  filled : ∀ (j : Nat) id, ids[j]? = some id → Filled g fs id j m

theorem defined_nil (name triple layout : String) :
    Defined g plain [] { cursor := ⟨withHandles { name, triple, layout }, 0⟩ } where
  count := by simp [withHandles, Module.opaqueType]
  noValue := rfl
  sound :=
    { indexed := by constructor <;> simp [withHandles, Module.opaqueType, Finds]
      placed := by simp [withHandles, Module.opaqueType]
      homed := by simp [withHandles, Module.opaqueType]
      listed := fun _ _ h => absurd h not_mem_nil
      count := Nat.zero_le _
      named := fun f hf => absurd hf (Nat.not_lt_zero f)
      bare := fun _ _ => rfl
      functions := by simp [withHandles, Module.opaqueType]
      owned := fun _ => rfl
      linked := (Module.Linked.new name).congr (fun _ => rfl) (fun _ => rfl) (fun _ => rfl)
        fun _ => rfl
      rising := fun _ => .nil }
  named f h := by simp [withHandles, Module.opaqueType] at h
  found j id h := by simp at h
  symbol j id h := by simp at h
  proto j id h := by simp at h
  entries e he := by simp at he

theorem functions_ok (h : g.functions = .ok ids) :
    ∃ m, g.node? root = some m ∧ ids = m.children.filter (fun id => g.kind? id == some .funcDefn) := by
  unfold functions at h
  cases hm : g.node? root with
  | none => simp [hm] at h
  | some m =>
    rw [hm] at h
    dsimp only at h
    split at h
    · cases h
    · cases h
      exact ⟨m, rfl, rfl⟩

theorem ok_bind {α β : Type} (a : α) (f : α → Except Failure β) : (Except.ok a >>= f) = f a := rfl

variable {name triple layout : String} {e : Emitted}

theorem emit_rounds (ha : g.Arena) (h : g.emit plain { name, triple, layout } = .ok e) :
    ∃ ids base t, g.functions = .ok ids ∧ ids.Nodup ∧
      (∀ id ∈ ids, ∃ n, g.node? id = some n ∧ n.kind = .funcDefn ∧ n.parent = some root) ∧
      Defined g plain ids base ∧
      ids.forM (fun id => inContext (functionContext g id) (body g id)) base = .ok () t ∧
      e = ⟨t.cursor.module, t.functions.length,
        (t.functions.find? fun x => g.nameOf x.1 == entryName).map (·.2), t.operations⟩ := by
  unfold emit at h
  cases hids : g.functions with
  | error e' =>
    rw [hids] at h
    cases h
  | ok ids =>
    rw [hids, ok_bind] at h
    dsimp only at h
    split at h
    · cases h
    rename_i t hsteps
    cases h
    obtain ⟨m, hm, hfilter⟩ := functions_ok hids
    have hnodup : ids.Nodup := hfilter ▸ (ha.nodup root m hm).filter _
    obtain ⟨_, base, hdef, hbodies⟩ := bind_ok.1 hsteps
    have hd := defined_all (defined_nil name triple layout) hnodup hdef
    refine ⟨ids, base, t, rfl, hnodup, ?_, by simpa using hd, hbodies, rfl⟩
    intro id hid
    rw [hfilter, mem_filter, beq_iff_eq] at hid
    obtain ⟨k, hh⟩ := ha.child root m id hm hid.1
    have hk := hid.2
    rw [kind?_of_node hh.node] at hk
    exact ⟨k, hh.node, Option.some.inj hk, hh.parent⟩

theorem filled_all (ha : g.Arena) {base : State} (hd : Defined g plain ids base)
    (hnodup : ids.Nodup)
    (htop : ∀ id ∈ ids, ∃ n, g.node? id = some n ∧ n.kind = .funcDefn ∧ n.parent = some root)
    (h : ids.forM (fun id => inContext (functionContext g id) (body g id)) base = .ok u t) :
    t.functions = base.functions ∧ Emits g plain base.functions ids t.cursor.module := by
  obtain ⟨hw, hsound, hfs, hfilled⟩ := bodies_filled ha hd htop (nil_append ids).symm hnodup
    rfl (.refl _) hd.sound (by simp) (fun id _ p _ => by rw [hd.noValue]; rfl) h
  refine ⟨hfs, { hd.toListed with symbol := ?_, proto := ?_ }, hsound, hfilled⟩
  · exact fun j id hj => hw.found _ _ (hd.symbol j id hj)
  · intro j id hj
    rw [hw.funcProto j (hd.lt hj)]
    exact hd.proto j id hj

theorem emit_emits (ha : g.Arena) (h : g.emit plain { name, triple, layout } = .ok e) :
    ∃ fs ids, g.functions = .ok ids ∧ Emits g plain fs ids e.module := by
  obtain ⟨ids, base, t, hids, hnodup, htop, hd, hbodies, rfl⟩ := emit_rounds ha h
  exact ⟨_, ids, hids, (filled_all ha hd hnodup htop hbodies).2⟩

theorem emit_single (ha : g.Arena) {main : NodeId} (hids : g.functions = .ok [main])
    (hmain : g.nameOf main = entryName) (h : g.emit plain { name, triple, layout } = .ok e) :
    ∃ f, e.module.definitions = [f] ∧ e.entry = some f ∧
      (e.module.func f).name = symbolName plain main (g.nameOf main) := by
  obtain ⟨ids, base, t, hids', hnodup, htop, hd, hbodies, rfl⟩ := emit_rounds ha h
  cases hids.symm.trans hids'
  obtain ⟨hfs, hem⟩ := filled_all ha hd hnodup htop hbodies
  refine ⟨0, ?_, ?_, (hem.sound.symbols _ _ (hem.symbol 0 main rfl)).2⟩
  · obtain ⟨_, _, _, _, hspans⟩ := (hem.filled 0 main rfl).spans
    have hhead := hspans.head
    have hpos : 0 < t.cursor.module.functionTable.size := hem.sound.count
    obtain ⟨n, hn⟩ : ∃ n, t.cursor.module.functionTable.size = n + 1 :=
      Nat.exists_eq_add_one.2 hpos
    have hzero : (t.cursor.module.func 0).isDeclaration = false := by
      cases hb : (t.cursor.module.func 0).blocks with
      | nil => simp [hb] at hhead
      | cons b bs => simp [Function.isDeclaration, hb]
    have hrest : ((range n).map Nat.succ).filter
        (fun f => !(t.cursor.module.func f).isDeclaration) = [] := by
      rw [filter_eq_nil_iff]
      intro f hf
      obtain ⟨k, -, rfl⟩ := mem_map.1 hf
      simp [Function.isDeclaration, hem.sound.bare (k + 1) (Nat.succ_le_succ (Nat.zero_le k))]
    rw [Module.definitions, hem.sound.functions, hn, range_succ_eq_map,
      filter_cons_of_pos (by simp [hzero]), hrest]
  · have hfind := hd.found 0 main rfl
    rw [hfs]
    cases hb : base.functions with
    | nil => simp [hb] at hfind
    | cons x xs =>
      have hx := hd.entries x (by simp [hb])
      obtain ⟨id, j⟩ := x
      cases j with
      | zero =>
        cases hx
        simp [hmain]
      | succ j => simp at hx

end Qirc.Emission
