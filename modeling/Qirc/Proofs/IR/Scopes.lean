import Qirc.Proofs.IR.Places

/-!
# What was run before

Control goes along an edge only if every phi of the block it leads to has a value for it. Over these
edges one instruction comes before another when no way leads to the second without the first. A fact
about a result and the values that were there before it outlives every step that does not run the
instruction once more.
-/

namespace Qirc.IR.Module

open List

section Definitions

variable (m : Module) (e : BlockId)

/-- The successors of a block whose phis have a value for it. -/
def served (b : BlockId) : List BlockId :=
  (m.successors b).filter (fun c => (m.phis c).all (fun x => (m.incoming? x b).isSome))

/-- No way along served edges leads to an instruction without another one. -/
def Before (j i : InstrId) : Prop :=
  ∃ h b, (m.instr j).parent = some h ∧ (m.instr i).parent = some b ∧
    ((h = b ∧ [j, i].Sublist (m.block b).instrs) ∨ (h ≠ b ∧ Dominates m.served e h b))

def Past (j : InstrId) (u : BlockId) : Prop :=
  ∃ h, (m.instr j).parent = some h ∧ Dominates m.served e h u

def Settled (j : InstrId) (fr : Frame) : Prop :=
  ∃ h, (m.instr j).parent = some h ∧
    ((h = fr.block ∧ j ∉ fr.rest) ∨ (h ≠ fr.block ∧ Dominates m.served e h fr.block))

structure Placed (fr : Frame) : Prop where
  reached : Reached m.served e fr.block
  ahead : fr.rest <:+ m.code fr.block

end Definitions

variable {m : Module} {f : FuncId} {e b c u : BlockId} {i j k t : InstrId} {fr : Frame}
  {rest : List InstrId} {regs regs' : Registers} {args : List Datum} {v : Value}

theorem served_successors (h : c ∈ m.served b) : c ∈ m.successors b := (mem_filter.1 h).1

theorem served_incoming (h : c ∈ m.served b) (hx : i ∈ m.phis c) : ∃ v, m.incoming? i b = some v :=
  Option.isSome_iff_exists.1 (all_eq_true.1 (mem_filter.1 h).2 i hx)

theorem dominates_served (h : Dominates m.successors e b c) : Dominates m.served e b c :=
  fun hw => h (hw.along fun _ _ _ hy => served_successors hy)

theorem incoming?_mem (h : m.incoming? i b = some v) :
    (v, some b) ∈ (m.instr i).operands.zip (m.instr i).blocks := by
  obtain ⟨⟨w, s⟩, hfind, rfl⟩ := Option.map_eq_some_iff.1 h
  have hs := find?_some hfind
  rw [beq_iff_eq] at hs
  subst hs
  exact mem_of_find?_eq_some hfind

theorem ne_of_terminator (ht : (m.instr t).op.isTerminator = true)
    (hj : (m.instr j).op.isTerminator = false) : j ≠ t := by
  rintro rfl
  rw [ht] at hj
  cases hj

/-! ## The order -/

theorem Before.past (h : m.Before e j i) (h' : m.Past e i u) : m.Past e j u := by
  obtain ⟨d, c, hj, hi, h⟩ := h
  obtain ⟨c', hi', h'⟩ := h'
  cases hi.symm.trans hi'
  refine ⟨d, hj, ?_⟩
  obtain ⟨rfl, -⟩ | ⟨-, h⟩ := h
  · exact h'
  · exact h.trans h'

section Order

variable (hl : m.Linked)

include hl

theorem Before.trans (h : m.Before e j i) (h' : m.Before e i k)
    (hb : (m.instr k).parent = some b) (hr : Reached m.served e b) : m.Before e j k := by
  obtain ⟨d, c, hj, hi, h⟩ := h
  obtain ⟨c', b, hi', hkb, h'⟩ := h'
  cases hi.symm.trans hi'
  cases hb.symm.trans hkb
  refine ⟨d, b, hj, hkb, ?_⟩
  obtain ⟨rfl, hik⟩ | ⟨hcb, hdom⟩ := h'
  · obtain ⟨rfl, hji⟩ | h := h
    · exact .inl ⟨rfl, pair_sublist_trans (hl.instrs d) hji hik⟩
    · exact .inr h
  · obtain ⟨rfl, -⟩ | ⟨hdc, h⟩ := h
    · exact .inr ⟨hcb, hdom⟩
    refine .inr ⟨?_, h.trans hdom⟩
    rintro rfl
    exact hcb (hdom.antisymm h hr)

theorem Before.irrefl : ¬m.Before e i i := by
  rintro ⟨d, b, hd, hb, ⟨-, hs⟩ | ⟨hne, -⟩⟩
  · exact absurd (hs.nodup (hl.instrs b)) (by simp)
  · exact hne (Option.some.inj (hd.symm.trans hb))

section

variable (hp : m.Placed e fr)

include hp

theorem Placed.not_ahead (hs : [j, i].Sublist (m.block fr.block).instrs)
    (hi : i ∉ fr.rest) : j ∉ fr.rest := by
  intro hj
  obtain ⟨front, hfront⟩ := hp.ahead.trans (code_suffix m fr.block)
  have hnd := hl.instrs fr.block
  rw [← hfront] at hs hnd
  obtain hs | ⟨hj', -⟩ | hs := pair_sublist_append.1 hs
  · exact (nodup_append.1 hnd).2.2 j (hs.subset (by simp)) j hj rfl
  · exact (nodup_append.1 hnd).2.2 j hj' j hj rfl
  · exact hi (hs.subset (by simp))

theorem Settled.before (hi : m.Settled e i fr) (h : m.Before e j i) : m.Settled e j fr := by
  obtain ⟨d, c, hj, hic, h⟩ := h
  obtain ⟨c', hic', hi⟩ := hi
  cases hic.symm.trans hic'
  refine ⟨d, hj, ?_⟩
  obtain ⟨rfl, hnot⟩ | ⟨hcb, hdom⟩ := hi
  · obtain ⟨rfl, hs⟩ | h := h
    · exact .inl ⟨rfl, hp.not_ahead hl hs hnot⟩
    · exact .inr h
  · obtain ⟨rfl, -⟩ | ⟨-, h⟩ := h
    · exact .inr ⟨hcb, hdom⟩
    refine .inr ⟨?_, h.trans hdom⟩
    rintro rfl
    exact hcb (hdom.antisymm h hp.reached)

theorem Before.settled (hr : fr.rest = i :: rest) (h : m.Before e j i) : m.Settled e j fr := by
  obtain ⟨d, b, hj, hb, h⟩ := h
  cases hb.symm.trans ((hl.instr _ _).1 (mem_of_ahead hp.ahead hr))
  refine ⟨d, hj, h.imp_left fun ⟨hd, hs⟩ => ⟨hd, ?_⟩⟩
  obtain ⟨front, hfront⟩ := hp.ahead.trans (code_suffix m fr.block)
  have hnd := hl.instrs fr.block
  rw [← hfront, hr] at hs hnd
  rw [hr]
  intro hmem
  obtain ⟨-, hrest, hapart⟩ := nodup_append.1 hnd
  obtain hs | ⟨hj', -⟩ | hs := pair_sublist_append.1 hs
  · exact hapart i (hs.subset (by simp)) i (by simp) rfl
  · exact hapart j hj' j hmem rfl
  obtain ⟨-, hi'⟩ | hs := pair_sublist_cons.1 hs
  · exact (nodup_cons.1 hrest).1 hi'
  · exact (nodup_cons.1 hrest).1 (hs.subset (by simp))

theorem Settled.not_next (hr : fr.rest = i :: rest) (hj : m.Settled e j fr) : ¬m.Before e i j := by
  intro h
  obtain ⟨d, hd, hi⟩ := hj.before hl hp h
  cases hd.symm.trans ((hl.instr _ _).1 (mem_of_ahead hp.ahead hr))
  obtain ⟨-, hnot⟩ | ⟨hne, -⟩ := hi
  · exact hnot (by simp [hr])
  · exact hne rfl

end

theorem Settled.not_phi (hc : Reached m.served e c) (hj : m.Settled e j ⟨c, m.code c, regs⟩)
    (hnot : j ∉ m.phis c) (hi : i ∈ m.phis c) : ¬m.Before e i j := by
  rintro ⟨h, d, hh, hd, horder⟩
  cases ((hl.instr c i).1 (mem_of_mem_phis hi)).symm.trans hh
  obtain ⟨d', hd', hj⟩ := hj
  cases hd.symm.trans hd'
  obtain ⟨rfl, hahead⟩ | ⟨hdc, hdom⟩ := hj
  · exact (mem_phis_or_code ((hl.instr d j).2 hd)).elim hnot hahead
  · obtain ⟨hcd, -⟩ | ⟨-, h⟩ := horder
    · exact hdc hcd.symm
    · exact hdc (hdom.antisymm h hc)

end Order

/-! ## Accepted functions -/

namespace Admitted

variable (ha : m.Admitted f e)

include ha

theorem mem_of_reached (h : Reached m.served e b) : b ∈ (m.func f).blocks :=
  Walk.carry h ha.entry_mem fun _ _ _ hx hy _ => ha.closed hx (served_successors hy)

theorem before (hl : m.Linked) (hb : b ∈ (m.func f).blocks) (hi : i ∈ (m.block b).instrs)
    (hop : (m.instr i).op ≠ .phi) (hj : .instr j ∈ (m.instr i).operands) : m.Before e j i := by
  obtain ⟨h, hp, horder⟩ := ha.reads b hb i hi hop j hj
  exact ⟨h, b, hp, (hl.instr b i).1 hi, horder.imp_right fun ⟨hne, hd⟩ => ⟨hne, dominates_served hd⟩⟩

theorem past (hc : c ∈ (m.func f).blocks) (hi : i ∈ m.phis c)
    (hj : m.incoming? i u = some (.instr j)) : m.Past e j u := by
  obtain ⟨h, hp, hd⟩ := ha.takes c hc i (mem_of_mem_phis hi) (op_of_mem_phis hi) j u
    (incoming?_mem hj)
  exact ⟨h, hp, dominates_served hd⟩

variable (hp : m.Placed e fr) (hr : fr.rest = t :: rest) (ht : (m.instr t).op.isTerminator = true)

include hp hr ht

theorem rest_of_terminator : rest = [] := by
  cases rest with
  | nil => rfl
  | cons k rest =>
    have hpair : [t, k].Sublist (m.block fr.block).instrs := by
      refine List.Sublist.trans ?_ (hp.ahead.trans (code_suffix m fr.block)).sublist
      rw [hr]
      exact .cons_cons t (.cons_cons k (nil_sublist rest))
    rw [ha.inner _ (ha.mem_of_reached hp.reached) t k hpair] at ht
    cases ht

theorem settled_of_past (hne : j ≠ t) (hj : m.Past e j fr.block) : m.Settled e j fr := by
  obtain ⟨h, hh, hd⟩ := hj
  refine ⟨h, hh, ?_⟩
  by_cases hb : h = fr.block
  · refine .inl ⟨hb, ?_⟩
    rw [hr, ha.rest_of_terminator hp hr ht, mem_singleton]
    exact hne
  · exact .inr ⟨hb, hd⟩

end Admitted

/-! ## Steps -/

def Prior (m : Module) (e : BlockId) (v : Value) (j : InstrId) : Prop :=
  ∀ k, v = .instr k → m.Before e k j

theorem Placed.start (m : Module) (e : BlockId) (regs : Registers) :
    m.Placed e ⟨e, m.code e, regs⟩ := ⟨.entry, suffix_refl _⟩

theorem Placed.step (hp : m.Placed e fr) (hr : fr.rest = i :: rest) :
    m.Placed e ⟨fr.block, rest, regs⟩ :=
  ⟨hp.reached, ((suffix_cons i rest).trans (hr ▸ suffix_refl fr.rest)).trans hp.ahead⟩

theorem Placed.enter (hp : m.Placed e fr) (hc : c ∈ m.served fr.block) :
    m.Placed e (m.enter args fr.regs fr.block c) :=
  ⟨hp.reached.onward hc, suffix_refl _⟩

theorem Settled.of_step (args : List Datum) (hl : m.Linked) (hp : m.Placed e fr)
    (hr : fr.rest = i :: rest)
    (hregs : ∀ k, k ≠ i → regs' k = fr.regs k) (hj : m.Settled e j ⟨fr.block, rest, regs⟩)
    (hne : j ≠ i) : m.Settled e j fr ∧ regs' j = fr.regs j ∧
      ∀ v, m.Prior e v j → m.eval args regs' v = m.eval args fr.regs v := by
  have hj : m.Settled e j fr := by
    obtain ⟨h, hh, horder⟩ := hj
    refine ⟨h, hh, horder.imp_left fun ⟨hb, hnot⟩ => ⟨hb, ?_⟩⟩
    rw [hr, mem_cons, not_or]
    exact ⟨hne, hnot⟩
  refine ⟨hj, hregs j hne, fun v hv => eval_congr (fun _ => rfl) v fun k hk => hregs k ?_⟩
  rintro rfl
  exact hj.not_next hl hp hr (hv k hk)

/-- Entering a block leaves everything as it is that came before something that was run outside of
it. -/
theorem Settled.of_enter (hl : m.Linked) (ha : m.Admitted f e) (hp : m.Placed e fr)
    (hr : fr.rest = t :: rest) (ht : (m.instr t).op.isTerminator = true)
    (hc : c ∈ m.served fr.block) (hj : m.Settled e j (m.enter args fr.regs fr.block c))
    (hjt : j ≠ t) (hne : j ∉ m.phis c) :
    m.Settled e j fr ∧ m.enterRegs args fr.regs fr.block c j = fr.regs j ∧
      ∀ v, m.Prior e v j →
        m.eval args (m.enterRegs args fr.regs fr.block c) v = m.eval args fr.regs v := by
  have hother : ∀ k, k ∉ m.phis c → m.enterRegs args fr.regs fr.block c k = fr.regs k :=
    fun k hk => if_neg hk
  refine ⟨?_, hother j hne, fun v hv => eval_congr (fun _ => rfl) v fun k hk => hother k fun hmem =>
    hj.not_phi hl (hp.reached.onward hc) hne hmem (hv k hk)⟩
  obtain ⟨h, hh, ⟨rfl, hahead⟩ | ⟨hhc, hd⟩⟩ := hj
  · exact ((mem_phis_or_code ((hl.instr _ j).2 hh)).elim hne hahead).elim
  · exact ha.settled_of_past hp hr ht hjt ⟨h, hh, hd.pred hc (Ne.symm hhc)⟩

end Qirc.IR.Module
