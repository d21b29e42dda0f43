import Qirc.Proofs.IR.Branches.Reroute
import Qirc.Proofs.IR.Replacement

/-!
# Joining a block to its only predecessor

A block without phis whose only predecessor ends in a plain branch to it is appended to that
predecessor, and the phis at its targets take from the predecessor instead. `Spliced` says what each
entry of the module is after that.
-/

namespace Qirc.IR

open List Step

def Instr.renamed (source target : BlockId) (x : Instr) : Instr :=
  { x with blocks := x.blocks.map (fun c => if c = some source then some target else c) }

namespace Module

section MoveInstrs

variable (m : Module) (source target : BlockId)

theorem moveInstrs_eq :
    m.moveInstrs source target =
      ((m.updateEach (fun x => { x with parent := some target }) (m.block source).instrs).updateBlock
        target (fun x => { x with instrs := x.instrs ++ (m.block source).instrs })).updateBlock
        source (fun x => { x with instrs := [] }) := rfl

theorem moveInstrs_instr (i : InstrId) :
    (m.moveInstrs source target).instr i =
      if i ∈ (m.block source).instrs ∧ i < m.instrTable.size then
        { m.instr i with parent := some target }
      else m.instr i := by
  rw [moveInstrs_eq, updateBlock_instr, updateBlock_instr, updateEach_instr]
  exact fun _ => rfl

@[simp] theorem moveInstrs_func (f : FuncId) : (m.moveInstrs source target).func f = m.func f := by
  rw [moveInstrs_eq, updateBlock_func, updateBlock_func, updateEach_func]

theorem moveInstrs_block {source target : Nat} (hne : target ≠ source)
    (hs : source < m.blockTable.size) (ht : target < m.blockTable.size) (c : BlockId) :
    (m.moveInstrs source target).block c =
      if c = target then
        { m.block c with instrs := (m.block c).instrs ++ (m.block source).instrs }
      else if c = source then { m.block c with instrs := [] } else m.block c := by
  rw [moveInstrs_eq]
  split
  · rename_i hc
    rw [hc, updateBlock_of_ne _ _ hne, updateBlock_self _ _ (by rwa [updateEach_blocks_size]),
      updateEach_block]
  rename_i hct
  split
  · rename_i hc
    rw [hc, updateBlock_self _ _ (by rwa [updateBlock_size, updateEach_blocks_size]),
      updateBlock_of_ne _ _ (Ne.symm hne), updateEach_block]
  · rename_i hcs
    rw [updateBlock_of_ne _ _ hcs, updateBlock_of_ne _ _ hct, updateEach_block]

theorem moveInstrs_size : (m.moveInstrs source target).instrTable.size = m.instrTable.size := by
  exact updateEach_size ..

theorem moveInstrs_globals : SameGlobals m (m.moveInstrs source target) :=
  { SameGlobals.of_instrs (updateEach_eq m ..) with }

end MoveInstrs

/-! ## The function afterwards -/

variable {m m' : Module} {f : FuncId} {e p b c : BlockId} {t x : InstrId}

/-- A block with one predecessor, which ends in a plain branch. -/
structure Joint (m : Module) (f : FuncId) (e p b : BlockId) (t : InstrId) : Prop where
  block : b ∈ (m.func f).blocks
  preds : m.predecessors f b = [p]
  ne : p ≠ b
  ended : m.terminator? p = some t
  op : (m.instr t).op = .br
  reached : Reached m.successors e b

section Joint

variable (hf : m.Formed f e) (hj : Joint m f e p b t)

include hj

theorem Joint.pred : p ∈ (m.func f).blocks ∧ some b ∈ m.targets p := by
  rw [← mem_predecessors, hj.preds]
  exact mem_cons_self

theorem Joint.eq_of_target (hc : c ∈ (m.func f).blocks) (h : some b ∈ m.targets c) : c = p := by
  have hmem : c ∈ m.predecessors f b := mem_predecessors.2 ⟨hc, h⟩
  rwa [hj.preds, mem_singleton] at hmem

include hf

theorem Joint.targets : m.targets p = [some b] := by
  obtain ⟨hp, hb⟩ := hj.pred
  have htyped := hf.typed p hp t (terminator?_mem hj.ended) (by simp [hj.op])
  unfold instrDefect? at htyped
  rw [hj.op] at htyped
  rw [targets_of_terminator hj.ended] at hb ⊢
  dsimp only at htyped
  split at htyped
  · rename_i hlen
    obtain ⟨s, hs⟩ := length_eq_one_iff.1 hlen
    rw [hs, mem_singleton] at hb
    rw [hs, hb]
  · cases htyped

theorem Joint.ne_entry : b ≠ e := hf.ne_entry hj.pred.1 (mem_successors.2 hj.pred.2)

theorem Joint.first {u : BlockId} (hu : Walk m.successors (· ≠ b) e u)
    (hb : b ∈ m.successors u) : u = p :=
  hj.eq_of_target (hf.mem_of_reached (hu.mono fun _ _ => trivial)) (mem_successors.1 hb)

theorem Joint.walk : Walk m.successors (· ≠ b) e p := by
  obtain ⟨d, hd, -, hde | ⟨u, hu, hn⟩⟩ := Walk.hit (· = b) hj.reached rfl
  · exact absurd (hd.symm.trans hde) (hj.ne_entry hf)
  have hu' : Walk m.successors (· ≠ b) e u := hu.mono fun _ hx => hx.2
  rw [hd] at hn
  rwa [hj.first hf hu' hn] at hu'

theorem Joint.not_dominates : ¬Dominates m.successors e b p := fun h => h (hj.walk hf)

theorem Joint.pred_reached : Reached m.successors e p := (hj.walk hf).mono fun _ _ => trivial

end Joint

/-- The block of an instruction once a block has taken the place of the branch `t` to it. -/
def rehomed (m : Module) (p b : BlockId) (t x : InstrId) : Option BlockId :=
  if x = t then none else if x ∈ (m.block b).instrs then some p else (m.instr x).parent

/-- A module after the instructions of a block took the place of the branch to it. -/
structure Moved (m : Module) (p b : BlockId) (t : InstrId) (m' : Module) : Prop
    extends SameGlobals m m' where
  func : ∀ g, m'.func g = m.func g
  size : m'.instrTable.size = m.instrTable.size
  block : ∀ c, m'.block c =
    if c = p then { m.block c with instrs := (m.block c).instrs.erase t ++ (m.block b).instrs }
    else if c = b then { m.block c with instrs := [] } else m.block c
  instr : ∀ x, m'.instr x = { m.instr x with parent := m.rehomed p b t x }

/-- A module after a block without phis was appended to its only predecessor. -/
structure Spliced (m : Module) (f : FuncId) (p b : BlockId) (t : InstrId) (m' : Module) : Prop
    extends SameGlobals m m' where
  func : ∀ g, m'.func g =
    if g = f then { m.func g with blocks := (m.func g).blocks.filter (· != b) } else m.func g
  block : ∀ c, m'.block c =
    if c = p then { m.block c with instrs := (m.block c).instrs.erase t ++ (m.block b).instrs }
    else if c = b then { m.block c with instrs := [], parent := none } else m.block c
  instr : ∀ x, m'.instr x = { m.instr x with
    blocks := if x ∈ m.body f ∧ (m.instr x).op = .phi then ((m.instr x).renamed b p).blocks
      else (m.instr x).blocks
    parent := m.rehomed p b t x }

def splice (f : FuncId) (p b : BlockId) : Step Module Unit := do
  modify (fun m => match m.terminator? p with
    | some t => m.erase t
    | none => m)
  modify (fun m => m.moveInstrs b p)
  let m ← get
  renameIncoming b p (m.targets p)
  modify (fun m => m.removeBlock f b)

theorem Instr.renamed_renamed (source target : BlockId) (x : Instr) :
    (x.renamed source target).renamed source target = x.renamed source target := by
  unfold Instr.renamed
  simp only [map_map]
  congr 1
  refine map_congr_left fun c _ => ?_
  split <;> simp_all

theorem renameIncoming_ok {source target : BlockId} {ts : List (Option BlockId)} (hts : none ∉ ts) :
    renameIncoming source target ts m = .ok () (m.atTargets (·.renamed source target) ts) := by
  induction ts generalizing m with
  | nil => rfl
  | cons t ts ih =>
    rw [mem_cons, not_or] at hts
    cases t with
    | none => exact absurd rfl hts.1
    | some d => exact bind_ok.2 ⟨⟨⟩, _, modify_ok.2 rfl, ih hts.2⟩

theorem getLast?_append_of_ne_nil {l l' : List InstrId} (h : l' ≠ []) :
    (l ++ l').getLast? = l'.getLast? := by
  rw [getLast?_append]
  cases h' : l'.getLast? with
  | none => exact absurd (getLast?_eq_none_iff.1 h') h
  | some => rfl

theorem renamed_of_not_target (hf : m.Formed f e) (hc : c ∈ (m.func f).blocks)
    (hx : x ∈ (m.block c).instrs) (hop : (m.instr x).op = .phi) (hb : some c ∉ m.targets b) :
    (m.instr x).renamed b p = m.instr x := by
  have hmap : (m.instr x).blocks.map (fun c => if c = some b then some p else c) =
      (m.instr x).blocks := by
    refine (map_congr_left fun d hd => ?_).trans (map_id _)
    rw [if_neg, id]
    rintro rfl
    obtain ⟨q, hq, hqb⟩ := mem_map.1 ((hf.phis c hc x hx hop).blocks.mem_iff.1 hd)
    cases hqb
    exact hb (mem_predecessors.1 hq).2
  unfold Instr.renamed
  rw [hmap]

section Splicing

variable (hl : m.Linked) (hf : m.Formed f e) (hj : Joint m f e p b t) (hphi : m.phis b = [])

include hl hf hj

omit hf in
theorem Joint.instrs : (m.block p).instrs = (m.block p).instrs.erase t ++ [t] := by
  obtain ⟨l, hlast⟩ := getLast?_eq_some_iff.1 (terminator?_eq_some.1 hj.ended).1
  have hnd := hl.instrs p
  rw [hlast] at hnd ⊢
  have hnot : t ∉ l := by
    rw [nodup_append] at hnd
    exact fun h => hnd.2.2 t h t mem_cons_self rfl
  rw [erase_append_right _ hnot]
  simp

omit hl hf in
theorem Joint.self_not_target : some b ∉ m.targets b := fun h =>
  hj.ne (hj.eq_of_target hj.block h).symm

omit hf in
theorem Joint.moved : Moved m p b t ((m.erase t).moveInstrs b p) := by
  have htp : (m.instr t).parent = some p := (hl.instr p t).1 (terminator?_mem hj.ended)
  have hpl : p < (m.erase t).blockTable.size := by
    rw [erase_blocks_size]
    exact hl.block_lt hj.pred.1
  have hbl : b < (m.erase t).blockTable.size := by
    rw [erase_blocks_size]
    exact hl.block_lt hj.block
  have htb : t ∉ (m.block b).instrs := fun h =>
    hj.ne (hl.block_unique (terminator?_mem hj.ended) h)
  have hb : (m.erase t).block b = m.block b := by
    rw [erase_block, htp, if_neg fun h => hj.ne (Option.some.inj h)]
  refine ⟨(erase_globals m t).trans (moveInstrs_globals ..), fun g => ?_, ?_, fun c => ?_,
    fun x => ?_⟩
  · rw [moveInstrs_func, erase_func]
  · rw [moveInstrs_size, erase_size]
  · rw [moveInstrs_block _ hj.ne hbl hpl, hb, erase_block, htp]
    by_cases hcp : c = p
    · simp [hcp]
    · rw [if_neg hcp, if_neg hcp, if_neg fun h => hcp (Option.some.inj h).symm]
  rw [moveInstrs_instr, hb, erase_size, erase_instr, rehomed]
  by_cases hx : x ∈ (m.block b).instrs
  · have hxt : x ≠ t := fun h => htb (h ▸ hx)
    rw [if_pos ⟨hx, hl.instr_lt hx⟩, if_pos hx, if_neg hxt, if_neg hxt]
  · rw [if_neg fun h => hx h.1, if_neg hx]
    split <;> rfl

omit hl in
theorem Moved.targets (hm : Moved m p b t m') : m'.targets p = m.targets b := by
  obtain ⟨s, hs⟩ := hf.ended b hj.block
  have hne : (m.block b).instrs ≠ [] := ne_nil_of_mem (terminator?_mem hs)
  have hterm : m'.terminator? p = some s := by
    rw [terminator?_eq_some, hm.block, if_pos rfl, hm.instr]
    refine ⟨?_, (terminator?_eq_some.1 hs).2⟩
    exact (getLast?_append_of_ne_nil hne).trans (terminator?_eq_some.1 hs).1
  rw [targets_of_terminator hterm, targets_of_terminator hs, hm.instr]

include hphi

omit hf in
theorem Moved.phis (hm : Moved m p b t m') (hcb : c ≠ b) : m'.phis c = m.phis c := by
  unfold Module.phis
  simp only [hm.instr]
  rw [hm.block]
  by_cases hcp : c = p
  · subst hcp
    have hnil : (m.block b).instrs.takeWhile (fun i => (m.instr i).op == .phi) = [] := hphi
    rw [if_pos rfl]
    conv => rhs; rw [hj.instrs hl]
    rw [takeWhile_append, takeWhile_append, hnil]
    simp [hj.op]
  · rw [if_neg hcp, if_neg hcb]

theorem splice_ok : ∃ m', splice f p b m = .ok () m' ∧ Spliced m f p b t m' := by
  have hm := hj.moved hl
  have htargets := Moved.targets hf hj hm
  have hphis : ∀ {c}, c ≠ b → ((m.erase t).moveInstrs b p).phis c = m.phis c :=
    Moved.phis hl hj hphi hm
  have hnone := hf.none_not_target hj.block
  have hrun : splice f p b m = .ok () ((((m.erase t).moveInstrs b p).atTargets (·.renamed b p)
      (m.targets b)).removeBlock f b) := by
    refine bind_ok.2 ⟨⟨⟩, m.erase t, modify_ok.2 (by rw [hj.ended]), ?_⟩
    refine bind_ok.2 ⟨⟨⟩, (m.erase t).moveInstrs b p, modify_ok.2 rfl, ?_⟩
    refine bind_ok.2 ⟨_, _, rfl, ?_⟩
    rw [htargets]
    exact bind_ok.2 ⟨(), _, renameIncoming_ok hnone, modify_ok.2 rfl⟩
  refine ⟨_, hrun, ?_⟩
  generalize (m.erase t).moveInstrs b p = m₃ at *
  have hbc : ∀ {c}, some c ∈ m.targets b → c ≠ b := by
    rintro c hc rfl
    exact hj.self_not_target hc
  have hkeep : ∀ x, (∀ c, some c ∈ m.targets b → x ∉ m.phis c) →
      (m₃.atTargets (·.renamed b p) (m.targets b)).instr x = m₃.instr x := by
    intro x hx
    refine atTargets_of_not_mem m₃ (·.renamed b p) (fun _ => rfl)
      (fun _ => Instr.renamed_renamed b p _) fun c hc => ?_
    rw [hphis (hbc hc)]
    exact hx c hc
  refine ⟨{ hm.toSameGlobals.trans (.of_instrs (atTargets_eq m₃ ..)) with }, fun g => ?_,
    fun c => ?_, fun x => ?_⟩
  · rw [removeBlock_func, atTargets_func, hm.func]
  · rw [removeBlock_block, atTargets_block, hm.block]
    by_cases hcp : c = p
    · rw [if_pos hcp, if_pos hcp, if_neg (hcp ▸ hj.ne)]
    · rw [if_neg hcp, if_neg hcp]
      split <;> rfl
  rw [removeBlock_instr]
  by_cases hx : x ∈ m.body f ∧ (m.instr x).op = .phi
  · obtain ⟨c, hc, hxc⟩ := mem_flatMap.1 hx.1
    rw [if_pos hx]
    by_cases htarget : some c ∈ m.targets b
    · rw [atTargets_of_mem m₃ (·.renamed b p) (fun _ => rfl)
        (fun _ => Instr.renamed_renamed b p _) htarget
        (by rw [hphis (hbc htarget)]; exact (hf.mem_phis hc).2 ⟨hxc, hx.2⟩)
        (by rw [hm.size]; exact hl.instr_lt hxc), hm.instr]
      rfl
    · rw [hkeep x fun d hd hxd => htarget (hl.block_unique hxc (mem_of_mem_phis hxd) ▸ hd),
        renamed_of_not_target hf hc hxc hx.2 htarget, hm.instr]
  · rw [if_neg hx, hkeep x fun c hc hxc => hx ⟨hl.mem_body_of_mem
      (hf.closed hj.block (mem_successors.2 hc)) (mem_of_mem_phis hxc), op_of_mem_phis hxc⟩, hm.instr]

end Splicing

end Module

end Qirc.IR
