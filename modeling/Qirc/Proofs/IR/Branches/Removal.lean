import Qirc.Proofs.IR.Branches.Reroute

/-!
# Removing blocks that cannot be reached

The blocks go one after the other, each after the phis at its targets forgot it. What has happened
is described relative to the function as it was before the first of them went. In the end the blocks
that are left are those that can be reached.
-/

namespace Qirc.IR

open List Step

/-- The entries of a phi that come from none of the blocks. -/
def Instr.withoutAll (x : Instr) (ps : List BlockId) : Instr :=
  ps.foldl (fun x p => x.without (some p)) x

namespace Instr

variable {x : Instr} {ps : List BlockId}

theorem withoutAll_append (x : Instr) (ps qs : List BlockId) :
    x.withoutAll (ps ++ qs) = (x.withoutAll ps).withoutAll qs := foldl_append

theorem withoutAll_eq (x : Instr) (ps : List BlockId) :
    x.withoutAll ps =
      { x with operands := (x.withoutAll ps).operands, blocks := (x.withoutAll ps).blocks } := by
  induction ps generalizing x with
  | nil => rfl
  | cons p ps ih =>
    conv => lhs; rw [withoutAll, foldl_cons, ← withoutAll, ih]
    rfl

theorem withoutAll_length (hlen : x.operands.length = x.blocks.length) :
    (x.withoutAll ps).operands.length = (x.withoutAll ps).blocks.length := by
  induction ps generalizing x with
  | nil => exact hlen
  | cons p ps ih => exact ih without_length

theorem withoutAll_zip (x : Instr) (ps : List BlockId) :
    (x.withoutAll ps).operands.zip (x.withoutAll ps).blocks =
      (x.operands.zip x.blocks).filter (fun e => ∀ p ∈ ps, e.2 ≠ some p) := by
  induction ps generalizing x with
  | nil => simp [withoutAll]
  | cons p ps ih =>
    rw [withoutAll, foldl_cons, ← withoutAll, ih, without_zip, filter_filter]
    refine filter_congr fun e _ => ?_
    rw [Bool.eq_iff_iff, Bool.and_eq_true, decide_eq_true_iff, decide_eq_true_iff,
      decide_eq_true_iff, forall_mem_cons]
    exact and_comm

end Instr

namespace Module

variable {m m' : Module} {f : FuncId} {e b c : BlockId} {x : InstrId}

theorem PhiOk.withoutAll {y : Instr} {preds : List BlockId} (h : PhiOk m y preds)
    (ps : List BlockId) : PhiOk m (y.withoutAll ps) (preds.filter (· ∉ ps)) := by
  induction ps generalizing y preds with
  | nil => simpa [Instr.withoutAll] using h
  | cons p ps ih =>
    have hrest := ih (h.without p)
    rw [filter_filter] at hrest
    have hfilter : preds.filter (· ∉ p :: ps) =
        preds.filter (fun q => decide (q ∉ ps) && decide (q ≠ p)) := by
      refine filter_congr fun q _ => ?_
      rw [Bool.eq_iff_iff, Bool.and_eq_true, decide_eq_true_iff, decide_eq_true_iff,
        decide_eq_true_iff, mem_cons, not_or]
      exact and_comm
    rw [hfilter]
    exact hrest

theorem leaveTargets_ok {b : BlockId} {ts : List (Option BlockId)} (hts : none ∉ ts)
    (hlen : ∀ c x, some c ∈ ts → x ∈ m.phis c →
      (m.instr x).operands.length = (m.instr x).blocks.length) :
    leaveTargets b ts m = .ok () (m.atTargets (·.without (some b)) ts) := by
  induction ts generalizing m with
  | nil => rfl
  | cons t ts ih =>
    rw [mem_cons, not_or] at hts
    cases t with
    | none => exact absurd rfl hts.1
    | some d =>
      have hinstr := updateEach_instr m (·.without (some b)) (fun _ => Instr.without_without)
        (m.phis d)
      refine bind_ok.2 ⟨m, m, rfl, bind_ok.2 ⟨(), _,
        removeIncomingEach_ok fun i hi => hlen d i mem_cons_self hi,
        ih hts.2 fun c x hc hx => ?_⟩⟩
      rw [hinstr]
      split
      · exact Instr.without_length
      rw [updateEach_phis m (·.without (some b)) fun _ => rfl] at hx
      exact hlen c x (mem_cons_of_mem _ hc) hx

/-! ## Removing blocks -/

/-- A module after blocks of a function were removed, one after the other. -/
structure Pruned (m : Module) (f : FuncId) (bs : List BlockId) (m' : Module) : Prop
    extends SameGlobals m m' where
  func : ∀ g, m'.func g =
    if g = f then { m.func g with blocks := (m.func g).blocks.filter (· ∉ bs) } else m.func g
  block : ∀ c, m'.block c = if c ∈ bs then { m.block c with parent := none } else m.block c
  instr : ∀ x, m'.instr x = if x ∈ m.body f ∧ (m.instr x).op = .phi then
    (m.instr x).withoutAll (bs.filter (fun b => (m.instr x).parent ∈ m.targets b)) else m.instr x
  size : m'.instrTable.size = m.instrTable.size

namespace Pruned

theorem refl (m : Module) (f : FuncId) : Pruned m f [] m where
  toSameGlobals := .of_instrs rfl
  func g := by simp
  block c := by simp
  instr x := by simp [Instr.withoutAll]
  size := rfl

variable {bs : List BlockId} (hp : Pruned m f bs m')

include hp

theorem instrs (c : BlockId) : (m'.block c).instrs = (m.block c).instrs := by
  rw [hp.block]
  split <;> rfl

theorem instr_eq (x : InstrId) :
    ∃ vs ts, m'.instr x = { m.instr x with operands := vs, blocks := ts } := by
  rw [hp.instr]
  split
  · rw [Instr.withoutAll_eq]
    exact ⟨_, _, rfl⟩
  · exact ⟨_, _, rfl⟩

theorem same (hop : (m.instr x).op ≠ .phi) : m'.instr x = m.instr x := by
  rw [hp.instr, if_neg fun h => hop h.2]

theorem op (x : InstrId) : (m'.instr x).op = (m.instr x).op := by
  obtain ⟨vs, ts, h⟩ := hp.instr_eq x
  rw [h]

theorem phis (c : BlockId) : m'.phis c = m.phis c := phis_congr hp.instrs hp.op c

theorem terminator? (c : BlockId) : m'.terminator? c = m.terminator? c :=
  terminator?_congr (hp.instrs c) fun i _ => by rw [hp.op]

theorem targets (c : BlockId) : m'.targets c = m.targets c :=
  targets_congr (hp.terminator? c) fun t ht => by rw [hp.same (terminator?_ne_phi ht)]

theorem successors : m'.successors = m.successors := by
  funext c
  unfold Module.successors
  rw [hp.targets]

theorem parent (x : InstrId) : (m'.instr x).parent = (m.instr x).parent := by
  obtain ⟨vs, ts, h⟩ := hp.instr_eq x
  rw [h]

theorem mem_blocks : c ∈ (m'.func f).blocks ↔ c ∈ (m.func f).blocks ∧ c ∉ bs := by
  rw [hp.func, if_pos rfl, mem_filter, decide_eq_true_iff]

variable (hl : m.Linked)

include hl

theorem phi (hc : c ∈ (m.func f).blocks) (hx : x ∈ (m.block c).instrs)
    (hop : (m.instr x).op = .phi) :
    m'.instr x = (m.instr x).withoutAll (bs.filter (fun b => some c ∈ m.targets b)) := by
  rw [hp.instr, if_pos ⟨hl.mem_body_of_mem hc hx, hop⟩, (hl.instr c x).1 hx]

variable (hbs : ∀ b ∈ bs, b ∈ (m.func f).blocks)

include hbs

theorem linked : m'.Linked := by
  constructor
  · intro g c
    rw [hp.block]
    by_cases hg : g = f
    · subst hg
      rw [hp.mem_blocks]
      split
      · rename_i hc
        simp [hc]
      · rename_i hc
        simp [hc, hl.block g c]
    · rw [hp.func, if_neg hg]
      split
      · rename_i hc
        simp only [reduceCtorEq, iff_false]
        exact fun h => hg (hl.func_unique h (hbs c hc))
      · exact hl.block g c
  · intro c i
    rw [hp.instrs, hp.parent]
    exact hl.instr c i
  · intro g
    rw [hp.func]
    split
    · exact (hl.blocks g).filter _
    · exact hl.blocks g
  · intro c
    rw [hp.instrs]
    exact hl.instrs c

theorem edited : Edited f m m' where
  ty i := by
    obtain ⟨vs, ts, h⟩ := hp.instr_eq i
    rw [h]
  proto g := by rw [hp.func]; split <;> rfl
  owned g := by rw [hp.func]; split <;> rfl
  toSameGlobals := hp.toSameGlobals
  otherBlocks g hg := by rw [hp.func, if_neg hg]
  otherBlock g b hg hb := by
    rw [hp.block, if_neg]
    exact fun hb' => hg (hl.func_unique hb (hbs b hb'))
  otherInstr g b i hg hb hi := by
    rw [hp.instr, if_neg]
    rintro ⟨hbody, -⟩
    obtain ⟨c, hc, hic⟩ := mem_flatMap.1 hbody
    exact hg (hl.func_unique hb (hl.block_unique hi hic ▸ hc))

end Pruned

theorem removeBlocks_ok (hl : m.Linked) (hf : m.Formed f e) {gone bs : List BlockId}
    (hp : Pruned m f gone m') (hbs : ∀ b ∈ bs, b ∈ (m.func f).blocks) :
    ∃ m'', removeBlocks f bs m' = .ok () m'' ∧ Pruned m f (gone ++ bs) m'' := by
  induction bs generalizing m' gone with
  | nil => exact ⟨m', rfl, by rwa [append_nil]⟩
  | cons b bs ih =>
    rw [forall_mem_cons] at hbs
    have htargets : ∀ c, some c ∈ m.targets b → c ∈ (m.func f).blocks :=
      fun c hc => hf.closed hbs.1 (mem_successors.2 hc)
    have hown : ∀ {c d x}, x ∈ m.phis c → x ∈ m.phis d → c = d :=
      fun hc hd => hl.block_unique (mem_of_mem_phis hc) (mem_of_mem_phis hd)
    have hleave : leaveTargets b (m'.targets b) m' =
        .ok () (m'.atTargets (·.without (some b)) (m'.targets b)) := by
      apply leaveTargets_ok
      · rw [hp.targets]
        exact hf.none_not_target hbs.1
      · intro c x hc hx
        rw [hp.targets] at hc
        rw [hp.phis] at hx
        have hcB := htargets c hc
        rw [hp.phi hl hcB (mem_of_mem_phis hx) (op_of_mem_phis hx)]
        exact Instr.withoutAll_length
          (hf.phis c hcB x (mem_of_mem_phis hx) (op_of_mem_phis hx)).length
    have hwithout : ∀ c x, some c ∈ m.targets b → x ∈ m.phis c →
        (m'.atTargets (·.without (some b)) (m'.targets b)).instr x =
          (m'.instr x).without (some b) := by
      intro c x hc hx
      refine atTargets_of_mem m' (·.without (some b)) (fun _ => rfl)
        (fun _ => Instr.without_without) (by rwa [hp.targets]) (by rwa [hp.phis]) ?_
      rw [hp.size]
      exact hl.instr_lt (mem_of_mem_phis hx)
    have hsame : ∀ x, (∀ c, some c ∈ m.targets b → x ∉ m.phis c) →
        (m'.atTargets (·.without (some b)) (m'.targets b)).instr x = m'.instr x := by
      intro x hx
      refine atTargets_of_not_mem m' (·.without (some b)) (fun _ => rfl)
        (fun _ => Instr.without_without) fun c hc => ?_
      rw [hp.targets] at hc
      rw [hp.phis]
      exact hx c hc
    have hnext : Pruned m f (gone ++ [b])
        ((m'.atTargets (·.without (some b)) (m'.targets b)).removeBlock f b) := by
      refine ⟨{ hp.toSameGlobals.trans (.of_instrs (atTargets_eq m' ..)) with }, fun g => ?_,
        fun c => ?_, fun x => ?_, ?_⟩
      · rw [removeBlock_func, atTargets_func, hp.func]
        split
        · have hfilter : ((m.func g).blocks.filter (· ∉ gone)).filter (· != b) =
              (m.func g).blocks.filter (· ∉ gone ++ [b]) := by
            rw [filter_filter]
            refine filter_congr fun c _ => ?_
            rw [Bool.eq_iff_iff, Bool.and_eq_true, bne_iff_ne, decide_eq_true_iff,
              decide_eq_true_iff, mem_append, mem_singleton, not_or]
            exact and_comm
          simp only [hfilter]
        · rfl
      · rw [removeBlock_block, atTargets_block, hp.block]
        by_cases hcb : c = b <;> by_cases hcg : c ∈ gone <;> simp [hcb, hcg]
        all_goals subst hcb; simp [hcg]
      · rw [removeBlock_instr]
        by_cases hx : x ∈ m.body f ∧ (m.instr x).op = .phi
        · obtain ⟨c, hc, hxc⟩ := mem_flatMap.1 hx.1
          have hphi := (hf.mem_phis hc).2 ⟨hxc, hx.2⟩
          rw [if_pos hx, (hl.instr c x).1 hxc, filter_append, Instr.withoutAll_append,
            ← hp.phi hl hc hxc hx.2]
          by_cases hcb : some c ∈ m.targets b
          · rw [hwithout c x hcb hphi]
            simp [hcb, Instr.withoutAll]
          · rw [hsame x fun d hd hxd => hcb (hown hphi hxd ▸ hd)]
            simp [hcb, Instr.withoutAll]
        · rw [if_neg hx, hsame x fun d hd hxd => hx ⟨hl.mem_body_of_mem (htargets d hd)
            (mem_of_mem_phis hxd), op_of_mem_phis hxd⟩, hp.instr, if_neg hx]
      · exact (atTargets_size m' ..).trans hp.size
    obtain ⟨m'', hrun, hpruned⟩ := ih hnext hbs.2
    refine ⟨m'', ?_, by simpa using hpruned⟩
    exact bind_ok.2 ⟨m', m', rfl, bind_ok.2 ⟨(), _, hleave,
      bind_ok.2 ⟨⟨⟩, _, modify_ok.2 rfl, hrun⟩⟩⟩

/-! ## What cannot be reached -/

def Unreached (m : Module) (f : FuncId) (e : BlockId) (bs : List BlockId) : Prop :=
  ∀ b, b ∈ bs ↔ b ∈ (m.func f).blocks ∧ ¬Reached m.successors e b

section Unreached

variable {bs : List BlockId} (hl : m.Linked) (hf : m.Formed f e) (hu : Unreached m f e bs)
  (hp : Pruned m f bs m')

include hl hf hu hp

omit hu in
theorem Pruned.phiOk (hc : c ∈ (m.func f).blocks) (hx : x ∈ (m.block c).instrs)
    (hop : (m.instr x).op = .phi) : PhiOk m (m'.instr x) (m'.predecessors f c) := by
  have hok := (hf.phis c hc x hx hop).withoutAll (bs.filter fun b => some c ∈ m.targets b)
  rw [hp.phi hl hc hx hop]
  convert hok using 1
  unfold predecessors
  rw [hp.func, if_pos rfl]
  simp only [filter_filter, hp.targets]
  refine filter_congr fun p hpB => ?_
  rw [Bool.eq_iff_iff]
  simp only [Bool.and_eq_true, contains_iff_mem, decide_eq_true_iff, mem_filter, not_and]
  constructor
  · rintro ⟨htarget, hgone⟩
    exact ⟨fun h => absurd h hgone, htarget⟩
  · rintro ⟨hgone, htarget⟩
    exact ⟨htarget, fun h => hgone h htarget⟩

theorem Rerouted.pruned : Rerouted f e m m' := by
  have hbs : ∀ b ∈ bs, b ∈ (m.func f).blocks := fun b hb => ((hu b).1 hb).1
  have hleft : ∀ {b}, b ∈ (m'.func f).blocks ↔ Reached m.successors e b := by
    intro b
    rw [hp.mem_blocks, hu]
    constructor
    · rintro ⟨hb, h⟩
      apply Classical.byContradiction
      exact fun hr => h ⟨hb, hr⟩
    · exact fun hr => ⟨hf.mem_of_reached hr, fun h => h.2 hr⟩
  have hedited := hp.edited hl hbs
  refine ⟨hedited, ?_, fun b hb => (hp.mem_blocks.1 hb).1, fun b hb => hleft.2 hb, hp.instrs,
    hp.parent, fun i => by rw [hp.op], fun i => by rw [hp.op], ?_, ?_, ?_, ?_, ?_, ?_, ?_⟩
  · have he : e ∈ (m'.func f).blocks := hleft.2 Reached.entry
    have hentry := hf.entry
    unfold entry? at hentry ⊢
    rw [hp.func, if_pos rfl] at he ⊢
    cases hB : (m.func f).blocks with
    | nil =>
      rw [hB] at hentry
      cases hentry
    | cons a tail =>
      rw [hB] at hentry he
      cases hentry
      have hkeep : decide (e ∉ bs) = true := (mem_filter.1 he).2
      rw [decide_eq_true_iff] at hkeep
      simp [hkeep]
  · intro b hb s hs
    rw [hp.targets] at hs
    have hbB := (hp.mem_blocks.1 hb).1
    obtain ⟨c, hc, rfl⟩ := hf.targets b hbB s hs
    have hsucc := mem_successors.2 hs
    exact ⟨c, hleft.2 ((hleft.1 hb).onward hsucc), rfl, hf.ne_entry hbB hsucc⟩
  · intro b hb x hx hop
    have hbB := (hp.mem_blocks.1 hb).1
    rw [hp.same hop]
    exact hedited.instrDefect? hop rfl (hf.typed b hbB x hx hop)
  · intro b hb x hx hop
    obtain ⟨hbB, hbu⟩ := hp.mem_blocks.1 hb
    exact (hp.phiOk hl hf hbB hx hop).edited hedited
  · intro x hop v hv
    rwa [hp.same hop] at hv
  · intro x hop p hp'
    rw [hp.instr] at hp'
    split at hp'
    · rw [Instr.withoutAll_zip] at hp'
      exact (mem_filter.1 hp').1
    · exact hp'
  · intro b hb
    rwa [hp.successors] at hb
  · intro h b j _ _ _ hd
    rwa [hp.successors]

theorem Formed.pruned : m'.Formed f e :=
  hf.rerouted hl (hp.linked hl fun b hb => ((hu b).1 hb).1) (Rerouted.pruned hl hf hu hp)

omit hl hf in
theorem Pruned.all_reached (hb : b ∈ (m'.func f).blocks) : Reached m'.successors e b := by
  obtain ⟨hbB, hbu⟩ := hp.mem_blocks.1 hb
  rw [hp.successors]
  apply Classical.byContradiction
  exact fun hr => hbu ((hu b).2 ⟨hbB, hr⟩)

end Unreached

theorem removeUnreachable_spec (hl : m.Linked) (hf : m.Formed f e) :
    (removeUnreachable f m = .ok false m ∧ ∀ b ∈ (m.func f).blocks, Reached m.successors e b) ∨
      ∃ bs m', bs ≠ [] ∧ Unreached m f e bs ∧ Pruned m f bs m' ∧
        removeUnreachable f m = .ok true m' := by
  have hseen : ∀ b, b ∈ m.reachableFrom e ↔ Reached m.successors e b := by
    intro b
    unfold reachableFrom
    rw [mem_reach]
    simp only [mem_singleton, exists_eq_left]
    exact ⟨fun h => h.mono fun _ _ => trivial,
      fun h => h.within fun _ hx => mem_range.2 (hl.block_lt (hf.mem_of_reached hx))⟩
  have hclean : (m.reachableFrom e).any (fun b => (m.targets b).contains none) = false := by
    rw [any_eq_false]
    intro b hb hnone
    exact hf.none_not_target (hf.mem_of_reached ((hseen b).1 hb)) (contains_iff_mem.1 hnone)
  have hlost : Unreached m f e
      ((m.func f).blocks.filter fun b => !(m.reachableFrom e).contains b) := by
    intro b
    simp [mem_filter, hseen]
  cases hcase : (m.func f).blocks.filter (fun b => !(m.reachableFrom e).contains b) with
  | nil =>
    left
    refine ⟨bind_ok.2 ⟨m, m, rfl, ?_⟩, fun b hb => ?_⟩
    · simp only [hf.entry, hclean, hcase]
      rfl
    rw [hcase] at hlost
    apply Classical.byContradiction
    exact fun hr => absurd ((hlost b).2 ⟨hb, hr⟩) (by simp)
  | cons b bs =>
    right
    rw [hcase] at hlost
    obtain ⟨m', hremove, hp⟩ := removeBlocks_ok hl hf (Pruned.refl m f)
      fun c (hc : c ∈ b :: bs) => ((hlost c).1 hc).1
    refine ⟨b :: bs, m', by simp, hlost, hp, bind_ok.2 ⟨m, m, rfl, ?_⟩⟩
    simp only [hf.entry, hclean, hcase]
    exact bind_ok.2 ⟨(), m', hremove, rfl⟩

end Module

end Qirc.IR
