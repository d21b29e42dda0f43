import Qirc.Proofs.IR.Branches.Rewrites

/-!
# The rules round by round

Every rule runs to its end on a well-formed function and does nothing but rewrites. The blocks of a
function and its conditional branches together bound the rounds.
-/

namespace Qirc.IR.Module

open List Step

variable {m m' : Module} {f : FuncId} {e p b c : BlockId} {t : InstrId}

def forks (m : Module) (b : BlockId) : Bool :=
  (m.terminator? b).any (fun t => (m.instr t).op == .condBr)

/-- What the rules have to work on: the blocks and the conditional branches. -/
def extent (m : Module) (f : FuncId) : Nat :=
  (m.func f).blocks.length + (m.func f).blocks.countP m.forks

theorem extent_le (m : Module) (f : FuncId) : m.extent f ≤ 2 * (m.func f).blocks.length := by
  have := countP_le_length (p := m.forks) (l := (m.func f).blocks)
  unfold extent
  omega

theorem forks_congr (hterm : m'.terminator? c = m.terminator? b)
    (hop : ∀ i, (m'.instr i).op = (m.instr i).op) : m'.forks c = m.forks b := by
  unfold forks
  rw [hterm]
  simp [hop]

/-- A rule that reports no change made none, and one that reports a change leaves less to work on. -/
structure Lessens (f : FuncId) (m : Module) (changed : Bool) (m' : Module) : Prop where
  same : changed = false → m' = m
  less : changed = true → m'.extent f < m.extent f

theorem Lessens.refl : Lessens f m false m := ⟨fun _ => rfl, nofun⟩

theorem Lessens.le {changed : Bool} (h : Lessens f m changed m') : m'.extent f ≤ m.extent f := by
  cases changed with
  | false => rw [h.same rfl]
  | true => exact Nat.le_of_lt (h.less rfl)

theorem Lessens.of_lt (h : m'.extent f < m.extent f) : Lessens f m true m' := ⟨nofun, fun _ => h⟩

/-! ## Plain branches -/

theorem countP_lt {p q : BlockId → Bool} {l : List BlockId} (hpq : ∀ x ∈ l, q x = true → p x = true)
    (hb : b ∈ l) (hp : p b = true) (hq : q b = false) : l.countP q < l.countP p := by
  induction l with
  | nil => cases hb
  | cons a l ih =>
    rw [forall_mem_cons] at hpq
    have hle := countP_mono_left hpq.2
    rw [countP_cons, countP_cons]
    obtain rfl | hb := mem_cons.1 hb
    · rw [if_pos hp, if_neg (by simp [hq])]
      omega
    have hlt := ih hpq.2 hb
    by_cases ha : q a = true
    · rw [if_pos ha, if_pos (hpq.1 ha)]
      omega
    · rw [if_neg ha]
      omega

theorem straighten_extent {keep : BlockId} {lost : List InstrId} (hl : m.Linked)
    (hf : m.Formed f e) (hb : b ∈ (m.func f).blocks) (hd : Decided m b t keep lost) :
    (m.straighten b t keep lost).extent f < m.extent f := by
  have hterm := straighten_terminator? hl hf hb hd
  unfold extent
  rw [straighten_func]
  refine Nat.add_lt_add_left (countP_lt (fun c _ h => ?_) hb ?_ ?_) _
  · unfold forks at h ⊢
    rw [hterm] at h
    cases htc : m.terminator? c with
    | none => simp [htc] at h
    | some s =>
      simp only [htc, Option.any_some, straighten_instr hl hf hb hd, beq_iff_eq] at h ⊢
      split at h
      · cases h
      · split at h <;> exact h
  · simp [forks, hd.ended, hd.op]
  · simp [forks, hterm, hd.ended, straighten_instr hl hf hb hd]

theorem foldBranches_spec (hl : m.Linked) (hf : m.Formed f e) {bs : List BlockId}
    (hbs : ∀ b ∈ bs, b ∈ (m.func f).blocks) :
    ∃ changed m', foldBranches bs m = .ok changed m' ∧ Rewrites f e m m' ∧
      Lessens f m changed m' := by
  induction bs generalizing m with
  | nil => exact ⟨false, m, rfl, .refl, .refl⟩
  | cons b bs ih =>
    rw [forall_mem_cons] at hbs
    obtain hrun | ⟨t, keep, lost, hd, hrun⟩ := foldBranch_spec hf hbs.1
    · obtain ⟨changed, m', hrest, hrw, hless⟩ := ih hl hf hbs.2
      refine ⟨changed, m', ?_, hrw, hless⟩
      exact bind_ok.2 ⟨_, _, hrun, bind_ok.2 ⟨_, _, hrest, rfl⟩⟩
    · have hstep : Rewrite f e m (m.straighten b t keep lost) := .straighten hbs.1 hd
      obtain ⟨hl', hf', -⟩ := hstep.keeps hl hf
      have hlt := straighten_extent hl hf hbs.1 hd
      obtain ⟨changed, m', hrest, hrw, hless⟩ := ih hl' hf' fun c hc => by
        rw [straighten_func]
        exact hbs.2 c hc
      refine ⟨true, m', ?_, (Rewrites.single hstep).trans hrw, .of_lt (hless.le.trans_lt hlt)⟩
      exact bind_ok.2 ⟨_, _, hrun, bind_ok.2 ⟨_, _, hrest, by rfl⟩⟩

/-! ## Blocks that only branch on -/

theorem skipped_extent (hl : m.Linked) (hf : m.Formed f e) :
    (m.skipped f).extent f = m.extent f := by
  have hforks : (m.skipped f).forks = m.forks := by
    funext c
    refine forks_congr (skipped_terminator? hl hf c) fun i => ?_
    rw [skipped_eq hl hf]
  unfold extent
  rw [skipped_func, hforks]

/-! ## Blocks that cannot be reached -/

theorem pruned_extent {bs : List BlockId} (hbs : ∃ b ∈ bs, b ∈ (m.func f).blocks)
    (hp : Pruned m f bs m') : m'.extent f < m.extent f := by
  obtain ⟨b, hb, hbB⟩ := hbs
  have hforks : m'.forks = m.forks := by
    funext c
    exact forks_congr (hp.terminator? c) hp.op
  have hlt : ((m.func f).blocks.filter (· ∉ bs)).length < (m.func f).blocks.length :=
    length_filter_lt_length_iff_exists.2 ⟨b, hbB, by simpa using hb⟩
  unfold extent
  rw [hforks, hp.func, if_pos rfl]
  exact Nat.add_lt_add_of_lt_of_le hlt filter_sublist.countP_le

/-! ## Blocks with one predecessor -/

theorem mergeTarget?_eq_some :
    m.mergeTarget? f b = some p ↔
      m.predecessors f b = [p] ∧ p ≠ b ∧
        ∃ t, m.terminator? p = some t ∧ (m.instr t).op = .br := by
  unfold mergeTarget?
  split
  · rename_i hq
    simp only [hq, cons.injEq, and_true]
    split
    · rename_i hqb
      simp only [reduceCtorEq, false_iff]
      rintro ⟨rfl, hne, -⟩
      exact hne hqb
    · rename_i hqb
      split
      · rename_i t ht
        split
        · rename_i hop
          constructor
          · rintro ⟨⟩
            exact ⟨rfl, hqb, t, ht, hop⟩
          · rintro ⟨rfl, -⟩
            rfl
        · rename_i hop
          simp only [reduceCtorEq, false_iff]
          rintro ⟨rfl, -, s, hs, hsop⟩
          cases ht.symm.trans hs
          exact hop hsop
      · rename_i ht
        simp only [reduceCtorEq, false_iff]
        rintro ⟨rfl, -, s, hs, -⟩
        rw [ht] at hs
        cases hs
  · rename_i hno
    simp only [reduceCtorEq, false_iff]
    rintro ⟨hp, -⟩
    exact hno p hp

theorem supplant_phis_of_head {phi : InstrId} {v : Value} {rest : List InstrId} (hl : m.Linked)
    (hphis : m.phis b = phi :: rest) : (m.supplant f phi v).phis b = rest := by
  have hmem : phi ∈ (m.block b).instrs := mem_of_mem_phis (by rw [hphis]; exact mem_cons_self)
  unfold phis at hphis ⊢
  simp only [supplant_op]
  rw [hl.supplant_instrs]
  cases hB : (m.block b).instrs with
  | nil =>
    rw [hB] at hmem
    cases hmem
  | cons i l =>
    rw [hB, takeWhile_cons] at hphis
    split at hphis
    · cases hphis
      simp
    · cases hphis

section

variable (hl : m.Linked) (hf : m.Formed f e)

include hl hf

theorem dissolvePhis_spec (hj : Joint m f e p b t) {is : List InstrId} (his : m.phis b = is) :
    ∃ m', is.foldl (dissolvePhi f) m = m' ∧ Rewrites f e m m' ∧ Joint m' f e p b t ∧
      m'.phis b = [] ∧ (m'.func f).blocks = (m.func f).blocks ∧ m'.extent f = m.extent f ∧
      ∀ c, Reached m.successors e c → Reached m'.successors e c := by
  induction is generalizing m with
  | nil => exact ⟨m, rfl, .refl, hj, his, rfl, rfl, fun _ h => h⟩
  | cons phi rest ih =>
    have hphi : phi ∈ m.phis b := by
      rw [his]
      exact mem_cons_self
    obtain ⟨v, hv, -⟩ := hj.phi_value hf hphi
    have hstep : Rewrite f e m (m.supplant f phi v) := .dissolve hj hphi hv
    obtain ⟨hl', hf', -⟩ := hstep.keeps hl hf
    have ht := hj.thinned (v := v) hl hphi
    have hterm := fun {c} => ht.terminator? (b := c) hf.toEnclosed
    have hwalk : ∀ {c}, Reached (m.supplant f phi v).successors e c ↔ Reached m.successors e c :=
      ht.walk hf.toEnclosed
    have hj' : Joint (m.supplant f phi v) f e p b t := by
      refine ⟨by rw [ht.blocks]; exact hj.block, ?_, hj.ne, ?_, ?_, hwalk.2 hj.reached⟩
      · rw [ht.predecessors hf.toEnclosed]
        exact hj.preds
      · rw [hterm hj.pred.1]
        exact hj.ended
      · rw [supplant_op]
        exact hj.op
    have hextent : (m.supplant f phi v).extent f = m.extent f := by
      unfold extent
      rw [ht.blocks, countP_congr fun c hc => by
        rw [forks_congr (hterm hc) fun _ => supplant_op]]
    obtain ⟨m', hrun, hrw, hj', hnil, hblocks, hextent', hreach⟩ :=
      ih hl' hf' hj' (supplant_phis_of_head hl his)
    have hfirst : dissolvePhi f m phi = m.supplant f phi v := by
      simp only [dissolvePhi, hv]
      rfl
    refine ⟨m', ?_, (Rewrites.single hstep).trans hrw, hj', hnil, hblocks.trans ht.blocks,
      hextent'.trans hextent, fun c hc => hreach c (hwalk.2 hc)⟩
    rw [foldl_cons, hfirst, hrun]

theorem spliced_extent (hj : Joint m f e p b t) (hs : Spliced m f p b t m') :
    m'.extent f < m.extent f := by
  have hlt : (m'.func f).blocks.length < (m.func f).blocks.length := by
    rw [hs.func, if_pos rfl]
    exact length_filter_lt_length_iff_exists.2 ⟨b, hj.block, by simp⟩
  -- The predecessor ends as the block did; the other blocks as before.
  have hforks : ∀ c, c ≠ b → m'.forks c = m.forks (if c = p then b else c) :=
    fun c hc => forks_congr (hs.terminator? hf hj hc) (hs.op)
  have hle : (m'.func f).blocks.countP m'.forks ≤ (m.func f).blocks.countP m.forks := by
    have hsub : (((m'.func f).blocks.filter m'.forks).map fun c => if c = p then b else c).Subperm
        ((m.func f).blocks.filter m.forks) := by
      refine subperm_of_subset (List.Nodup.map_on (fun x hx y hy hxy => ?_)
        (((hs.linked hl hj).blocks f).filter _)) fun c hc => ?_
      · have hx := (hs.mem_blocks.1 (mem_filter.1 hx).1).2
        have hy := (hs.mem_blocks.1 (mem_filter.1 hy).1).2
        split at hxy
        · split at hxy
          · simp_all
          · exact absurd hxy.symm hy
        · split at hxy
          · exact absurd hxy hx
          · exact hxy
      · obtain ⟨d, hd, rfl⟩ := mem_map.1 hc
        obtain ⟨hdB, hdf⟩ := mem_filter.1 hd
        obtain ⟨hdB, hdb⟩ := hs.mem_blocks.1 hdB
        rw [hforks d hdb] at hdf
        refine mem_filter.2 ⟨?_, hdf⟩
        split
        · exact hj.block
        · exact hdB
    have hlen := hsub.length_le
    rwa [length_map, ← countP_eq_length_filter, ← countP_eq_length_filter] at hlen
  exact Nat.add_lt_add_of_lt_of_le hlt hle

theorem mergeInto_spec (hj : Joint m f e p b t)
    (hall : ∀ c ∈ (m.func f).blocks, Reached m.successors e c) :
    ∃ m', mergeInto f p b m = .ok () m' ∧ Rewrites f e m m' ∧ m'.extent f < m.extent f ∧
      (m'.func f).blocks.length + 1 = (m.func f).blocks.length ∧
      ∀ c ∈ (m'.func f).blocks, Reached m'.successors e c := by
  obtain ⟨m₁, hphis, hrw, hj₁, hnil, hblocks, hextent, hreach⟩ := dissolvePhis_spec hl hf hj rfl
  obtain ⟨hl₁, hf₁, -⟩ := hrw.keeps hl hf
  obtain ⟨m₂, hsplice, hs⟩ := splice_ok hl₁ hf₁ hj₁ hnil
  have hlen : (m₂.func f).blocks.length + 1 = (m₁.func f).blocks.length := by
    have hblocks₂ : (m₂.func f).blocks = (m₁.func f).blocks.erase b := by
      rw [hs.func, if_pos rfl, (hl₁.blocks f).erase_eq_filter]
    rw [hblocks₂, length_erase_of_mem hj₁.block]
    exact Nat.sub_add_cancel (length_pos_of_mem hj₁.block)
  refine ⟨m₂, ?_, hrw.step (.splice hj₁ hnil hs), ?_, ?_, fun c hc => ?_⟩
  · exact bind_ok.2 ⟨⟨⟩, m₁, modify_ok.2 hphis.symm, hsplice⟩
  · rw [← hextent]
    exact spliced_extent hl₁ hf₁ hj₁ hs
  · rw [hlen, hblocks]
  obtain ⟨hcB, hcb⟩ := hs.mem_blocks.1 hc
  rw [hblocks] at hcB
  have hr := hs.reached_absorbed hf₁ hj₁ (hreach c (hall c hcB))
  rwa [absorbed, if_neg hcb] at hr

theorem mergeBlocks_spec (hall : ∀ c ∈ (m.func f).blocks, Reached m.successors e c) {count : Nat}
    (hcount : (m.func f).blocks.length < count) :
    ∃ changed m', mergeBlocks f count m = .ok changed m' ∧ Rewrites f e m m' ∧
      Lessens f m changed m' ∧ ∀ c ∈ (m'.func f).blocks, Reached m'.successors e c := by
  induction count generalizing m with
  | zero => cases hcount
  | succ count ih =>
    cases hfind : (m.func f).blocks.tail.findSome?
        (fun b => (m.mergeTarget? f b).map fun p => (p, b)) with
    | none =>
      refine ⟨false, m, bind_ok.2 ⟨m, m, rfl, ?_⟩, .refl, .refl, hall⟩
      simp only [hfind]
      rfl
    | some q =>
      obtain ⟨p, b⟩ := q
      obtain ⟨b', hb', heq⟩ := exists_of_findSome?_eq_some hfind
      obtain ⟨p', hp', hpair⟩ := Option.map_eq_some_iff.1 heq
      cases hpair
      obtain ⟨hpreds, hne, t, ht, hop⟩ := mergeTarget?_eq_some.1 hp'
      have hbB := mem_of_mem_tail hb'
      have hj : Joint m f e p b t := ⟨hbB, hpreds, hne, ht, hop, hall b hbB⟩
      obtain ⟨m₁, hmerge, hrw, hless, hlen, hall₁⟩ := mergeInto_spec hl hf hj hall
      obtain ⟨hl₁, hf₁, -⟩ := hrw.keeps hl hf
      obtain ⟨changed, m', hrest, hrw', hless', hall'⟩ := ih hl₁ hf₁ hall₁ (by omega)
      refine ⟨true, m', bind_ok.2 ⟨m, m, rfl, ?_⟩, hrw.trans hrw', .of_lt (hless'.le.trans_lt hless),
        hall'⟩
      simp only [hfind]
      exact bind_ok.2 ⟨(), m₁, hmerge, bind_ok.2 ⟨changed, m', hrest, rfl⟩⟩

end

/-! ## All rules -/

variable (hl : m.Linked) (hf : m.Formed f e)

include hl hf

theorem simplifyRound_spec : ∃ changed m', simplifyRound f m = .ok changed m' ∧ Rewrites f e m m' ∧
      (∀ c ∈ (m'.func f).blocks, Reached m'.successors e c) ∧
      (changed = true → m'.extent f < m.extent f ∨
        m'.extent f = m.extent f ∧ m.detours f = true ∧ m'.detours f = false) := by
  obtain ⟨folded, m₁, hfold, hrw₁, hless₁⟩ :=
    foldBranches_spec hl hf fun b (hb : b ∈ (m.func f).blocks) => hb
  obtain ⟨hl₁, hf₁, -⟩ := hrw₁.keeps hl hf
  have hskip := skipForwards_ok hf₁
  have hrw₂ : Rewrites f e m (m₁.skipped f) := hrw₁.step .skip
  have hl₂ := hl₁.skipped hf₁
  have hf₂ := hf₁.skipped hl₁
  have hextent₂ := skipped_extent hl₁ hf₁
  obtain ⟨removed, m₃, hremove, hrw₃, hall₃, hless₃⟩ :
      ∃ removed m₃, removeUnreachable f (m₁.skipped f) = .ok removed m₃ ∧
        Rewrites f e m m₃ ∧ (∀ c ∈ (m₃.func f).blocks, Reached m₃.successors e c) ∧
        Lessens f (m₁.skipped f) removed m₃ := by
    obtain ⟨hrun, hall⟩ | ⟨bs, m₃, hbs, hu, hp, hrun⟩ := removeUnreachable_spec hl₂ hf₂
    · exact ⟨false, _, hrun, hrw₂, hall, .refl⟩
    obtain ⟨b, hb⟩ := exists_mem_of_ne_nil bs hbs
    exact ⟨true, m₃, hrun, hrw₂.step (.prune hu hp),
      fun c hc => Pruned.all_reached hu hp hc, .of_lt (pruned_extent ⟨b, hb, ((hu b).1 hb).1⟩ hp)⟩
  obtain ⟨hl₃, hf₃, -⟩ := hrw₃.keeps hl hf
  obtain ⟨merged, m₄, hmerge, hrw₄, hless₄, hall₄⟩ :=
    mergeBlocks_spec hl₃ hf₃ hall₃ (Nat.lt_succ_self _)
  refine ⟨folded || m₁.detours f || removed || merged, m₄, ?_, hrw₃.trans hrw₄, hall₄, ?_⟩
  · exact bind_ok.2 ⟨m, m, rfl, bind_ok.2 ⟨folded, m₁, hfold,
      bind_ok.2 ⟨_, _, hskip, bind_ok.2 ⟨removed, m₃, hremove,
        bind_ok.2 ⟨m₃, m₃, rfl, bind_ok.2 ⟨merged, m₄, hmerge, rfl⟩⟩⟩⟩⟩⟩
  · intro hchanged
    -- Each of the four rules leaves no more to work on than there was.
    have hle₁ := hless₁.le
    have hle₃ := hless₃.le
    have hle₄ := hless₄.le
    rw [hextent₂] at hle₃
    cases folded with
    | true =>
      have := hless₁.less rfl
      omega
    | false =>
      cases removed with
      | true =>
        have := hless₃.less rfl
        omega
      | false =>
        cases merged with
        | true =>
          have := hless₄.less rfl
          omega
        | false =>
          rw [hless₄.same rfl, hless₃.same rfl]
          rw [hless₁.same rfl] at hextent₂ hchanged ⊢
          exact .inr ⟨hextent₂, by simpa using hchanged, skipped_detours hl hf⟩

theorem simplifyRounds_spec {rounds : Nat}
    (hrounds : 2 * m.extent f + (if m.detours f then 2 else 1) ≤ rounds) :
    ∃ changed m', simplifyRounds f rounds m = .ok changed m' ∧ Rewrites f e m m' ∧
      ∀ c ∈ (m'.func f).blocks, Reached m'.successors e c := by
  induction rounds generalizing m with
  | zero => split at hrounds <;> omega
  | succ rounds ih =>
    obtain ⟨changed, m₁, hround, hrw, hall, hless⟩ := simplifyRound_spec hl hf
    cases changed with
    | false =>
      exact ⟨false, m₁, bind_ok.2 ⟨false, m₁, hround, rfl⟩, hrw, hall⟩
    | true =>
      obtain ⟨hl₁, hf₁, -⟩ := hrw.keeps hl hf
      have hrounds₁ : 2 * m₁.extent f + (if m₁.detours f then 2 else 1) ≤ rounds := by
        obtain hlt | ⟨heq, hyes, hno⟩ := hless rfl
        · split at hrounds <;> split <;> omega
        rw [hyes, if_pos rfl] at hrounds
        rw [hno]
        simp
        omega
      obtain ⟨more, m', hrest, hrw', hall'⟩ := ih hl₁ hf₁ hrounds₁
      refine ⟨true, m', bind_ok.2 ⟨true, m₁, hround, ?_⟩, hrw.trans hrw', hall'⟩
      exact bind_ok.2 ⟨more, m', hrest, rfl⟩

/-- The rules come to an end on every well-formed function. What they leave is reached by rewrites,
and all its blocks can be reached. -/
theorem simplifyBranches_spec :
    ∃ changed m', simplifyBranches f m = .ok changed m' ∧ Rewrites f e m m' ∧
      ∀ c ∈ (m'.func f).blocks, Reached m'.successors e c := by
  have hbound : 2 * m.extent f + (if m.detours f then 2 else 1) ≤
      4 * (m.func f).blocks.length + 4 := by
    have := extent_le m f
    split <;> omega
  obtain ⟨changed, m', hrun, hrw, hall⟩ := simplifyRounds_spec hl hf hbound
  exact ⟨changed, m', bind_ok.2 ⟨m, m, rfl, hrun⟩, hrw, hall⟩

end Qirc.IR.Module
