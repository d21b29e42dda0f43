import Mathlib.Data.List.Nodup
import Qirc.Proofs.IR.Branches.Splice

/-!
# A function after two of its blocks were joined

Walks lose the step from the predecessor to the block: what dominated the block, or what the block
dominated, is now a matter of the predecessor.
-/

namespace Qirc.IR.Module

open List

variable {m m' : Module} {f : FuncId} {e p b c : BlockId} {t x : InstrId}

def absorbed (p b c : BlockId) : BlockId := if c = b then p else c

theorem absorbed_eq {d : BlockId} (h : absorbed p b d = c) : d = b ∨ d = c := by
  unfold absorbed at h
  split at h
  · exact .inl (by assumption)
  · exact .inr h

section Afterwards

variable (hl : m.Linked) (hf : m.Formed f e) (hj : Joint m f e p b t) (hphi : m.phis b = [])
  (hs : Spliced m f p b t m')

include hs

theorem Spliced.mem_blocks : c ∈ (m'.func f).blocks ↔ c ∈ (m.func f).blocks ∧ c ≠ b := by
  rw [hs.func]
  simp

theorem Spliced.op (x : InstrId) : (m'.instr x).op = (m.instr x).op := by rw [hs.instr]

theorem Spliced.operands (x : InstrId) : (m'.instr x).operands = (m.instr x).operands := by
  rw [hs.instr]

variable {v : Value}

theorem Spliced.idle : m'.Idle v ↔ m.Idle v := by
  simp [Idle, hs.op]

theorem Spliced.parent (x : InstrId) : (m'.instr x).parent = m.rehomed p b t x := by rw [hs.instr]

theorem Spliced.into :
    (m'.block p).instrs = (m.block p).instrs.erase t ++ (m.block b).instrs := by
  rw [hs.block, if_pos rfl]

theorem Spliced.block_of_ne (hcp : c ≠ p) (hcb : c ≠ b) : m'.block c = m.block c := by
  rw [hs.block, if_neg hcp, if_neg hcb]

include hj

theorem Spliced.emptied : m'.block b = { m.block b with instrs := [], parent := none } := by
  rw [hs.block, if_neg (Ne.symm hj.ne), if_pos rfl]

omit hj in
theorem Spliced.block_parent (hcb : c ≠ b) : (m'.block c).parent = (m.block c).parent := by
  rw [hs.block, if_neg hcb]
  split <;> rfl

include hl

theorem Spliced.linked : m'.Linked := by
  have htp : t ∈ (m.block p).instrs := terminator?_mem hj.ended
  have htb : t ∉ (m.block b).instrs := fun h => hj.ne (hl.block_unique htp h)
  constructor
  · intro g c
    rw [hs.func]
    by_cases hcb : c = b
    · subst hcb
      rw [hs.emptied hj]
      simp only [reduceCtorEq, iff_false]
      split
      · simp
      · rename_i hg
        exact fun h => hg (hl.func_unique h hj.block)
    · rw [hs.block_parent hcb, ← hl.block]
      split
      · simp [hcb]
      · rfl
  · intro c i
    rw [hs.parent, rehomed]
    have hold := hl.instr c i
    by_cases hcb : c = b
    · subst hcb
      rw [hs.emptied hj]
      simp only [not_mem_nil, false_iff]
      split
      · simp
      split
      · simpa using hj.ne
      · rwa [← hold]
    · by_cases hcp : c = p
      · subst hcp
        rw [hs.into, mem_append, (hl.instrs c).mem_erase_iff, hold]
        split
        · rename_i hi
          subst hi
          simp [htb]
        · rename_i hi
          split
          · rename_i hib
            simp [hib]
          · rename_i hib
            simp [hi, hib]
      · rw [hs.block_of_ne hcp hcb, hold]
        split
        · rename_i hi
          subst hi
          simp only [reduceCtorEq, iff_false]
          exact fun h => hcp (hl.block_unique ((hl.instr c i).2 h) htp)
        · split
          · rename_i hib
            rw [(hl.instr b i).1 hib]
            simp [Ne.symm hcb, Ne.symm hcp]
          · rfl
  · intro g
    rw [hs.func]
    split
    · exact (hl.blocks g).filter _
    · exact hl.blocks g
  · intro c
    rw [hs.block]
    split
    · refine nodup_append.2 ⟨(hl.instrs c).erase t, hl.instrs b, ?_⟩
      rintro x hx y hy rfl
      rename_i hcp
      exact hj.ne (hcp ▸ hl.block_unique (mem_of_mem_erase hx) hy)
    split
    · exact nodup_nil
    · exact hl.instrs c

theorem Spliced.edited : Edited f m m' := by
  obtain ⟨hp, -⟩ := hj.pred
  refine ⟨hs.toSameGlobals, fun i => by rw [hs.instr], fun g => ?_, fun g => ?_, fun g hg => ?_,
    fun g c hg hc => ?_, fun g c i hg hc hi => ?_⟩
  · rw [hs.func]
    split <;> rfl
  · rw [hs.func]
    split <;> rfl
  · rw [hs.func, if_neg hg]
  · refine hs.block_of_ne ?_ ?_
    · rintro rfl
      exact hg (hl.func_unique hc hp)
    · rintro rfl
      exact hg (hl.func_unique hc hj.block)
  · have hit : i ≠ t := by
      rintro rfl
      exact hg (hl.func_unique (hl.block_unique (terminator?_mem hj.ended) hi ▸ hc) hp)
    have hib : i ∉ (m.block b).instrs :=
      fun hib => hg (hl.func_unique (hl.block_unique hib hi ▸ hc) hj.block)
    have hbody : i ∉ m.body f := by
      intro hbody
      obtain ⟨d, hd, hid⟩ := mem_flatMap.1 hbody
      exact hg (hl.func_unique (hl.block_unique hid hi ▸ hc) hd)
    rw [hs.instr, rehomed, if_neg fun h => hbody h.1, if_neg hit, if_neg hib]

omit hl hj in
theorem Spliced.blocks_of_not_phi (hop : (m.instr x).op ≠ .phi) :
    (m'.instr x).blocks = (m.instr x).blocks := by
  rw [hs.instr]
  exact if_neg fun h => hop h.2

omit hj in
theorem Spliced.phi_blocks (hc : c ∈ (m.func f).blocks) (hx : x ∈ (m.block c).instrs)
    (hop : (m.instr x).op = .phi) : (m'.instr x).blocks = ((m.instr x).renamed b p).blocks := by
  rw [hs.instr]
  exact if_pos ⟨hl.mem_body_of_mem hc hx, hop⟩

include hf

omit hl in
theorem Spliced.terminator? (hcb : c ≠ b) :
    m'.terminator? c = m.terminator? (if c = p then b else c) := by
  by_cases hcp : c = p
  · subst hcp
    obtain ⟨s, hs'⟩ := hf.ended b hj.block
    have hne : (m.block b).instrs ≠ [] := ne_nil_of_mem (terminator?_mem hs')
    unfold Module.terminator?
    rw [hs.into, getLast?_append_of_ne_nil hne]
    simp [hs.op]
  · unfold Module.terminator?
    rw [if_neg hcp, hs.block_of_ne hcp hcb]
    simp [hs.op]

omit hl in
theorem Spliced.targets (hcb : c ≠ b) : m'.targets c = m.targets (if c = p then b else c) := by
  unfold Module.targets
  rw [hs.terminator? hf hj hcb]
  split
  · rename_i hterm
    exact hs.blocks_of_not_phi (terminator?_ne_phi hterm)
  · rfl

omit hl in
theorem Spliced.mem_successors {a : BlockId} :
    c ∈ m'.successors a ↔ a ≠ b ∧ c ∈ m.successors (if a = p then b else a) := by
  rw [Module.mem_successors, Module.mem_successors]
  by_cases hab : a = b
  · subst hab
    have hnil : m'.targets a = [] := by
      unfold Module.targets Module.terminator?
      rw [hs.emptied hj]
      rfl
    simp [hnil]
  · rw [hs.targets hf hj hab]
    simp [hab]

omit hl in
theorem Spliced.walk {ok : BlockId → Prop} (hok : ok b) (hw : Walk m'.successors ok e c) :
    Walk m.successors ok e c := by
  induction hw with
  | start h => exact .start h
  | @step x y _ hn hy ih =>
    obtain ⟨-, hn⟩ := (hs.mem_successors hf hj).1 hn
    split at hn
    · rename_i hxp
      subst hxp
      exact (ih.step (Module.mem_successors.2 hj.pred.2) hok).step hn hy
    · exact ih.step hn hy

omit hl in
theorem Spliced.walk_apart (hw : Walk m'.successors (· ≠ p) e c) :
    Walk m.successors (· ≠ b) e c := by
  induction hw with
  | start => exact .start (Ne.symm (hj.ne_entry hf))
  | @step x y hx hn hy ih =>
    obtain ⟨-, hn⟩ := (hs.mem_successors hf hj).1 hn
    rw [if_neg hx.ok_end] at hn
    refine ih.step hn ?_
    rintro rfl
    exact hx.ok_end (hj.first hf ih hn)

omit hl in
theorem Spliced.reached (hc : Reached m'.successors e c) : Reached m.successors e c :=
  hs.walk hf hj trivial hc

omit hl in
theorem Spliced.reached_absorbed (hc : Reached m.successors e c) :
    Reached m'.successors e (absorbed p b c) := by
  unfold absorbed
  induction hc with
  | start =>
    rw [if_neg (Ne.symm (hj.ne_entry hf))]
    exact .start trivial
  | @step x y hx hn _ ih =>
    have hxB := hf.mem_of_reached hx
    by_cases hxb : x = b
    · subst hxb
      have hyb : y ≠ x := by
        rintro rfl
        exact hj.self_not_target (Module.mem_successors.1 hn)
      rw [if_pos rfl] at ih
      rw [if_neg hyb]
      exact ih.step ((hs.mem_successors hf hj).2 ⟨hj.ne, by rwa [if_pos rfl]⟩) trivial
    · rw [if_neg hxb] at ih
      by_cases hxp : x = p
      · subst hxp
        have hyb : y = b := by
          have h := Module.mem_successors.1 hn
          rw [hj.targets hf, mem_singleton] at h
          exact Option.some.inj h
        rw [if_pos hyb]
        exact ih
      · have hyb : y ≠ b := by
          rintro rfl
          exact hxp (hj.eq_of_target hxB (Module.mem_successors.1 hn))
        rw [if_neg hyb]
        exact ih.step ((hs.mem_successors hf hj).2 ⟨hxb, by rwa [if_neg hxp]⟩) trivial

omit hl in
theorem Spliced.dominates {h : BlockId} (hd : Dominates m.successors e h c) :
    Dominates m'.successors e (absorbed p b h) (absorbed p b c) := by
  have hback : ∀ {h c : BlockId}, h ≠ b → Dominates m.successors e h c →
      Dominates m'.successors e h c :=
    fun hhb hd hw => hd (hs.walk hf hj (Ne.symm hhb) hw)
  unfold absorbed
  split
  · rename_i hhb
    subst hhb
    split
    · exact Dominates.refl p
    · exact fun hw => hd (hs.walk_apart hf hj hw)
  · rename_i hhb
    split
    · rename_i hcb
      subst hcb
      exact hback hhb (hd.pred (Module.mem_successors.2 hj.pred.2) (Ne.symm hhb))
    · exact hback hhb hd

include hl

omit hf in
theorem Spliced.mem_instrs :
    x ∈ (m'.block c).instrs ↔
      c ≠ b ∧ x ≠ t ∧ ∃ d, x ∈ (m.block d).instrs ∧ absorbed p b d = c := by
  rw [(hs.linked hl hj).instr, hs.parent]
  unfold absorbed rehomed
  split
  · rename_i hx
    simp [hx]
  rename_i hx
  split
  · rename_i hxb
    constructor
    · rintro ⟨⟩
      exact ⟨hj.ne, hx, b, hxb, if_pos rfl⟩
    rintro ⟨-, -, d, hd, hdc⟩
    rw [hl.block_unique hd hxb, if_pos rfl] at hdc
    rw [hdc]
  · rename_i hxb
    rw [← hl.instr]
    constructor
    · intro hxc
      have hcb : c ≠ b := fun h => hxb (h ▸ hxc)
      exact ⟨hcb, hx, c, hxc, if_neg hcb⟩
    · rintro ⟨-, -, d, hd, hdc⟩
      have hdb : d ≠ b := fun h => hxb (h ▸ hd)
      rw [if_neg hdb] at hdc
      rwa [← hdc]

omit hl hf hj in
theorem Spliced.pair_sublist {y : InstrId} (hx : x ≠ t) (hy : y ≠ t)
    (h : [x, y].Sublist (m.block c).instrs) :
    [x, y].Sublist (m'.block (absorbed p b c)).instrs := by
  unfold absorbed
  split
  · rename_i hcb
    subst hcb
    rw [hs.into]
    exact pair_sublist_append.2 (.inr (.inr h))
  · rename_i hcb
    by_cases hcp : c = p
    · subst hcp
      rw [hs.into]
      exact pair_sublist_append.2 (.inl (pair_sublist_erase h hx hy))
    · rwa [hs.block_of_ne hcp hcb]

omit hf hj in
theorem Spliced.pair_cases {y : InstrId} (hc : c ≠ b) (h : [x, y].Sublist (m'.block c).instrs) :
    (∃ d, absorbed p b d = c ∧ [x, y].Sublist (m.block d).instrs) ∨
      (x ∈ (m.block p).instrs ∧ x ≠ t ∧ y ∈ (m.block b).instrs ∧ c = p) := by
  by_cases hcp : c = p
  · subst hcp
    rw [hs.into, pair_sublist_append] at h
    obtain h | ⟨hx, hy⟩ | h := h
    · exact .inl ⟨c, if_neg hc, h.trans erase_sublist⟩
    · obtain ⟨hxt, hx⟩ := ((hl.instrs c).mem_erase_iff).1 hx
      exact .inr ⟨hx, hxt, hy, rfl⟩
    · exact .inl ⟨b, if_pos rfl, h⟩
  · rw [hs.block_of_ne hcp hc] at h
    exact .inl ⟨c, if_neg hc, h⟩

omit hf in
theorem Spliced.stays {j : InstrId} {h : BlockId} (hjt : (m.instr j).op.isTerminator = false)
    (hp : (m.instr j).parent = some h) (hh : (m.block h).parent = some f) :
    (m'.instr j).parent = some (absorbed p b h) ∧ (m'.block (absorbed p b h)).parent = some f := by
  have hne : j ≠ t := by
    rintro rfl
    rw [hj.op] at hjt
    cases hjt
  have hmem : j ∈ (m.block h).instrs := (hl.instr h j).2 hp
  rw [hs.parent, rehomed, if_neg hne]
  unfold absorbed
  by_cases hhb : h = b
  · subst hhb
    rw [if_pos hmem, if_pos rfl, hs.block_parent hj.ne]
    exact ⟨rfl, (hl.block f p).1 hj.pred.1⟩
  · rw [if_neg fun hjb => hhb (hl.block_unique hmem hjb), if_neg hhb, hs.block_parent hhb]
    exact ⟨hp, hh⟩

theorem Spliced.ready (hx : x ∈ (m.block c).instrs) (hxt : x ≠ t) (hr : m.Ready f e c x v) :
    m'.Ready f e (absorbed p b c) x v := by
  refine Homed.edited hr (hs.edited hl hj) (hs.idle).2 fun j h hvj hjt hp hh hd => ?_
  have hne : j ≠ t := by
    rintro rfl
    rw [hj.op] at hjt
    cases hjt
  obtain ⟨hp', hh'⟩ := hs.stays hl hj hjt hp hh
  refine ⟨_, hp', hh', ?_⟩
  obtain ⟨rfl, hsub⟩ | ⟨hhc, hd⟩ := hd
  · exact .inl ⟨rfl, hs.pair_sublist hne hxt hsub⟩
  have hmem : j ∈ (m.block h).instrs := (hl.instr h j).2 hp
  by_cases heq : absorbed p b h = absorbed p b c
  · -- Two blocks became one: the definition was in the predecessor and the use in the block.
    refine .inl ⟨heq, ?_⟩
    unfold absorbed at heq
    split at heq
    · rename_i hhb
      subst hhb
      rw [if_neg (Ne.symm hhc)] at heq
      subst heq
      exact absurd hd (hj.not_dominates hf)
    · split at heq
      · rename_i hcb
        subst hcb heq
        rw [absorbed, if_pos rfl, hs.into]
        refine pair_sublist_append.2 (.inr (.inl ⟨?_, hx⟩))
        exact (hl.instrs h).mem_erase_iff.2 ⟨hne, hmem⟩
      · exact absurd heq hhc
  · exact .inr ⟨heq, hs.dominates hf hj hd⟩

theorem Spliced.carried {u : BlockId} (hr : m.Carried f e u v) :
    m'.Carried f e (absorbed p b u) v := by
  refine Homed.edited hr (hs.edited hl hj) (hs.idle).2 fun j h hvj hjt hp hh hd => ?_
  obtain ⟨hp', hh'⟩ := hs.stays hl hj hjt hp hh
  exact ⟨_, hp', hh', hs.dominates hf hj hd⟩

/-- A block is followed by the same blocks as before, the joined one by those of its
predecessor. -/
theorem Spliced.predecessors_perm (hcb : c ≠ b) :
    ((m.predecessors f c).map (absorbed p b)).Perm (m'.predecessors f c) := by
  have hpc : p ∉ m.predecessors f c := by
    intro hp
    have h := (mem_predecessors.1 hp).2
    rw [hj.targets hf, mem_singleton] at h
    exact hcb (Option.some.inj h)
  have hnd : ((m.predecessors f c).map (absorbed p b)).Nodup := by
    refine Nodup.map_on (fun x hx y hy hxy => ?_) (hl.predecessors_nodup c)
    unfold absorbed at hxy
    split at hxy
    · rename_i hxb
      split at hxy
      · rename_i hyb
        rw [hxb, hyb]
      · exact absurd (hxy ▸ hy) hpc
    · split at hxy
      · exact absurd (hxy ▸ hx) hpc
      · exact hxy
  refine (perm_ext_iff_of_nodup hnd
    ((hs.linked hl hj).predecessors_nodup c)).2 fun q => ?_
  rw [mem_map, mem_predecessors, hs.mem_blocks]
  constructor
  · rintro ⟨x, hx, rfl⟩
    obtain ⟨hxB, hxc⟩ := mem_predecessors.1 hx
    unfold absorbed
    split
    · rename_i hxb
      subst hxb
      refine ⟨⟨hj.pred.1, hj.ne⟩, ?_⟩
      rwa [hs.targets hf hj hj.ne, if_pos rfl]
    · rename_i hxb
      have hxp : x ≠ p := fun h => hpc (h ▸ hx)
      refine ⟨⟨hxB, hxb⟩, ?_⟩
      rwa [hs.targets hf hj hxb, if_neg hxp]
  · rintro ⟨⟨hqB, hqb⟩, hqc⟩
    rw [hs.targets hf hj hqb] at hqc
    split at hqc
    · rename_i hqp
      exact ⟨b, mem_predecessors.2 ⟨hj.block, hqc⟩, by rw [absorbed, if_pos rfl, hqp]⟩
    · exact ⟨q, mem_predecessors.2 ⟨hqB, hqc⟩, if_neg hqb⟩

omit hl hj hs hf in
theorem Instr.renamed_blocks {y : Instr} {preds : List BlockId}
    (h : y.blocks.Perm (preds.map some)) :
    (y.renamed b p).blocks.Perm ((preds.map (absorbed p b)).map some) := by
  have hmap := h.map fun c => if c = some b then some p else c
  rw [map_map] at hmap ⊢
  refine hmap.trans (Perm.of_eq (map_congr_left fun c _ => ?_))
  simp only [Function.comp_apply, absorbed, Option.some.injEq]
  split <;> rfl

theorem Spliced.phiOk (hc : c ∈ (m.func f).blocks) (hcb : c ≠ b) (hx : x ∈ (m.block c).instrs)
    (hop : (m.instr x).op = .phi) : PhiOk m' (m'.instr x) (m'.predecessors f c) := by
  have hok := hf.phis c hc x hx hop
  refine PhiOk.edited ⟨?_, ?_, ?_⟩ (hs.edited hl hj)
  · rw [hs.operands, hs.phi_blocks hl hc hx hop]
    simpa [Instr.renamed] using hok.length
  · rw [hs.phi_blocks hl hc hx hop]
    exact (Instr.renamed_blocks hok.blocks).trans
      ((hs.predecessors_perm hl hf hj hcb).map some)
  · rw [hs.instr]
    exact hok.types

include hphi in
theorem Formed.spliced : m'.Formed f e := by
  have hedited := hs.edited hl hj
  have hold : ∀ {c d}, c ∈ (m.func f).blocks → absorbed p b d = c → d ∈ (m.func f).blocks := by
    intro c d hc hdc
    obtain rfl | rfl := absorbed_eq hdc
    · exact hj.block
    · exact hc
  -- The block that an instruction was in before, with the uses of that block.
  have hback : ∀ {c x}, c ∈ (m'.func f).blocks → x ∈ (m'.block c).instrs →
      x ≠ t ∧ ∃ d ∈ (m.func f).blocks, x ∈ (m.block d).instrs ∧ absorbed p b d = c ∧
        (Reached m'.successors e c → Reached m.successors e d) := by
    intro c x hc hx
    obtain ⟨-, hxt, d, hd, hdc⟩ := (hs.mem_instrs hl hj).1 hx
    obtain ⟨hcB, hcb⟩ := hs.mem_blocks.1 hc
    refine ⟨hxt, d, hold hcB hdc, hd, hdc, fun hr => ?_⟩
    obtain rfl | rfl := absorbed_eq hdc
    · exact hj.reached
    · exact hs.reached hf hj hr
  have hphiblock : ∀ {c x}, c ∈ (m'.func f).blocks → x ∈ (m'.block c).instrs →
      (m.instr x).op = .phi → c ∈ (m.func f).blocks ∧ c ≠ b ∧ x ∈ (m.block c).instrs := by
    intro c x hc hx hop
    obtain ⟨hcB, hcb⟩ := hs.mem_blocks.1 hc
    obtain ⟨-, d, -, hd, hdc, -⟩ := hback hc hx
    obtain rfl | rfl := absorbed_eq hdc
    · exact absurd hop (hf.ne_phi hj.block hphi hd)
    · exact ⟨hcB, hcb, hd⟩
  refine ⟨⟨?_, ?_, ?_, ?_, ?_, ?_, ?_⟩, ?_, ?_, ?_⟩
  · have hentry := hf.entry
    unfold entry? at hentry ⊢
    rw [hs.func]
    cases hB : (m.func f).blocks with
    | nil =>
      rw [hB] at hentry
      cases hentry
    | cons a tail =>
      rw [hB] at hentry
      cases hentry
      simp [Ne.symm (hj.ne_entry hf)]
  · intro c hc
    obtain ⟨hcB, hcb⟩ := hs.mem_blocks.1 hc
    rw [hs.terminator? hf hj hcb]
    split
    · exact hf.ended b hj.block
    · exact hf.ended c hcB
  · intro c hc i j hsub
    obtain ⟨hcB, hcb⟩ := hs.mem_blocks.1 hc
    rw [hs.op]
    obtain ⟨d, hdc, hsub⟩ | ⟨hi, hit, -⟩ := hs.pair_cases hl hcb hsub
    · exact hf.inner d (hold hcB hdc) i j hsub
    refine hf.inner p hj.pred.1 i t ?_
    rw [hj.instrs hl]
    exact pair_sublist_append.2
      (.inr (.inl ⟨(hl.instrs p).mem_erase_iff.2 ⟨hit, hi⟩, mem_cons_self⟩))
  · intro c hc i j hsub
    obtain ⟨hcB, hcb⟩ := hs.mem_blocks.1 hc
    rw [hs.op, hs.op]
    intro hop
    obtain ⟨d, hdc, hsub⟩ | ⟨-, -, hjb, -⟩ := hs.pair_cases hl hcb hsub
    · exact hf.phisFirst d (hold hcB hdc) i j hsub hop
    · exact absurd hop (hf.ne_phi hj.block hphi hjb)
  · intro c hc s hst
    obtain ⟨hcB, hcb⟩ := hs.mem_blocks.1 hc
    rw [hs.targets hf hj hcb] at hst
    split at hst
    · obtain ⟨d, hd, rfl⟩ := hf.targets b hj.block s hst
      refine ⟨d, hs.mem_blocks.2 ⟨hd, ?_⟩, rfl⟩
      rintro rfl
      exact hj.self_not_target hst
    · rename_i hcp
      obtain ⟨d, hd, rfl⟩ := hf.targets c hcB s hst
      refine ⟨d, hs.mem_blocks.2 ⟨hd, ?_⟩, rfl⟩
      rintro rfl
      exact hcp (hj.eq_of_target hcB hst)
  · intro c hc
    obtain ⟨hcB, hcb⟩ := hs.mem_blocks.1 hc
    rw [hs.targets hf hj hcb]
    split
    · exact hf.start b hj.block
    · exact hf.start c hcB
  · intro c hc x hx hop
    rw [hs.op] at hop
    obtain ⟨-, d, hd, hxd, -⟩ := hback hc hx
    rw [hs.instr]
    exact hedited.instrDefect? hop (by rw [if_neg fun h => hop h.2]) (hf.typed d hd x hxd hop)
  · intro c hc x hx hop
    rw [hs.op] at hop
    obtain ⟨hcB, hcb, hxc⟩ := hphiblock hc hx hop
    exact hs.phiOk hl hf hj hcB hcb hxc hop
  · intro c hc hr x hx hop v hv
    rw [hs.op] at hop
    rw [hs.operands] at hv
    obtain ⟨hxt, d, hd, hxd, rfl, hrd⟩ := hback hc hx
    exact hs.ready hl hf hj hxd hxt (hf.reads d hd (hrd hr) x hxd hop v hv)
  · intro c hc x hx hop v u hvu hr
    rw [hs.op] at hop
    obtain ⟨hcB, hcb, hxc⟩ := hphiblock hc hx hop
    rw [hs.operands, hs.phi_blocks hl hcB hxc hop, Instr.renamed, zip_map_right, mem_map] at hvu
    obtain ⟨⟨w, s⟩, hws, heq⟩ := hvu
    obtain ⟨u₀, -, hu₀⟩ := mem_map.1
      ((hf.phis c hcB x hxc hop).blocks.mem_iff.1 (of_mem_zip hws).2)
    subst hu₀
    simp only [Prod.map_apply, id_eq, Prod.mk.injEq, Option.some.injEq] at heq
    obtain ⟨rfl, heq⟩ := heq
    have hu : absorbed p b u₀ = u := by
      unfold absorbed
      split at heq <;> simp_all
    have hru : Reached m.successors e u₀ := by
      obtain rfl | rfl := absorbed_eq hu
      · exact hj.reached
      · exact hs.reached hf hj hr
    rw [← hu]
    exact hs.carried hl hf hj (hf.takes c hcB x hxc hop w u₀ hws hru)

end Afterwards

end Qirc.IR.Module
