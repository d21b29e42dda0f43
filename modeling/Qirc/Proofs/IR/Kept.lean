import Qirc.Proofs.IR.Formed

/-!
# Functions that keep most of their instructions

When instructions are taken off and other values take the place of their results, the rest of a
function stays what it was: its blocks end as before and what is read is where it was. An accepted
function is accepted when nothing reads what is taken off. Nothing at all is taken off a function by an
edit of another one.
-/

namespace Qirc.IR.Module

open List

/-- A function after the instructions that do not stay were taken off and other values took the place
of operands, in an edit of some function. -/
structure Thinned (stays : InstrId → Bool) (σ : Value → Value) (g f : FuncId) (m m' : Module) :
    Prop where
  edited : Edited g m m'
  linked : m'.Linked
  blocks : (m'.func f).blocks = (m.func f).blocks
  instrs : ∀ b ∈ (m.func f).blocks, (m'.block b).instrs = (m.block b).instrs.filter stays
  instr : ∀ i ∈ m.body f, stays i = true →
    m'.instr i = { m.instr i with operands := (m.instr i).operands.map σ }
  ends : ∀ i ∈ m.body f, stays i = false → (m.instr i).op.isTerminator = false

/-- The value that takes the place of an operand has its type, stays and is there where it is read. -/
structure Fills (stays : InstrId → Bool) (σ : Value → Value) (f : FuncId) (e : BlockId) (m : Module) :
    Prop where
  types : ∀ v, m.typeOf (σ v) = m.typeOf v ∧ (σ v = .missing ↔ v = .missing)
  stays : ∀ i ∈ m.body f, stays i = true → ∀ v ∈ (m.instr i).operands, ∀ b,
    Reached m.successors e b → m.Ready f e b i v ∨ m.Carried f e b v →
      ∀ j, σ v = .instr j → stays j = true
  ready : ∀ b i v, Reached m.successors e b → m.Ready f e b i v → m.Ready f e b i (σ v)
  carried : ∀ u v, Reached m.successors e u → m.Carried f e u v → m.Carried f e u (σ v)

variable {m m' : Module} {f g : FuncId} {e b h : BlockId} {i j : InstrId} {stays : InstrId → Bool}
  {σ : Value → Value} {v : Value}

theorem Thinned.other (hm : Edited g m m') (hl' : m'.Linked) (hne : f ≠ g) :
    Thinned (fun _ => true) id g f m m' where
  edited := hm
  linked := hl'
  blocks := hm.otherBlocks f hne
  instrs b hb := by rw [hm.otherBlock f b hne hb, filter_true]
  instr i hi _ := by
    obtain ⟨b, hb, hib⟩ := mem_flatMap.1 hi
    rw [hm.otherInstr f b i hne hb hib, map_id]
  ends _ _ hs := by cases hs

theorem Fills.id (h : ∀ i ∈ m.body f, stays i = true → ∀ j, .instr j ∈ (m.instr i).operands →
    stays j = true) : Fills stays id f e m where
  types _ := ⟨rfl, Iff.rfl⟩
  stays i hi hs _ hv _ _ _ j hj := h i hi hs j (hj ▸ hv)
  ready _ _ _ _ h := h
  carried _ _ _ h := h

namespace Thinned

variable (ht : Thinned stays σ g f m m')

include ht

section Blocks

variable (hb : b ∈ (m.func f).blocks)

include hb

theorem same (hi : i ∈ (m'.block b).instrs) : i ∈ (m.block b).instrs ∧ stays i = true ∧
    m'.instr i = { m.instr i with operands := (m.instr i).operands.map σ } := by
  rw [ht.instrs b hb, mem_filter] at hi
  exact ⟨hi.1, hi.2, ht.instr i (mem_flatMap.2 ⟨b, hb, hi.1⟩) hi.2⟩

theorem sublist {is : List InstrId} (hs : is.Sublist (m'.block b).instrs) :
    is.Sublist (m.block b).instrs := by
  rw [ht.instrs b hb] at hs
  exact hs.trans filter_sublist

theorem stays_of_terminator? (hi : m.terminator? b = some i) : stays i = true := by
  rw [← Bool.not_eq_false]
  intro hs
  have hop := (terminator?_eq_some.1 hi).2
  rw [ht.ends i (mem_flatMap.2 ⟨b, hb, terminator?_mem hi⟩) hs] at hop
  cases hop

end Blocks

section Enclosed

variable (hf : m.Enclosed f e)

include hf

theorem terminator? (hb : b ∈ (m.func f).blocks) : m'.terminator? b = m.terminator? b := by
  obtain ⟨t, hend⟩ := hf.ended b hb
  have hs := ht.stays_of_terminator? hb hend
  obtain ⟨hlast, hop⟩ := terminator?_eq_some.1 hend
  obtain ⟨front, hfront⟩ := getLast?_eq_some_iff.1 hlast
  rw [hend, terminator?_eq_some, ht.instr t (mem_flatMap.2 ⟨b, hb, terminator?_mem hend⟩) hs,
    ht.instrs b hb, hfront, filter_append, filter_cons_of_pos hs]
  exact ⟨getLast?_concat, hop⟩

theorem targets (hb : b ∈ (m.func f).blocks) : m'.targets b = m.targets b :=
  targets_congr (ht.terminator? hf hb) fun t hend => by
    rw [ht.instr t (mem_flatMap.2 ⟨b, hb, terminator?_mem hend⟩) (ht.stays_of_terminator? hb hend)]

theorem predecessors : m'.predecessors f b = m.predecessors f b := by
  unfold Module.predecessors
  rw [ht.blocks]
  exact filter_congr fun c hc => by rw [ht.targets hf hc]

theorem successors (hb : b ∈ (m.func f).blocks) : m'.successors b = m.successors b := by
  unfold Module.successors
  rw [ht.targets hf hb]

theorem walk {ok : BlockId → Prop} : Walk m'.successors ok e b ↔ Walk m.successors ok e b :=
  hf.walk_congr fun _ => ht.successors hf

theorem enclosed (hfill : Fills stays σ f e m) : m'.Enclosed f e := by
  refine ⟨?_, ?_, ?_, ?_, ?_, ?_, ?_⟩ <;> try rw [ht.blocks]
  · rw [ entry?, ht.blocks]
    exact hf.entry
  · intro b hb
    rw [ht.terminator? hf hb]
    exact hf.ended b hb
  · intro b hb i j hs
    rw [(ht.same hb (hs.subset (by simp))).2.2]
    exact hf.inner b hb i j (ht.sublist hb hs)
  · intro b hb i j hs
    rw [(ht.same hb (hs.subset (by simp))).2.2, (ht.same hb (hs.subset (by simp))).2.2]
    exact hf.phisFirst b hb i j (ht.sublist hb hs)
  · intro b hb
    rw [ht.targets hf hb]
    exact hf.targets b hb
  · intro b hb
    rw [ht.targets hf hb]
    exact hf.start b hb
  · intro b hb i hi hop
    obtain ⟨hi, -, hsame⟩ := ht.same hb hi
    rw [hsame] at hop ⊢
    refine instrDefect?_congr (x := m.instr i)
      (y := { m.instr i with operands := (m.instr i).operands.map σ }) ht.edited rfl hop rfl rfl rfl
      rfl (fun v _ => ?_) (hf.typed b hb i hi hop)
    exact .of_type ((ht.edited.typeOf _).trans (hfill.types v).1) (hfill.types v).2.symm

end Enclosed

section Values

variable (hl : m.Linked) (hs : ∀ j, v = .instr j → stays j = true)

include hl in
theorem home (hp : (m.instr j).parent = some h) (hh : (m.block h).parent = some f)
    (hj : stays j = true) : (m'.instr j).parent = some h ∧ (m'.block h).parent = some f := by
  have hhb := (hl.block f h).2 hh
  rw [ht.instr j (hl.mem_body_of_mem hhb ((hl.instr h j).2 hp)) hj, ← ht.linked.block, ht.blocks]
  exact ⟨hp, hhb⟩

theorem order (hb : b ∈ (m.func f).blocks) (hi : i ∈ (m'.block b).instrs) (hf : m.Enclosed f e)
    (hj : stays j = true) (horder : h = b ∧ [j, i].Sublist (m.block b).instrs ∨
      h ≠ b ∧ Dominates m.successors e h b) :
    h = b ∧ [j, i].Sublist (m'.block b).instrs ∨ h ≠ b ∧ Dominates m'.successors e h b := by
  refine horder.imp (fun ⟨hhb, hs⟩ => ⟨hhb, ?_⟩) fun ⟨hne, hd⟩ => ⟨hne, mt (ht.walk hf).1 hd⟩
  have hs' := hs.filter stays
  rwa [filter_cons_of_pos hj, filter_cons_of_pos (ht.same hb hi).2.1, ← ht.instrs b hb] at hs'

variable (hends : ∀ i, (m'.instr i).op.isTerminator = (m.instr i).op.isTerminator)
  (hf : m.Enclosed f e)

include hl hs hends hf

theorem ready (hb : b ∈ (m.func f).blocks) (hi : i ∈ (m'.block b).instrs) (hv : m.Ready f e b i v) :
    m'.Ready f e b i v := by
  refine Homed.edited hv ht.edited (fun ⟨j, hj, hop⟩ => ⟨j, hj, by rwa [hends]⟩) ?_
  intro j d hj _ hp hh hd
  obtain ⟨hp, hh⟩ := ht.home hl hp hh (hs j hj)
  exact ⟨d, hp, hh, ht.order hb hi hf (hs j hj) hd⟩

theorem carried (hv : m.Carried f e b v) : m'.Carried f e b v := by
  refine Homed.edited hv ht.edited (fun ⟨j, hj, hop⟩ => ⟨j, hj, by rwa [hends]⟩) ?_
  intro j d hj _ hp hh hd
  obtain ⟨hp, hh⟩ := ht.home hl hp hh (hs j hj)
  exact ⟨d, hp, hh, mt (ht.walk hf).1 hd⟩

end Values

variable (hl : m.Linked)

include hl

/-- A function stays well-formed when the values that take the place of others are there. -/
theorem formed (hends : ∀ i, (m'.instr i).op.isTerminator = (m.instr i).op.isTerminator)
    (hfill : Fills stays σ f e m) (hf : m.Formed f e) : m'.Formed f e := by
  refine ⟨ht.enclosed hf.toEnclosed hfill, ?_, ?_, ?_⟩ <;> rw [ht.blocks]
  · intro b hb i hi hop
    obtain ⟨hi, -, hsame⟩ := ht.same hb hi
    rw [hsame] at hop ⊢
    rw [ht.predecessors hf.toEnclosed]
    obtain ⟨hlen, hblocks, htypes⟩ := hf.phis b hb i hi hop
    refine ⟨by rwa [length_map], hblocks, fun w hw => ?_⟩
    obtain ⟨v, hv, rfl⟩ := mem_map.1 hw
    obtain ⟨hne, hty⟩ := operandType_eq_ok.1 (htypes v hv)
    refine operandType_eq_ok.2 ⟨mt (hfill.types v).2.1 hne, ?_⟩
    rw [ht.edited.typeOf, (hfill.types v).1]
    exact hty
  · intro b hb hr i hi hop w hw
    obtain ⟨hib, hs, hsame⟩ := ht.same hb hi
    rw [hsame] at hop hw
    obtain ⟨v, hv, rfl⟩ := mem_map.1 hw
    have hr := (ht.walk hf.toEnclosed).1 hr
    have hready := hf.reads b hb hr i hib hop v hv
    exact ht.ready hl (hfill.stays i (hl.mem_body_of_mem hb hib) hs v hv b hr (.inl hready)) hends
      hf.toEnclosed hb hi (hfill.ready b i v hr hready)
  · intro b hb i hi hop w u hw hr
    obtain ⟨hib, hs, hsame⟩ := ht.same hb hi
    rw [hsame] at hop hw
    rw [zip_map_left, mem_map] at hw
    obtain ⟨⟨v, u⟩, hvu, ⟨⟩⟩ := hw
    have hr := (ht.walk hf.toEnclosed).1 hr
    have hcarried := hf.takes b hb i hib hop v u hvu hr
    exact ht.carried hl (hfill.stays i (hl.mem_body_of_mem hb hib) hs v (of_mem_zip hvu).1 u hr
      (.inr hcarried)) hends hf.toEnclosed (hfill.carried u v hr hcarried)

end Thinned

section Accepting

variable (ht : Thinned stays id g f m m') (hl : m.Linked)
  (hreads : ∀ i ∈ m.body f, stays i = true → ∀ j, .instr j ∈ (m.instr i).operands → stays j = true)

include ht hl hreads

theorem Admitted.thinned (ha : m.Admitted f e) : m'.Admitted f e := by
  -- An operand of what stays has a home, and it stays there.
  have hhome : ∀ {b i j}, b ∈ (m.func f).blocks → i ∈ (m'.block b).instrs →
      .instr j ∈ (m.instr i).operands → stays j = true ∧
        ∀ h, (m.instr j).parent = some h →
          (m'.instr j).parent = some h ∧ (m'.block h).parent = some f := by
    intro b i j hb hi hj
    obtain ⟨hib, hs, -⟩ := ht.same hb hi
    have hjs := hreads i (hl.mem_body_of_mem hb hib) hs j hj
    refine ⟨hjs, fun h hp => ?_⟩
    obtain ⟨h', hp', hh, -⟩ := operandDefect?_instr.1 (ha.given b hb i hib _ hj)
    cases hp.symm.trans hp'
    exact ht.home hl hp hh hjs
  refine ⟨ht.enclosed ha.toEnclosed (.id hreads), ?_, ?_, ?_, ?_⟩ <;> rw [ht.blocks]
  · intro b hb i hi hop
    obtain ⟨hi, -, hsame⟩ := ht.same hb hi
    rw [hsame, map_id] at hop ⊢
    rw [ht.predecessors ha.toEnclosed]
    obtain ⟨hlen, hcount, hblocks, htypes⟩ := ha.phis b hb i hi hop
    refine ⟨hlen, hcount, hblocks, fun v hv => ?_⟩
    rw [ht.edited.operandType]
    exact htypes v hv
  · intro b hb i hi v hv
    obtain ⟨hib, -, hsame⟩ := ht.same hb hi
    rw [hsame, map_id] at hv
    refine ht.edited.operandDefect? (ha.given b hb i hib v hv) ?_
    rintro j h rfl hp -
    exact ⟨h, (hhome hb hi hv).2 h hp⟩
  · intro b hb i hi hop j hj
    obtain ⟨hib, -, hsame⟩ := ht.same hb hi
    rw [hsame, map_id] at hop hj
    obtain ⟨h, hp, horder⟩ := ha.reads b hb i hib hop j hj
    obtain ⟨hjs, hparent⟩ := hhome hb hi hj
    exact ⟨h, (hparent h hp).1, ht.order hb hi ha.toEnclosed hjs horder⟩
  · intro b hb i hi hop j u hju
    obtain ⟨hib, -, hsame⟩ := ht.same hb hi
    rw [hsame, map_id] at hop hju
    obtain ⟨h, hp, hd⟩ := ha.takes b hb i hib hop j u hju
    exact ⟨h, ((hhome hb hi (of_mem_zip hju).1).2 h hp).1, mt (ht.walk ha.toEnclosed).1 hd⟩

theorem Thinned.accepted (hok : m.functionReport f = .ok []) : m'.functionReport f = .ok [] := by
  have howned := (functionReport_eq_nil.1 hok).1
  refine functionReport_eq_nil.2 ⟨by rw [ht.edited.owned]; exact howned, ?_⟩
  cases he : m.entry? f with
  | none =>
    refine .inl ?_
    rw [Function.isDeclaration, ht.blocks, head?_eq_none_iff.1 he]
    rfl
  | some e =>
    have ha := Admitted.of_accepted hl he (functionDefects_of_report hok (mem_of_head? he))
    exact .inr ((ha.thinned ht hl hreads).accepted ht.linked)

end Accepting

/-! ## Taking instructions off -/

variable {gone : List InstrId}

theorem erase_body (hl : m.Linked) : j ∈ (m.erase i).body f ↔ j ∈ m.body f ∧ j ≠ i := by
  unfold body
  simp only [mem_flatMap, erase_func, hl.erase_instrs]
  constructor
  · rintro ⟨b, hb, hj⟩
    obtain ⟨hne, hj⟩ := (hl.instrs b).mem_erase_iff.1 hj
    exact ⟨⟨b, hb, hj⟩, hne⟩
  · rintro ⟨⟨b, hb, hj⟩, hne⟩
    exact ⟨b, hb, (hl.instrs b).mem_erase_iff.2 ⟨hne, hj⟩⟩

/-- A module after instructions of a function were taken off. -/
structure Erased (f : FuncId) (gone : List InstrId) (m m' : Module) : Prop where
  linked : m'.Linked
  edited : Edited f m m'
  func : ∀ g, m'.func g = m.func g
  instrs : ∀ b, (m'.block b).instrs = (m.block b).instrs.filter (· ∉ gone)
  instr : ∀ i, i ∉ gone → m'.instr i = m.instr i
  op : ∀ i, (m'.instr i).op = (m.instr i).op

theorem Erased.mem_body (h : Erased f gone m m') : i ∈ m'.body f ↔ i ∈ m.body f ∧ i ∉ gone := by
  unfold body
  rw [h.func]
  simp only [mem_flatMap, h.instrs, mem_filter, decide_eq_true_eq]
  constructor
  · rintro ⟨b, hb, hi, hgone⟩
    exact ⟨⟨b, hb, hi⟩, hgone⟩
  · rintro ⟨⟨b, hb, hi⟩, hgone⟩
    exact ⟨b, hb, hi, hgone⟩

/-- Instructions of a function that are read by one another only. -/
structure Unneeded (m : Module) (f : FuncId) (gone : List InstrId) : Prop where
  nodup : gone.Nodup
  inside : ∀ i ∈ gone, i ∈ m.body f
  readers : ∀ i ∈ gone, ∀ x ∈ m.body f, .instr i ∈ (m.instr x).operands → x ∈ gone

theorem Erased.of_nodup (hl : m.Linked) (hnd : gone.Nodup) (hgone : ∀ i ∈ gone, i ∈ m.body f) :
    Erased f gone m (gone.foldl Module.erase m) := by
  induction gone generalizing m with
  | nil => exact ⟨hl, .refl f m, fun _ => rfl, fun b => by simp, fun _ _ => rfl, fun _ => rfl⟩
  | cons i is ih =>
    obtain ⟨hi, hnd⟩ := nodup_cons.1 hnd
    rw [forall_mem_cons] at hgone
    have h := ih (hl.erase i) hnd fun j hj =>
      (erase_body hl).2 ⟨hgone.2 j hj, fun hji => hi (hji ▸ hj)⟩
    refine ⟨h.linked, (Edited.erase hl hgone.1).trans h.edited, fun g => ?_, fun b => ?_,
      fun j hj => ?_, fun j => ?_⟩ <;> rw [foldl_cons]
    · rw [h.func, erase_func]
    · rw [h.instrs, hl.erase_instrs, (hl.instrs b).erase_eq_filter, filter_filter]
      refine filter_congr fun j _ => ?_
      by_cases hj : j = i <;> simp [hj]
    · rw [mem_cons, not_or] at hj
      rw [h.instr j hj.2, erase_instr, if_neg hj.1]
    · rw [h.op, erase_instr]
      split <;> rfl

theorem Erased.thinned (hm : Erased f gone m m')
    (hends : ∀ i ∈ gone, (m.instr i).op.isTerminator = false) :
    Thinned (· ∉ gone) id f f m m' where
  edited := hm.edited
  linked := hm.linked
  blocks := by rw [hm.func]
  instrs b _ := hm.instrs b
  instr i _ hi := by rw [hm.instr i (of_decide_eq_true hi), map_id]
  ends i _ hi := hends i (by simpa using hi)

theorem Unneeded.reads (h : Unneeded m f gone) (i : InstrId) (hi : i ∈ m.body f)
    (hs : decide (i ∉ gone) = true) (j : InstrId) (hj : .instr j ∈ (m.instr i).operands) :
    decide (j ∉ gone) = true := by
  rw [decide_eq_true_eq] at hs ⊢
  exact fun hjg => hs (h.readers j hjg i hi hj)

end Qirc.IR.Module
