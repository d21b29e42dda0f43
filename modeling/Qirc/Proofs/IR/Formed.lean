import Mathlib.Data.List.TakeWhile
import Qirc.Proofs.IR.Accepted

/-!
# Well-formed functions

The property that the passes keep. It is weaker than acceptance by the verifier in two points: a use
that control cannot get to may be of anything, and an operand may name a branch. Well-formed
functions without either are exactly the accepted ones.
-/

namespace Qirc.IR.Module

open List

section Edges

variable {m : Module} {f : FuncId} {b c p : BlockId}

theorem mem_successors : c ∈ m.successors b ↔ some c ∈ m.targets b := by
  simp [successors]

theorem mem_predecessors :
    p ∈ m.predecessors f b ↔ p ∈ (m.func f).blocks ∧ some b ∈ m.targets p := by
  simp [predecessors]

theorem terminator?_eq_some {t : InstrId} :
    m.terminator? b = some t ↔
      (m.block b).instrs.getLast? = some t ∧ (m.instr t).op.isTerminator = true := by
  unfold terminator?
  split
  · rename_i h
    split
    · rename_i ht
      constructor
      · rintro ⟨⟩
        exact ⟨h, ht⟩
      · rintro ⟨h', -⟩
        exact h.symm.trans h'
    · rename_i ht
      simp only [reduceCtorEq, false_iff]
      rintro ⟨h', ht'⟩
      cases h.symm.trans h'
      exact ht ht'
  · rename_i h
    simp [h]

theorem terminator?_mem {t : InstrId} (h : m.terminator? b = some t) :
    t ∈ (m.block b).instrs := mem_of_getLast? (terminator?_eq_some.1 h).1

theorem targets_of_terminator {t : InstrId} (h : m.terminator? b = some t) :
    m.targets b = (m.instr t).blocks := by
  unfold targets
  rw [h]

theorem terminator?_ne_phi {t : InstrId} (h : m.terminator? b = some t) : (m.instr t).op ≠ .phi := by
  intro hop
  have ht := (terminator?_eq_some.1 h).2
  rw [hop] at ht
  cases ht

theorem terminator?_congr {m' : Module} (hi : (m'.block b).instrs = (m.block b).instrs)
    (hop : ∀ i ∈ (m.block b).instrs, (m'.instr i).op.isTerminator = (m.instr i).op.isTerminator) :
    m'.terminator? b = m.terminator? b := by
  unfold terminator?
  rw [hi]
  split
  · rename_i t ht
    rw [hop t (mem_of_getLast? ht)]
  · rfl

theorem targets_congr {m' : Module} (ht : m'.terminator? b = m.terminator? b)
    (hbl : ∀ t, m.terminator? b = some t → (m'.instr t).blocks = (m.instr t).blocks) :
    m'.targets b = m.targets b := by
  unfold targets
  rw [ht]
  split
  · rename_i t ht
    exact hbl t ht
  · rfl

theorem op_of_mem_phis {i : InstrId} (h : i ∈ m.phis b) : (m.instr i).op = .phi := by
  have hi := mem_takeWhile_imp h
  rwa [beq_iff_eq] at hi

theorem mem_of_mem_phis {i : InstrId} (h : i ∈ m.phis b) : i ∈ (m.block b).instrs :=
  (takeWhile_sublist _).subset h

end Edges

theorem takeWhile_eq_filter {p : InstrId → Bool} {l : List InstrId}
    (h : ∀ i j, [i, j].Sublist l → p j = true → p i = true) :
    l.takeWhile p = l.filter p ∧ l.dropWhile p = l.filter (fun i => !p i) := by
  induction l with
  | nil => exact ⟨rfl, rfl⟩
  | cons a l ih =>
    have ih := ih fun i j hs => h i j (hs.cons a)
    cases ha : p a with
    | true => simp [ha, ih]
    | false =>
      have hno : ∀ j ∈ l, p j = false := by
        intro j hj
        rw [Bool.eq_false_iff]
        intro hp
        rw [h a j (pair_sublist_cons.2 (.inl ⟨rfl, hj⟩)) hp] at ha
        cases ha
      have h1 : l.filter p = [] := by
        simpa using hno
      have h2 : l.filter (fun i => !p i) = l := by
        simpa using hno
      simp [ha, h1, h2]

theorem phis_eq_filter {m : Module} {b : BlockId} (h : ∀ i j, [i, j].Sublist (m.block b).instrs →
      (m.instr j).op = .phi → (m.instr i).op = .phi) :
    m.phis b = (m.block b).instrs.filter (fun i => (m.instr i).op == .phi) ∧
      (m.block b).instrs.dropWhile (fun i => (m.instr i).op == .phi) =
        (m.block b).instrs.filter (fun i => (m.instr i).op != .phi) :=
  takeWhile_eq_filter fun i j hs hj => by
    rw [beq_iff_eq] at hj ⊢
    exact h i j hs hj

variable (m : Module) (f : FuncId) (e : BlockId)

/-- The value names a branch or a return, which never has a result. -/
def Idle (v : Value) : Prop := ∃ j, v = .instr j ∧ (m.instr j).op.isTerminator = true

/-- The value is there when an instruction of a block is about to run. -/
def Ready (b : BlockId) (i : InstrId) (v : Value) : Prop :=
  m.Idle v ∨ m.operandDefect? f v = none ∧ ∀ j, v = .instr j → ∃ h, (m.instr j).parent = some h ∧
    ((h = b ∧ [j, i].Sublist (m.block b).instrs) ∨ (h ≠ b ∧ Dominates m.successors e h b))

def Carried (u : BlockId) (v : Value) : Prop :=
  m.Idle v ∨ m.operandDefect? f v = none ∧ ∀ j, v = .instr j → ∃ h, (m.instr j).parent = some h ∧
    Dominates m.successors e h u

/-- Blocks that have an end and their phis in front, branches that stay in the function and do not lead
to its entry, and instructions with operands of the right types. -/
structure Enclosed : Prop where
  entry : m.entry? f = some e
  ended : ∀ b ∈ (m.func f).blocks, ∃ t, m.terminator? b = some t
  inner : ∀ b ∈ (m.func f).blocks, ∀ i j, [i, j].Sublist (m.block b).instrs →
    (m.instr i).op.isTerminator = false
  phisFirst : ∀ b ∈ (m.func f).blocks, ∀ i j, [i, j].Sublist (m.block b).instrs →
    (m.instr j).op = .phi → (m.instr i).op = .phi
  targets : ∀ b ∈ (m.func f).blocks, ∀ t ∈ m.targets b, ∃ c ∈ (m.func f).blocks, t = some c
  start : ∀ b ∈ (m.func f).blocks, some e ∉ m.targets b
  typed : ∀ b ∈ (m.func f).blocks, ∀ i ∈ (m.block b).instrs, (m.instr i).op ≠ .phi →
    m.instrDefect? f (m.instr i) [] = .ok none

structure Admitted : Prop extends m.Enclosed f e where
  phis : ∀ b ∈ (m.func f).blocks, ∀ i ∈ (m.block b).instrs, (m.instr i).op = .phi →
    PhiFits m (m.instr i) (m.predecessors f b)
  given : ∀ b ∈ (m.func f).blocks, ∀ i ∈ (m.block b).instrs, ∀ v ∈ (m.instr i).operands,
    m.operandDefect? f v = none
  reads : ∀ b ∈ (m.func f).blocks, ∀ i ∈ (m.block b).instrs, (m.instr i).op ≠ .phi →
    ∀ j, .instr j ∈ (m.instr i).operands → ∃ h, (m.instr j).parent = some h ∧
      ((h = b ∧ [j, i].Sublist (m.block b).instrs) ∨ (h ≠ b ∧ Dominates m.successors e h b))
  takes : ∀ b ∈ (m.func f).blocks, ∀ i ∈ (m.block b).instrs, (m.instr i).op = .phi →
    ∀ j u, (.instr j, some u) ∈ (m.instr i).operands.zip (m.instr i).blocks →
      ∃ h, (m.instr j).parent = some h ∧ Dominates m.successors e h u

/-- A definition whose phis name their blocks once and whose reachable uses come after their
definitions. -/
structure Formed : Prop extends m.Enclosed f e where
  phis : ∀ b ∈ (m.func f).blocks, ∀ i ∈ (m.block b).instrs, (m.instr i).op = .phi →
    PhiOk m (m.instr i) (m.predecessors f b)
  reads : ∀ b ∈ (m.func f).blocks, Reached m.successors e b → ∀ i ∈ (m.block b).instrs,
    (m.instr i).op ≠ .phi → ∀ v ∈ (m.instr i).operands, m.Ready f e b i v
  takes : ∀ b ∈ (m.func f).blocks, ∀ i ∈ (m.block b).instrs, (m.instr i).op = .phi →
    ∀ v u, (v, some u) ∈ (m.instr i).operands.zip (m.instr i).blocks →
      Reached m.successors e u → m.Carried f e u v

variable {m f e}

/-! ## Values in their homes -/

/-- The value is there, in a block that suits. -/
def Homed (m : Module) (f : FuncId) (suits : InstrId → BlockId → Prop) (v : Value) : Prop :=
  m.Idle v ∨ m.operandDefect? f v = none ∧
    ∀ j, v = .instr j → ∃ h, (m.instr j).parent = some h ∧ suits j h

section Homes

variable {m' : Module} {g : FuncId} {suits suits' : InstrId → BlockId → Prop} {v : Value}
  (h : m.Homed f suits v)

include h

theorem Homed.home (hv : ¬m.Idle v) : m.operandDefect? f v = none ∧
    ∀ j, v = .instr j →
      ∃ d, (m.instr j).parent = some d ∧ (m.block d).parent = some f ∧ suits j d := by
  obtain ⟨hdef, hhome⟩ := h.resolve_left hv
  refine ⟨hdef, ?_⟩
  rintro j rfl
  obtain ⟨d, hp, hs⟩ := hhome j rfl
  obtain ⟨d', hp', hd, -⟩ := operandDefect?_instr.1 hdef
  cases hp.symm.trans hp'
  exact ⟨d, hp, hd, hs⟩

/-- A value is there after a change that leaves its instruction a home. -/
theorem Homed.edited (hm : Edited g m m') (hidle : m.Idle v → m'.Idle v)
    (hmove : ∀ j d, v = .instr j → (m.instr j).op.isTerminator = false →
      (m.instr j).parent = some d → (m.block d).parent = some f → suits j d →
      ∃ d', (m'.instr j).parent = some d' ∧ (m'.block d').parent = some f ∧ suits' j d') :
    m'.Homed f suits' v := by
  by_cases hv : m.Idle v
  · exact .inl (hidle hv)
  obtain ⟨hdef, hhome⟩ := h.home hv
  have hmoved := fun j hj => (hhome j hj).elim fun d hd =>
    hmove j d hj (Bool.eq_false_iff.2 fun hop => hv ⟨j, hj, hop⟩) hd.1 hd.2.1 hd.2.2
  refine .inr ⟨hm.operandDefect? hdef fun j _ hj _ _ => ?_, fun j hj => ?_⟩
  · obtain ⟨d, hp, hd, -⟩ := hmoved j hj
    exact ⟨d, hp, hd⟩
  · obtain ⟨d, hp, -, hs⟩ := hmoved j hj
    exact ⟨d, hp, hs⟩

end Homes

namespace Enclosed

variable {b c : BlockId} {i : InstrId} (hf : m.Enclosed f e)

include hf

theorem entry_mem : e ∈ (m.func f).blocks := mem_of_head? hf.entry

theorem closed (hb : b ∈ (m.func f).blocks) (hc : c ∈ m.successors b) : c ∈ (m.func f).blocks := by
  obtain ⟨c', hc', h⟩ := hf.targets b hb _ (mem_successors.1 hc)
  exact Option.some.inj h ▸ hc'

theorem mem_of_reached (h : Reached m.successors e b) : b ∈ (m.func f).blocks :=
  Walk.carry h hf.entry_mem fun _ _ _ hx hy _ => hf.closed hx hy

theorem walk_congr {m' : Module} {ok : BlockId → Prop}
    (hsucc : ∀ x ∈ (m.func f).blocks, m'.successors x = m.successors x) :
    Walk m'.successors ok e b ↔ Walk m.successors ok e b := by
  have hin : ∀ x, Walk m.successors ok e x → x ∈ (m.func f).blocks := fun x hx =>
    hx.carry hf.entry_mem fun _ _ _ hy hz _ => hf.closed hy hz
  constructor
  · intro h
    have hin' : ∀ x, Walk m'.successors ok e x → x ∈ (m.func f).blocks := fun x hx =>
      hx.carry hf.entry_mem fun y z _ hy hz _ => hf.closed hy (by rwa [← hsucc y hy])
    exact h.along fun x y hx hy => by rwa [← hsucc x (hin' x hx)]
  · exact fun h => h.along fun x y hx hy => by rwa [hsucc x (hin x hx)]

theorem predecessors_entry : m.predecessors f e = [] := by
  refine eq_nil_iff_forall_not_mem.2 fun p hp => ?_
  obtain ⟨hp, ht⟩ := mem_predecessors.1 hp
  exact hf.start p hp ht

variable (hb : b ∈ (m.func f).blocks)

include hb

theorem ne_entry (hc : c ∈ m.successors b) : c ≠ e := by
  rintro rfl
  exact hf.start b hb (mem_successors.1 hc)

theorem none_not_target : none ∉ m.targets b := by
  intro h
  obtain ⟨c, -, hc⟩ := hf.targets b hb none h
  cases hc

theorem mem_phis : i ∈ m.phis b ↔ i ∈ (m.block b).instrs ∧ (m.instr i).op = .phi := by
  rw [(phis_eq_filter (hf.phisFirst b hb)).1, mem_filter, beq_iff_eq]

theorem ne_phi (hphi : m.phis b = []) (hi : i ∈ (m.block b).instrs) : (m.instr i).op ≠ .phi := by
  intro hop
  have hmem := (hf.mem_phis hb).2 ⟨hi, hop⟩
  rw [hphi] at hmem
  cases hmem

theorem br (hi : i ∈ (m.block b).instrs) (ht : m.terminator? b = some i)
    (hop : (m.instr i).op = .br) : ∃ c ∈ (m.func f).blocks, (m.instr i).blocks = [some c] := by
  have htyped := hf.typed b hb i hi (by simp [hop])
  have htargets := hf.targets b hb
  rw [targets_of_terminator ht] at htargets
  unfold instrDefect? at htyped
  rw [hop] at htyped
  dsimp only at htyped
  split at htyped
  · rename_i hlen
    obtain ⟨s, hs⟩ := length_eq_one_iff.1 hlen
    rw [hs] at htargets
    obtain ⟨c, hc, rfl⟩ := htargets s (by simp)
    exact ⟨c, hc, hs⟩
  · cases htyped

theorem condBr {t : InstrId} (ht : m.terminator? b = some t) (hop : (m.instr t).op = .condBr) :
    ∃ v yes no, (m.instr t).operands = [v] ∧ (m.instr t).blocks = [some yes, some no] ∧
      (m.typeOf v).isInt 1 = true := by
  have htyped := hf.typed b hb t (terminator?_mem ht) (by simp [hop])
  have htargets := hf.targets b hb
  rw [targets_of_terminator ht] at htargets
  unfold instrDefect? at htyped
  rw [hop] at htyped
  match hv : (m.instr t).operands, htyped with
  | [v], htyped =>
    cases hty : m.operandType v with
    | error => simp [hty, bind, Except.bind] at htyped
    | ok ty =>
      simp only [hty, bind, Except.bind, Except.ok.injEq] at htyped
      split at htyped
      · rename_i hcond
        rw [Bool.and_eq_true] at hcond
        have htyv : m.typeOf v = ty := (operandType_eq_ok.1 hty).2
        match hbl : (m.instr t).blocks, hcond.2 with
        | [y, n], _ =>
          rw [hbl] at htargets
          obtain ⟨yes, -, rfl⟩ := htargets y (by simp)
          obtain ⟨no, -, rfl⟩ := htargets n (by simp)
          exact ⟨v, yes, no, rfl, rfl, htyv ▸ hcond.1⟩
      · cases htyped

end Enclosed

theorem instrDefect?_preds {x : Instr} (hx : x.op ≠ .phi) (ps qs : List BlockId) :
    m.instrDefect? f x ps = m.instrDefect? f x qs := by
  unfold instrDefect?
  split <;> first | rfl | contradiction

section Acceptance

variable (hl : m.Linked)

include hl

theorem Linked.predecessors_nodup (b : BlockId) : (m.predecessors f b).Nodup :=
  (hl.blocks f).filter _

theorem Admitted.of_accepted (he : m.entry? f = some e) (hok : m.functionDefects f = .ok []) :
    m.Admitted f e := by
  obtain ⟨hshape, hbranch, hcheck⟩ := functionDefects_eq_nil.1 hok
  rw [shapeDefects_eq_nil] at hshape
  rw [branchDefects_eq_nil he] at hbranch
  have htargets : ∀ b ∈ (m.func f).blocks, ∀ t ∈ m.targets b,
      ∃ c ∈ (m.func f).blocks, t = some c := by
    intro b hb t ht
    obtain ⟨c, rfl, hc⟩ := hbranch.1 b hb t ht
    exact ⟨c, (hl.block f c).2 hc, rfl⟩
  have hclosed : ∀ b ∈ (m.func f).blocks, ∀ c ∈ m.successors b, c ∈ (m.func f).blocks := by
    intro b hb c hc
    obtain ⟨c', hc', h⟩ := htargets b hb _ (mem_successors.1 hc)
    exact Option.some.inj h ▸ hc'
  have hinstr := fun b hb => instrShape_eq_nil.1 (hshape b hb).2.2
  have hoperand : ∀ b ∈ (m.func f).blocks, ∀ i ∈ (m.block b).instrs, ∀ (n : Nat) (v : Value),
      (m.instr i).operands[n]? = some v → _ := fun b hb i hi n v hn =>
    operandDefects_eq_nil.1 ((checkInstr_eq_nil.1 (hcheck b hb i hi)).1 n v hn)
  refine ⟨⟨he, fun b hb => (hshape b hb).2.1, fun b hb => (hinstr b hb).2.1,
    fun b hb => (hinstr b hb).2.2.1, htargets, hbranch.2, fun b hb i hi hop => ?_⟩,
    fun b hb i hi hop => (instrDefect?_phi hop).1 (checkInstr_eq_nil.1 (hcheck b hb i hi)).2,
    ?_, ?_, ?_⟩
  · rw [instrDefect?_preds hop _ (m.predecessors f b)]
    exact (checkInstr_eq_nil.1 (hcheck b hb i hi)).2
  · intro b hb i hi v hv
    obtain ⟨n, hn⟩ := getElem?_of_mem hv
    exact (hoperand b hb i hi n v hn).1
  · intro b hb i hi hop j hv
    obtain ⟨n, hn⟩ := getElem?_of_mem hv
    obtain ⟨hdef, hdom⟩ := hoperand b hb i hi n _ hn
    obtain ⟨h, hp, -⟩ := operandDefect?_instr.1 hdef
    have hd := hdom j h rfl hp
    rw [if_neg hop] at hd
    refine ⟨h, hp, ?_⟩
    split at hd
    · rename_i hhb
      subst hhb
      exact .inl ⟨rfl, (precedes_iff (hl.instrs h) ((hl.instr h j).2 hp) hi).1 hd⟩
    · rename_i hhb
      exact .inr ⟨hhb, ((dominatorTable_has he hclosed).1 hd).2.2⟩
  · intro b hb i hi hop j u hju
    obtain ⟨n, hn⟩ := getElem?_of_mem hju
    obtain ⟨hv, hu⟩ := getElem?_zip_eq_some.1 hn
    obtain ⟨hdef, hdom⟩ := hoperand b hb i hi n _ hv
    obtain ⟨h, hp, -⟩ := operandDefect?_instr.1 hdef
    have hd := hdom j h rfl hp
    rw [if_pos hop] at hd
    obtain ⟨use, huse, hhas⟩ := hd
    cases hu.symm.trans huse
    exact ⟨h, hp, ((dominatorTable_has he hclosed).1 hhas).2.2⟩

theorem Admitted.accepted (ha : m.Admitted f e) : m.functionDefects f = .ok [] := by
  have hparent : ∀ b ∈ (m.func f).blocks, (m.block b).parent = some f :=
    fun b hb => (hl.block f b).1 hb
  have hhas : ∀ {d b}, b ∈ (m.func f).blocks → d ∈ (m.func f).blocks →
      Dominates m.successors e d b →
      DominatorTable.has (m.dominatorTable f) d (some b) = true :=
    fun hb hd h => (dominatorTable_has ha.entry fun _ hb _ => ha.closed hb).2 ⟨hb, hd, h⟩
  refine functionDefects_eq_nil.2 ⟨?_, ?_, fun b hb i hi =>
    checkInstr_eq_nil.2 ⟨fun n v hn => ?_, ?_⟩⟩
  · rw [shapeDefects_eq_nil]
    intro b hb
    refine ⟨hparent b hb, ha.ended b hb, instrShape_eq_nil.2 ⟨?_, ha.inner b hb,
      ha.phisFirst b hb, by simp⟩⟩
    exact fun i hi => (hl.instr b i).1 hi
  · rw [branchDefects_eq_nil ha.entry]
    refine ⟨fun b hb t ht => ?_, ha.start⟩
    obtain ⟨c, hc, rfl⟩ := ha.targets b hb t ht
    exact ⟨c, rfl, hparent c hc⟩
  · have hdef := ha.given b hb i hi v (mem_of_getElem? hn)
    refine operandDefects_eq_nil.2 ⟨hdef, ?_⟩
    rintro j h rfl hp
    obtain ⟨h', hp', hh, -⟩ := operandDefect?_instr.1 hdef
    cases hp.symm.trans hp'
    have hd := (hl.block f h).2 hh
    by_cases hop : (m.instr i).op = .phi
    · rw [if_pos hop]
      obtain ⟨u, hu, huse⟩ := (ha.phis b hb i hi hop).use hn
      obtain ⟨h', hp', hdom⟩ := ha.takes b hb i hi hop j u
        (mem_of_getElem? (getElem?_zip_eq_some.2 ⟨hn, huse⟩))
      cases hp.symm.trans hp'
      exact ⟨some u, huse, hhas (mem_predecessors.1 hu).1 hd hdom⟩
    · rw [if_neg hop]
      obtain ⟨h', hp', horder⟩ := ha.reads b hb i hi hop j (mem_of_getElem? hn)
      cases hp.symm.trans hp'
      obtain ⟨rfl, hsub⟩ | ⟨hne, hdom⟩ := horder
      · rw [if_pos rfl, precedes_iff (hl.instrs h) ((hl.instr h j).2 hp) hi]
        exact hsub
      · rw [if_neg hne]
        exact hhas hb hd hdom
  · by_cases hop : (m.instr i).op = .phi
    · exact (instrDefect?_phi hop).2 (ha.phis b hb i hi hop)
    · rw [instrDefect?_preds hop _ []]
      exact ha.typed b hb i hi hop

theorem Formed.of_accepted (he : m.entry? f = some e) (hok : m.functionDefects f = .ok [])
    (hdistinct : ∀ i ∈ m.body f, (m.instr i).op = .phi → (m.instr i).blocks.Nodup) :
    m.Formed f e := by
  have ha := Admitted.of_accepted hl he hok
  refine ⟨ha.toEnclosed, ?_, ?_, ?_⟩
  · intro b hb i hi hop
    exact (ha.phis b hb i hi hop).ok (hdistinct i (hl.mem_body_of_mem hb hi) hop)
  · intro b hb _ i hi hop v hv
    exact .inr ⟨ha.given b hb i hi v hv, fun j hj => ha.reads b hb i hi hop j (hj ▸ hv)⟩
  · intro b hb i hi hop v u hvu _
    exact .inr ⟨ha.given b hb i hi v (of_mem_zip hvu).1,
      fun j hj => ha.takes b hb i hi hop j u (hj ▸ hvu)⟩

/-- A well-formed definition is accepted when all its blocks can be reached and its operands name no
branches. -/
theorem Formed.accepted (hf : m.Formed f e)
    (hall : ∀ b ∈ (m.func f).blocks, Reached m.successors e b)
    (hidle : ∀ i ∈ m.body f, ∀ v ∈ (m.instr i).operands, ¬m.Idle v) :
    m.functionDefects f = .ok [] := by
  have hread : ∀ {b i v}, b ∈ (m.func f).blocks → i ∈ (m.block b).instrs → (m.instr i).op ≠ .phi →
      v ∈ (m.instr i).operands → _ := fun {b i v} hb hi hop hv =>
    Homed.home (hf.reads b hb (hall b hb) i hi hop v hv)
      (hidle i (hl.mem_body_of_mem hb hi) v hv)
  have htake : ∀ {b i v u}, b ∈ (m.func f).blocks → i ∈ (m.block b).instrs →
      (m.instr i).op = .phi → (v, some u) ∈ (m.instr i).operands.zip (m.instr i).blocks → _ :=
    fun {b i v u} hb hi hop hvu => Homed.home (hf.takes b hb i hi hop v u hvu
      (hall u (mem_predecessors.1 ((hf.phis b hb i hi hop).fits.source hvu)).1))
      (hidle i (hl.mem_body_of_mem hb hi) v (of_mem_zip hvu).1)
  refine Admitted.accepted hl ⟨hf.toEnclosed, fun b hb i hi hop => (hf.phis b hb i hi hop).fits,
    fun b hb i hi v hv => ?_, fun b hb i hi hop j hj => ?_, fun b hb i hi hop j u hju => ?_⟩
  · by_cases hop : (m.instr i).op = .phi
    · obtain ⟨n, hn⟩ := getElem?_of_mem hv
      obtain ⟨u, -, huse⟩ := (hf.phis b hb i hi hop).fits.use hn
      exact (htake hb hi hop (mem_of_getElem? (getElem?_zip_eq_some.2 ⟨hn, huse⟩))).1
    · exact (hread hb hi hop hv).1
  · obtain ⟨h, hp, -, hd⟩ := (hread hb hi hop hj).2 j rfl
    exact ⟨h, hp, hd⟩
  · obtain ⟨h, hp, -, hd⟩ := (htake hb hi hop hju).2 j rfl
    exact ⟨h, hp, hd⟩

end Acceptance

end Qirc.IR.Module
