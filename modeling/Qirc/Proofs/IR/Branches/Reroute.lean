import Qirc.IR.Pass.Branches
import Qirc.Proofs.IR.Formed
import Qirc.Proofs.Step

/-!
# Changing branches and phis

Three of the rules leave the instructions where they are: they give branches other targets, take
blocks off the function and drop entries of phis. What such a change must keep for the function to
stay well-formed is said once here, together with what dropping the entries of phis does.
-/

namespace Qirc.IR

open List

def Instr.without (x : Instr) (pred : Option BlockId) : Instr :=
  { x with
    operands := ((x.operands.zip x.blocks).filter (fun p => p.2 ≠ pred)).map (·.1)
    blocks := ((x.operands.zip x.blocks).filter (fun p => p.2 ≠ pred)).map (·.2) }

namespace Instr

variable {x : Instr} {pred : Option BlockId}

theorem without_length : (x.without pred).operands.length = (x.without pred).blocks.length := by
  simp [without]

theorem without_zip :
    (x.without pred).operands.zip (x.without pred).blocks =
      (x.operands.zip x.blocks).filter (fun p => p.2 ≠ pred) :=
  (zip_of_prod rfl rfl).symm

theorem without_without : (x.without pred).without pred = x.without pred := by
  have h : ((x.without pred).operands.zip (x.without pred).blocks).filter (fun p => p.2 ≠ pred) =
      (x.operands.zip x.blocks).filter (fun p => p.2 ≠ pred) := by
    rw [without_zip]
    simp
  rw [without, h]
  rfl

theorem without_blocks (hlen : x.operands.length = x.blocks.length) :
    (x.without pred).blocks = x.blocks.filter (fun b => b ≠ pred) := by
  have h : x.blocks = (x.operands.zip x.blocks).map (·.2) :=
    (map_snd_zip (Nat.le_of_eq hlen.symm)).symm
  conv => rhs; rw [h, filter_map]
  rfl

theorem without_operands {v : Value} (h : v ∈ (x.without pred).operands) : v ∈ x.operands := by
  obtain ⟨⟨v, b⟩, hp, rfl⟩ := mem_map.1 h
  exact (of_mem_zip (mem_filter.1 hp).1).1

end Instr

theorem keptIncoming_eq {pred : Option BlockId} {bs : List (Option BlockId)} {vs : List Value}
    (hlen : vs.length = bs.length) :
    keptIncoming pred bs vs = ((vs.zip bs).filter fun p => p.2 ≠ pred, false) := by
  induction bs generalizing vs with
  | nil =>
    cases vs with
    | nil => rfl
    | cons => cases hlen
  | cons b bs ih =>
    cases vs with
    | nil => cases hlen
    | cons v vs =>
      simp only [keptIncoming, tail_cons, ih (Nat.succ.inj hlen), zip_cons_cons]
      split
      · rename_i hb
        rw [filter_cons_of_neg (by simp [hb])]
      · rename_i hb
        rw [filter_cons_of_pos (by simp [hb])]

namespace Module

variable {m m' : Module} {f : FuncId} {e b c : BlockId}

theorem removeIncoming_ok {phi : InstrId} {pred : Option BlockId}
    (hlen : (m.instr phi).operands.length = (m.instr phi).blocks.length) :
    removeIncoming phi pred m = .ok () (m.updateInstr phi (·.without pred)) := by
  have hrun : removeIncoming phi pred m = .ok () (m.updateInstr phi (fun x => { x with
      operands := ((m.instr phi).without pred).operands
      blocks := ((m.instr phi).without pred).blocks })) := by
    refine Step.bind_ok.2 ⟨m, m, rfl, ?_⟩
    rw [keptIncoming_eq hlen]
    rfl
  rw [hrun]
  congr 1
  exact updateInstr_congr m rfl

theorem removeIncomingEach_ok {pred : BlockId} {is : List InstrId}
    (hlen : ∀ i ∈ is, (m.instr i).operands.length = (m.instr i).blocks.length) :
    removeIncomingEach pred is m = .ok () (m.updateEach (·.without (some pred)) is) := by
  induction is generalizing m with
  | nil => rfl
  | cons i is ih =>
    rw [forall_mem_cons] at hlen
    refine Step.bind_ok.2 ⟨(), _, removeIncoming_ok hlen.1, ih fun j hj => ?_⟩
    rw [updateInstr_instr]
    split
    · exact Instr.without_length
    · exact hlen.2 j hj

/-! ## The phis at branch targets -/

theorem phis_congr (hi : ∀ c, (m'.block c).instrs = (m.block c).instrs)
    (ho : ∀ x, (m'.instr x).op = (m.instr x).op) (c : BlockId) : m'.phis c = m.phis c := by
  unfold phis
  rw [hi]
  simp [ho]

section AtTargets

variable (m) (change : Instr → Instr)

def atTargets (m : Module) : List (Option BlockId) → Module
  | [] => m
  | none :: ts => m.atTargets ts
  | some c :: ts => (m.updateEach change (m.phis c)).atTargets ts

theorem atTargets_eq (ts : List (Option BlockId)) :
    m.atTargets change ts = { m with instrTable := (m.atTargets change ts).instrTable } := by
  induction ts generalizing m with
  | nil => rfl
  | cons t ts ih =>
    cases t with
    | none => exact ih m
    | some c =>
      exact (ih (m.updateEach change (m.phis c))).trans (congrArg (fun m' : Module =>
        { m' with instrTable := (m.atTargets change (some c :: ts)).instrTable })
        (updateEach_eq m change (m.phis c)))

@[simp] theorem atTargets_block (ts : List (Option BlockId)) (b : BlockId) :
    (m.atTargets change ts).block b = m.block b := by
  rw [atTargets_eq]
  rfl

@[simp] theorem atTargets_func (ts : List (Option BlockId)) (f : FuncId) :
    (m.atTargets change ts).func f = m.func f := by
  rw [atTargets_eq]
  rfl

theorem atTargets_size (ts : List (Option BlockId)) :
    (m.atTargets change ts).instrTable.size = m.instrTable.size := by
  induction ts generalizing m with
  | nil => rfl
  | cons t ts ih =>
    cases t with
    | none => exact ih m
    | some c => exact (ih _).trans (updateEach_size m change _)

variable (hop : ∀ x, (change x).op = x.op)

include hop

theorem updateEach_phis (is : List InstrId) (c : BlockId) :
    (m.updateEach change is).phis c = m.phis c := by
  refine phis_congr (fun c => by rw [updateEach_block]) (fun x => ?_) c
  induction is generalizing m with
  | nil => rfl
  | cons i is ih =>
    rw [updateEach_cons, ih, updateInstr_instr]
    split
    · exact hop _
    · rfl

variable (hid : ∀ x, change (change x) = change x) {ts : List (Option BlockId)} {x : InstrId}

include hid

theorem atTargets_of_not_mem (hx : ∀ c, some c ∈ ts → x ∉ m.phis c) :
    (m.atTargets change ts).instr x = m.instr x := by
  induction ts generalizing m with
  | nil => rfl
  | cons t ts ih =>
    cases t with
    | none => exact ih m fun c hc => hx c (mem_cons_of_mem _ hc)
    | some d =>
      unfold atTargets
      rw [ih, updateEach_instr m change hid, if_neg fun h => hx d mem_cons_self h.1]
      intro c hc
      rw [updateEach_phis m change hop]
      exact hx c (mem_cons_of_mem _ hc)

theorem atTargets_of_mem (hc : some c ∈ ts) (hx : x ∈ m.phis c) (hlt : x < m.instrTable.size) :
    (m.atTargets change ts).instr x = change (m.instr x) := by
  induction ts generalizing m c with
  | nil => cases hc
  | cons t ts ih =>
    cases t with
    | none =>
      obtain h | hc := mem_cons.1 hc
      · cases h
      · exact ih m hc hx hlt
    | some d =>
      unfold atTargets
      have hinstr := updateEach_instr m change hid (m.phis d) x
      by_cases hmore : ∃ c, some c ∈ ts ∧ x ∈ m.phis c
      · obtain ⟨c, hc, hx⟩ := hmore
        rw [ih _ hc (by rwa [updateEach_phis m change hop]) (by rwa [updateEach_size]), hinstr]
        split
        · exact hid _
        · rfl
      · obtain h | h := mem_cons.1 hc
        · cases h
          rw [atTargets_of_not_mem _ change hop hid, hinstr, if_pos ⟨hx, hlt⟩]
          intro c' hc'
          rw [updateEach_phis m change hop]
          exact fun hx' => hmore ⟨c', hc', hx'⟩
        · exact absurd ⟨c, h, hx⟩ hmore

end AtTargets

theorem PhiOk.without {x : Instr} {preds : List BlockId} (h : PhiOk m x preds) (b : BlockId) :
    PhiOk m (x.without (some b)) (preds.filter (· ≠ b)) := by
  refine ⟨Instr.without_length, ?_, fun v hv => h.types v (Instr.without_operands hv)⟩
  rw [Instr.without_blocks h.length]
  have hfilter := h.blocks.filter fun c => c ≠ some b
  rw [filter_map] at hfilter
  simpa [Function.comp_def] using hfilter

/-! ## Well-formed after a change -/

/-- A function whose instructions are where they were, and whose branches, blocks and phis changed
together. -/
structure Rerouted (f : FuncId) (e : BlockId) (m m' : Module) : Prop where
  edited : Edited f m m'
  entry : m'.entry? f = some e
  blocks : ∀ b ∈ (m'.func f).blocks, b ∈ (m.func f).blocks
  kept : ∀ b, Reached m.successors e b → b ∈ (m'.func f).blocks
  instrs : ∀ b, (m'.block b).instrs = (m.block b).instrs
  parent : ∀ i, (m'.instr i).parent = (m.instr i).parent
  ends : ∀ i, (m'.instr i).op.isTerminator = (m.instr i).op.isTerminator
  phi : ∀ i, (m'.instr i).op = .phi ↔ (m.instr i).op = .phi
  targets : ∀ b ∈ (m'.func f).blocks, ∀ t ∈ m'.targets b,
    ∃ c ∈ (m'.func f).blocks, t = some c ∧ c ≠ e
  typed : ∀ b ∈ (m'.func f).blocks, ∀ i ∈ (m.block b).instrs, (m.instr i).op ≠ .phi →
    m'.instrDefect? f (m'.instr i) [] = .ok none
  phis : ∀ b ∈ (m'.func f).blocks, ∀ i ∈ (m.block b).instrs, (m.instr i).op = .phi →
    PhiOk m' (m'.instr i) (m'.predecessors f b)
  operands : ∀ i, (m.instr i).op ≠ .phi → ∀ v ∈ (m'.instr i).operands, v ∈ (m.instr i).operands
  entries : ∀ i, (m.instr i).op = .phi →
    ∀ p ∈ (m'.instr i).operands.zip (m'.instr i).blocks,
      p ∈ (m.instr i).operands.zip (m.instr i).blocks
  reached : ∀ b, Reached m'.successors e b → Reached m.successors e b
  -- A block that only branches defines nothing and may lose what it dominates.
  dominates : ∀ h b j, j ∈ (m.block h).instrs → (m.instr j).op.isTerminator = false →
    h ∈ (m.func f).blocks → Dominates m.successors e h b → Dominates m'.successors e h b

theorem Formed.rerouted (hl : m.Linked) (hl' : m'.Linked) (hf : m.Formed f e)
    (hm : Rerouted f e m m') : m'.Formed f e := by
  have hterm : ∀ b, m'.terminator? b = m.terminator? b := fun b =>
    terminator?_congr (hm.instrs b) fun i _ => hm.ends i
  have hphi : ∀ i, (m'.instr i).op ≠ .phi ↔ (m.instr i).op ≠ .phi :=
    fun i => not_congr (hm.phi i)
  -- The home of an operand that is read at a reachable place is reachable itself.
  have hhome : ∀ {j h}, (m.instr j).parent = some h → Reached m.successors e h →
      (m'.instr j).parent = some h ∧ (m'.block h).parent = some f := fun {j h} hp hr =>
    ⟨(hm.parent j).trans hp, (hl'.block f h).1 (hm.kept h hr)⟩
  have hidle : ∀ {v}, m.Idle v → m'.Idle v := by
    intro v
    simp [Idle, hm.ends]
  have hdom : ∀ {j h b}, (m.instr j).op.isTerminator = false → (m.instr j).parent = some h →
      (m.block h).parent = some f → Dominates m.successors e h b →
      Dominates m'.successors e h b := fun {j h b} hj hp hh hd =>
    hm.dominates h b j ((hl.instr h j).2 hp) hj ((hl.block f h).2 hh) hd
  refine ⟨⟨hm.entry, ?_, ?_, ?_, ?_, ?_, ?_⟩, ?_, ?_, ?_⟩
  · intro b hb
    rw [hterm]
    exact hf.ended b (hm.blocks b hb)
  · intro b hb i j hs
    rw [hm.instrs] at hs
    rw [hm.ends]
    exact hf.inner b (hm.blocks b hb) i j hs
  · intro b hb i j hs
    rw [hm.instrs] at hs
    rw [hm.phi, hm.phi]
    exact hf.phisFirst b (hm.blocks b hb) i j hs
  · intro b hb t ht
    obtain ⟨c, hc, htc, -⟩ := hm.targets b hb t ht
    exact ⟨c, hc, htc⟩
  · intro b hb ht
    obtain ⟨c, -, htc, hce⟩ := hm.targets b hb _ ht
    exact hce (Option.some.inj htc.symm)
  · intro b hb i hi hop
    rw [hm.instrs] at hi
    exact hm.typed b hb i hi ((hphi i).1 hop)
  · intro b hb i hi hop
    rw [hm.instrs] at hi
    exact hm.phis b hb i hi ((hm.phi i).1 hop)
  · intro b hb hr i hi hop v hv
    rw [hm.instrs] at hi
    have hr := hm.reached b hr
    have hready := hf.reads b (hm.blocks b hb) hr i hi ((hphi i).1 hop) v
      (hm.operands i ((hphi i).1 hop) v hv)
    refine Homed.edited hready hm.edited hidle fun j h _ hj hp hh hd => ?_
    rw [hm.instrs]
    obtain ⟨rfl, hs⟩ | ⟨hne, hd⟩ := hd
    · exact ⟨h, (hhome hp hr).1, (hhome hp hr).2, .inl ⟨rfl, hs⟩⟩
    · have hrh := hd.reached hr
      exact ⟨h, (hhome hp hrh).1, (hhome hp hrh).2, .inr ⟨hne, hdom hj hp hh hd⟩⟩
  · intro b hb i hi hop v u hvu hr
    rw [hm.instrs] at hi
    have hr := hm.reached u hr
    have hop := (hm.phi i).1 hop
    have hcarried := hf.takes b (hm.blocks b hb) i hi hop v u (hm.entries i hop _ hvu) hr
    refine Homed.edited hcarried hm.edited hidle fun j h _ hj hp hh hd => ?_
    have hrh := hd.reached hr
    exact ⟨h, (hhome hp hrh).1, (hhome hp hrh).2, hdom hj hp hh hd⟩

end Module

end Qirc.IR
