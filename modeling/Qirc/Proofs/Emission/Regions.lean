import Qirc.Proofs.Emission.Operands
import Qirc.Proofs.Graph.Order

/-!
# The shape of an emission

What the emission of a node consists of, kind by kind, and what it leaves alone: the values kept for
ports outside the node and what it contains, and every block that was there before but the current
one.
-/

namespace Qirc

open List Step IR Cursor IR.Module Graph

/-! ## Values of ports -/

section Ports

variable {α β : Type}

theorem portValue_cons (q : Port) (a : α) (kept : List (Port × α)) (p : Port) :
    portValue ((q, a) :: kept) p = if q = p then some a else portValue kept p := by
  unfold portValue
  rw [find?_cons]
  by_cases h : q = p
  · simp [h]
  · rw [if_neg h, beq_false_of_ne h]

theorem portValue_keepFrom_ne (id : NodeId) (k : Nat) (as : List α) (kept : List (Port × α))
    {p : Port} (h : p.node ≠ id) : portValue (keepFrom id k as kept) p = portValue kept p := by
  induction as generalizing k kept with
  | nil => rfl
  | cons a as ih =>
    have hne : (⟨id, k⟩ : Port) ≠ p := by
      rintro rfl
      exact h rfl
    rw [keepFrom, ih, portValue_cons, if_neg hne]

theorem portValue_keep_ne (id : NodeId) (as : List α) (kept : List (Port × α)) {p : Port}
    (h : p.node ≠ id) : portValue (keep id as kept) p = portValue kept p :=
  portValue_keepFrom_ne id 0 as kept h

/-- What is kept for a port after a binding is the new value of that position or was there before. -/
theorem portValue_keepFrom_at (id : NodeId) (k : Nat) (as : List α) (kept : List (Port × α))
    (p : Port) {a : α} (h : portValue (keepFrom id k as kept) p = some a) :
    (∃ i : Nat, p = ⟨id, ((k + i : Nat) : Int)⟩ ∧ as[i]? = some a) ∨ portValue kept p = some a := by
  induction as generalizing k kept with
  | nil => exact .inr h
  | cons b as ih =>
    obtain ⟨i, hp, hi⟩ | h := ih (k + 1) _ h
    · refine .inl ⟨i + 1, ?_, by simpa using hi⟩
      rw [hp, show k + 1 + i = k + (i + 1) by omega]
    · rw [portValue_cons] at h
      split at h
      · rename_i hp
        cases h
        exact .inl ⟨0, hp.symm, rfl⟩
      · exact .inr h

theorem portValue_keepFrom_map (f : α → β) (id : NodeId) (k : Nat) (as : List α)
    (kept : List (Port × α)) (kept' : List (Port × β)) (p : Port)
    (h : portValue kept' p = (portValue kept p).map f) :
    portValue (keepFrom id k (as.map f) kept') p = (portValue (keepFrom id k as kept) p).map f := by
  induction as generalizing k kept kept' with
  | nil => exact h
  | cons a as ih =>
    apply ih
    rw [portValue_cons, portValue_cons, h]
    split <;> rfl

end Ports

namespace Emission

/-! ## Taking an emission apart -/

variable {id : NodeId} {k : Nat} {vs : List Value} {s t : State} {u : Unit}

theorem bindFrom_ok :
    bindFrom id k vs s = .ok u t ↔ t = { s with values := keepFrom id k vs s.values } := by
  induction vs generalizing k s with
  | nil =>
    rw [bindFrom, pure_ok]
    exact ⟨fun h => h.2.symm, fun h => ⟨rfl, h.symm⟩⟩
  | cons v vs ih =>
    simp only [bindFrom, bind_ok, modify_ok]
    constructor
    · rintro ⟨_, _, rfl, h⟩
      exact ih.1 h
    · intro h
      exact ⟨⟨⟩, _, rfl, ih.2 h⟩

theorem keep_ok :
    bind id vs s = .ok u t ↔ t = { s with values := keep id vs s.values } := bindFrom_ok

variable {α : Type} {a : α} {x : Step Cursor α}

theorem onCursor_ok :
    onCursor x s = .ok a t ↔ ∃ c, x s.cursor = .ok a c ∧ t = { s with cursor := c } :=
  zoom_ok

variable {g : Graph} {v : Value}

theorem input_ok (h : input g id k s = .ok v t) :
    t = s ∧ (g.source? ⟨id, k⟩).bind (portValue s.values) = some v := by
  unfold input at h
  cases hsrc : g.source? ⟨id, k⟩ with
  | none =>
    rw [hsrc] at h
    exact (throw_ok.1 h).elim
  | some src =>
    rw [hsrc] at h
    obtain ⟨a, t', hget, hread⟩ := bind_ok.1 h
    obtain ⟨rfl, rfl⟩ := get_ok.1 hget
    cases he : t'.values.find? (fun e => e.1 == src) with
    | none =>
      rw [he] at hread
      exact (throw_ok.1 hread).elim
    | some e =>
      rw [he] at hread
      obtain ⟨rfl, rfl⟩ := pure_ok.1 hread
      simp [portValue, he]

theorem mapM_input_ok {ks : List Nat} (h : ks.mapM (input g id) s = .ok vs t) :
    t = s ∧ ks.mapM (fun k : Nat => (g.source? ⟨id, k⟩).bind (portValue s.values)) = some vs := by
  induction ks generalizing s vs with
  | nil =>
    obtain ⟨rfl, rfl⟩ := mapM_nil_ok.1 h
    simp
  | cons k ks ih =>
    obtain ⟨v, u, rest, hv, hrest, rfl⟩ := mapM_cons_ok.1 h
    obtain ⟨rfl, hv⟩ := input_ok hv
    obtain ⟨rfl, hrest⟩ := ih hrest
    simp [hv, hrest]

theorem inputs_ok (h : inputs g id s = .ok vs t) : t = s ∧ g.inputValues s.values id = some vs := by
  unfold inputs at h
  cases hn : g.node? id with
  | none =>
    rw [hn] at h
    exact (throw_ok.1 h).elim
  | some n =>
    rw [hn] at h
    obtain ⟨rfl, hvs⟩ := mapM_input_ok h
    exact ⟨rfl, by simp [inputValues, hn, hvs]⟩

namespace State

def append (s : State) (x : Instr) : State :=
  { s with cursor := { s.cursor with module := (s.cursor.module.append s.cursor.block x).2 } }

def moveTo (s : State) (b : BlockId) : State := { s with cursor := { s.cursor with block := b } }

def addBlock (s : State) (f : FuncId) (hint : String) : State :=
  { s with cursor := { s.cursor with module := (s.cursor.module.addBlock f hint).2 } }

def function (s : State) : FuncId := ((s.cursor.module.block s.cursor.block).parent).getD 0

/-- The blocks of a conditional, ready to be filled. They follow one another: the one for false, the
one for true, and the one where both go on. -/
def fork (s : State) (predicate : Value) : State :=
  let b := s.cursor.module.blockTable.size
  (((s.addBlock s.function "cond.false").addBlock s.function "cond.true").addBlock
    s.function "cond.end").append (Instr.condBr predicate (some (b + 1)) (some b))

end State

/-- The cases of a conditional in blocks that follow the old ones, and the phis in which they meet. -/
structure CasesEmitted (region : RegionEmitter) (ts : List ValueType) (predicate : Value)
    (args : List Value) (no yes : NodeId) (vs ws phis : List Value) (b : Nat)
    (s s1 s2 s3 : State) : Prop where
  size : s.cursor.module.blockTable.size = b
  runNo : region no args ((s.fork predicate).moveTo b) = .ok vs s1
  countNo : vs.length = ts.length
  runYes : region yes args ((s1.append (Instr.br (some (b + 2)))).moveTo (b + 1)) = .ok ws s2
  countYes : ws.length = ts.length
  phis : mergeCases s1.cursor.block s2.cursor.block ts vs ws
    ((s2.append (Instr.br (some (b + 2)))).moveTo (b + 2)) = .ok phis s3

inductive NodeEmitted (g : Graph) (region : RegionEmitter) (id : NodeId) (n : Node) (s : State) :
    State → Prop
  | const {v : Value} {s' : State} (hk : n.kind = .const)
      (hv : constant n.body.const s = .ok v s') :
      NodeEmitted g region id n s { s' with values := keep id [v] s'.values }
  | op {args vs : List Value} {c : Cursor} (hk : n.kind = .op)
      (hargs : g.inputValues s.values id = some args)
      (hl : n.body.op.lower n.sig args s.cursor = .ok vs c) :
      NodeEmitted g region id n s
        { s with cursor := c, operations := s.operations + 1, values := keep id vs s.values }
  | call {e : NodeId × FuncId} {args : List Value} {v : Value} {c : Cursor} (hk : n.kind = .call)
      (he : s.functions.find? (fun e => some e.1 == n.body.callee) = some e)
      (hargs : g.inputValues s.values id = some args)
      (hc : Cursor.call e.2 args s.cursor = .ok v c) :
      NodeEmitted g region id n s
        { s with
          cursor := c
          values := if n.sig.outputs.length = 1 then keep id [v] s.values else s.values }
  | dfg {args vs : List Value} {s' : State} (hk : n.kind = .dfg)
      (hargs : g.inputValues s.values id = some args) (hr : region id args s = .ok vs s') :
      NodeEmitted g region id n s { s' with values := keep id vs s'.values }
  | conditional {predicate : Value} {args vs ws phis : List Value} {no yes : NodeId} {b : Nat}
      {s1 s2 s3 : State} (hk : n.kind = .conditional)
      (hargs : g.inputValues s.values id = some (predicate :: args))
      (hch : n.children = [no, yes])
      (h : CasesEmitted region n.sig.outputs predicate args no yes vs ws phis b s s1 s2 s3) :
      NodeEmitted g region id n s { s3 with values := keep id phis s3.values }

theorem setBlock_ok {b : BlockId} : setBlock b s = .ok u t ↔ t = s.moveTo b := modify_ok

theorem emit_ok {build : Module → Instr} :
    onCursor (emit build) s = .ok v t ↔
      v = .instr s.cursor.module.instrTable.size ∧ t = s.append (build s.cursor.module) := by
  rw [onCursor_ok]
  simp only [Cursor.emit_ok]
  constructor
  · rintro ⟨_, ⟨rfl, rfl⟩, rfl⟩
    exact ⟨rfl, rfl⟩
  · rintro ⟨rfl, rfl⟩
    exact ⟨_, ⟨rfl, rfl⟩, rfl⟩

theorem addBlock_ok {f : FuncId} {hint : String} {b : BlockId} :
    onModule (fun m => m.addBlock f hint) s = .ok b t ↔
      b = s.cursor.module.blockTable.size ∧ t = s.addBlock f hint := by
  unfold onModule
  simp only [addBlock_id, EStateM.Result.ok.injEq]
  exact ⟨fun h => ⟨h.1.symm, h.2.symm⟩, fun h => ⟨h.1.symm, h.2.symm⟩⟩

variable {region : RegionEmitter} {args : List Value}

theorem caseBranch_ok {outputs index : Nat} {case : NodeId} {block merge last : BlockId}
    (h : caseBranch region outputs index case block merge args s = .ok (last, vs) t) :
    ∃ s', region case args (s.moveTo block) = .ok vs s' ∧ vs.length = outputs ∧
      last = s'.cursor.block ∧ t = s'.append (Instr.br (some merge)) := by
  obtain ⟨_, s0, hset, h1⟩ := bind_ok.1 h
  rw [setBlock_ok.1 hset] at h1
  obtain ⟨vs', s', hr, h2⟩ := bind_ok.1 h1
  rcases ite_ok.1 h2 with ⟨-, h3⟩ | ⟨hlen, h3⟩
  · obtain ⟨_, _, ht, -⟩ := bind_ok.1 h3
    exact (throw_ok.1 ht).elim
  obtain ⟨_, s2, hget, h4⟩ := bind_ok.1 h3
  obtain ⟨rfl, rfl⟩ := get_ok.1 hget
  obtain ⟨_, s3, hemit, h5⟩ := bind_ok.1 h4
  obtain ⟨-, rfl⟩ := emit_ok.1 hemit
  obtain ⟨hpair, rfl⟩ := pure_ok.1 h5
  cases hpair
  exact ⟨_, hr, by simpa using hlen, rfl, rfl⟩

theorem conditional_emitted {n : Node} (hk : n.kind = .conditional)
    (h : conditional g region id n s = .ok u t) : NodeEmitted g region id n s t := by
  obtain ⟨ins, s0, hins, h0⟩ := bind_ok.1 h
  obtain ⟨rfl, hargs⟩ := inputs_ok hins
  cases ins with
  | nil => exact (throw_ok.1 h0).elim
  | cons predicate args =>
    match hch : n.children, h0 with
    | [no, yes], h0 =>
      obtain ⟨_, s1, hget, h1⟩ := bind_ok.1 h0
      obtain ⟨rfl, rfl⟩ := get_ok.1 hget
      obtain ⟨b0, s2, hb0, h2⟩ := bind_ok.1 h1
      obtain ⟨rfl, rfl⟩ := addBlock_ok.1 hb0
      obtain ⟨b1, s3, hb1, h3⟩ := bind_ok.1 h2
      obtain ⟨rfl, rfl⟩ := addBlock_ok.1 hb1
      obtain ⟨b2, s4, hb2, h4⟩ := bind_ok.1 h3
      obtain ⟨rfl, rfl⟩ := addBlock_ok.1 hb2
      obtain ⟨_, s5, hemit, h5⟩ := bind_ok.1 h4
      obtain ⟨-, rfl⟩ := emit_ok.1 hemit
      obtain ⟨⟨endNo, vs⟩, s6, hcase, h6⟩ := bind_ok.1 h5
      obtain ⟨s7, hno, hvs, rfl, rfl⟩ := caseBranch_ok hcase
      obtain ⟨⟨endYes, ws⟩, s8, hcase', h7⟩ := bind_ok.1 h6
      obtain ⟨s9, hyes, hws, rfl, rfl⟩ := caseBranch_ok hcase'
      obtain ⟨_, s10, hset, h8⟩ := bind_ok.1 h7
      rw [setBlock_ok.1 hset] at h8
      obtain ⟨phis, s11, hphis, h9⟩ := bind_ok.1 h8
      rw [keep_ok.1 h9]
      simp only [State.addBlock, addBlock_blocks_size] at hno hyes hphis
      exact .conditional hk hargs hch ⟨rfl, hno, hvs, hyes, hws, hphis⟩
    | [], h0 => exact (throw_ok.1 h0).elim
    | [_], h0 => exact (throw_ok.1 h0).elim
    | _ :: _ :: _ :: _, h0 => exact (throw_ok.1 h0).elim

theorem call_emitted {n : Node} (hk : n.kind = .call) (h : call g id n s = .ok u t) :
    NodeEmitted g region id n s t := by
  obtain ⟨_, s1, hget, h1⟩ := bind_ok.1 h
  obtain ⟨rfl, rfl⟩ := get_ok.1 hget
  cases he : s1.functions.find? (fun e => some e.1 == n.body.callee) with
  | none =>
    rw [he] at h1
    exact (throw_ok.1 h1).elim
  | some e =>
    rw [he] at h1
    obtain ⟨args, s2, hins, h2⟩ := bind_ok.1 h1
    obtain ⟨rfl, hargs⟩ := inputs_ok hins
    obtain ⟨v, s3, hcall, h3⟩ := bind_ok.1 h2
    obtain ⟨c, hc, rfl⟩ := onCursor_ok.1 hcall
    have ht : t = { s2 with
        cursor := c
        values := if n.sig.outputs.length = 1 then keep id [v] s2.values else s2.values } := by
      rcases ite_ok.1 h3 with ⟨hone, h4⟩ | ⟨hone, h4⟩
      · rw [keep_ok.1 h4, if_pos hone]
      obtain ⟨-, rfl⟩ := pure_ok.1 h4
      rw [if_neg hone]
    rw [ht]
    exact .call hk he hargs hc

theorem node_emitted (h : node g region id s = .ok u t) :
    ∃ n, g.node? id = some n ∧ NodeEmitted g region id n s t := by
  unfold node at h
  cases hn : g.node? id with
  | none =>
    rw [hn] at h
    exact (throw_ok.1 h).elim
  | some n =>
    rw [hn] at h
    refine ⟨n, rfl, ?_⟩
    dsimp only at h
    cases hk : n.kind with
    | const =>
      rw [hk] at h
      obtain ⟨v, s1, hv, h1⟩ := bind_ok.1 h
      rw [keep_ok.1 h1]
      exact .const hk hv
    | op =>
      rw [hk] at h
      obtain ⟨args, s1, hins, h1⟩ := bind_ok.1 h
      obtain ⟨rfl, hargs⟩ := inputs_ok hins
      obtain ⟨vs, s2, hl, h2⟩ := bind_ok.1 h1
      obtain ⟨c, hc, rfl⟩ := onCursor_ok.1 (inContext_ok.1 hl)
      obtain ⟨_, s3, hmod, h3⟩ := bind_ok.1 h2
      rw [modify_ok.1 hmod] at h3
      rw [keep_ok.1 h3]
      exact .op hk hargs hc
    | call =>
      rw [hk] at h
      exact call_emitted hk h
    | dfg =>
      rw [hk] at h
      obtain ⟨args, s1, hins, h1⟩ := bind_ok.1 h
      obtain ⟨rfl, hargs⟩ := inputs_ok hins
      obtain ⟨vs, s2, hr, h2⟩ := bind_ok.1 h1
      rw [keep_ok.1 h2]
      exact .dfg hk hargs hr
    | conditional =>
      rw [hk] at h
      exact conditional_emitted hk h
    | _ =>
      rw [hk] at h
      exact (throw_ok.1 h).elim

/-- A region with the nodes between its boundary, in the order in which they are emitted. -/
structure RegionEmitted (g : Graph) (inner : RegionEmitter) (id : NodeId) (args outs : List Value)
    (s t : State) (n : Node) (first last : NodeId) (order ids : List NodeId) : Prop where
  node : g.node? id = some n
  isRegion : n.kind.isRegion = true
  children : ∃ rest, n.children = first :: last :: rest
  boundary : g.boundary id = .ok (first, last)
  sorted : g.order id = .ok order
  between : ids = order.filter fun c => c != first && c != last
  nodup : ids.Nodup
  child : ∀ c ∈ first :: last :: ids, ∃ k, g.node? c = some k ∧ k.parent = some id
  run : ids.forM (Emission.node g inner) { s with values := keep first args s.values } = .ok ⟨⟩ t
  outs : g.inputValues t.values last = some outs

theorem regionWith_ok (ha : g.Arena) {inner : RegionEmitter} {outs : List Value}
    (h : regionWith g inner id args s = .ok outs t) :
    ∃ n first last order ids, RegionEmitted g inner id args outs s t n first last order ids := by
  obtain ⟨⟨first, last⟩, s1, hbound, h1⟩ := bind_ok.1 h
  obtain ⟨hb, rfl⟩ := ofExcept_ok.1 hbound
  obtain ⟨_, s2, hbind, h2⟩ := bind_ok.1 h1
  rw [keep_ok.1 hbind] at h2
  obtain ⟨order, s3, horder, h3⟩ := bind_ok.1 h2
  obtain ⟨ho, rfl⟩ := ofExcept_ok.1 horder
  obtain ⟨_, s4, hfor, h4⟩ := bind_ok.1 h3
  obtain ⟨rfl, houts⟩ := inputs_ok h4
  obtain ⟨n, rest, hn, hr, hch⟩ := boundary_ok hb
  refine ⟨n, first, last, order, _, hn, hr, ⟨rest, hch⟩, hb, ho, rfl,
    (order_nodup ha ho).filter _, fun c hc => ?_, hfor, houts⟩
  have hmem : c ∈ n.children := by
    rw [mem_cons, mem_cons] at hc
    obtain rfl | rfl | hc := hc
    · simp [hch]
    · simp [hch]
    · exact mem_children_of_order ho hn (mem_filter.1 hc).1
  obtain ⟨k, hh⟩ := ha.child id n c hn hmem
  exact ⟨k, hh.node, hh.parent⟩

/-! ## The blocks of a conditional -/

variable {k : Nat}

/-- A conditional after its branch was written: three empty blocks follow the old ones. -/
structure Forked (k : Nat) (s f : State) (predicate : Value) (b : Nat) : Prop where
  within : s.cursor.module.Within f.cursor.module
  sound : f.cursor.module.Sound k
  values : f.values = s.values
  functions : f.functions = s.functions
  size : f.cursor.module.blockTable.size = b + 3
  others : ∀ x : Nat, x < b → x ≠ s.cursor.block →
    f.cursor.module.block x = s.cursor.module.block x
  current : (f.cursor.module.block s.cursor.block).instrs =
    (s.cursor.module.block s.cursor.block).instrs ++ [s.cursor.module.instrTable.size]
  branch : f.cursor.module.instr s.cursor.module.instrTable.size =
    { Instr.condBr predicate (some (b + 1)) (some b) with parent := some s.cursor.block }
  count : f.cursor.module.instrTable.size = s.cursor.module.instrTable.size + 1
  fresh : ∀ x : Nat, b ≤ x → (f.cursor.module.block x).instrs = []
  parent : ∀ x : Nat, b ≤ x → x < b + 3 →
    (f.cursor.module.block x).parent = (s.cursor.module.block s.cursor.block).parent

theorem fork_spec (hr : Ready k s.cursor) (predicate : Value) :
    Forked k s (s.fork predicate) predicate s.cursor.module.blockTable.size := by
  obtain ⟨f, hparent, hf⟩ := hr.parent
  have hb := hr.block
  let m0 := s.cursor.module
  let m1 := (m0.addBlock f "cond.false").2
  let m2 := (m1.addBlock f "cond.true").2
  let m3 := (m2.addBlock f "cond.end").2
  have hz1 : m1.blockTable.size = m0.blockTable.size + 1 := m0.addBlock_blocks_size ..
  have hz2 : m2.blockTable.size = m0.blockTable.size + 2 := by
    rw [show m2.blockTable.size = _ from m1.addBlock_blocks_size .., hz1]
  have hz3 : m3.blockTable.size = m0.blockTable.size + 3 := by
    rw [show m3.blockTable.size = _ from m2.addBlock_blocks_size .., hz2]
  have hold : ∀ b : Nat, b < m0.blockTable.size → m3.block b = m0.block b := by
    intro b hlt
    rw [m2.addBlock_block f _ b (by omega), m1.addBlock_block f _ b (by omega),
      m0.addBlock_block f _ b hlt]
  have hinstrs : ∀ b : Nat, (m3.block b).instrs = (m0.block b).instrs := by
    intro b
    rw [m2.addBlock_instrs, m1.addBlock_instrs, m0.addBlock_instrs]
  have hparents : ∀ b : Nat, m0.blockTable.size ≤ b → b < m0.blockTable.size + 3 →
      (m3.block b).parent = some f := by
    intro b hge hlt
    rcases Nat.lt_trichotomy b (m0.blockTable.size + 1) with h | rfl | h
    · rw [m2.addBlock_block f _ b (by omega), m1.addBlock_block f _ b (by omega),
        show b = m0.blockTable.size by omega]
      exact m0.addBlock_new_parent ..
    · rw [m2.addBlock_block f _ _ (by omega), ← hz1]
      exact m1.addBlock_new_parent ..
    · rw [show b = m2.blockTable.size by omega]
      exact m2.addBlock_new_parent ..
  have hwithin : m0.Within m3 :=
    ((addBlock_within m0 f _).trans (addBlock_within m1 f _)).trans
      (addBlock_within m2 f _)
  have hsound : m3.Sound k :=
    addBlock_sound (addBlock_sound (addBlock_sound hr.sound hf _) hf _) hf _
  have hfork : (s.fork predicate).cursor.module = (m3.append s.cursor.block
      (Instr.condBr predicate (some (m0.blockTable.size + 1)) (some m0.blockTable.size))).2 := by
    simp [State.fork, State.append, State.addBlock, State.function, hparent, m3, m2, m1, m0]
  have hcount : m3.instrTable.size = m0.instrTable.size := rfl
  have hb3 : s.cursor.block < m3.blockTable.size := by
    rw [hz3]
    exact Nat.lt_add_right 3 hb
  have hrest : (s.fork predicate).values = s.values ∧
      (s.fork predicate).functions = s.functions := by
    simp [State.fork, State.append, State.addBlock]
  refine ⟨?_, ?_, hrest.1, hrest.2, ?_, ?_, ?_, ?_, ?_, ?_, ?_⟩ <;> rw [hfork]
  · exact hwithin.trans (append_within ..)
  · exact append_sound hsound hb3
  · rw [m3.append_blocks_size, hz3]
  · intro b hlt hne
    rw [m3.append_block, if_neg fun h => hne h.1.symm, hold b hlt]
  · rw [m3.append_block, if_pos ⟨rfl, hb3⟩, hold _ hb]
    rfl
  · rw [m3.append_instr, if_pos hcount.symm]
  · rw [m3.append_instrs_size, hcount]
  · intro b hge
    have hne : s.cursor.block ≠ b := Nat.ne_of_lt (Nat.lt_of_lt_of_le hb hge)
    rw [m3.append_block, if_neg fun h => hne h.1, hinstrs, m0.block_of_size_le hge]
    rfl
  · intro b hge hlt
    rw [(append_within m3 _ _).parent b (hz3 ▸ hlt), hparents b hge hlt, hparent]

/-- The phis in which two cases meet: each reads its own value from either end. -/
structure Merged (k : Nat) (endNo endYes : BlockId) (vs ws : List Value) (s t : State)
    (ids : List InstrId) : Prop where
  within : s.cursor.module.Within t.cursor.module
  ready : Ready k t.cursor
  values : t.values = s.values
  functions : t.functions = s.functions
  block : t.cursor.block = s.cursor.block
  size : t.cursor.module.blockTable.size = s.cursor.module.blockTable.size
  others : ∀ b, b ≠ s.cursor.block → t.cursor.module.block b = s.cursor.module.block b
  current : (t.cursor.module.block s.cursor.block).instrs =
    (s.cursor.module.block s.cursor.block).instrs ++ ids
  fresh : ∀ i ∈ ids, s.cursor.module.instrTable.size ≤ i ∧ i < t.cursor.module.instrTable.size
  phi : ∀ i ∈ ids, (t.cursor.module.instr i).op = .phi
  fromNo : ids.map (fun i => t.cursor.module.incoming? i endNo) = vs.map some
  fromYes : endNo ≠ endYes → ids.map (fun i => t.cursor.module.incoming? i endYes) = ws.map some

theorem mergeCases_spec {endNo endYes : BlockId} {ts : List ValueType} {ws phis : List Value}
    (hr : Ready k s.cursor) (hv : vs.length = ts.length) (hw : ws.length = ts.length)
    (h : mergeCases endNo endYes ts vs ws s = .ok phis t) :
    (∃ ids, phis = ids.map Value.instr ∧ Merged k endNo endYes vs ws s t ids) ∧
      phis.length = ts.length ∧
      t.cursor.module.instrTable.size = s.cursor.module.instrTable.size + ts.length ∧
      ∀ (i : Nat) (vt : ValueType) (v w : Value), ts[i]? = some vt → vs[i]? = some v →
        ws[i]? = some w → phis[i]? = some (.instr (s.cursor.module.instrTable.size + i)) ∧
          ∃ ty, vt.ty = .ok ty ∧ t.cursor.module.instr (s.cursor.module.instrTable.size + i) =
            { Instr.phi ty [(v, some endNo), (w, some endYes)] with
              parent := some s.cursor.block } := by
  induction ts generalizing vs ws phis s with
  | nil =>
    obtain rfl := length_eq_zero_iff.1 hv
    obtain rfl := length_eq_zero_iff.1 hw
    obtain ⟨rfl, rfl⟩ := pure_ok.1 h
    exact ⟨⟨[], rfl, .refl _, hr, rfl, rfl, rfl, rfl, fun _ _ => rfl, by simp, by simp, by simp, rfl,
      fun _ => rfl⟩, by simp⟩
  | cons ty ts ih =>
    obtain ⟨v, vs, rfl⟩ := exists_cons_of_length_eq_add_one hv
    obtain ⟨w, ws, rfl⟩ := exists_cons_of_length_eq_add_one hw
    obtain ⟨irTy, s1, hty, h1⟩ := bind_ok.1 h
    obtain ⟨hvt, rfl⟩ := ofExcept_ok.1 hty
    obtain ⟨phi, s2, hphi, h2⟩ := bind_ok.1 h1
    obtain ⟨rfl, rfl⟩ := emit_ok.1 hphi
    obtain ⟨rest, s3, hrest, h3⟩ := bind_ok.1 h2
    obtain ⟨rfl, rfl⟩ := pure_ok.1 h3
    have hr' := append_ready (x := Instr.phi irTy [(v, some endNo), (w, some endYes)]) hr
    obtain ⟨⟨ids, rfl, hm⟩, hlen, hcount, hat⟩ :=
      ih hr' (by simpa using hv) (by simpa using hw) hrest
    simp only [State.append, append_instrs_size] at hcount hat
    have hw1 := append_within s1.cursor.module s1.cursor.block
      (Instr.phi irTy [(v, some endNo), (w, some endYes)])
    have hinstr : s3.cursor.module.instr s1.cursor.module.instrTable.size =
        { Instr.phi irTy [(v, some endNo), (w, some endYes)] with
          parent := some s1.cursor.block } := by
      rw [hm.within.instr _ (by simp [State.append])]
      simp [State.append, append_instr]
    refine ⟨⟨s1.cursor.module.instrTable.size :: ids, rfl, ⟨hw1.trans hm.within, hm.ready,
      hm.values, hm.functions, hm.block, ?_, ?_, ?_, ?_, ?_, ?_, ?_⟩⟩, by simp [hlen],
      by rw [length_cons]; omega, ?_⟩
    · rw [hm.size]
      simp [State.append]
    · intro b hne
      rw [hm.others b hne]
      simp only [State.append, append_block]
      rw [if_neg fun h => hne h.1.symm]
    · have := hm.current
      simp only [State.append, append_current hr.block] at this
      rw [this]
      simp
    · intro i hi
      rcases mem_cons.1 hi with rfl | hi
      · refine ⟨Nat.le_refl _, Nat.lt_of_lt_of_le ?_ hm.within.instrs⟩
        simp [State.append]
      · exact ⟨Nat.le_trans hw1.instrs (hm.fresh i hi).1, (hm.fresh i hi).2⟩
    · intro i hi
      rcases mem_cons.1 hi with rfl | hi
      · rw [hinstr]
        rfl
      · exact hm.phi i hi
    · rw [map_cons, hm.fromNo]
      simp [incoming?, hinstr, Instr.phi]
    · intro hne
      rw [map_cons, hm.fromYes hne]
      simp [incoming?, hinstr, Instr.phi, hne]
    · rintro (_ | i) vt v' w' h1 h2 h3
      · cases h1
        cases h2
        cases h3
        exact ⟨rfl, irTy, hvt, hinstr⟩
      · rw [← Nat.add_assoc, Nat.add_right_comm]
        exact hat i vt v' w' h1 h2 h3

/-! ## What an emission leaves alone -/

/-- An emission that keeps values for ports of the nodes in `inside` only. -/
structure Advances (k : Nat) (inside : NodeId → Prop) (s t : State) : Prop where
  start : Ready k s.cursor
  grows : Grows s.cursor t.cursor
  ready : Ready k t.cursor
  functions : t.functions = s.functions
  values : ∀ p, ¬inside p.node → portValue t.values p = portValue s.values p

namespace Advances

variable {inside inside' : NodeId → Prop} {s t u : State}

theorem refl (hr : Ready k s.cursor) : Advances k inside s s :=
  ⟨hr, .refl _, hr, rfl, fun _ _ => rfl⟩

variable (h : Advances k inside s t)

include h

theorem trans (h' : Advances k inside t u) : Advances k inside s u where
  start := h.start
  grows := h.grows.trans h.start.block h.ready.sound h'.grows
  ready := h'.ready
  functions := h'.functions.trans h.functions
  values p hp := (h'.values p hp).trans (h.values p hp)

theorem mono (hi : ∀ x, inside x → inside' x) : Advances k inside' s t :=
  ⟨h.start, h.grows, h.ready, h.functions, fun p hp => h.values p (fun hx => hp (hi _ hx))⟩

theorem keep {id : NodeId} (hid : inside id) (vs : List Value) :
    Advances k inside s { t with values := keep id vs t.values } where
  start := h.start
  grows := h.grows
  ready := h.ready
  functions := h.functions
  values p hp := by
    rw [portValue_keep_ne id vs t.values fun he => hp (he ▸ hid)]
    exact h.values p hp

end Advances

variable {inside : NodeId → Prop}

theorem advances_of_steady {c : Cursor} (hr : Ready k s.cursor) (hs : Steady k x)
    (h : x s.cursor = .ok a c) : Advances k inside s { s with cursor := c } := by
  obtain ⟨hr', hg, -⟩ := hs _ _ _ hr h
  exact ⟨hr, hg, hr', rfl, fun _ _ => rfl⟩

def Orderly (k : Nat) (g : Graph) (region : RegionEmitter) : Prop :=
  ∀ id args s outs t, Ready k s.cursor → region id args s = .ok outs t →
    Advances k (g.Under id) s t

theorem constant_advances {c : Payload} (hr : Ready k s.cursor) (h : constant c s = .ok v t) :
    Advances k inside s t ∧ Stays s.cursor t.cursor := by
  unfold constant at h
  cases hty : c.type with
  | bool | int | float =>
    rw [hty] at h
    obtain ⟨-, rfl⟩ := pure_ok.mp h
    exact ⟨.refl hr, .refl _⟩
  | string =>
    rw [hty] at h
    obtain ⟨c', hc, rfl⟩ := onCursor_ok.mp h
    have hs : Steady k (stringPtr c.text) := .stringPtr _
    exact ⟨advances_of_steady hr hs hc, (hs _ _ _ hr hc).2⟩
  | _ =>
    rw [hty] at h
    exact (throw_ok.mp h).elim

/-- The states a conditional goes through: it forks, fills the block for false and leaves it, does the
same with the block for true, and joins. -/
structure Split (k : Nat) (g : Graph) (region : RegionEmitter) (id : NodeId)
    (ts : List ValueType) (predicate : Value) (args : List Value) (no yes : NodeId)
    (vs ws : List Value) (ids : List InstrId) (b : Nat) (s f s1 t1 s2 t2 s3 : State) : Prop where
  start : Ready k s.cursor
  size : s.cursor.module.blockTable.size = b
  below : ∀ x, g.Under no x ∨ g.Under yes x → g.Under id x
  disjoint : ∀ x, g.Under yes x → ¬g.Under no x
  fork : Forked k s f predicate b
  runNo : region no args (f.moveTo b) = .ok vs s1
  inNo : Advances k (g.Under no) (f.moveTo b) s1
  leftNo : t1 = s1.append (Instr.br (some (b + 2)))
  leaveNo : Advances k (g.Under no) s1 t1
  runYes : region yes args (t1.moveTo (b + 1)) = .ok ws s2
  inYes : Advances k (g.Under yes) (t1.moveTo (b + 1)) s2
  leftYes : t2 = s2.append (Instr.br (some (b + 2)))
  leaveYes : Advances k (g.Under yes) s2 t2
  phis : mergeCases s1.cursor.block s2.cursor.block ts vs ws (t2.moveTo (b + 2)) =
    .ok (ids.map Value.instr) s3
  merged : Merged k s1.cursor.block s2.cursor.block vs ws (t2.moveTo (b + 2)) s3 ids

theorem append_advances (hr : Ready k s.cursor) {x : Instr} (hx : x.op ≠ .phi) :
    Advances k inside s (s.append x) :=
  ⟨hr, .append hr hx, append_ready hr, rfl, fun _ _ => rfl⟩

theorem split_of_emitted (ha : g.Arena) (ho : Orderly k g region) {s1 s2 s3 : State} {n : Node}
    {predicate : Value} {ws phis : List Value} {no yes : NodeId} {b : Nat}
    (hr : Ready k s.cursor) (hn : g.node? id = some n) (hch : n.children = [no, yes])
    (h : CasesEmitted region n.sig.outputs predicate args no yes vs ws phis b s s1 s2 s3) :
    ∃ ids f t1 t2, phis = ids.map Value.instr ∧
      Split k g region id n.sig.outputs predicate args no yes vs ws ids b s f s1 t1 s2 t2 s3 := by
  have hf := fork_spec hr predicate
  rw [h.size] at hf
  obtain ⟨f, hparent, hlt⟩ := hr.parent
  have hready : ∀ m : Module, (s.fork predicate).cursor.module.Within m → m.Sound k →
      ∀ b' : Nat, b ≤ b' → b' < b + 3 → Ready k ⟨m, b'⟩ := by
    intro m hw hs b' hge hlt'
    refine ⟨hs, Nat.lt_of_lt_of_le (hf.size ▸ hlt') hw.blocks, f, ?_, hlt⟩
    exact ((hw.parent b' (hf.size ▸ hlt')).trans (hf.parent b' hge hlt')).trans hparent
  have h1 := ho _ _ _ _ _ (hready _ (.refl _) hf.sound b (Nat.le_refl _) (by omega)) h.runNo
  have h2 : Advances k (g.Under no) s1 (s1.append (Instr.br (some (b + 2)))) :=
    append_advances h1.ready (by simp [Instr.br])
  have w2 := h1.grows.within.trans h2.grows.within
  have h3 := ho _ _ _ _ _ (hready _ w2 h2.ready.sound (b + 1) (by omega) (by omega)) h.runYes
  have h4 : Advances k (g.Under yes) s2 (s2.append (Instr.br (some (b + 2)))) :=
    append_advances h3.ready (by simp [Instr.br])
  have w4 := (w2.trans h3.grows.within).trans h4.grows.within
  obtain ⟨⟨ids, rfl, hm⟩, -⟩ := mergeCases_spec
    (hready _ w4 h4.ready.sound (b + 2) (by omega) (by omega)) h.countNo h.countYes h.phis
  obtain ⟨kn, hhn⟩ := ha.child id n no hn (by simp [hch])
  obtain ⟨ky, hhy⟩ := ha.child id n yes hn (by simp [hch])
  have hne : no ≠ yes := by
    have := ha.nodup id n hn
    rw [hch] at this
    simpa using this
  refine ⟨ids, _, _, _, rfl, hr, h.size, ?_, ?_, hf, h.runNo, h1, rfl, h2, h.runYes, h3, rfl, h4,
    h.phis, hm⟩
  · rintro x (hx | hx)
    · exact hhn.under (.inr hx)
    · exact hhy.under (.inr hx)
  · intro x hy hx
    exact under_siblings_disjoint ha hne hhn.node hhn.parent hhy.node hhy.parent hx hy

namespace Split

variable {g : Graph} {ts : List ValueType} {predicate : Value} {no yes : NodeId}
  {vs ws : List Value} {ids : List InstrId} {b : Nat} {s f s1 t1 s2 t2 s3 : State} {m : Module}

section Layout

variable (h : Split k g region id ts predicate args no yes vs ws ids b s f s1 t1 s2 t2 s3)
include h

theorem throughNo : Advances k (g.Under no) (f.moveTo b) t1 := h.inNo.trans h.leaveNo

theorem throughYes : Advances k (g.Under yes) (t1.moveTo (b + 1)) t2 := h.inYes.trans h.leaveYes

theorem sizes : f.cursor.module.blockTable.size = b + 3 ∧
    b + 3 ≤ t1.cursor.module.blockTable.size ∧
    t1.cursor.module.blockTable.size ≤ t2.cursor.module.blockTable.size ∧
    t2.cursor.module.blockTable.size = s3.cursor.module.blockTable.size := by
  have hno : f.cursor.module.blockTable.size ≤ t1.cursor.module.blockTable.size :=
    h.throughNo.grows.within.blocks
  exact ⟨h.fork.size, h.fork.size ▸ hno, h.throughYes.grows.within.blocks, h.merged.size.symm⟩

theorem merge_block : s3.cursor.block = b + 2 := h.merged.block

theorem kept_yes {x : Nat} (hne : x ≠ b + 2) :
    s3.cursor.module.block x = t2.cursor.module.block x := h.merged.others x hne

theorem kept_no {x : Nat} (hlt : x < t1.cursor.module.blockTable.size) (h1 : x ≠ b + 1)
    (h2 : x ≠ b + 2) : s3.cursor.module.block x = t1.cursor.module.block x :=
  (h.kept_yes h2).trans (h.throughYes.grows.others x hlt h1)

theorem kept {x : Nat} (hlt : x < b) : s3.cursor.module.block x = f.cursor.module.block x := by
  obtain ⟨hf, hno, -, -⟩ := h.sizes
  have hx : x < f.cursor.module.blockTable.size := by omega
  rw [h.kept_no (by omega) (by omega) (by omega)]
  exact h.throughNo.grows.others x hx (Nat.ne_of_lt hlt)

theorem afterFork : f.cursor.module.Within s3.cursor.module :=
  (h.throughNo.grows.within.trans h.throughYes.grows.within).trans h.merged.within

theorem within : s.cursor.module.Within s3.cursor.module :=
  h.fork.within.trans h.afterFork

theorem still_empty (x : Nat) (hb : b < x) (hx : x < b + 3) :
    (t1.cursor.module.block x).instrs = [] := by
  have hlt : x < f.cursor.module.blockTable.size := h.fork.size ▸ hx
  have hkeep : t1.cursor.module.block x = f.cursor.module.block x :=
    h.throughNo.grows.others x hlt (Nat.ne_of_gt hb)
  rw [hkeep, h.fork.fresh x (Nat.le_of_lt hb)]

theorem merge_instrs : (s3.cursor.module.block (b + 2)).instrs = ids := by
  obtain ⟨-, hno, -, -⟩ := h.sizes
  have h1 : (s3.cursor.module.block (b + 2)).instrs =
      (t2.cursor.module.block (b + 2)).instrs ++ ids := h.merged.current
  have hlt1 : b + 2 < t1.cursor.module.blockTable.size := by omega
  have h2 : t2.cursor.module.block (b + 2) = t1.cursor.module.block (b + 2) :=
    h.throughYes.grows.others (b + 2) hlt1 (Nat.ne_of_gt (Nat.lt_succ_self (b + 1)))
  rw [h1, h2, h.still_empty (b + 2) (by omega) (by omega), nil_append]

theorem branch (hw : f.cursor.module.Within m) : m.instr s.cursor.module.instrTable.size =
    { Instr.condBr predicate (some (b + 1)) (some b) with parent := some s.cursor.block } := by
  rw [hw.instr _ (h.fork.count ▸ Nat.lt_succ_self _), h.fork.branch]

theorem grows : Grows s.cursor s3.cursor where
  within := h.within
  others x hlt hne := by
    rw [h.kept (h.size ▸ hlt)]
    exact h.fork.others x (h.size ▸ hlt) hne
  current := by
    rw [h.kept (h.size ▸ h.start.block)]
    refine ⟨_, h.fork.current, ?_⟩
    intro i hi
    rw [mem_singleton.1 hi, h.branch h.afterFork]
    simp [Instr.condBr]
  moved := .inr (by rw [h.merge_block, h.size]; exact Nat.le_add_right b 2)
  parent := by
    obtain ⟨hf, -, -, -⟩ := h.sizes
    rw [h.merge_block, h.afterFork.parent (b + 2) (by omega)]
    exact h.fork.parent (b + 2) (by omega) (by omega)
  added x hge hlt := by
    obtain ⟨hz, hz1, hz2, hz3⟩ := h.sizes
    rw [h.size] at hge
    rcases Nat.lt_or_ge x (b + 3) with hx | hx
    · rw [h.afterFork.parent x (by omega)]
      exact h.fork.parent x hge hx
    rw [h.kept_yes (by omega)]
    rcases Nat.lt_or_ge x t1.cursor.module.blockTable.size with hx1 | hx1
    · rw [h.throughYes.grows.others x hx1 (by show x ≠ b + 1; omega)]
      have hadded : (t1.cursor.module.block x).parent = (f.cursor.module.block b).parent :=
        h.throughNo.grows.added x (by show f.cursor.module.blockTable.size ≤ x; omega) hx1
      exact hadded.trans (h.fork.parent b (Nat.le_refl b) (by omega))
    · have hadded : (t2.cursor.module.block x).parent = (t1.cursor.module.block (b + 1)).parent :=
        h.throughYes.grows.added x hx1 (by omega)
      have hlt1 : b + 1 < f.cursor.module.blockTable.size := by omega
      rw [hadded, h.throughNo.grows.within.parent (b + 1) hlt1]
      exact h.fork.parent (b + 1) (by omega) (by omega)

theorem values (p : Port) (hp : ¬g.Under id p.node) :
    portValue s3.values p = portValue s.values p := by
  have h1 : portValue t1.values p = portValue f.values p :=
    h.throughNo.values p fun hx => hp (h.below _ (.inl hx))
  have h2 : portValue t2.values p = portValue t1.values p :=
    h.throughYes.values p fun hx => hp (h.below _ (.inr hx))
  have h3 : s3.values = t2.values := h.merged.values
  rw [h3, h2, h1, h.fork.values]

theorem functions : s3.functions = s.functions := by
  have h1 : t1.functions = f.functions := h.throughNo.functions
  have h2 : t2.functions = t1.functions := h.throughYes.functions
  have h3 : s3.functions = t2.functions := h.merged.functions
  rw [h3, h2, h1, h.fork.functions]

section

variable (hf : Fits s.cursor s3.cursor m)

include hf

theorem written_no (x : Nat) (hx : x = b ∨ b + 3 ≤ x) (hlt : x < t1.cursor.module.blockTable.size) :
    (m.block x).instrs = (t1.cursor.module.block x).instrs := by
  obtain ⟨hz, hz1, hz2, hz3⟩ := h.sizes
  have hb := h.size
  have hne : x ≠ s3.cursor.block := by
    rw [h.merge_block]
    omega
  rw [hf.done x (by omega) (by omega) hne, h.kept_no hlt (by omega) (by omega)]

theorem written_yes (x : Nat) (hx : x = b + 1 ∨ t1.cursor.module.blockTable.size ≤ x)
    (hlt : x < t2.cursor.module.blockTable.size) :
    (m.block x).instrs = (t2.cursor.module.block x).instrs := by
  obtain ⟨hz, hz1, hz2, hz3⟩ := h.sizes
  have hb := h.size
  have hne : x ≠ s3.cursor.block := by
    rw [h.merge_block]
    omega
  rw [hf.done x (by omega) (by omega) hne, h.kept_yes (by omega)]

theorem fits_no : Fits (f.moveTo b).cursor t1.cursor m := by
  have hz := h.sizes.1
  refine ⟨(h.throughYes.grows.within.trans h.merged.within).trans hf.within, ?_, [], ?_, by simp⟩
  · intro x hx hlt _
    apply h.written_no hf x _ hlt
    obtain hx | hx := hx
    · exact .inl hx
    · exact .inr (hz ▸ hx)
  · rw [append_nil]
    apply h.written_no hf _ _ h.leaveNo.ready.block
    obtain hm | hm := h.throughNo.grows.moved
    · exact .inl hm
    · exact .inr (hz ▸ hm)

theorem fits_yes : Fits (t1.moveTo (b + 1)).cursor t2.cursor m := by
  refine ⟨h.merged.within.trans hf.within, ?_, [], ?_, by simp⟩
  · intro x hx hlt _
    exact h.written_yes hf x hx hlt
  · rw [append_nil]
    exact h.written_yes hf _ h.throughYes.grows.moved h.leaveYes.ready.block

theorem opening : (m.block s.cursor.block).instrs =
        (s.cursor.module.block s.cursor.block).instrs ++ [s.cursor.module.instrTable.size] ∧
      m.instr s.cursor.module.instrTable.size =
        { Instr.condBr predicate (some (b + 1)) (some b) with parent := some s.cursor.block } := by
  have hb := h.start.block
  have hne : s.cursor.block ≠ s3.cursor.block := by
    rw [h.merge_block, ← h.size]
    exact Nat.ne_of_lt (Nat.lt_add_right 2 hb)
  refine ⟨?_, h.branch (h.afterFork.trans hf.within)⟩
  rw [hf.done s.cursor.block (.inl rfl) (Nat.lt_of_lt_of_le hb h.within.blocks) hne,
    h.kept (h.size ▸ hb)]
  exact h.fork.current

end

theorem end_no : s1.cursor.block = b ∨ b + 3 ≤ s1.cursor.block := by
  obtain hm | hm := h.inNo.grows.moved
  · exact .inl hm
  · exact .inr (h.sizes.1 ▸ hm)

theorem end_yes : s2.cursor.block = b + 1 ∨ t1.cursor.module.blockTable.size ≤ s2.cursor.block :=
  h.inYes.grows.moved

theorem size_no : t1.cursor.module.blockTable.size = s1.cursor.module.blockTable.size := by
  rw [h.leftNo, State.append, append_blocks_size]

theorem size_yes : t2.cursor.module.blockTable.size = s2.cursor.module.blockTable.size := by
  rw [h.leftYes, State.append, append_blocks_size]

omit h in
/-- A case ends in the block it has got to, with a branch to the block behind. -/
theorem leaving {u v : State} (hb : u.cursor.block < u.cursor.module.blockTable.size)
    (hv : v = u.append (Instr.br (some (b + 2)))) (hw : v.cursor.module.Within m)
    (hm : (m.block u.cursor.block).instrs = (v.cursor.module.block u.cursor.block).instrs) :
    (m.block u.cursor.block).instrs =
        (u.cursor.module.block u.cursor.block).instrs ++ [u.cursor.module.instrTable.size] ∧
      m.instr u.cursor.module.instrTable.size =
        { Instr.br (some (b + 2)) with parent := some u.cursor.block } := by
  subst hv
  constructor
  · rw [hm]
    exact append_current hb _
  · exact appended_instr hw

theorem leaving_no (hf : Fits s.cursor s3.cursor m) :
    (m.block s1.cursor.block).instrs =
        (s1.cursor.module.block s1.cursor.block).instrs ++ [s1.cursor.module.instrTable.size] ∧
      m.instr s1.cursor.module.instrTable.size =
        { Instr.br (some (b + 2)) with parent := some s1.cursor.block } := by
  have hlt := h.inNo.ready.block
  exact leaving hlt h.leftNo ((h.throughYes.grows.within.trans h.merged.within).trans hf.within)
    (h.written_no hf _ h.end_no (h.size_no ▸ hlt))

theorem leaving_yes (hf : Fits s.cursor s3.cursor m) :
    (m.block s2.cursor.block).instrs =
        (s2.cursor.module.block s2.cursor.block).instrs ++ [s2.cursor.module.instrTable.size] ∧
      m.instr s2.cursor.module.instrTable.size =
        { Instr.br (some (b + 2)) with parent := some s2.cursor.block } := by
  have hlt := h.inYes.ready.block
  exact leaving hlt h.leftYes (h.merged.within.trans hf.within)
    (h.written_yes hf _ h.end_yes (h.size_yes ▸ hlt))

theorem ends_ne : s1.cursor.block ≠ s2.cursor.block := by
  obtain ⟨hz, -, -, -⟩ := h.sizes
  have hlt := h.inNo.ready.block
  have hle := h.leaveNo.grows.within.blocks
  obtain hy | hy := h.inYes.grows.moved
  · rw [hy]
    obtain hn | hn := h.inNo.grows.moved
    · rw [hn]
      exact Nat.ne_of_lt (Nat.lt_succ_self b)
    · have hge : b + 3 ≤ s1.cursor.block := hz ▸ hn
      exact Nat.ne_of_gt (Nat.lt_of_lt_of_le (Nat.lt_add_of_pos_right Nat.two_pos) hge)
  · exact Nat.ne_of_lt (Nat.lt_of_lt_of_le hlt (Nat.le_trans hle hy))

end Layout

end Split

/-! ## Nodes and regions -/

section Frames

variable {g : Graph} {region : RegionEmitter}

section

variable (ha : g.Arena) (ho : Orderly k g region)

include ha ho

theorem node_advances {id : NodeId} {n : Node}
    {s t : State} (hr : Ready k s.cursor) (hn : g.node? id = some n)
    (h : NodeEmitted g region id n s t) : Advances k (fun x => x = id ∨ g.Under id x) s t := by
  cases h with
  | const hk hv => exact (constant_advances hr hv).1.keep (.inl rfl) _
  | op hk hargs hl =>
    obtain ⟨l, hfind, -, hlow⟩ := Operation.lower_ok hl
    have h : Advances k (fun x => x = id ∨ g.Under id x) s _ :=
      advances_of_steady hr (Lowering.lower_steady hfind _ _) hlow
    exact { h.keep (.inl rfl) _ with }
  | call hk he hargs hc =>
    have h : Advances k (fun x => x = id ∨ g.Under id x) s _ :=
      advances_of_steady hr (.call _ _) hc
    split
    · exact h.keep (.inl rfl) _
    · exact h
  | dfg hk hargs hreg =>
    exact ((ho _ _ _ _ _ hr hreg).mono fun _ => .inr).keep (.inl rfl) _
  | conditional hk hargs hch hcases =>
    obtain ⟨ids, f, t1, t2, -, hs⟩ := split_of_emitted ha ho hr hn hch hcases
    refine Advances.keep ⟨hr, hs.grows, hs.merged.ready, hs.functions, fun p hp => ?_⟩ (.inl rfl) _
    exact hs.values p fun hx => hp (.inr hx)

theorem nodes_advance {ids : List NodeId} {s t : State} {inside : NodeId → Prop}
    (hi : ∀ c ∈ ids, ∀ x, x = c ∨ g.Under c x → inside x) (hr : Cursor.Ready k s.cursor)
    (h : ids.forM (node g region) s = .ok ⟨⟩ t) : Advances k inside s t := by
  induction ids generalizing s with
  | nil =>
    rw [forM_nil_ok.1 h]
    exact .refl hr
  | cons c ids ih =>
    obtain ⟨s1, hc, hrest⟩ := forM_cons_ok.1 h
    obtain ⟨n, hn, hemit⟩ := node_emitted hc
    have h1 := (node_advances ha ho hr hn hemit).mono (hi c (by simp))
    exact h1.trans (ih (fun d hd => hi d (by simp [hd])) h1.ready hrest)

theorem regionWith_advances : Orderly k g (regionWith g region) := by
  intro id args s outs t hr h
  obtain ⟨n, first, last, order, ids, he⟩ := regionWith_ok ha h
  have hunder : ∀ c ∈ first :: last :: ids, g.Under id c := by
    intro c hc
    obtain ⟨k, hk, hp⟩ := he.child c hc
    exact .child hk hp
  have h0 : Advances k (g.Under id) s { s with values := keep first args s.values } :=
    (Advances.refl hr).keep (hunder first (by simp)) args
  refine h0.trans (nodes_advance ha ho ?_ h0.ready he.run)
  intro c hc x hx
  have hcu := hunder c (by simp [hc])
  obtain rfl | hx := hx
  · exact hcu
  · exact hcu.trans hx

end

theorem region_advances (ha : g.Arena) (depth : Nat) : Orderly k g (Emission.region g depth) := by
  induction depth with
  | zero =>
    intro id args s outs t _ h
    exact (throw_ok.1 h).elim
  | succ depth ih => exact regionWith_advances ha ih

end Frames

end Emission

end Qirc
