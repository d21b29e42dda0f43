import Qirc.Proofs.Graph.Transfer
import Qirc.Proofs.Graph.Upkeep

/-!
# A gadget in the place of a gate

A gadget is a handful of nodes wired together, with a port for each port of the gate that it
replaces. Put in the place of the gate it keeps a graph lawful: the gadget has no open port and no
circle of its own, and to the outside it is wired as the gate was.
-/

namespace Qirc.Graph

open List

/-- Nodes wired together. A port is named by the position of its node among the bodies. -/
structure Gadget where
  bodies : List NodeBody
  wires : List Edge
  /-- Where the edge into an input port of the gate ends. -/
  enter : Nat → Port
  /-- Where the edges out of an output port of the gate start. -/
  leave : Nat → Port

namespace Gadget

/-- A port of a gadget whose first node has this number. -/
def shift (base : Nat) (p : Port) : Port := ⟨base + p.node, p.index⟩

theorem shift_inj {base : Nat} {p q : Port} (h : shift base p = shift base q) : p = q := by
  obtain ⟨pn, pi⟩ := p
  simp only [shift, Port.mk.injEq, Nat.add_left_cancel_iff] at h
  rw [h.1, h.2]

theorem le_shift (base : Nat) (p : Port) : base ≤ (shift base p).node := Nat.le_add_right _ _

structure Fits (G : Gadget) (width : Nat) : Prop where
  kinds : ∀ b ∈ G.bodies, b.kind = .op ∨ (b.kind = .const ∧ b.sig.outputs = [b.const.type] ∧
    b.const.type ∈ [ValueType.bool, .int, .float, .string])
  enters : ∀ k < width, ∃ b, G.bodies[(G.enter k).node]? = some b ∧
    typeAt? b.sig.inputs (G.enter k).index = some .qubit
  leaves : ∀ j < width, ∃ b, G.bodies[(G.leave j).node]? = some b ∧
    typeAt? b.sig.outputs (G.leave j).index = some .qubit
  wires : ∀ e ∈ G.wires, ∃ a b t, G.bodies[e.src.node]? = some a ∧
    G.bodies[e.dst.node]? = some b ∧ typeAt? a.sig.outputs e.src.index = some t ∧
    typeAt? b.sig.inputs e.dst.index = some t
  forward : ∀ e ∈ G.wires, e.src.node < e.dst.node
  once : ((range width).map G.enter ++ G.wires.map (·.dst)).Nodup
  fed : ∀ i b, G.bodies[i]? = some b → ∀ k : Nat, k < b.sig.inputs.length →
    ⟨i, k⟩ ∈ (range width).map G.enter ++ G.wires.map (·.dst)
  linear : ∀ i b, G.bodies[i]? = some b → ∀ k : Nat, b.sig.outputs[k]? = some .qubit →
    (∃ j < width, G.leave j = ⟨i, k⟩ ∧ (∀ j' < width, G.leave j' = ⟨i, k⟩ → j' = j) ∧
      ∀ e ∈ G.wires, e.src ≠ ⟨i, k⟩) ∨
    ∃ e ∈ G.wires, e.src = ⟨i, k⟩ ∧ (∀ e' ∈ G.wires, e'.src = ⟨i, k⟩ → e' = e) ∧
      ∀ j < width, G.leave j ≠ ⟨i, k⟩

theorem Fits.hasPorts {G : Gadget} {width : Nat} (hG : G.Fits width) {i : Nat} {b : NodeBody}
    (hb : G.bodies[i]? = some b) : b.kind.hasPorts = true := by
  rcases hG.kinds b (mem_of_getElem? hb) with hk | ⟨hk, -⟩ <;> rw [hk] <;> rfl

inductive Wired (G : Gadget) (g : Graph) (gate : NodeId) : Edge → Prop
  | kept {src dst : Port} (he : ⟨src, dst⟩ ∈ g.edges) (hs : src.node ≠ gate)
      (hd : dst.node ≠ gate) : Wired G g gate ⟨src, dst⟩
  | entering {src : Port} {k : Nat} (he : ⟨src, ⟨gate, k⟩⟩ ∈ g.edges) (hs : src.node ≠ gate) :
      Wired G g gate ⟨src, shift g.nodes.size (G.enter k)⟩
  | inside {e : Edge} (he : e ∈ G.wires) :
      Wired G g gate ⟨shift g.nodes.size e.src, shift g.nodes.size e.dst⟩
  | leaving {dst : Port} {j : Nat} (he : ⟨⟨gate, j⟩, dst⟩ ∈ g.edges) (hd : dst.node ≠ gate) :
      Wired G g gate ⟨shift g.nodes.size (G.leave j), dst⟩

/-- The children of a node once the gadget has taken the place of the gate. -/
def Refilled (G : Gadget) (g : Graph) (gate : NodeId) (n : Node) (cs : List NodeId) : Prop :=
  cs = n.children ∧ gate ∉ n.children ∨ n.kind.isRegion = true ∧ ∃ a b rest rest',
    n.children = a :: b :: rest ∧ gate ∈ rest ∧ cs = a :: b :: rest' ∧
    ∀ c, c ∈ rest' ↔ c ∈ rest ∧ c ≠ gate ∨ ∃ i < G.bodies.length, c = g.nodes.size + i

structure Seated (G : Gadget) (g h : Graph) (gate : NodeId) : Prop where
  arena : h.Arena
  lasting : Lasting g h
  gone : h.node? gate = none
  kept : ∀ x n, g.node? x = some n → x ≠ gate →
    ∃ cs, h.node? x = some { n with children := cs } ∧ G.Refilled g gate n cs
  made : ∀ x n, h.node? x = some n → g.nodes.size ≤ x →
    ∃ i b p, x = g.nodes.size + i ∧ G.bodies[i]? = some b ∧ n = Node.fresh b (some p)
  edges : ∀ e, e ∈ h.edges ↔ G.Wired g gate e

theorem Refilled.inner {G : Gadget} {g : Graph} {gate a b : NodeId} {n : Node}
    {cs rest : List NodeId} (h : G.Refilled g gate n cs) (hch : n.children = a :: b :: rest) :
    ∃ rest', cs = a :: b :: rest' ∧ ∀ c, c ∈ rest' ↔ c ∈ rest ∧ c ≠ gate ∨
      gate ∈ rest ∧ ∃ i < G.bodies.length, c = g.nodes.size + i := by
  rcases h with ⟨rfl, hnot⟩ | ⟨-, a', b', rest', new, hch', hgate, rfl, hnew⟩
  · have hgate : gate ∉ rest := fun hmem => hnot (by simp [hch, hmem])
    refine ⟨rest, hch, fun c => ⟨fun hc => .inl ⟨hc, fun he => hgate (he ▸ hc)⟩, ?_⟩⟩
    rintro (⟨hc, -⟩ | ⟨hmem, -⟩)
    · exact hc
    · exact absurd hmem hgate
  · cases hch.symm.trans hch'
    exact ⟨new, rfl, fun c => by simp [hnew, hgate]⟩

end Gadget

structure GateSite (g : Graph) where
  gate : NodeId
  node : Node
  width : Nat
  arena : g.Arena
  lawful : g.Lawful
  here : g.node? gate = some node
  kind : node.kind = .op
  sig : node.sig = ⟨qubits width, qubits width⟩

namespace GateSite

variable {g : Graph} (s : GateSite g)

theorem inputCount : s.node.inputCount = s.width := by
  rw [s.arena.inputs _ _ s.here, s.kind, s.sig]
  simp [NodeKind.hasPorts, qubits]

theorem outputCount : s.node.outputCount = s.width := by
  rw [s.arena.outputs _ _ s.here, s.kind, s.sig]
  simp [NodeKind.hasPorts, qubits]

theorem input_type {k : Nat} (hk : k < s.width) : typeAt? s.node.sig.inputs k = some .qubit := by
  rw [s.sig, typeAt?_natCast]
  simp [qubits, hk]

theorem output_type {j : Nat} (hj : j < s.width) : s.node.sig.outputs[j]? = some .qubit := by
  rw [s.sig]
  simp [qubits, hj]

theorem entering_lt {src : Port} {k : Nat} (he : ⟨src, s.gate, k⟩ ∈ g.edges) : k < s.width := by
  obtain ⟨S, T, hfit⟩ := s.arena.edge _ he
  cases s.here.symm.trans hfit.target
  have hin := hfit.input
  simp only [portInRange, Bool.and_eq_true, decide_eq_true_eq, s.inputCount] at hin
  omega

theorem leaving_lt {dst : Port} {j : Nat} (he : ⟨⟨s.gate, j⟩, dst⟩ ∈ g.edges) : j < s.width := by
  obtain ⟨S, T, hfit⟩ := s.arena.edge _ he
  cases s.here.symm.trans hfit.source
  have hout := hfit.output
  simp only [portInRange, Bool.and_eq_true, decide_eq_true_eq, s.outputCount] at hout
  omega

theorem index_input {src dst : Port} (he : ⟨src, dst⟩ ∈ g.edges) (hd : dst.node = s.gate) :
    ∃ k : Nat, dst = ⟨s.gate, k⟩ := by
  obtain ⟨S, T, hfit⟩ := s.arena.edge _ he
  obtain ⟨k, -, heq⟩ := natCast_index hfit.input
  exact ⟨k, by rw [← hd]; exact heq⟩

theorem index_output {src dst : Port} (he : ⟨src, dst⟩ ∈ g.edges) (hs : src.node = s.gate) :
    ∃ j : Nat, src = ⟨s.gate, j⟩ := by
  obtain ⟨S, T, hfit⟩ := s.arena.edge _ he
  obtain ⟨j, -, heq⟩ := natCast_index hfit.output
  exact ⟨j, by rw [← hs]; exact heq⟩

theorem ne_boundary {r a b : NodeId} {n : Node} {rest : List NodeId} (hn : g.node? r = some n)
    (hr : n.kind.isRegion = true) (hch : n.children = a :: b :: rest) :
    s.gate ≠ a ∧ s.gate ≠ b := by
  obtain ⟨a, b, rest, i, o, hb⟩ := s.lawful.region r n hn hr
  cases hch.symm.trans hb.children
  constructor
  · rintro rfl
    cases s.here.symm.trans hb.first
    cases s.kind.symm.trans hb.firstKind
  · rintro rfl
    cases s.here.symm.trans hb.last
    cases s.kind.symm.trans hb.lastKind

/-- A node that is there with the gate and with the gadget. -/
def Stays (x y : NodeId) : Prop := x = y ∧ x ≠ s.gate ∧ x < g.nodes.size

variable {x : NodeId} {k : Node}

theorem stays (hk : g.node? x = some k) (hop : k.kind ≠ .op) : s.Stays x x := by
  refine ⟨rfl, ?_, node?_lt hk⟩
  rintro rfl
  cases s.here.symm.trans hk
  exact hop s.kind

section Laws

variable {s} {G : Gadget} {h : Graph} (hs : G.Seated g h s.gate)
include hs

theorem seated_mirrors {y : NodeId} (hxy : s.Stays x y) (hk : g.node? x = some k) :
    ∃ l, h.node? y = some l ∧ Mirrors s.Stays x y k l := by
  obtain ⟨rfl, hne, hlt⟩ := hxy
  obtain ⟨cs, hcs, hre⟩ := hs.kept x k hk hne
  refine ⟨_, hcs, .rehold k cs, ⟨rfl, hne, hlt⟩, fun f hkind hcallee => ?_, fun hkind => ?_⟩
  · obtain ⟨f', fn, hf', hfn, hfk, -⟩ := s.lawful.call x k hk hkind
    cases hcallee.symm.trans hf'
    exact s.stays hfn (by rw [hfk]; decide)
  · obtain ⟨rfl, hnot⟩ | ⟨hr, -⟩ := hre
    · refine forall₂_same.2 fun c hc => ⟨rfl, fun he => hnot (he ▸ hc), ?_⟩
      obtain ⟨l, hl⟩ := s.arena.child x k c hk hc
      exact node?_lt hl.node
    · rw [hkind] at hr
      cases hr

theorem seated_linear_old (hx : x ≠ s.gate) (hk : g.node? x = some k) {i : Nat}
    (hi : i < k.outputCount) (hq : k.sig.outputs[i]? = some .qubit) :
    ∃! d, ⟨⟨x, i⟩, d⟩ ∈ h.edges := by
  have hlt := node?_lt hk
  -- no port of the gadget belongs to an old node
  have hold : ∀ p : Port, (⟨x, i⟩ : Port) ≠ Gadget.shift g.nodes.size p := by
    intro p hp
    have := Gadget.le_shift g.nodes.size p
    rw [← hp] at this
    exact absurd hlt (Nat.not_lt_of_le this)
  have hfrom : ∀ {d}, ⟨⟨x, i⟩, d⟩ ∈ h.edges → ⟨⟨x, i⟩, d⟩ ∈ g.edges ∧ d.node ≠ s.gate ∨
      ∃ m : Nat, ⟨⟨x, i⟩, s.gate, m⟩ ∈ g.edges ∧ d = Gadget.shift g.nodes.size (G.enter m) := by
    intro d hd
    generalize he : (⟨⟨x, i⟩, d⟩ : Edge) = e at hd
    cases (hs.edges _).1 hd with
    | kept hmem _ hne =>
      cases he
      exact .inl ⟨hmem, hne⟩
    | entering hmem _ =>
      cases he
      exact .inr ⟨_, hmem, rfl⟩
    | inside _ => exact absurd (congrArg Edge.src he) (hold _)
    | leaving _ _ => exact absurd (congrArg Edge.src he) (hold _)
  obtain ⟨d, hd, huniq⟩ := s.lawful.linear x k hk i hi hq
  by_cases hdn : d.node = s.gate
  · obtain ⟨m, rfl⟩ := s.index_input hd hdn
    refine ⟨Gadget.shift g.nodes.size (G.enter m), (hs.edges _).2 (.entering hd hx), ?_⟩
    intro d' hd'
    obtain ⟨hmem, hne⟩ | ⟨l, hmem, rfl⟩ := hfrom hd'
    · exact absurd (by rw [huniq d' hmem]) hne
    · cases huniq _ hmem
      rfl
  · refine ⟨d, (hs.edges _).2 (.kept hd hx hdn), ?_⟩
    intro d' hd'
    obtain ⟨hmem, -⟩ | ⟨l, hmem, -⟩ := hfrom hd'
    · exact huniq d' hmem
    · exact absurd (by rw [← huniq _ hmem]) hdn

variable (hG : G.Fits s.width)
include hG

variable {n : Node}

section

variable (hn : h.node? x = some n)

include hn

theorem node_cases :
    (∃ k cs, g.node? x = some k ∧ n = { k with children := cs } ∧ Mirrors s.Stays x x k n ∧
      G.Refilled g s.gate k cs) ∨
    ∃ i b, x = g.nodes.size + i ∧ G.bodies[i]? = some b ∧ n.body = b ∧
      (n.kind = .op ∨ n.kind = .const) := by
  by_cases hx : x < g.nodes.size
  · have hne : x ≠ s.gate := by
      rintro rfl
      rw [hs.gone] at hn
      cases hn
    obtain ⟨k, hk, -, -⟩ := hs.lasting.node hn hx
    obtain ⟨cs, hcs, hch⟩ := hs.kept x k hk hne
    obtain ⟨l, hl, hm⟩ := seated_mirrors hs ⟨rfl, hne, hx⟩ hk
    cases hn.symm.trans hl
    exact .inl ⟨k, cs, hk, Option.some.inj (hn.symm.trans hcs), hm, hch⟩
  · obtain ⟨i, b, p, hi, hb, rfl⟩ := hs.made x n hn (Nat.le_of_not_lt hx)
    refine .inr ⟨i, b, hi, hb, rfl, ?_⟩
    exact (hG.kinds b (mem_of_getElem? hb)).imp_right And.left

theorem seated_region (hr : n.kind.isRegion = true) : RegionFits h n := by
  rcases node_cases hs hG hn with ⟨k, cs, hk, rfl, -, hch⟩ | ⟨-, -, -, -, -, hkind⟩
  · obtain ⟨first, last, inner, i, o, hb⟩ := s.lawful.region x k hk hr
    obtain ⟨inner', hcs, hinner⟩ := hch.inner hb.children
    refine hb.mirror (seated_mirrors hs) rfl hcs (s.stays hb.first (by rw [hb.firstKind]; decide))
      (s.stays hb.last (by rw [hb.lastKind]; decide)) fun c hc => ?_
    rcases (hinner c).1 hc with ⟨hold, hne⟩ | ⟨-, j, -, rfl⟩
    · obtain ⟨m, hm⟩ := s.arena.child x k c hk (by simp [hb.children, hold])
      exact .inl ⟨c, m, ⟨rfl, hne, node?_lt hm.node⟩, hm.node, hb.inner c hold m hm.node⟩
    refine .inr fun l hl => ?_
    obtain ⟨m, b, p, -, hbody, rfl⟩ := hs.made _ l hl (Nat.le_add_right _ j)
    rcases hG.kinds b (mem_of_getElem? hbody) with hkind | ⟨hkind, -⟩ <;>
      rw [show (Node.fresh b _).kind = _ from hkind] <;> exact ⟨by decide, by decide⟩
  · rcases hkind with hkind | hkind <;> rw [hkind] at hr <;> cases hr

theorem seated_call (hk : n.kind = .call) : CallFits h n := by
  rcases node_cases hs hG hn with ⟨k, cs, hkn, -, hm, -⟩ | ⟨-, -, -, -, -, hkind⟩
  · exact hm.callFits (seated_mirrors hs) s.lawful hkn hk
  · rcases hkind with hkind | hkind <;> rw [hkind] at hk <;> cases hk

theorem seated_const (hk : n.kind = .const) : ConstFits n := by
  rcases node_cases hs hG hn with ⟨k, cs, hkn, rfl, -⟩ | ⟨i, b, -, hb, hbody, -⟩
  · exact s.lawful.const x k hkn hk
  change n.body.kind = .const at hk
  rw [hbody] at hk
  rcases hG.kinds b (mem_of_getElem? hb) with hop | ⟨-, hfit⟩
  · rw [hop] at hk
    cases hk
  unfold ConstFits Node.sig
  rw [hbody]
  exact hfit

theorem seated_conditional (hk : n.kind = .conditional) : CasesFit h n := by
  rcases node_cases hs hG hn with ⟨k, cs, hkn, -, hm, -⟩ | ⟨-, -, -, -, -, hkind⟩
  · exact hm.casesFit (seated_mirrors hs) s.lawful hkn hk
  · rcases hkind with hkind | hkind <;> rw [hkind] at hk <;> cases hk

/-- An edge into an old node comes from where it came from, or from the gadget if it came from the
gate. -/
theorem seated_fed {i : Nat} (hi : i < n.inputCount) : ∃ src, ⟨src, x, i⟩ ∈ h.edges := by
  rcases node_cases hs hG hn with ⟨k, cs, hk, rfl, hm, -⟩ | ⟨j, b, rfl, hb, hbody, -⟩
  · have hne := hm.self.2.1
    obtain ⟨src, he⟩ := s.lawful.fed x k hk i hi
    by_cases hsrc : src.node = s.gate
    · obtain ⟨m, rfl⟩ := s.index_output he hsrc
      exact ⟨_, (hs.edges _).2 (.leaving he hne)⟩
    · exact ⟨_, (hs.edges _).2 (.kept he hsrc hne)⟩
  · have hlen : i < b.sig.inputs.length := by
      rw [hs.arena.inputs _ _ hn] at hi
      rw [show n.sig = b.sig from congrArg NodeBody.sig hbody] at hi
      split at hi
      · exact hi
      · exact absurd hi (Nat.not_lt_zero i)
    have hport : (⟨g.nodes.size + j, i⟩ : Port) = Gadget.shift g.nodes.size ⟨j, i⟩ := rfl
    rw [hport]
    rcases mem_append.1 (hG.fed j b hb i hlen) with hin | hin
    · obtain ⟨k, hk, hkp⟩ := mem_map.1 hin
      obtain ⟨src, he⟩ := s.lawful.fed s.gate s.node s.here k
        (by rw [s.inputCount]; exact mem_range.1 hk)
      rw [← hkp]
      exact ⟨_, (hs.edges _).2 (.entering he (s.lawful.not_self he))⟩
    · obtain ⟨e, he, hkp⟩ := mem_map.1 hin
      rw [← hkp]
      exact ⟨_, (hs.edges _).2 (.inside he)⟩

end

theorem seated_linear_new {j : Nat} {b : NodeBody} (hb : G.bodies[j]? = some b) {i : Nat}
    (hq : b.sig.outputs[i]? = some .qubit) :
    ∃! d, ⟨Gadget.shift g.nodes.size ⟨j, i⟩, d⟩ ∈ h.edges := by
  have hnew : ∀ {p src dst : Port}, ⟨src, dst⟩ ∈ g.edges → Gadget.shift g.nodes.size p ≠ src := by
    intro p src dst he hp
    have := Gadget.le_shift g.nodes.size p
    rw [hp] at this
    exact absurd (s.arena.source_lt he) (Nat.not_lt_of_le this)
  have hfrom : ∀ {p d}, ⟨Gadget.shift g.nodes.size p, d⟩ ∈ h.edges →
      (∃ w ∈ G.wires, w.src = p ∧ d = Gadget.shift g.nodes.size w.dst) ∨
      ∃ m : Nat, ⟨⟨s.gate, m⟩, d⟩ ∈ g.edges ∧ G.leave m = p := by
    intro p d hd
    generalize he : (⟨Gadget.shift g.nodes.size p, d⟩ : Edge) = e at hd
    cases (hs.edges _).1 hd with
    | kept hmem _ _ => exact absurd (congrArg Edge.src he) (hnew hmem)
    | entering hmem _ => exact absurd (congrArg Edge.src he) (hnew hmem)
    | inside hmem =>
      obtain ⟨hport, rfl⟩ := Edge.mk.inj he
      exact .inl ⟨_, hmem, (Gadget.shift_inj hport).symm, rfl⟩
    | leaving hmem _ =>
      obtain ⟨hport, rfl⟩ := Edge.mk.inj he
      exact .inr ⟨_, hmem, (Gadget.shift_inj hport).symm⟩
  rcases hG.linear j b hb i hq with ⟨m, hm, hleave, hone, hnone⟩ | ⟨w, hw, hsrc, hone, hnone⟩
  · obtain ⟨d, hd, huniq⟩ := s.lawful.linear s.gate s.node s.here m
      (by rw [s.outputCount]; exact hm) (s.output_type hm)
    rw [← hleave]
    refine ⟨d, (hs.edges _).2 (.leaving hd (s.lawful.not_self hd).symm), ?_⟩
    intro d' hd'
    obtain ⟨w, hmem, hw, -⟩ | ⟨l, hmem, hl⟩ := hfrom hd'
    · exact absurd (hw.trans hleave) (hnone w hmem)
    · cases hone l (s.leaving_lt hmem) (hl.trans hleave)
      exact huniq d' hmem
  · rw [← hsrc]
    refine ⟨_, (hs.edges _).2 (.inside hw), ?_⟩
    intro d' hd'
    obtain ⟨w', hmem, hw', rfl⟩ | ⟨l, hmem, hl⟩ := hfrom hd'
    · rw [hone w' hmem (hw'.trans hsrc)]
    · exact absurd (hl.trans hsrc) (hnone l (s.leaving_lt hmem))

theorem seated_acyclic : WellFounded h.Feeds := by
  let at_ : NodeId → NodeId := fun x => if x < g.nodes.size then x else s.gate
  have hold : ∀ {x : Nat}, x < g.nodes.size → at_ x = x := fun hx => if_pos hx
  have hnew : ∀ p, at_ (Gadget.shift g.nodes.size p).node = s.gate :=
    fun p => if_neg (Nat.not_lt_of_le (Gadget.le_shift _ p))
  have hwf : WellFounded (Prod.Lex g.Feeds fun a b : Nat => a < b) :=
    WellFounded.prod_lex s.lawful.acyclic Nat.lt_wfRel.wf
  refine Subrelation.wf ?_ (InvImage.wf (fun x => (at_ x, x)) hwf)
  rintro a b ⟨e, he, rfl, rfl⟩
  cases (hs.edges e).1 he with
  | kept hmem _ _ =>
    refine .left _ _ ?_
    rw [hold (s.arena.source_lt hmem), hold (s.arena.target_lt hmem)]
    exact ⟨_, hmem, rfl, rfl⟩
  | entering hmem _ =>
    refine .left _ _ ?_
    rw [hold (s.arena.source_lt hmem), hnew]
    exact ⟨_, hmem, rfl, rfl⟩
  | inside hmem =>
    change Prod.Lex _ _ (at_ _, _) (at_ _, _)
    rw [hnew, hnew]
    exact .right _ (Nat.add_lt_add_left (hG.forward _ hmem) _)
  | leaving hmem _ =>
    refine .left _ _ ?_
    rw [hnew, hold (s.arena.target_lt hmem)]
    exact ⟨_, hmem, rfl, rfl⟩

theorem seated_lawful : h.Lawful where
  region _ _ hn hr := seated_region hs hG hn hr
  call _ _ hn hk := seated_call hs hG hn hk
  const _ _ hn hk := seated_const hs hG hn hk
  conditional _ _ hn hk := seated_conditional hs hG hn hk
  fed _ _ hn _ hi := seated_fed hs hG hn hi
  linear x n hn i hi hq := by
    rcases node_cases hs hG hn with ⟨k, cs, hk, rfl, hm, -⟩ | ⟨j, b, rfl, hb, hbody, -⟩
    · exact seated_linear_old hs hm.self.2.1 hk hi hq
    · exact seated_linear_new hs hG hb (by rw [← hbody]; exact hq)
  acyclic := seated_acyclic hs hG

theorem seated_plain (hp : g.PlainBoundary) : h.PlainBoundary := by
  have hboundary : ∀ {x n}, h.node? x = some n → n.kind = .input ∨ n.kind = .output →
      ∃ k cs, g.node? x = some k ∧ n = { k with children := cs } := by
    intro x n hn hk
    rcases node_cases hs hG hn with ⟨k, cs, hkn, rfl, -⟩ | ⟨-, -, -, -, -, hkind⟩
    · exact ⟨k, cs, hkn, rfl⟩
    rcases hkind with hkind | hkind <;> rw [hkind] at hk <;> rcases hk with hk | hk <;> cases hk
  constructor
  · intro x n hn hk
    obtain ⟨k, cs, hkn, rfl⟩ := hboundary hn (.inl hk)
    exact hp.input x k hkn hk
  · intro x n hn hk
    obtain ⟨k, cs, hkn, rfl⟩ := hboundary hn (.inr hk)
    exact hp.output x k hkn hk

end Laws

end GateSite

end Qirc.Graph
