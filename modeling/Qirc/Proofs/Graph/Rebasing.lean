import Qirc.Proofs.Graph.GateDenotation
import Qirc.Proofs.Graph.Pruning
import Qirc.Proofs.Graph.Refitting

/-!
# Gates in terms of the base set

The two rules of the base gate set put a gadget in the place of a gate. So every gate of a lawful
graph with the signature that its rule asks for can be expressed in the base set, one after the
other, and the graph is lawful in the end.
-/

namespace Qirc

open List Step Graph

namespace Graph

variable {g h : Graph}

/-! ## The two gadgets -/

def angleBody (angle : Float) : NodeBody :=
  { NodeBody.ofKind .const ⟨[], [.float]⟩ with const := { Payload.zero .float with float := angle } }

def rotationBody (text : String) : NodeBody :=
  { NodeBody.ofKind .op ⟨[.qubit, .float], [.qubit]⟩ with op := ⟨⟨quantumDialect, "Rx"⟩, "", text⟩ }

def controlledXBody : NodeBody :=
  { NodeBody.ofKind .op ⟨qubits 2, qubits 2⟩ with op := ⟨⟨quantumDialect, "CX"⟩, "", ""⟩ }

def rotationGadget (angle : Float) (text : String) : Gadget where
  bodies := [angleBody angle, rotationBody text]
  wires := [⟨⟨0, 0⟩, ⟨1, 1⟩⟩]
  enter k := ⟨1, k⟩
  leave j := ⟨1, j⟩

def swapGadget : Gadget where
  bodies := [controlledXBody, controlledXBody, controlledXBody]
  wires := [⟨⟨0, 1⟩, ⟨1, 0⟩⟩, ⟨⟨0, 0⟩, ⟨1, 1⟩⟩, ⟨⟨1, 1⟩, ⟨2, 0⟩⟩, ⟨⟨1, 0⟩, ⟨2, 1⟩⟩]
  enter k := ⟨0, k⟩
  leave j := ⟨2, j⟩

theorem forall_lt_two {P : Nat → Prop} : (∀ k < 2, P k) ↔ P 0 ∧ P 1 := by
  refine ⟨fun h => ⟨h 0 (by omega), h 1 (by omega)⟩, fun h k hk => ?_⟩
  obtain rfl | rfl : k = 0 ∨ k = 1 := by omega
  · exact h.1
  · exact h.2

theorem forall_getElem?_cons {α : Type} {P : Nat → α → Prop} {x : α} {xs : List α} :
    (∀ i b, (x :: xs)[i]? = some b → P i b) ↔ P 0 x ∧ ∀ i b, xs[i]? = some b → P (i + 1) b := by
  refine ⟨fun h => ⟨h 0 x rfl, fun i b hb => h (i + 1) b (by simpa using hb)⟩, fun h i b hb => ?_⟩
  cases i with
  | zero =>
    cases hb
    exact h.1
  | succ i => exact h.2 i b (by simpa using hb)

theorem rotationGadget_fits (angle : Float) (text : String) :
    (rotationGadget angle text).Fits 1 where
  kinds := by
    simp [rotationGadget, angleBody, rotationBody, NodeBody.ofKind, Payload.zero]
  enters k hk := by
    obtain rfl : k = 0 := by omega
    exact ⟨rotationBody text, rfl, rfl⟩
  leaves j hj := by
    obtain rfl : j = 0 := by omega
    exact ⟨rotationBody text, rfl, rfl⟩
  wires := by
    simp only [rotationGadget, mem_singleton, forall_eq]
    exact ⟨angleBody angle, rotationBody text, .float, rfl, rfl, rfl, rfl⟩
  forward := by simp [rotationGadget]
  once := by simp [rotationGadget]
  fed := by
    refine forall_getElem?_cons.2 ⟨?_, forall_getElem?_cons.2 ⟨?_, by simp⟩⟩
    · intro k hk
      exact absurd hk (Nat.not_lt_zero k)
    intro k hk
    change k < 2 at hk
    rcases Nat.lt_succ_iff_lt_or_eq.1 hk with hk | rfl
    · obtain rfl : k = 0 := by omega
      simp [rotationGadget]
    · simp [rotationGadget]
  linear := by
    refine forall_getElem?_cons.2 ⟨?_, forall_getElem?_cons.2 ⟨?_, by simp⟩⟩
    · intro k hk
      cases k with
      | zero => cases hk
      | succ k => cases hk
    · intro k hk
      cases k with
      | zero => simp [rotationGadget]
      | succ k => cases hk

theorem swapGadget_fits : swapGadget.Fits 2 where
  kinds := by simp [swapGadget, controlledXBody, NodeBody.ofKind]
  enters
    | 0, _ => ⟨controlledXBody, rfl, rfl⟩
    | 1, _ => ⟨controlledXBody, rfl, rfl⟩
  leaves
    | 0, _ => ⟨controlledXBody, rfl, rfl⟩
    | 1, _ => ⟨controlledXBody, rfl, rfl⟩
  wires := by
    simp only [swapGadget, forall_mem_cons, not_mem_nil, false_implies, implies_true,
      and_true]
    refine ⟨?_, ?_, ?_, ?_⟩ <;> exact ⟨controlledXBody, controlledXBody, .qubit, rfl, rfl, rfl, rfl⟩
  forward := by simp [swapGadget]
  once := by decide
  fed := by
    have htwo : ∀ k, k < controlledXBody.sig.inputs.length → k = 0 ∨ k = 1 := by
      intro k hk
      change k < 2 at hk
      omega
    refine forall_getElem?_cons.2 ⟨?_, forall_getElem?_cons.2 ⟨?_, forall_getElem?_cons.2
      ⟨?_, by simp⟩⟩⟩ <;>
    · intro k hk
      rcases htwo k hk with rfl | rfl <;> decide
  linear := by
    have htwo : ∀ k : Nat, (qubits 2)[k]? = some .qubit → k < 2 :=
      fun k hk => (List.getElem?_eq_some_iff.1 hk).1
    have hcases : ∀ k : Nat, k < 2 → k = 0 ∨ k = 1 := by omega
    refine forall_getElem?_cons.2 ⟨?_, forall_getElem?_cons.2 ⟨?_, forall_getElem?_cons.2
      ⟨?_, by simp⟩⟩⟩
    · intro k hk
      rcases hcases k (htwo k hk) with rfl | rfl <;> simp [swapGadget]
    · intro k hk
      rcases hcases k (htwo k hk) with rfl | rfl <;> simp [swapGadget]
    intro k hk
    refine .inl ⟨k, htwo k hk, rfl, fun j' _ heq => ?_, by simp [swapGadget]⟩
    exact Int.natCast_inj.1 (Port.mk.inj heq).2

end Graph

/-! ## What the gadgets compute -/

namespace Interpretation

variable {V : Type} (I : Interpretation V)

def rotateX (angle : Float) (text : String) (q : V) : V :=
  I.op (rotationBody text).op (rotationBody text).sig [q, I.const (angleBody angle).const] 0

def controlledX (p : V × V) : V × V :=
  let shown := I.op controlledXBody.op controlledXBody.sig [p.1, p.2]
  (shown 0, shown 1)

/-- Three controlled-X gates, where the wires change places before the second and the third. -/
def exchanged (p : V × V) : V × V := I.controlledX (I.controlledX (I.controlledX p).swap).swap

/-- The gates outside the base set are what the gates in it make of them. -/
structure GateIdentities : Prop where
  v : ∀ tag angle q, I.op ⟨⟨quantumDialect, "V"⟩, tag, angle⟩ ⟨qubits 1, qubits 1⟩ [q] 0 =
    I.rotateX halfPi "1.5707963267948966" q
  vdg : ∀ tag angle q, I.op ⟨⟨quantumDialect, "Vdg"⟩, tag, angle⟩ ⟨qubits 1, qubits 1⟩ [q] 0 =
    I.rotateX (-halfPi) "-1.5707963267948966" q
  swap : ∀ tag angle a b,
    let shown := I.op ⟨⟨quantumDialect, "SWAP"⟩, tag, angle⟩ ⟨qubits 2, qubits 2⟩ [a, b]
    (shown 0, shown 1) = I.exchanged (a, b)

/-- On bits, where a controlled X adds the first one to the second. -/
theorem exchanged_bits {I : Interpretation Bool}
    (hI : ∀ a b, I.controlledX (a, b) = (a, a ^^ b)) (a b : Bool) : I.exchanged (a, b) = (b, a) := by
  cases a <;> cases b <;> simp [exchanged, hI]

end Interpretation

namespace Graph

section Computing

variable {V : Type} {I : Interpretation V} {op : Operation}

theorem Gadget.reads_pair {G : Gadget} {args : List V} {val : Port → V} {i : Nat} {b : NodeBody}
    (hb : b.sig.inputs.length = 2) {P : List V → Prop} :
    (∃ as, G.Reads args val i b as ∧ P as) ↔
      ∃ x y, ((∀ m < args.length, G.enter m = ⟨i, 0⟩ → some x = args[m]?) ∧
        ∀ e ∈ G.wires, e.dst = ⟨i, 0⟩ → x = val e.src) ∧
      ((∀ m < args.length, G.enter m = ⟨i, 1⟩ → some y = args[m]?) ∧
        ∀ e ∈ G.wires, e.dst = ⟨i, 1⟩ → y = val e.src) ∧ P [x, y] := by
  constructor
  · rintro ⟨as, ⟨hlen, hread⟩, hP⟩
    rw [hlen, hb, forall_lt_two] at hread
    obtain ⟨x, y, rfl⟩ := length_eq_two.1 (hlen.trans hb)
    exact ⟨x, y, by simpa using hread.1, by simpa using hread.2, hP⟩
  · rintro ⟨x, y, hx, hy, hP⟩
    refine ⟨[x, y], ⟨hb.symm, forall_lt_two.2 ⟨by simpa using hx, by simpa using hy⟩⟩, hP⟩

theorem rotationGadget_settles {angle : Float} {text : String} {q : V} {val : Port → V} :
    (rotationGadget angle text).Settles I [q] val ↔ val ⟨0, 0⟩ = I.const (angleBody angle).const ∧
      val ⟨1, 0⟩ = I.op (rotationBody text).op (rotationBody text).sig [q, val ⟨0, 0⟩] 0 := by
  constructor
  · intro hval
    obtain ⟨as, -, hangle⟩ := hval 0 _ rfl
    obtain ⟨x, y, hx, hy, hshown⟩ := (Gadget.reads_pair rfl).1 (hval 1 _ rfl)
    cases hx.1 0 Nat.one_pos rfl
    cases hy.2 _ mem_cons_self rfl
    exact ⟨hangle 0 Nat.one_pos, hshown 0 Nat.one_pos⟩
  · rintro ⟨hangle, hrotated⟩
    refine forall_getElem?_cons.2 ⟨⟨[], ⟨rfl, by simp⟩, fun j hj => ?_⟩, forall_getElem?_cons.2
      ⟨(Gadget.reads_pair rfl).2 ⟨q, val ⟨0, 0⟩, ?_, ?_, fun j hj => ?_⟩, by simp⟩⟩
    · cases Nat.lt_one_iff.1 hj
      exact hangle
    · simp [rotationGadget]
    · simp [rotationGadget]
    · cases Nat.lt_one_iff.1 hj
      exact hrotated

theorem rotationGadget_computes {angle : Float} {text : String}
    (hop : ∀ q, I.op op ⟨qubits 1, qubits 1⟩ [q] 0 = I.rotateX angle text q) :
    (rotationGadget angle text).Computes I op 1 := by
  intro args hlen
  obtain ⟨q, rfl⟩ := length_eq_one_iff.1 hlen
  refine ⟨⟨fun p => if p.node = 0 then I.const (angleBody angle).const else I.rotateX angle text q,
    rotationGadget_settles.2 ⟨rfl, rfl⟩⟩, fun val hval j hj => ?_⟩
  cases Nat.lt_one_iff.1 hj
  obtain ⟨hangle, hrotated⟩ := rotationGadget_settles.1 hval
  rw [hangle] at hrotated
  exact hrotated.trans (hop q).symm

theorem swapGadget_settles {a b : V} {val : Port → V} : swapGadget.Settles I [a, b] val ↔
    (val ⟨0, 0⟩, val ⟨0, 1⟩) = I.controlledX (a, b) ∧
    (val ⟨1, 0⟩, val ⟨1, 1⟩) = I.controlledX (val ⟨0, 1⟩, val ⟨0, 0⟩) ∧
    (val ⟨2, 0⟩, val ⟨2, 1⟩) = I.controlledX (val ⟨1, 1⟩, val ⟨1, 0⟩) := by
  unfold Gadget.Settles
  rw [show swapGadget.bodies = [controlledXBody, controlledXBody, controlledXBody] from rfl]
  have hin : controlledXBody.sig.inputs.length = 2 := rfl
  have hout : controlledXBody.sig.outputs.length = 2 := rfl
  have hlen : [a, b].length = 2 := rfl
  simp only [forall_getElem?_cons, Gadget.reads_pair hin, hout, hlen, forall_lt_two]
  simp [swapGadget, Prod.ext_iff]
  rfl

theorem swapGadget_computes
    (hop : ∀ a b, (I.op op ⟨qubits 2, qubits 2⟩ [a, b] 0, I.op op ⟨qubits 2, qubits 2⟩ [a, b] 1) =
      I.exchanged (a, b)) : swapGadget.Computes I op 2 := by
  intro args hlen
  obtain ⟨a, b, rfl⟩ := length_eq_two.1 hlen
  refine ⟨?_, fun val hval => forall_lt_two.2 ?_⟩
  · let shown : Nat → V × V := fun
      | 0 => I.controlledX (a, b)
      | 1 => I.controlledX (I.controlledX (a, b)).swap
      | _ => I.exchanged (a, b)
    exact ⟨fun p => if p.index = 0 then (shown p.node).1 else (shown p.node).2,
      swapGadget_settles.2 ⟨rfl, rfl, rfl⟩⟩
  · obtain ⟨hfirst, hsecond, hthird⟩ := swapGadget_settles.1 hval
    have hleave : (val ⟨2, 0⟩, val ⟨2, 1⟩) = I.exchanged (a, b) := by
      rw [Interpretation.exchanged, ← hfirst, hthird]
      exact congrArg (fun p : V × V => I.controlledX p.swap) hsecond
    exact Prod.ext_iff.1 (hleave.trans (hop a b).symm)

def GateRule.gadget : GateRule → Gadget
  | .rotateX angle text => rotationGadget angle text
  | .swap => swapGadget

theorem GateRule.gadget_computes (hI : I.GateIdentities) {rule : GateRule}
    (hrule : gateRule? op.key = some rule) : rule.gadget.Computes I op rule.width := by
  obtain ⟨⟨dialect, name⟩, tag, angle⟩ := op
  unfold gateRule? at hrule
  split at hrule
  · cases hrule
  rename_i hdialect
  cases Decidable.not_not.1 hdialect
  split at hrule
  · rename_i hname
    cases hname
    cases hrule
    exact rotationGadget_computes (hI.v tag angle)
  split at hrule
  · rename_i hname
    cases hname
    cases hrule
    exact rotationGadget_computes (hI.vdg tag angle)
  split at hrule
  · rename_i hname
    cases hname
    cases hrule
    exact swapGadget_computes (hI.swap tag angle)
  · cases hrule

end Computing

variable {g h : Graph}

/-! ## The two rules -/

theorem install_rotation (angle : Float) (text : String) (base : Nat) (gate : NodeId) :
    (rotationGadget angle text).install base 1 gate = (do
      reconnect ⟨gate, 0⟩ ⟨base + 1, 0⟩
      connect ⟨base, 0⟩ ⟨base + 1, 1⟩
      replaceUses ⟨gate, 0⟩ ⟨base + 1, 0⟩
      removeSubtree gate) := by
  simp [Gadget.install, rotationGadget, Gadget.shift, range_succ]

theorem install_swap (base : Nat) (gate : NodeId) :
    swapGadget.install base 2 gate = (do
      reconnect ⟨gate, 0⟩ ⟨base, 0⟩
      reconnect ⟨gate, 1⟩ ⟨base, 1⟩
      connect ⟨base, 1⟩ ⟨base + 1, 0⟩
      connect ⟨base, 0⟩ ⟨base + 1, 1⟩
      connect ⟨base + 1, 1⟩ ⟨base + 2, 0⟩
      connect ⟨base + 1, 0⟩ ⟨base + 2, 1⟩
      replaceUses ⟨gate, 0⟩ ⟨base + 2, 0⟩
      replaceUses ⟨gate, 1⟩ ⟨base + 2, 1⟩
      removeSubtree gate) := by
  simp [Gadget.install, swapGadget, Gadget.shift, range_succ]

variable {s : GateSite g} {p a b : NodeId} {n : Node} {rest : List NodeId}

theorem expandRotation_ok (hs : s.Place p n a b rest) (hw : s.width = 1) (angle : Float)
    (text : String) : ∃ h, expandRotation angle text s.gate p g = .ok () h ∧
      (rotationGadget angle text).Seated g h s.gate := by
  obtain ⟨h₁, hadd₁, hb₁⟩ := (Gadget.placed_nil hs).place hs (angleBody angle) rfl (.inr rfl)
  obtain ⟨h₂, hadd₂, hb₂⟩ := hb₁.place hs (rotationBody text) rfl (.inl rfl)
  obtain ⟨h₃, hmove₃, hb₃⟩ := hb₂.moveBefore hs (i := 0) (by simp)
  obtain ⟨h₄, hmove₄, hb₄⟩ := hb₃.moveBefore hs (i := 1) (by simp)
  obtain ⟨h, hrun, hseated⟩ := Gadget.install_ok (G := rotationGadget angle text)
    (hw ▸ rotationGadget_fits angle text) hs hb₄
  refine ⟨h, ?_, hseated⟩
  rw [hw, install_rotation] at hrun
  exact bind_ok.2 ⟨_, _, hadd₁, bind_ok.2 ⟨_, _, hadd₂,
    bind_ok.2 ⟨_, _, hmove₃, bind_ok.2 ⟨_, _, hmove₄, hrun⟩⟩⟩⟩

theorem expandSwap_ok (hs : s.Place p n a b rest) (hw : s.width = 2) :
    ∃ h, expandSwap s.gate p g = .ok () h ∧ swapGadget.Seated g h s.gate := by
  have hadd : ∀ {h : Graph} {bodies : List NodeBody}, Gadget.Placed g h p n a b rest bodies →
      ∃ h', addControlledX s.gate p h = .ok (g.nodes.size + bodies.length) h' ∧
        Gadget.Placed g h' p n a b rest (bodies ++ [controlledXBody]) := by
    intro h bodies hb
    obtain ⟨h₁, hadd, hb₁⟩ := hb.place hs controlledXBody rfl (.inl rfl)
    obtain ⟨h₂, hmove, hb₂⟩ := hb₁.moveBefore hs (i := bodies.length) (by simp)
    exact ⟨h₂, bind_ok.2 ⟨_, _, hadd, bind_ok.2 ⟨_, _, hmove, rfl⟩⟩, hb₂⟩
  obtain ⟨h₁, hadd₁, hb₁⟩ := hadd (Gadget.placed_nil hs)
  obtain ⟨h₂, hadd₂, hb₂⟩ := hadd hb₁
  obtain ⟨h₃, hadd₃, hb₃⟩ := hadd hb₂
  obtain ⟨h, hrun, hseated⟩ :=
    Gadget.install_ok (G := swapGadget) (hw ▸ swapGadget_fits) hs hb₃
  refine ⟨h, ?_, hseated⟩
  rw [hw, install_swap] at hrun
  exact bind_ok.2 ⟨_, _, hadd₁, bind_ok.2 ⟨_, _, hadd₂,
    bind_ok.2 ⟨_, _, hadd₃, hrun⟩⟩⟩

/-! ## Gate after gate -/

/-- The gates outside the base set are gates on qubits only. -/
def GatesFit (g : Graph) : Prop :=
  ∀ id n rule, g.node? id = some n → n.kind = .op → gateRule? n.body.op.key = some rule →
    n.sig = ⟨qubits rule.width, qubits rule.width⟩

/-- Whether the gates outside the base set are on qubits only. -/
def gatesFit (g : Graph) : Bool :=
  (range g.nodes.size).all (fun id => (g.node? id).all (fun n => n.kind != .op ||
    (gateRule? n.body.op.key).all (fun rule =>
      n.sig == ⟨qubits rule.width, qubits rule.width⟩)))

theorem GatesFit.of_gatesFit (h : g.gatesFit = true) : g.GatesFit := by
  intro id n rule hn hk hrule
  have hid := all_eq_true.1 h id (mem_range.2 (node?_lt hn))
  simpa [hn, hk, hrule] using hid

def Expandable (g : Graph) (id : NodeId) : Prop :=
  ∃ n rule, g.node? id = some n ∧ n.kind = .op ∧ gateRule? n.body.op.key = some rule ∧
    n.sig = ⟨qubits rule.width, qubits rule.width⟩

/-- Some gates of the first graph are expressed in the base set in the second one. -/
structure Expressed (g h : Graph) (gone : List NodeId) : Prop where
  arena : h.Arena
  lawful : h.Lawful
  plain : g.PlainBoundary → h.PlainBoundary
  functions : ∀ f, g.kind? f = some .funcDefn → h.kind? f = some .funcDefn
  gates : ∀ x n rule, n.kind = .op → gateRule? n.body.op.key = some rule →
    (h.node? x = some n ↔ g.node? x = some n ∧ x ∉ gone)
  runs : ∀ {V : Type} {I : Interpretation V}, I.GateIdentities → ∀ f,
    g.kind? f = some .funcDefn → ∀ depth ins outs,
      h.Runs I depth f ins outs ↔ g.Runs I depth f ins outs

theorem Expressed.refl (ha : g.Arena) (hl : g.Lawful) : Expressed g g [] :=
  ⟨ha, hl, id, fun _ => id, by simp, fun _ _ _ _ _ _ => .rfl⟩

theorem Expressed.trans {k : Graph} {gone gone' : List NodeId} (hgh : Expressed g h gone)
    (hhk : Expressed h k gone') : Expressed g k (gone ++ gone') where
  arena := hhk.arena
  lawful := hhk.lawful
  plain hp := hhk.plain (hgh.plain hp)
  functions f hf := hhk.functions f (hgh.functions f hf)
  gates x n rule hk hrule := by
    rw [hhk.gates x n rule hk hrule, hgh.gates x n rule hk hrule, mem_append, not_or, and_assoc]
  runs hI f hf depth ins outs :=
    (hhk.runs hI f (hgh.functions f hf) depth ins outs).trans (hgh.runs hI f hf depth ins outs)

theorem GateRule.gadget_fits (rule : GateRule) : rule.gadget.Fits rule.width := by
  cases rule with
  | rotateX angle text => exact rotationGadget_fits angle text
  | swap => exact swapGadget_fits

theorem GateRule.gadget_base (rule : GateRule) :
    ∀ b ∈ rule.gadget.bodies, gateRule? b.op.key = none := by
  cases rule <;> simp [gadget, rotationGadget, swapGadget, angleBody, rotationBody, controlledXBody,
    NodeBody.ofKind, gateRule?]

theorem expressed_of_seated (s : GateSite g) {rule : GateRule} (hw : s.width = rule.width)
    (hrule : gateRule? s.node.body.op.key = some rule) (hs : rule.gadget.Seated g h s.gate) :
    Expressed g h [s.gate] := by
  have hG : rule.gadget.Fits s.width := hw ▸ rule.gadget_fits
  refine ⟨hs.arena, GateSite.seated_lawful hs hG, GateSite.seated_plain hs hG, ?_, ?_, ?_⟩
  · intro f hf
    obtain ⟨n, hn, hk⟩ := node_of_kind? hf
    obtain ⟨l, hl, hm⟩ := GateSite.seated_mirrors hs (s.stays hn (by rw [hk]; decide)) hn
    rw [kind?_of_node hl, hm.same.kind, hk]
  · intro x n rule' hk hrule'
    rw [mem_singleton]
    have hsame : ∀ {m : Node} {cs : List NodeId}, m.kind = .op →
        rule.gadget.Refilled g s.gate m cs → cs = m.children := by
      rintro m cs hm (⟨rfl, -⟩ | ⟨hr, -⟩)
      · rfl
      · rw [hm] at hr
        cases hr
    constructor
    · intro hn
      rcases GateSite.node_cases hs hG hn with ⟨m, cs, hm, rfl, hst, hre⟩ | ⟨i, b, -, hb, rfl, -⟩
      · obtain rfl : cs = m.children := hsame (m := m) hk hre
        exact ⟨hm, hst.self.2.1⟩
      · cases (rule.gadget_base _ (mem_of_getElem? hb)).symm.trans hrule'
    · rintro ⟨hn, hne⟩
      obtain ⟨cs, hcs, hre⟩ := hs.kept x n hn hne
      rw [hcs, hsame hk hre]
  · intro V I hI f hf depth ins outs
    obtain ⟨n, hn, hk⟩ := node_of_kind? hf
    obtain ⟨-, hne, hlt⟩ := s.stays hn (by rw [hk]; decide)
    have hcomp := hw ▸ GateRule.gadget_computes hI hrule
    exact ⟨GateSite.runs_of_seated hs hG hcomp hne hlt, GateSite.runs_seated hs hG hcomp hne⟩

/-- A rule expresses a gate. -/
theorem expand_ok (ha : g.Arena) (hl : g.Lawful) {id : NodeId} {n : Node} {rule : GateRule}
    (hn : g.node? id = some n) (hk : n.kind = .op) (hrule : gateRule? n.body.op.key = some rule)
    (hsig : n.sig = ⟨qubits rule.width, qubits rule.width⟩) :
    ∃ h, rule.expand id n g = .ok () h ∧ Expressed g h [id] := by
  let s : GateSite g := ⟨id, n, rule.width, ha, hl, hn, hk, hsig⟩
  obtain ⟨p, m, a, b, rest, hplace⟩ := s.place
  have hparent : n.parent.getD absentNode = p := by
    rw [show n.parent = some p from hplace.hangs.parent]
    rfl
  simp only [GateRule.expand, hsig, ne_eq, not_true_eq_false, if_false, hparent]
  cases rule with
  | rotateX angle text =>
    obtain ⟨h, hrun, hs⟩ := expandRotation_ok hplace rfl angle text
    exact ⟨h, hrun, expressed_of_seated s rfl hrule hs⟩
  | swap =>
    obtain ⟨h, hrun, hs⟩ := expandSwap_ok hplace rfl
    exact ⟨h, hrun, expressed_of_seated s rfl hrule hs⟩

def opKey (g : Graph) (id : NodeId) : OpKey := ((g.node? id).map (·.body.op.key)).getD default

theorem expandGates_ok (ha : g.Arena) (hl : g.Lawful) (ids : List NodeId) (done : Expanded)
    (hids : ids.Nodup) (hfit : ∀ id ∈ ids, g.Expandable id) :
    ∃ h, expandGates ids done g = ((done ++ ids.map g.opKey, none), h) ∧ Expressed g h ids := by
  induction ids generalizing g done with
  | nil => exact ⟨g, by simp [expandGates], .refl ha hl⟩
  | cons id rest ih =>
    rw [nodup_cons] at hids
    obtain ⟨n, rule, hn, hk, hrule, hsig⟩ := hfit id mem_cons_self
    obtain ⟨h, hrun, he⟩ := expand_ok ha hl hn hk hrule hsig
    have hkeep : ∀ x ∈ rest, h.node? x = g.node? x ∧ h.Expandable x := by
      intro x hx
      obtain ⟨n, rule, hn, hk, hrule, hsig⟩ := hfit x (mem_cons_of_mem _ hx)
      have hxh := (he.gates x n rule hk hrule).2 ⟨hn, fun hmem => hids.1 (mem_singleton.1 hmem ▸ hx)⟩
      exact ⟨hxh.trans hn.symm, n, rule, hxh, hk, hrule, hsig⟩
    obtain ⟨k, hrest, hk⟩ := ih he.arena he.lawful (done ++ [n.body.op.key]) hids.2
      fun x hx => (hkeep x hx).2
    have hkeys : rest.map h.opKey = rest.map g.opKey :=
      map_congr_left fun x hx => by rw [opKey, (hkeep x hx).1, opKey]
    have hkey : g.opKey id = n.body.op.key := by simp [opKey, hn]
    refine ⟨k, ?_, he.trans hk⟩
    simp [expandGates, hn, hrule, inContext_ok.2 hrun, hrest, hkeys, hkey]

theorem mem_outsideBase (ha : g.Arena) {id : NodeId} : id ∈ g.outsideBase ↔
    ∃ n rule, g.node? id = some n ∧ n.kind = .op ∧ gateRule? n.body.op.key = some rule := by
  rw [outsideBase, mem_filter]
  constructor
  · rintro ⟨-, hop⟩
    cases hn : g.node? id with
    | none => simp [hn] at hop
    | some n =>
      simp only [hn, Bool.and_eq_true, beq_iff_eq] at hop
      obtain ⟨rule, hrule⟩ := Option.isSome_iff_exists.1 hop.2
      exact ⟨n, rule, rfl, hop.1, hrule⟩
  · rintro ⟨n, rule, hn, hk, hrule⟩
    exact ⟨mem_walk_root ha hn, by simp [hn, hk, hrule]⟩

/-- A lawful graph with an entry can be expressed in the base gate set. -/
theorem rebase_ok (ha : g.Arena) (hl : g.Lawful) (hfit : g.GatesFit) {main : NodeId}
    (hmain : g.entry = .ok main) (validated : Bool) :
    ∃ h, rebase validated g = ((g.outsideBase.map g.opKey, none), h) ∧
      Expressed g h g.outsideBase ∧ Lasting g h ∧ SameFunctions g h := by
  obtain ⟨h, hrun, he⟩ := expandGates_ok ha hl g.outsideBase []
    ((walkFrom_nodup ha _ _).filter _) fun id hid => by
      obtain ⟨n, rule, hn, hk, hrule⟩ := (mem_outsideBase ha).1 hid
      exact ⟨n, rule, hn, hk, hrule, hfit id n rule hn hk hrule⟩
  have hrebase : rebase validated g = ((g.outsideBase.map g.opKey, none), h) := by
    simp [rebase, hmain, hrun, (check_ok_iff_lawful he.arena).2 he.lawful, ite_self]
  have hkeep := ha.rebase validated
  rw [hrebase] at hkeep
  exact ⟨h, hrebase, he, hkeep.2⟩

/-- The operations with this key. -/
def opsWith (g : Graph) (key : OpKey) : List NodeId :=
  (range g.nodes.size).filter fun id =>
    (g.node? id).any fun n => n.kind == .op && n.body.op.key == key

theorem count_outsideBase (ha : g.Arena) {key : OpKey} {rule : GateRule}
    (hrule : gateRule? key = some rule) :
    (g.outsideBase.map g.opKey).count key = (g.opsWith key).length := by
  have hnd : g.outsideBase.Nodup := (walkFrom_nodup ha _ _).filter _
  rw [count_eq_length_filter, filter_map, length_map]
  refine Perm.length_eq ((perm_ext_iff_of_nodup (hnd.filter _)
    (nodup_range.filter _)).2 fun id => ?_)
  simp only [mem_filter, mem_outsideBase ha, Function.comp, beq_iff_eq, opKey, mem_range,
    Option.any_eq_true, Bool.and_eq_true]
  constructor
  · rintro ⟨⟨n, -, hn, hk, -⟩, hkey⟩
    exact ⟨node?_lt hn, n, hn, hk, by simpa [hn] using hkey⟩
  · rintro ⟨-, n, hn, hk, rfl⟩
    exact ⟨⟨n, rule, hn, hk, hrule⟩, by simp [hn]⟩

/-- A checked graph with one entry and gates on qubits is expressed in the base gate set. What is
reported is how many gates of each kind there were, and none is left. Where the gates outside the base
set are what the gates in it make of them, every function denotes what it denoted; for bits, three
controlled-X gates do exchange their inputs. A second run changes nothing. -/
theorem rebase_preserves_denotation (ha : g.Arena) (hc : g.check = .ok ()) {main : NodeId}
    (hmain : g.funcsByName entryName = .ok [main]) (hfit : g.GatesFit) (validated : Bool) :
    ∃ done h, rebase validated g = ((done, none), h) ∧
      (∀ id n, h.node? id = some n → n.kind = .op → gateRule? n.body.op.key = none) ∧
      (∀ key, done.count key = if (gateRule? key).isSome then (g.opsWith key).length else 0) ∧
      SameFunctions g h ∧
      (∀ (V : Type) (I : Interpretation V), I.GateIdentities → ∀ f, g.kind? f = some .funcDefn →
        ∀ ins outs, h.Denotes I f ins outs ↔ g.Denotes I f ins outs) ∧
      (∀ I : Interpretation Bool, (∀ a b, I.controlledX (a, b) = (a, a ^^ b)) →
        ∀ a b, I.exchanged (a, b) = (b, a)) ∧
      rebase validated h = (([], none), h) := by
  obtain ⟨h, hrebase, he, hlast, hsame⟩ :=
    rebase_ok ha (lawful_of_check ha hc) hfit (entry_of_funcsByName hmain) validated
  have hbase : ∀ id n, h.node? id = some n → n.kind = .op → gateRule? n.body.op.key = none := by
    intro id n hn hk
    refine Option.eq_none_iff_forall_ne_some.2 fun rule hrule => ?_
    obtain ⟨hg, hnot⟩ := (he.gates id n rule hk hrule).1 hn
    exact hnot ((mem_outsideBase ha).2 ⟨n, rule, hg, hk, hrule⟩)
  refine ⟨_, h, hrebase, hbase, fun key => ?_, hsame, fun V I hI f hf ins outs => ?_,
    fun I hI => Interpretation.exchanged_bits hI, ?_⟩
  · cases hrule : gateRule? key with
    | some rule => exact count_outsideBase ha hrule
    | none =>
      refine count_eq_zero.2 fun hmem => ?_
      obtain ⟨id, hid, rfl⟩ := mem_map.1 hmem
      obtain ⟨n, rule, hn, -, hsome⟩ := (mem_outsideBase ha).1 hid
      simp [opKey, hn, hsome] at hrule
  · exact exists_congr fun depth => he.runs hI f hf depth ins outs
  · have hnone : h.outsideBase = [] := eq_nil_iff_forall_not_mem.2 fun id hid => by
      obtain ⟨n, rule, hn, hk, hrule⟩ := (mem_outsideBase he.arena).1 hid
      cases (hbase id n hn hk).symm.trans hrule
    have hentry := entry_of_funcsByName (funcsByName_of_same ha he.arena hlast hsame hmain)
    simp [rebase, hentry, hnone, expandGates, (check_ok_iff_lawful he.arena).2 he.lawful, ite_self]

/-- An entry with a gate outside the base set and a call to a function that holds another one. -/
def exchangeCall : Graph :=
  let sig : Signature := ⟨[.qubit, .qubit], [.qubit, .qubit]⟩
  { nodes := #[
      { Node.fresh (NodeBody.ofKind .module ⟨[], []⟩) none with children := [1, 6] },
      { Node.fresh { NodeBody.ofKind .funcDefn sig with name := "main" } (some 0) with
        children := [2, 3, 4, 5] },
      plainNode .input ⟨[], [.qubit, .qubit]⟩ 1 [],
      plainNode .output ⟨[.qubit, .qubit], []⟩ 1 [],
      Node.fresh { NodeBody.ofKind .op ⟨[.qubit], [.qubit]⟩ with
        op := ⟨⟨quantumDialect, "V"⟩, "", ""⟩ } (some 1),
      Node.fresh { NodeBody.ofKind .call sig with callee := some 6 } (some 1),
      { Node.fresh { NodeBody.ofKind .funcDefn sig with name := "exchange" } (some 0) with
        children := [7, 8, 9] },
      plainNode .input ⟨[], [.qubit, .qubit]⟩ 6 [],
      plainNode .output ⟨[.qubit, .qubit], []⟩ 6 [],
      Node.fresh { NodeBody.ofKind .op sig with op := ⟨⟨quantumDialect, "SWAP"⟩, "", ""⟩ } (some 6)]
    edges := [⟨⟨2, 0⟩, ⟨4, 0⟩⟩, ⟨⟨4, 0⟩, ⟨5, 0⟩⟩, ⟨⟨2, 1⟩, ⟨5, 1⟩⟩, ⟨⟨5, 0⟩, ⟨3, 0⟩⟩,
      ⟨⟨5, 1⟩, ⟨3, 1⟩⟩, ⟨⟨7, 0⟩, ⟨9, 0⟩⟩, ⟨⟨7, 1⟩, ⟨9, 1⟩⟩, ⟨⟨9, 0⟩, ⟨8, 0⟩⟩, ⟨⟨9, 1⟩, ⟨8, 1⟩⟩] }

theorem rebase_preserves_denotation_exchangeCall : ∃ done h,
    rebase false exchangeCall = ((done, none), h) ∧ done.count ⟨quantumDialect, "V"⟩ = 1 ∧
      done.count ⟨quantumDialect, "SWAP"⟩ = 1 ∧ rebase false h = (([], none), h) := by
  have ha : exchangeCall.Arena := arena_of_isArena (by decide +kernel)
  have hmain : exchangeCall.funcsByName entryName = .ok [1] := by rfl
  obtain ⟨done, h, hrun, -, hcount, -, -, -, hagain⟩ := rebase_preserves_denotation ha
    (check_ok_iff.mpr (by rfl)) hmain (.of_gatesFit (by decide +kernel)) false
  exact ⟨done, h, hrun, (hcount _).trans (by decide +kernel), (hcount _).trans (by decide +kernel),
    hagain⟩

end Graph

end Qirc
