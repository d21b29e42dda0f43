import Qirc.Proofs.Graph.Documents

/-!
# Graphs that editing gets to

A graph that is read from a document, or the empty one, is coherent and stays so under every sequence
of edits, whether each of them succeeds or fails: containment is a tree, and the two ends of an edge
know of each other. A position that a node once had is never given to another one.
-/

namespace Qirc.Graph

open List Step

variable {g h : Graph}

/-! ## Edits -/

inductive Edit where
  | addFunc (name : String) (sig : Signature)
  | addOp (parent : NodeId) (op : Operation) (sig : Signature)
  | addCall (parent callee : NodeId)
  | addConst (parent : NodeId) (v : Payload)
  | addDfg (parent : NodeId) (sig : Signature)
  | addConditional (parent : NodeId) (others outputs : List ValueType)
  | connect (src dst : Port)
  | disconnect (dst : Port)
  | removeSubtree (id : NodeId)
  | moveBefore (id anchor : NodeId)
  | replaceUses (src dest : Port)
  | reconnect (old dst : Port)
  | inlineCall (call : NodeId)
  | inlineCalls (chosen : List NodeId)
  | prune
  | rebase (validated : Bool)

/-- The graph that an edit leaves behind, whether it succeeds or fails. -/
def Edit.leave : Edit → Graph → Graph
  | .addFunc name sig => (Graph.addFunc name sig).after
  | .addOp parent op sig => (Graph.addOp parent op sig).after
  | .addCall parent callee => (Graph.addCall parent callee).after
  | .addConst parent v => (Graph.addConst parent v).after
  | .addDfg parent sig => (Graph.addDfg parent sig).after
  | .addConditional parent others outputs => (Graph.addConditional parent others outputs).after
  | .connect src dst => (Graph.connect src dst).after
  | .disconnect dst => (·.disconnect dst)
  | .removeSubtree id => (Graph.removeSubtree id).after
  | .moveBefore id anchor => (Graph.moveBefore id anchor).after
  | .replaceUses src dest => (Graph.replaceUses src dest).after
  | .reconnect old dst => (Graph.reconnect old dst).after
  | .inlineCall call => (Graph.inlineCall call).after
  | .inlineCalls chosen => (Graph.inlineCalls chosen).after
  | .prune => Graph.prune.after
  | .rebase validated => fun g => (g.rebase validated).2

def leaveAll (edits : List Edit) (g : Graph) : Graph := edits.foldl (fun g e => e.leave g) g

section Leaving

variable {E : Graph → Graph → Prop} [Enduring E]

theorem Arena.leave (ha : g.Arena) (e : Edit) : (e.leave g).Arena ∧ E g (e.leave g) := by
  have hfunc : ∀ {parent body sig}, NodeBody.Regular body → Upholds E (do
      let id ← place parent body
      placeBoundary id sig) g :=
    fun hb => .bind (upholds_place hb) fun _ _ _ => upholds_placeBoundary
  cases e with
  | addFunc name sig => exact hfunc (.plain name _ nofun) ha
  | addOp parent op sig => exact upholds_plain nofun ha
  | addCall parent callee => exact upholds_addCall ha
  | addConst parent v => exact upholds_place (.constant v) ha
  | addDfg parent sig => exact hfunc (.plain "" _ nofun) ha
  | addConditional parent others outputs => exact upholds_addConditional ha
  | connect src dst => exact upholds_connect ha
  | disconnect dst => exact ⟨ha.disconnect dst, Bearing.of_nodes rfl⟩
  | removeSubtree id => exact upholds_removeSubtree ha
  | moveBefore id anchor => exact upholds_moveBefore ha
  | replaceUses src dest => exact upholds_replaceUses ha
  | reconnect old dst => exact upholds_reconnect ha
  | inlineCall call => exact upholds_inlineCall ha
  | inlineCalls chosen => exact upholds_inlineCalls ha
  | prune => exact upholds_prune ha
  | rebase validated => exact ha.rebase_upholds validated fun id _ => Enduring.expands id

theorem Arena.leaveAll (ha : g.Arena) (edits : List Edit) :
    (leaveAll edits g).Arena ∧ E g (leaveAll edits g) := by
  induction edits generalizing g with
  | nil => exact ⟨ha, Bearing.of_nodes rfl⟩
  | cons e edits ih =>
    obtain ⟨ha', hstep⟩ := ha.leave (E := E) e
    exact ⟨(ih ha').1, Bearing.trans hstep (ih ha').2⟩

end Leaving

/-! ## Coherent graphs -/

inductive Rooted (g : Graph) : NodeId → Prop
  | root : Rooted g root
  | child {c p : NodeId} (hp : g.parent? c = some p) (h : Rooted g p) : Rooted g c

/-- Containment is a tree of live nodes in which each node holds what it may hold, and the ends of an
edge are ports of one type at two nodes of one region that each show the other one. -/
structure Coherent (g : Graph) : Prop where
  top : g.kind? root = some .module ∧ g.parent? root = none
  listed : ∀ id, g.contains id = true → id ≠ root →
    ∃ p, g.parent? id = some p ∧ g.contains p = true ∧ (g.children p).count id = 1
  held : ∀ p c, c ∈ g.children p → g.parent? c = some p ∧
    ∃ kp kc, g.kind? p = some kp ∧ g.kind? c = some kc ∧ kp.mayHold kc = true
  rooted : ∀ id, g.contains id = true → Rooted g id
  shown : ∀ d s, g.source? d = some s ↔ (g.targets s).count d = 1
  once : ∀ d s, (g.targets s).count d ≤ 1
  joins : ∀ d s, g.source? d = some s → g.hasInput d = true ∧ g.hasOutput s = true ∧
    g.parent? s.node = g.parent? d.node ∧ ∃ a b t, g.node? s.node = some a ∧ g.node? d.node = some b ∧
      typeAt? a.sig.outputs s.index = some t ∧ typeAt? b.sig.inputs d.index = some t
  stored : ∀ e ∈ g.edges, g.source? e.dst = some e.src

section Coherence

variable (ha : g.Arena)

include ha

theorem Arena.rooted (id : Nat) (hid : g.contains id = true) : Rooted g id := by
  induction id using Nat.strongRecOn with
  | ind id ih =>
    by_cases hroot : id = root
    · rw [hroot]
      exact .root
    obtain ⟨n, hn⟩ := contains_iff.1 hid
    obtain ⟨p, k, hh⟩ := ha.hangs id n hn hroot
    exact .child ((parent?_of_node hn).trans hh.parent)
      (ih p hh.lt (contains_iff.2 ⟨k, hh.holder⟩))

theorem Arena.coherent : g.Coherent where
  top := by
    obtain ⟨n, hn, hk, hp⟩ := ha.top
    exact ⟨(kind?_of_node hn).trans (congrArg some hk), (parent?_of_node hn).trans hp⟩
  listed id hid hroot := by
    obtain ⟨n, hn⟩ := contains_iff.1 hid
    obtain ⟨p, k, hh⟩ := ha.hangs id n hn hroot
    refine ⟨p, (parent?_of_node hn).trans hh.parent, contains_iff.2 ⟨k, hh.holder⟩, ?_⟩
    rw [children_of_node hh.holder]
    exact count_eq_one_of_mem (ha.nodup p k hh.holder) hh.listed
  held p c hc := by
    cases hn : g.node? p with
    | none => simp [children, hn] at hc
    | some n =>
      rw [children_of_node hn] at hc
      obtain ⟨k, hh⟩ := ha.child p n c hn hc
      exact ⟨(parent?_of_node hh.node).trans hh.parent, n.kind, k.kind, kind?_of_node hn,
        kind?_of_node hh.node, hh.allowed⟩
  rooted := ha.rooted
  shown d s := by
    rw [source?_eq_some_iff ha, ← ha.mem_targets]
    constructor
    · exact count_eq_one_of_mem (ha.targets_nodup s)
    intro hcount
    exact count_pos_iff.1 (by omega)
  once d s := nodup_iff_count_le_one.1 (ha.targets_nodup s) d
  joins d s hs := by
    obtain ⟨a, b, hfit⟩ := ha.edge _ ((source?_eq_some_iff ha).1 hs)
    have hsource : g.node? s.node = some a := hfit.source
    have htarget : g.node? d.node = some b := hfit.target
    obtain ⟨t, ht⟩ := hfit.typed ha
    refine ⟨?_, ?_, ?_, a, b, t, hsource, htarget, ht, hfit.type.symm.trans ht⟩
    · rw [hasInput, htarget]
      exact hfit.input
    · rw [hasOutput, hsource]
      exact hfit.output
    · rw [parent?_of_node hsource, parent?_of_node htarget]
      exact hfit.siblings
  stored e he := (source?_eq_some_iff ha).2 he

end Coherence

/-- Two functions and a call between them. A second edge into one port is refused, and so is the call,
whose input is open: that is found out when the copy is made already. -/
def refusedEdits : List Edit :=
  [.addFunc "main" ⟨[.qubit], [.qubit]⟩, .addFunc "flip" ⟨[.qubit], [.qubit]⟩,
    .addOp 4 ⟨⟨quantumDialect, "X"⟩, "", ""⟩ ⟨qubits 1, qubits 1⟩, .connect ⟨5, 0⟩ ⟨7, 0⟩,
    .connect ⟨7, 0⟩ ⟨6, 0⟩, .connect ⟨5, 0⟩ ⟨6, 0⟩, .addCall 1 4, .connect ⟨8, 0⟩ ⟨3, 0⟩,
    .inlineCall 8]

end Qirc.Graph
