import Mathlib.Data.Set.Function
import Qirc.Proofs.Graph.Rearranged
import Qirc.Proofs.Graph.Records

/-!
# Graphs that are written and read again

A graph that was written as a document and read again has the same nodes under other numbers, with
the same edges between them. From then on its document does not change any more.
-/

namespace Qirc

open List

def Edge.record (e : Edge) : EdgeRecord := ⟨e.src.node, e.src.index, e.dst.node, e.dst.index⟩

def EdgeRecord.edge (r : EdgeRecord) : Edge := ⟨⟨r.src, r.srcPort⟩, ⟨r.dst, r.dstPort⟩⟩

namespace Graph

variable {g h : Graph} {x y : NodeId} {n : Node}

open Document

/-! ## Edges -/

theorem mem_edgesInto (ha : g.Arena) {r : EdgeRecord} (hn : g.node? x = some n) :
    r ∈ edgesInto g x n ↔ r.edge ∈ g.edges ∧ r.dst = x := by
  simp only [edgesInto, mem_filterMap, mem_range]
  constructor
  · rintro ⟨i, hi, hr⟩
    obtain ⟨e, he, rfl⟩ := Option.map_eq_some_iff.1 hr
    have hd := find?_some he
    rw [beq_iff_eq] at hd
    obtain ⟨src, dst⟩ := e
    cases hd
    exact ⟨mem_of_find?_eq_some he, rfl⟩
  · rintro ⟨he, rfl⟩
    obtain ⟨s, t, hfit⟩ := ha.edge _ he
    cases hn.symm.trans hfit.target
    obtain ⟨i, hi, hp⟩ := natCast_index hfit.input
    obtain ⟨src, srcPort, dst, dstPort⟩ := r
    simp only [EdgeRecord.edge, Port.mk.injEq, true_and] at hp he
    subst hp
    refine ⟨i, hi, ?_⟩
    obtain ⟨e, hfind, hsrc⟩ := Option.map_eq_some_iff.1 ((feeder?_eq_some_iff ha).2 he)
    rw [hfind, Option.map_some, hsrc]

theorem edgesInto_nodup (g : Graph) (x : NodeId) (n : Node) : (edgesInto g x n).Nodup := by
  refine nodup_range.filterMap fun i j r hi hj => ?_
  obtain ⟨_, -, rfl⟩ := Option.map_eq_some_iff.1 hi
  obtain ⟨_, -, heq⟩ := Option.map_eq_some_iff.1 hj
  exact Int.ofNat_inj.1 (congrArg EdgeRecord.dstPort heq).symm

def liveNodes (g : Graph) : List (NodeId × Node) :=
  (g.walk root).filterMap fun x => (g.node? x).map fun n => (x, n)

theorem mem_liveNodes (ha : g.Arena) : (x, n) ∈ g.liveNodes ↔ g.node? x = some n := by
  simp only [liveNodes, mem_filterMap, Option.map_eq_some_iff, Prod.mk.injEq]
  constructor
  · rintro ⟨_, -, _, hk, rfl, rfl⟩
    exact hk
  · intro hn
    exact ⟨x, mem_walk_root ha hn, n, hn, rfl, rfl⟩

theorem liveNodes_nodup (ha : g.Arena) : g.liveNodes.Nodup := by
  refine (walk_nodup ha).filterMap fun i j p hi hj => ?_
  obtain ⟨_, -, rfl⟩ := Option.map_eq_some_iff.1 hi
  obtain ⟨_, -, heq⟩ := Option.map_eq_some_iff.1 hj
  exact (congrArg Prod.fst heq).symm

theorem ofGraph_edges (ha : g.Arena) :
    ∃ es : List Edge, es.Perm g.edges ∧ (ofGraph g).edges = es.map Edge.record := by
  refine ⟨(ofGraph g).edges.map EdgeRecord.edge, ?_, ?_⟩
  · have hsort : (ofGraph g).edges.Perm (g.liveNodes.flatMap fun p => edgesInto g p.1 p.2) :=
      mergeSort_perm ..
    have hnodup : (g.liveNodes.flatMap fun p => edgesInto g p.1 p.2).Nodup := by
      refine nodup_flatMap.2 ⟨fun p _ => edgesInto_nodup .., ?_⟩
      refine (liveNodes_nodup ha).imp_of_mem fun {p q} hp hq hne r hrp hrq => hne ?_
      have hnp := (mem_liveNodes ha).1 hp
      have hnq := (mem_liveNodes ha).1 hq
      have hx : p.1 = q.1 :=
        ((mem_edgesInto ha hnp).1 hrp).2.symm.trans ((mem_edgesInto ha hnq).1 hrq).2
      rw [hx] at hnp
      exact Prod.ext hx (Option.some.inj (hnp.symm.trans hnq))
    refine (hsort.map EdgeRecord.edge).trans ?_
    refine (perm_ext_iff_of_nodup (hnodup.map fun _ _ hr => ?_) ha.single.of_map).2 fun e => ?_
    · exact congrArg Edge.record hr
    simp only [mem_map, mem_flatMap]
    constructor
    · rintro ⟨r, ⟨p, hp, hr⟩, rfl⟩
      exact ((mem_edgesInto ha ((mem_liveNodes ha).1 hp)).1 hr).1
    intro he
    obtain ⟨s, t, hfit⟩ := ha.edge e he
    exact ⟨e.record, ⟨(e.dst.node, t), (mem_liveNodes ha).2 hfit.target,
      (mem_edgesInto ha hfit.target).2 ⟨he, rfl⟩⟩, rfl⟩
  · rw [map_map]
    exact (map_id _).symm

theorem addEdges_ok {σ : NodeId → NodeId} {xs : List NodeId} {b : Builder} {es : List Edge}
    (hb : b.graph.Arena) (hids : b.ids = xs.map fun y => (y, σ y))
    (hends : ∀ e ∈ es, e.src.node ∈ xs ∧ e.dst.node ∈ xs)
    (hfit : ∀ e ∈ es, ∃ s t, EdgeFits b.graph (e.renumber σ) s t)
    (hsingle : ((b.graph.edges ++ es.map (·.renumber σ)).map (·.dst)).Nodup) :
    addEdges b (es.map Edge.record) =
      .ok { b.graph with edges := b.graph.edges ++ es.map (·.renumber σ) } := by
  induction es generalizing b with
  | nil =>
    simp [addEdges]
  | cons e es ih =>
    rw [forall_mem_cons] at hends hfit
    obtain ⟨s, t, hst⟩ := hfit.1
    have hfree : ∀ e' ∈ b.graph.edges, e'.dst ≠ e.dst.renumber σ := by
      rw [map_append, nodup_append] at hsingle
      intro e' he'
      exact hsingle.2.2 _ (mem_map_of_mem he') _ mem_cons_self
    have hsplit : b.graph.edges ++ (e :: es).map (·.renumber σ) =
        (b.graph.edges ++ [e.renumber σ]) ++ es.map (·.renumber σ) := by simp
    have hsrc : b.get? e.record.src = some (σ e.src.node) := get?_of_ids hids hends.1.1
    have hdst : b.get? e.record.dst = some (σ e.dst.node) := get?_of_ids hids hends.1.2
    rw [map_cons, addEdges]
    simp only [hsrc, hdst]
    rw [hsplit] at hsingle ⊢
    refine Step.except_bind_ok.2 ⟨_, connect?_ok hb hst hfree, ?_⟩
    refine ih (b := ⟨_, b.ids⟩) (hb.connected hst hfree) hids hends.2 (fun e he => ?_) hsingle
    obtain ⟨s, t, hst⟩ := hfit.2 e he
    exact ⟨s, t, hst.source, hst.target, hst.siblings, hst.output, hst.input, hst.type⟩

/-! ## Reading back -/

/-- A graph that was read from the document of another one. -/
structure Reloaded (g h : Graph) : Prop where
  arena : h.Arena
  size : h.nodes.size = (g.walk root).length
  image : Image g.position NodeBody.normalized g h

theorem Aimed.node {b : Builder} (hm : Aimed g (g.walk root) b) (ha : g.Arena)
    (hn : g.node? x = some n) : b.graph.node? (g.position x) = some (n.stored g.position) := by
  have hslot := hm.slot x n hn
  rw [targeted, if_pos (mem_walk_root ha hn)] at hslot
  exact node?_of_slot hslot (show n.live = true from node?_live hn)

theorem Aimed.fits {b : Builder} (hm : Aimed g (g.walk root) b) (ha : g.Arena) {e : Edge}
    (he : e ∈ g.edges) : ∃ s t, EdgeFits b.graph (e.renumber g.position) s t := by
  obtain ⟨s, t, hfit⟩ := ha.edge e he
  exact ⟨_, _, hm.node ha hfit.source, hm.node ha hfit.target,
    congrArg (Option.map g.position) hfit.siblings, hfit.output, hfit.input, hfit.type⟩

theorem exists_position (ha : g.Arena) {i : Nat} (hi : i < (g.walk root).length) :
    ∃ x n, g.node? x = some n ∧ g.position x = i := by
  obtain ⟨n, hn⟩ := node_of_mem_walkFrom (getElem_mem hi)
  exact ⟨_, n, hn, (walk_nodup ha).idxOf_getElem i hi⟩

theorem toGraph_ofGraph (ha : g.Arena) (hs : ∀ x n, g.node? x = some n → g.Storable n) :
    ∃ h, (ofGraph g).toGraph = .ok h ∧ Reloaded g h := by
  obtain ⟨b, hb, hba, hm⟩ := linkCalls_ofGraph ha hs
  obtain ⟨es, hperm, hes⟩ := ofGraph_edges ha
  have hmem : ∀ e ∈ es, e ∈ g.edges := fun e he => hperm.mem_iff.1 he
  have hends : ∀ e ∈ es, e.src.node ∈ g.walk root ∧ e.dst.node ∈ g.walk root := by
    intro e he
    obtain ⟨s, t, hfit⟩ := ha.edge e (hmem e he)
    exact ⟨mem_walk_root ha hfit.source, mem_walk_root ha hfit.target⟩
  have hsingle : ((es.map (·.renumber g.position)).map (·.dst)).Nodup := by
    have hdst : (es.map (·.dst)).Nodup := (hperm.map _).nodup_iff.2 ha.single
    rw [map_map]
    refine Nodup.map_on (fun e he e' he' heq => ?_) hdst.of_map
    obtain ⟨_, t, hfit⟩ := ha.edge e (hmem e he)
    obtain ⟨_, t', hfit'⟩ := ha.edge e' (hmem e' he')
    exact inj_on_of_nodup_map ha.single (hmem e he) (hmem e' he')
      (Port.renumber_injective (position_injective ha hfit.target hfit'.target) heq)
  have hadd := addEdges_ok hba hm.ids hends (fun e he => hm.fits ha (hmem e he))
    (by rwa [hm.edges])
  rw [hm.edges, ← hes] at hadd
  refine ⟨_, ?_, (Arena.addEdges hba hadd).1, hm.size, ?_⟩
  · have hnd : duplicate? [] (ofGraph g).nodes = none :=
      duplicate?_eq_none.2 ⟨ofGraph_ids_nodup ha, fun _ _ => not_mem_nil⟩
    have hne := isEmpty_eq_false_iff.2 (ofGraph_nodes_ne_nil ha)
    have hversion : (ofGraph g).version = currentVersion := rfl
    simp only [toGraph, hversion, hne, hnd, hb]
    exact hadd
  · constructor
    · exact position_root ha
    · intro x n hn
      exact hm.node ha hn
    · intro y m hy
      have hlt := node?_lt hy
      obtain ⟨x, n, hn, hx⟩ := exists_position ha (hm.size ▸ hlt)
      exact ⟨x, n, hn, hx⟩
    · exact fun x y n m hn hk heq => position_injective ha hn hk heq
    · exact hperm.map _

/-! ## The second time -/

section Again

variable (hr : Reloaded g h)

include hr

theorem Reloaded.position_eq (ha : g.Arena) {m : Node} (hy : h.node? y = some m) : h.position y = y := by
  have hwalk : h.walk root = range h.nodes.size := by
    rw [hr.image.walk ha hr.arena, walk_map_position ha, hr.size]
  have hlt : y < (h.walk root).length := by
    rw [hwalk, length_range]
    exact node?_lt hy
  have hget : (h.walk root)[y] = y := by simp [hwalk]
  have hidx := (walk_nodup hr.arena).idxOf_getElem y hlt
  rwa [hget] at hidx

theorem Reloaded.storable (hs : ∀ x n, g.node? x = some n → g.Storable n) {m : Node}
    (hy : h.node? y = some m) : h.Storable m := by
  obtain ⟨x, n, hn, rfl⟩ := hr.image.onto y m hy
  cases hy.symm.trans (hr.image.node x n hn)
  have hstored := hs x n hn
  constructor
  · refine ⟨fun hk => ?_, hstored.regular.const, hstored.regular.payload⟩
    exact congrArg (Option.map g.position) (hstored.regular.callee hk)
  · exact hstored.types
  · exact hstored.named
  intro hk
  obtain ⟨f, k, hcallee, hf, hfk, hsig⟩ := hstored.callee hk
  exact ⟨g.position f, _, congrArg (Option.map g.position) hcallee, hr.image.node f k hf, hfk, hsig⟩

theorem Reloaded.stored_eq (ha : g.Arena) (hs : ∀ x n, g.node? x = some n → g.Storable n) {m : Node}
    (hy : h.node? y = some m) : m.stored h.position = m.revise NodeBody.normalized := by
  have hstored := hr.storable hs hy
  have hcallee : m.body.callee.map h.position = m.body.callee := by
    by_cases hk : m.body.kind = .call
    · obtain ⟨f, k, hcallee, hf, -⟩ := hstored.callee hk
      rw [hcallee, Option.map_some, hr.position_eq ha hf]
    · rw [hstored.regular.callee hk]
      rfl
  have hparent : m.parent.map h.position = m.parent := by
    cases hp : m.parent with
    | none => rfl
    | some p =>
      obtain ⟨k, hh⟩ := hr.arena.hangs_of_parent hy hp
      rw [Option.map_some, hr.position_eq ha hh.holder]
  have hchildren : m.children.map h.position = m.children := by
    refine (map_congr_left fun c hc => ?_).trans (map_id _)
    obtain ⟨k, hh⟩ := hr.arena.child y m c hy hc
    exact hr.position_eq ha hh.node
  exact Node.mk.injEq .. |>.mpr ⟨congrArg (fun c => { m.body.normalized with callee := c }) hcallee,
    hparent, hchildren, rfl, rfl, rfl⟩

end Again

theorem Reloaded.again (ha : g.Arena) (hr : Reloaded g h)
    (hs : ∀ x n, g.node? x = some n → g.Storable n)
    (hfixed : ∀ y m, h.node? y = some m → m.body.normalized = m.body) :
    ∃ k, (ofGraph h).toGraph = .ok k ∧ ofGraph k = ofGraph h := by
  obtain ⟨k, hk, hk'⟩ := toGraph_ofGraph hr.arena fun _ _ hy => hr.storable hs hy
  have hnode : ∀ y m, h.node? y = some m → k.node? y = some m := by
    intro y m hy
    have himage := hk'.image.node y m hy
    have hstored := hr.stored_eq ha hs hy
    rw [Node.revise, hfixed y m hy] at hstored
    rw [hr.position_eq ha hy] at himage
    exact himage.trans (congrArg some hstored)
  refine ⟨k, hk, Rearranged.ofGraph ⟨hr.arena, hk'.arena, ?_, fun e => Perm.mem_iff ?_⟩⟩
  · have hsize : k.nodes.size = h.nodes.size := by
      rw [hk'.size, hr.image.walk ha hr.arena, length_map, hr.size]
    refine Array.ext hsize fun i hik hih => ?_
    obtain ⟨x, n, hn, hx⟩ := exists_position ha (hr.size ▸ hih)
    have hy := hr.image.node x n hn
    rw [hx] at hy
    exact (Array.getElem?_eq_some_iff.1 (node?_slot (hnode i _ hy))).2.trans
      (Array.getElem?_eq_some_iff.1 (node?_slot hy)).2.symm
  · have hrenumber : h.edges.map (·.renumber h.position) = h.edges := by
      refine (map_congr_left fun e he => ?_).trans (map_id _)
      obtain ⟨s, t, hfit⟩ := hr.arena.edge e he
      rw [Edge.renumber, Port.renumber, Port.renumber, hr.position_eq ha hfit.source,
        hr.position_eq ha hfit.target]
      rfl
    exact hrenumber ▸ hk'.image.edges

/-! ## Graphs that documents express -/

/-- The texts and types of the live nodes are such that a document can hold them, and the calls call
functions of their type. -/
structure Expressible (g : Graph) : Prop where
  types : ∀ x n, g.node? x = some n → ∀ t ∈ n.sig.inputs ++ n.sig.outputs, t ∈ ValueType.all
  named : ∀ x n, g.node? x = some n → n.kind = .op →
    n.body.op.key.dialect ≠ "" ∧ n.body.op.key.name ≠ ""
  normal : ∀ x n, g.node? x = some n →
    Text.normalize n.name = n.name ∧ Text.normalize n.body.op.tag = n.body.op.tag
  calls : ∀ x n, g.node? x = some n → n.kind = .call → ∃ f k, n.body.callee = some f ∧
    g.node? f = some k ∧ k.kind = .funcDefn ∧ k.sig = n.sig

def nodeExpressible (g : Graph) (n : Node) : Bool :=
  (n.sig.inputs ++ n.sig.outputs).all (ValueType.all.contains ·) &&
  (n.kind != .op || (n.body.op.key.dialect != "" && n.body.op.key.name != "")) &&
  (Text.normalize n.name == n.name && Text.normalize n.body.op.tag == n.body.op.tag) &&
  (n.kind != .call || n.body.callee.any (fun f => (g.node? f).any (fun k =>
    k.kind == .funcDefn && k.sig == n.sig)))

def isExpressible (g : Graph) : Bool :=
  g.nodes.toList.all (fun n => !n.live || g.nodeExpressible n)

theorem expressible_of_isExpressible (he : g.isExpressible = true) : g.Expressible := by
  have hnode : ∀ x n, g.node? x = some n → g.nodeExpressible n = true := by
    intro x n hn
    have hmem : n ∈ g.nodes.toList := Array.mem_toList_iff.2 (Array.mem_of_getElem? (node?_slot hn))
    simpa [node?_live hn] using all_eq_true.1 he n hmem
  simp only [nodeExpressible, Bool.and_eq_true, Bool.or_eq_true, bne_iff_ne, beq_iff_eq,
    all_eq_true, contains_iff_mem, Option.any_eq_true] at hnode
  constructor
  · intro x n hn
    exact (hnode x n hn).1.1.1
  · intro x n hn hk
    exact (hnode x n hn).1.1.2.resolve_left (not_not.2 hk)
  · intro x n hn
    exact (hnode x n hn).1.2
  intro x n hn hk
  obtain ⟨f, hf, k, hkf, hkind, hsig⟩ := (hnode x n hn).2.resolve_left (not_not.2 hk)
  exact ⟨f, k, hf, hkf, hkind, hsig⟩

/-- `σ` carries the live nodes of one graph to those of another one by one, with all that they are,
the node that holds them, the nodes they hold in order, and what feeds each of their ports. -/
structure Isomorphism (σ : NodeId → NodeId) (g h : Graph) : Prop where
  root : σ root = root
  bijective : Set.BijOn σ {x | g.contains x = true} {y | h.contains y = true}
  node : ∀ x n, g.node? x = some n → h.node? (σ x) = some (n.renumber σ)
  source : ∀ x n, g.node? x = some n →
    ∀ i, h.source? ⟨σ x, i⟩ = (g.source? ⟨x, i⟩).map (·.renumber σ)

theorem Expressible.storable (he : g.Expressible) (hb : g.Tidy)
    (hn : g.node? x = some n) : g.Storable n :=
  ⟨hb x n (node?_slot hn), he.types x n hn, he.named x n hn, he.calls x n hn⟩

theorem Expressible.normalized (he : g.Expressible) (hn : g.node? x = some n) :
    n.body.normalized = n.body := by
  obtain ⟨hname, htag⟩ := he.normal x n hn
  rw [NodeBody.normalized, htag]
  exact congrArg (fun name => { n.body with name }) hname

theorem Reloaded.isomorphism (ha : g.Arena) (he : g.Expressible) (hr : Reloaded g h) :
    Isomorphism g.position g h where
  root := position_root ha
  bijective := by
    refine ⟨fun x hx => ?_, fun x hx y hy heq => ?_, fun y hy => ?_⟩
    · obtain ⟨n, hn⟩ := contains_iff.1 hx
      exact contains_iff.2 ⟨_, hr.image.node x n hn⟩
    · obtain ⟨n, hn⟩ := contains_iff.1 hx
      obtain ⟨m, hm⟩ := contains_iff.1 hy
      exact position_injective ha hn hm heq
    · obtain ⟨m, hm⟩ := contains_iff.1 hy
      obtain ⟨x, n, hn, hx⟩ := hr.image.onto y m hm
      exact ⟨x, contains_iff.2 ⟨n, hn⟩, hx⟩
  node x n hn := by
    have hnode := hr.image.node x n hn
    rwa [Node.revise, he.normalized hn] at hnode
  source x n hn i := hr.image.source? ha hr.arena (p := ⟨x, i⟩) hn

/-- A graph that editing got to from the empty one or from a document, and that a document can
express, comes back from its document: the live nodes in the order of their walk are the live nodes
of what is read. Once it was read, its document stays the same. -/
theorem leaveAll_roundtrip {start : Graph}
    (hstart : start = empty ∨ ∃ d : Document, d.toGraph = .ok start) (edits : List Edit)
    (he : (leaveAll edits start).Expressible) :
    ∃ h, (ofGraph (leaveAll edits start)).toGraph = .ok h ∧
      Isomorphism (leaveAll edits start).position (leaveAll edits start) h ∧
      h.walk root = ((leaveAll edits start).walk root).map (leaveAll edits start).position ∧
      ∃ k, (ofGraph h).toGraph = .ok k ∧ ofGraph k = ofGraph h := by
  obtain ⟨hstart, htidy⟩ : start.Arena ∧ start.Tidy := by
    obtain rfl | ⟨d, hd⟩ := hstart
    · exact ⟨.ofRoot rfl, .ofRoot (.plain "" _ nofun)⟩
    · exact arena_of_toGraph hd
  obtain ⟨ha, hkeep⟩ := hstart.leaveAll (E := Tidies) edits
  have hs : ∀ x n, (leaveAll edits start).node? x = some n → (leaveAll edits start).Storable n :=
    fun _ _ hn => he.storable (hkeep htidy) hn
  obtain ⟨h, hread, hr⟩ := toGraph_ofGraph ha hs
  refine ⟨h, hread, hr.isomorphism ha he, hr.image.walk ha hr.arena, hr.again ha hs fun y m hm => ?_⟩
  obtain ⟨x, n, hn, rfl⟩ := hr.image.onto y m hm
  cases hm.symm.trans (hr.image.node x n hn)
  rw [Node.revise, he.normalized hn]
  exact congrArg (fun b => { b with callee := n.body.callee.map (leaveAll edits start).position })
    (he.normalized hn)

/-- A function that calls a later one, with a node that is gone and one that was put elsewhere. -/
def movedEdits : List Edit :=
  [.addFunc "main" ⟨[.qubit], [.qubit]⟩, .addOp 1 ⟨⟨quantumDialect, "Y"⟩, "", ""⟩ ⟨qubits 1, qubits 1⟩,
    .addFunc "flip" ⟨[.qubit], [.qubit]⟩, .addOp 5 ⟨⟨quantumDialect, "X"⟩, "", ""⟩ ⟨qubits 1, qubits 1⟩,
    .connect ⟨6, 0⟩ ⟨8, 0⟩, .connect ⟨8, 0⟩ ⟨7, 0⟩, .addCall 1 5, .connect ⟨2, 0⟩ ⟨9, 0⟩,
    .connect ⟨9, 0⟩ ⟨3, 0⟩, .removeSubtree 4, .addConst 1 { Payload.zero .float with float := 0.5 },
    .moveBefore 10 9]

theorem leaveAll_roundtrip_movedEdits :
    ∃ h, (ofGraph (leaveAll movedEdits empty)).toGraph = .ok h ∧
      Isomorphism (leaveAll movedEdits empty).position (leaveAll movedEdits empty) h ∧
      h.walk root = ((leaveAll movedEdits empty).walk root).map (leaveAll movedEdits empty).position ∧
      ∃ k, (ofGraph h).toGraph = .ok k ∧ ofGraph k = ofGraph h :=
  leaveAll_roundtrip (.inl rfl) movedEdits (expressible_of_isExpressible (by decide +kernel))

end Graph

end Qirc
