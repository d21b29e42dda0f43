import Qirc.Proofs.Agreement
import Qirc.Proofs.Graph.Reachable
import Qirc.Proofs.Graph.Rewiring

/-!
# Graphs with their edges in another order

An input port has one edge at most, so a graph is told by its nodes and the set of its edges. Their
order shows in the order of the consumers of a port, and edits that go through these agree on graphs
that differ in nothing else.
-/

namespace Qirc.Graph

open List Step

variable {g h : Graph} {α : Type}

structure Rearranged (g h : Graph) : Prop where
  left : g.Arena
  right : h.Arena
  nodes : h.nodes = g.nodes
  edges : ∀ e, e ∈ h.edges ↔ e ∈ g.edges

section

variable (hn : h.nodes = g.nodes)

include hn

theorem walkFrom_nodes (depth : Nat) : h.walkFrom depth = g.walkFrom depth := by
  induction depth with
  | zero => rfl
  | succ depth ih =>
    simp [walkFrom, ih, node?, slot?, hn]

theorem update_nodes (id : NodeId) (f : Node → Node) :
    (h.update id f).nodes = (g.update id f).nodes := by rw [update, update, hn]

theorem bury_nodes (doomed : List NodeId) : (h.bury doomed).nodes = (g.bury doomed).nodes := by
  induction doomed generalizing g h with
  | nil => exact hn
  | cons d rest ih => exact ih (update_nodes hn d _)

theorem enclosing_nodes : h.enclosing = g.enclosing := by
  have hgo : ∀ depth, enclosing.go h depth = enclosing.go g depth := by
    intro depth
    induction depth with
    | zero => rfl
    | succ depth ih =>
      simp [enclosing.go, ih, parent?, kind?, node?, slot?, hn]
  funext id
  rw [enclosing, enclosing, hgo, hn]

theorem build_nodes (keep : NodeId → Bool) : CallGraph.build h keep = CallGraph.build g keep := by
  obtain ⟨nodes, edges⟩ := h
  obtain rfl : nodes = g.nodes := hn
  have hsite : CallGraph.site? ⟨g.nodes, edges⟩ = CallGraph.site? g := by
    funext funcs call
    simp only [CallGraph.site?, enclosing_nodes (h := ⟨g.nodes, edges⟩) (g := g) rfl]
    rfl
  simp only [CallGraph.build, hsite, calls, walk, walkFrom_nodes (h := ⟨g.nodes, edges⟩) (g := g) rfl]
  rfl

end

namespace Rearranged

theorem refl (ha : g.Arena) : Rearranged g g := ⟨ha, ha, rfl, fun _ => .rfl⟩

theorem trans {k : Graph} (hr : Rearranged g h) (hk : Rearranged h k) : Rearranged g k :=
  ⟨hr.left, hk.right, hk.nodes.trans hr.nodes, fun e => (hk.edges e).trans (hr.edges e)⟩

variable (hr : Rearranged g h)

include hr

theorem symm : Rearranged h g := ⟨hr.right, hr.left, hr.nodes.symm, fun e => (hr.edges e).symm⟩

theorem of_nodes {f : Graph → α} (hf : ∀ nodes es es', f ⟨nodes, es⟩ = f ⟨nodes, es'⟩) :
    f h = f g := by
  obtain ⟨nodes, es⟩ := h
  obtain rfl : nodes = g.nodes := hr.nodes
  exact hf _ _ _

theorem slot? : h.slot? = g.slot? := hr.of_nodes fun _ _ _ => rfl

theorem node? : h.node? = g.node? := hr.of_nodes fun _ _ _ => rfl

theorem walk (id : NodeId) : h.walk id = g.walk id := by
  rw [Graph.walk, walkFrom_nodes hr.nodes, hr.nodes, Graph.walk]

theorem source? : h.source? = g.source? := by
  funext p
  refine Option.ext fun q => ?_
  rw [source?_eq_some_iff hr.right, source?_eq_some_iff hr.left]
  exact hr.edges _

theorem feeder? : h.feeder? = g.feeder? := by
  funext p
  refine Option.ext fun q => ?_
  rw [feeder?_eq_some_iff hr.right, feeder?_eq_some_iff hr.left]
  exact hr.edges _

theorem edges_perm : h.edges.Perm g.edges :=
  (perm_ext_iff_of_nodup hr.right.single.of_map hr.left.single.of_map).2 hr.edges

theorem lift {x : Step Graph α} (hx : ∀ k, Upholds Lasting x k)
    (hag : Agree (fun k k' => k'.nodes = k.nodes ∧ ∀ e, e ∈ k'.edges ↔ e ∈ k.edges) (x g) (x h)) :
    Agree Rearranged (x g) (x h) := by
  have hleft := (hx g hr.left).1
  have hright := (hx h hr.right).1
  unfold Step.after at hleft hright
  generalize x g = r at hag hleft
  generalize x h = r' at hag hright
  cases hag with
  | ok a hk => exact .ok a ⟨hleft, hright, hk.1, hk.2⟩
  | error he => exact .error he

theorem place (parent : NodeId) (body : NodeBody) :
    Agree Rearranged (place parent body g) (place parent body h) := by
  refine hr.lift (fun _ => .of_adopt fun _ _ => .adopt parent body) ?_
  simp only [Graph.place, refusal?, hr.node?, hr.nodes, adopt, alloc, update]
  cases g.node? parent with
  | none => exact .error rfl
  | some n =>
    cases hm : n.kind.mayHold body.kind with
    | true =>
      simp only [hm, if_true]
      exact .ok _ ⟨rfl, hr.edges⟩
    | false =>
      simp only [hm, Bool.false_eq_true, if_false]
      exact .error rfl

theorem moveBefore (id anchor : NodeId) :
    Agree Rearranged (moveBefore id anchor g) (moveBefore id anchor h) := by
  refine hr.lift (fun _ => upholds_moveBefore) ?_
  simp only [Graph.moveBefore, get_bind, hr.node?]
  cases g.node? id with
  | none => exact .throw _
  | some n =>
    cases g.node? anchor with
    | none => exact .throw _
    | some a =>
      dsimp only
      split
      · exact .throw _
      cases n.parent.bind g.node? with
      | none => exact .throw _
      | some p =>
        dsimp only
        cases (p.children.filter (· != id)).findIdx? (· == anchor) with
        | none => exact .error rfl
        | some k => exact .ok _ ⟨update_nodes hr.nodes _ _, hr.edges⟩

theorem setChildren {id : NodeId} {cs : List NodeId} (hp : cs.Perm (g.children id)) :
    Rearranged (g.setChildren id cs) (h.setChildren id cs) := by
  refine ⟨hr.left.reorder hp, hr.right.reorder ?_, update_nodes hr.nodes _ _, hr.edges⟩
  rwa [children, hr.node?]

end Rearranged

/-! ## Edges -/

variable {src dst : Port} {f : Failure}

theorem connect?_kind (ha : g.Arena) (hc : g.connect? src dst = .error f) :
    f.kind = some .graph := by
  unfold connect? at hc
  split at hc
  · rename_i hs ht
    split at hc
    · cases hc
      exact Failure.kind_graph _
    rename_i hout
    split at hc
    · cases hc
      exact Failure.kind_graph _
    rename_i hin
    split at hc
    · cases hc
      exact Failure.kind_graph _
    obtain ⟨a, hsa⟩ := ha.output_typed hs (by simpa using hout)
    obtain ⟨b, htb⟩ := ha.input_typed ht (by simpa using hin)
    simp only [hsa, htb] at hc
    split at hc
    · cases hc
      exact Failure.kind_graph _
    split at hc
    · cases hc
      exact Failure.kind_graph _
    · cases hc
  · cases hc
    exact Failure.kind_graph _

variable {k : Graph}

theorem connect_kind (ha : g.Arena) (hc : connect src dst g = .error f k) :
    f.kind = some .graph := by
  unfold connect at hc
  split at hc
  · cases hc
  rename_i hc'
  cases hc
  exact connect?_kind ha hc'

theorem connect_fits (hc : connect src dst g = .ok () k) :
    (∃ s t, EdgeFits g ⟨src, dst⟩ s t) ∧ k.nodes = g.nodes := by
  unfold connect at hc
  split at hc
  · rename_i hc'
    cases hc
    obtain ⟨hfit, -, rfl⟩ := connect?_eq_ok hc'
    exact ⟨hfit, rfl⟩
  · cases hc

variable {dest : Port} {ds : List Port}

theorem moveTargets_fits (hok : moveTargets dest ds g = .ok () k) :
    ∀ d ∈ ds, ∃ s t, EdgeFits g ⟨dest, d⟩ s t := by
  induction ds generalizing g with
  | nil => exact fun _ hd => absurd hd not_mem_nil
  | cons d ds ih =>
    obtain ⟨_, g₁, hcut, hok⟩ := bind_ok.1 hok
    rw [modify_ok.1 hcut] at hok
    obtain ⟨_, g₂, hc, hok⟩ := bind_ok.1 hok
    obtain ⟨⟨s, t, hfit⟩, hnodes⟩ := connect_fits hc
    refine forall_mem_cons.2 ⟨⟨s, t, hfit.of_nodes rfl⟩, fun c hc => ?_⟩
    obtain ⟨s, t, hst⟩ := ih hok c hc
    exact ⟨s, t, hst.of_nodes hnodes.symm⟩

theorem moveTargets_kind (ha : g.Arena) (herror : moveTargets dest ds g = .error f k) :
    f.kind = some .graph := by
  induction ds generalizing g with
  | nil => cases herror
  | cons d ds ih =>
    obtain herror | ⟨_, g₁, hcut, herror⟩ := bind_error.1 herror
    · cases herror
    rw [modify_ok.1 hcut] at herror
    obtain herror | ⟨_, g₂, hc, herror⟩ := bind_error.1 herror
    · exact connect_kind (ha.disconnect d) herror
    · exact ih (upholds_connect (R := SameNodes) |>.ok (ha.disconnect d) hc).1 herror

namespace Rearranged

variable (hr : Rearranged g h)

include hr

theorem connect? {src dst : Port} {k : Graph} (hc : g.connect? src dst = .ok k) :
    ∃ k', h.connect? src dst = .ok k' ∧ Rearranged k k' := by
  obtain ⟨⟨s, t, hfit⟩, hfree, rfl⟩ := connect?_eq_ok hc
  have hfit' := hfit.of_nodes hr.nodes
  have hfree' : ∀ e ∈ h.edges, e.dst ≠ dst := fun e he => hfree e ((hr.edges e).1 he)
  refine ⟨_, connect?_ok hr.right hfit' hfree', hr.left.connected hfit hfree,
    hr.right.connected hfit' hfree', hr.nodes, fun e => ?_⟩
  simp [mem_append, hr.edges]

theorem connect (src dst : Port) : Agree Rearranged (connect src dst g) (connect src dst h) := by
  unfold Graph.connect
  cases hc : g.connect? src dst with
  | ok k =>
    obtain ⟨k', hc', hk⟩ := hr.connect? hc
    rw [hc']
    exact .ok () hk
  | error f =>
    cases hc' : h.connect? src dst with
    | ok k' =>
      obtain ⟨k, hc'', -⟩ := hr.symm.connect? hc'
      cases hc.symm.trans hc''
    | error f' => exact .error ((connect?_kind hr.left hc).trans (connect?_kind hr.right hc').symm)

theorem disconnect (dst : Port) : Rearranged (g.disconnect dst) (h.disconnect dst) :=
  ⟨hr.left.disconnect dst, hr.right.disconnect dst, hr.nodes, fun e => by
    rw [mem_disconnect, mem_disconnect, hr.edges]⟩

theorem moveTargets {dest : Port} {ds ds' : List Port} {k : Graph} (hnd : ds.Nodup) (hnd' : ds'.Nodup)
    (hds : ∀ d, d ∈ ds' ↔ d ∈ ds) (hok : moveTargets dest ds g = .ok () k) :
    ∃ k', moveTargets dest ds' h = .ok () k' ∧ Rearranged k k' := by
  have hfit := moveTargets_fits hok
  obtain ⟨k₁, hok₁, hnodes, ha, hedges, -⟩ := moveTargets_ok dest hr.left hnd hfit
  cases hok.symm.trans hok₁
  obtain ⟨k', hok', hnodes', ha', hedges', -⟩ := moveTargets_ok dest hr.right hnd' fun d hd => by
    obtain ⟨s, t, hst⟩ := hfit d ((hds d).1 hd)
    exact ⟨s, t, hst.of_nodes hr.nodes⟩
  refine ⟨k', hok', ha, ha', hnodes'.trans (hr.nodes.trans hnodes.symm), fun e => ?_⟩
  rw [hedges, hedges']
  simp [hr.edges, hds]

theorem agree_moveTargets (dest src : Port) :
    Agree Rearranged (Graph.moveTargets dest (g.targets src) g)
      (Graph.moveTargets dest (h.targets src) h) := by
  have hds : ∀ d, d ∈ h.targets src ↔ d ∈ g.targets src := fun d => by
    rw [hr.left.mem_targets, hr.right.mem_targets, hr.edges]
  have hnd := hr.left.targets_nodup src
  have hnd' := hr.right.targets_nodup src
  refine .of_ok (fun a k hok => hr.moveTargets hnd hnd' hds hok) (fun a k hok => ?_)
    (fun e k => moveTargets_kind hr.left) fun e k => moveTargets_kind hr.right
  obtain ⟨k', hok', -⟩ := hr.symm.moveTargets hnd' hnd (fun d => (hds d).symm) hok
  exact ⟨k', hok'⟩

theorem replaceUses (src dest : Port) :
    Agree Rearranged (Graph.replaceUses src dest g) (Graph.replaceUses src dest h) :=
  hr.agree_moveTargets dest src

theorem reconnect (old dst : Port) :
    Agree Rearranged (Graph.reconnect old dst g) (Graph.reconnect old dst h) := by
  simp only [Graph.reconnect, get_bind, hr.source?]
  cases g.source? old with
  | none => exact .throw _
  | some src => exact .bind (.ok () (hr.disconnect old)) fun _ _ _ _ hk => hk.connect src dst

theorem removeSubtree (id : NodeId) :
    Agree Rearranged (Graph.removeSubtree id g) (Graph.removeSubtree id h) := by
  cases hn : g.node? id with
  | none =>
    have hn' : h.node? id = none := hr.node? ▸ hn
    simp only [Graph.removeSubtree, removeSubtree?, hn, hn']
    exact .error rfl
  | some n =>
    by_cases hroot : id = root
    · have hn' : h.node? id = some n := hr.node? ▸ hn
      simp only [Graph.removeSubtree, removeSubtree?, hn, hn', if_pos hroot]
      exact .error rfl
    · obtain ⟨p, k, hh⟩ := hr.left.hangs id n hn hroot
      have hh' : HangsFrom h id n p k :=
        ⟨hr.node? ▸ hh.node, hh.parent, hr.node? ▸ hh.holder, hh.listed, hh.allowed, hh.older⟩
      rw [removeSubtree_ok hh, removeSubtree_ok hh']
      refine .ok () ⟨hr.left.without hh, hr.right.without hh', ?_, fun e => ?_⟩
      · rw [without, hr.walk]
        refine bury_nodes (update_nodes ?_ _ _) _
        exact hr.nodes
      · rw [mem_without_edges, mem_without_edges, hr.edges, hr.walk]

/-! ## Inlining -/

theorem copyTree (depth : Nat) (parent id : NodeId) :
    Agree Rearranged (copyTree depth parent id g) (copyTree depth parent id h) := by
  induction depth generalizing g h parent id with
  | zero => exact .throw _
  | succ depth ih =>
    simp only [copyTree, get_bind, hr.slot?]
    cases g.slot? id with
    | none => exact .throw _
    | some n =>
      refine .bind (hr.place parent n.body) fun fresh k k' _ hk => ?_
      simp only [get_bind, children, hk.node?]
      exact .bind (.mapM (fun child _ _ hk => ih hk fresh child) hk) fun _ _ _ _ hk => .ok _ hk

theorem rewireInputs (call input old fresh : NodeId) (map : NodeMap) (ports : List Nat) :
    Agree Rearranged (rewireInputs call input old fresh map ports g)
      (rewireInputs call input old fresh map ports h) := by
  induction ports generalizing g h with
  | nil => exact .ok () hr
  | cons i rest ih =>
    have hfed : (h.edges.find? fun e => e.dst == ⟨old, i⟩).map (·.src) =
        (g.edges.find? fun e => e.dst == ⟨old, i⟩).map (·.src) := congrFun hr.feeder? ⟨old, i⟩
    simp only [rewireInputs, get_bind, hfed, copiedSource, hr.source?]
    cases (g.edges.find? fun e => e.dst == ⟨old, i⟩).map (·.src) with
    | none => exact ih hr
    | some src =>
      exact .bind (.ofExcept _ hr) fun start _ _ _ hk =>
        .bind (hk.connect start ⟨fresh, i⟩) fun _ _ _ _ => ih

theorem rewireAll (call input : NodeId) (map todo : NodeMap) :
    Agree Rearranged (rewireAll call input map todo g)
      (rewireAll call input map todo h) := by
  induction todo generalizing g h with
  | nil => exact .ok () hr
  | cons entry rest ih =>
    simp only [rewireAll, get_bind, hr.slot?]
    exact .bind (hr.rewireInputs ..) fun _ _ _ _ => ih

theorem rewireOutputs (call input output : NodeId) (name : String) (map : NodeMap)
    (ports : List Nat) : Agree Rearranged (Graph.rewireOutputs call input output name map ports g)
      (Graph.rewireOutputs call input output name map ports h) := by
  induction ports generalizing g h with
  | nil => exact .ok () hr
  | cons j rest ih =>
    simp only [Graph.rewireOutputs, get_bind, hr.source?]
    cases g.source? ⟨output, j⟩ with
    | none => exact .throw _
    | some src =>
      have hmove : ∀ start, Agree Rearranged
          ((do Graph.moveTargets start (g.targets ⟨call, j⟩)
               Graph.rewireOutputs call input output name map rest : Step Graph Unit) g)
          ((do Graph.moveTargets start (h.targets ⟨call, j⟩)
               Graph.rewireOutputs call input output name map rest : Step Graph Unit) h) :=
        fun start => .bind (hr.agree_moveTargets start ⟨call, j⟩) fun _ _ _ _ => ih
      dsimp only
      split
      · cases g.source? ⟨call, src.index⟩ with
        | none => exact .error rfl
        | some p => exact hmove p
      · exact hmove _

theorem nameOf : h.nameOf = g.nameOf := hr.of_nodes fun _ _ _ => rfl

theorem boundary : h.boundary = g.boundary := hr.of_nodes fun _ _ _ => rfl

theorem inlineCall (call : NodeId) :
    Agree Rearranged (Graph.inlineCall call g) (Graph.inlineCall call h) := by
  simp only [Graph.inlineCall, get_bind, hr.node?]
  cases g.node? call with
  | none => exact .throw _
  | some c =>
    dsimp only
    split
    · exact .error rfl
    cases c.body.callee.bind g.node? with
    | none => exact .throw _
    | some callee =>
      dsimp only
      split
      · exact .error rfl
      rw [hr.boundary, copyDepth, copyDepth, hr.nodes]
      refine .bind (.ofExcept _ hr) fun _ k k' _ hk => ?_
      cases c.parent.bind g.node? with
      | none => exact .throw _
      | some parent =>
        refine .bind (.bind (.mapM (fun _ _ _ hk => hk.copyTree ..) hk) fun _ _ _ _ hk => .ok _ hk)
          fun map k k' _ hk => ?_
        have hchildren : k'.children = k.children := hk.of_nodes fun _ _ _ => rfl
        simp only [get_bind, hchildren]
        cases parent.children.findIdx? (· == call) with
        | none => exact .error rfl
        | some i =>
          refine .bind (.ok _ (hk.setChildren (inserted_perm _ _ i))) fun _ _ _ _ hk => ?_
          exact .bind (hk.rewireAll ..) fun _ _ _ _ hk =>
            .bind (hk.rewireOutputs ..) fun _ _ _ _ hk => hk.removeSubtree call

theorem inlineSites (name : String) (sites : List NodeId) :
    Agree Rearranged (inlineSites name sites g) (inlineSites name sites h) := by
  induction sites generalizing g h with
  | nil => exact .ok () hr
  | cons call rest ih => exact .bind (.inContext _ (hr.inlineCall call)) fun _ _ _ _ => ih

theorem inlineCallers (cg : CallGraph) (callers : List NodeId) :
    Agree Rearranged (inlineCallers cg callers g) (inlineCallers cg callers h) := by
  induction callers generalizing g h with
  | nil => exact .ok () hr
  | cons caller rest ih =>
    simp only [inlineCallers, get_bind, hr.nameOf]
    exact .bind (hr.inlineSites ..) fun _ _ _ _ => ih

theorem inlineCalls (chosen : List NodeId) :
    Agree Rearranged (Graph.inlineCalls chosen g) (Graph.inlineCalls chosen h) := by
  simp only [Graph.inlineCalls, get_bind, kind?, hr.node?, hr.nameOf, build_nodes hr.nodes]
  cases chosen.find? (fun id => (g.node? id).map Node.kind != some .call) with
  | some id => exact .throw _
  | none =>
    split
    · exact .ok () hr
    refine .bind (.ofExcept _ hr) fun cg _ _ _ hk => ?_
    split
    · exact .error rfl
    refine .bind (hk.inlineCallers ..) fun _ k k' _ hk => ?_
    have hcontains : k'.contains = k.contains := hk.of_nodes fun _ _ _ => rfl
    simp only [get_bind, hcontains]
    cases chosen.find? k.contains with
    | some id => exact .throw _
    | none => exact .ok () hk

/-! ## Pruning and the base gate set -/

theorem functions : h.functions = g.functions := hr.of_nodes fun _ _ _ => rfl

theorem entry : h.entry = g.entry := hr.of_nodes fun _ _ _ => rfl

theorem pruneFuncs (live funcs : List NodeId) (done : Pruned) :
    Agree Rearranged (pruneFuncs live done funcs g) (pruneFuncs live done funcs h) := by
  induction funcs generalizing g h done with
  | nil => exact .ok _ hr
  | cons fn rest ih =>
    unfold pruneFuncs
    split
    · exact ih hr _
    simp only [get_bind, hr.nameOf]
    exact .bind (.inContext _ (hr.removeSubtree fn)) fun _ _ _ _ hk => ih hk _

theorem prune : Agree Rearranged (Graph.prune g) (Graph.prune h) := by
  simp only [Graph.prune, get_bind, hr.entry, build_nodes hr.nodes]
  exact .bind (.ofExcept _ hr) fun _ _ _ _ hk =>
    .bind (.ofExcept _ hk) fun _ _ _ _ hk => hk.pruneFuncs ..

theorem expand (rule : GateRule) (id : NodeId) (n : Node) :
    Agree Rearranged (rule.expand id n g) (rule.expand id n h) := by
  unfold GateRule.expand
  split
  · exact .throw _
  cases rule with
  | rotateX angle text =>
    exact .bind (hr.place ..) fun _ _ _ _ hk => .bind (hk.place ..) fun _ _ _ _ hk =>
      .bind (hk.moveBefore ..) fun _ _ _ _ hk => .bind (hk.moveBefore ..) fun _ _ _ _ hk =>
      .bind (hk.reconnect ..) fun _ _ _ _ hk => .bind (hk.connect ..) fun _ _ _ _ hk =>
      .bind (hk.replaceUses ..) fun _ _ _ _ hk => hk.removeSubtree id
  | swap =>
    have hcx : ∀ {k k' : Graph} (parent : NodeId), Rearranged k k' →
        Agree Rearranged (addControlledX id parent k) (addControlledX id parent k') :=
      fun _ hk => .bind (hk.place ..) fun _ _ _ _ hk =>
        .bind (hk.moveBefore ..) fun _ _ _ _ hk => .ok _ hk
    exact .bind (hcx _ hr) fun _ _ _ _ hk => .bind (hcx _ hk) fun _ _ _ _ hk =>
      .bind (hcx _ hk) fun _ _ _ _ hk =>
      .bind (hk.reconnect ..) fun _ _ _ _ hk => .bind (hk.reconnect ..) fun _ _ _ _ hk =>
      .bind (hk.connect ..) fun _ _ _ _ hk => .bind (hk.connect ..) fun _ _ _ _ hk =>
      .bind (hk.connect ..) fun _ _ _ _ hk => .bind (hk.connect ..) fun _ _ _ _ hk =>
      .bind (hk.replaceUses ..) fun _ _ _ _ hk => .bind (hk.replaceUses ..) fun _ _ _ _ hk =>
      hk.removeSubtree id

/-! ## What reads a graph -/

theorem ofGraph : Document.ofGraph h = Document.ofGraph g := by
  have hinto : Document.edgesInto h = Document.edgesInto g := by
    funext x n
    refine filterMap_congr fun i _ => ?_
    have hport := congrArg (Option.map fun src : Port => (⟨src.node, src.index, x, i⟩ : EdgeRecord))
      (congrFun hr.feeder? ⟨x, i⟩)
    simpa [Graph.feeder?, Function.comp_def] using hport
  simp [Document.ofGraph, hinto, hr.walk, hr.node?]

theorem isReady : h.isReady = g.isReady := by
  funext waiting id
  rw [Bool.eq_iff_iff]
  simp [Graph.isReady, producers, hr.edges]

theorem order : h.order = g.order := by
  have htake : ∀ count waiting, h.takeReady count waiting = g.takeReady count waiting := by
    intro count
    induction count with
    | zero => exact fun waiting => by cases waiting <;> rfl
    | succ count ih =>
      intro waiting
      cases waiting with
      | nil => rfl
      | cons id rest => simp [takeReady, hr.isReady, ih]
  funext region
  simp [Graph.order, hr.node?, htake]

theorem validate : h.validate = g.validate := by
  have hkind : h.slotKind = g.slotKind := hr.of_nodes fun _ _ _ => rfl
  have hsig : h.slotSig = g.slotSig := hr.of_nodes fun _ _ _ => rfl
  have hregion : h.regionFindings = g.regionFindings := by
    funext id n
    simp only [regionFindings, boundaryFindings, hkind, hsig, hr.order]
  have hinput : h.inputFindings = g.inputFindings := by
    funext id n i
    simp [inputFindings, hr.feeder?, hr.node?]
  have houtput : h.outputFindings = g.outputFindings := by
    funext id n i
    simp [outputFindings, (hr.edges_perm.filter _).length_eq]
  have hnode : h.nodeFindings = g.nodeFindings := by
    funext id n
    simp [nodeFindings, childFindings, callFindings, conditionalFindings, hkind, hsig, hr.node?,
      hregion, hinput, houtput]
  have hroot : h.kind? = g.kind? := hr.of_nodes fun _ _ _ => rfl
  rw [Graph.validate, hroot, hr.walk, hr.node?, hnode, Graph.validate]

theorem check : h.check = g.check := by rw [Graph.check, hr.validate, Graph.check]

theorem expandGates (ids : List NodeId) (done : Expanded) :
    AgreeReport Rearranged (expandGates ids done g) (expandGates ids done h) := by
  induction ids generalizing g h done with
  | nil => exact .ok done hr
  | cons id rest ih =>
    unfold expandGates
    rw [hr.node?]
    cases g.node? id with
    | none => exact .error rfl
    | some n =>
      dsimp only
      cases gateRule? n.body.op.key with
      | none => exact .error rfl
      | some rule =>
        dsimp only
        have hstep := (hr.expand rule id n).inContext
          ("rebase " ++ n.body.op.key.text ++ s!" (node {id})")
        generalize inContext _ (rule.expand id n) g = r at hstep
        generalize inContext _ (rule.expand id n) h = r' at hstep
        cases hstep with
        | ok _ hk => exact ih hk _
        | error he => exact .error he

theorem rebase (validated : Bool) :
    AgreeReport Rearranged (g.rebase validated) (h.rebase validated) := by
  have houtside : h.outsideBase = g.outsideBase := by
    rw [outsideBase, hr.walk, hr.node?, outsideBase]
  unfold Graph.rebase
  rw [hr.entry, houtside]
  cases g.entry with
  | error f => exact .error rfl
  | ok _ =>
    have hgates := hr.expandGates g.outsideBase []
    generalize Graph.expandGates _ _ g = r at hgates
    generalize Graph.expandGates _ _ h = r' at hgates
    cases hgates with
    | error hf => exact .error hf
    | @ok k k' done hk =>
      simp only [hk.check]
      cases validated with
      | false => exact .ok done hk
      | true =>
        cases k.check with
        | error f => exact .error rfl
        | ok _ => exact .ok done hk

end Rearranged

end Qirc.Graph
