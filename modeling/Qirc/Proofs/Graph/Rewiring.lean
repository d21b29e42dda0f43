import Qirc.Proofs.Graph.Splice

/-!
# The edges of an inlined body

The copy gets an edge for each edge of the function. Where the function reads its input, the copy
reads what feeds the call; what read the call reads what feeds the output of the function. Edges
into the function and into the call stay as they are until the call is removed.
-/

namespace Qirc.Graph

open List Step

theorem EdgeFits.of_nodes {g h : Graph} {e : Edge} {s t : Node} (hfit : EdgeFits g e s t)
    (hn : h.nodes = g.nodes) : EdgeFits h e s t := by
  obtain ⟨nodes, edges⟩ := h
  subst hn
  exact ⟨hfit.source, hfit.target, hfit.siblings, hfit.output, hfit.input, hfit.type⟩

theorem moveTargets_ok {h : Graph} (start : Port) {ds : List Port} (hh : h.Arena)
    (hnodup : ds.Nodup) (hfit : ∀ d ∈ ds, ∃ s t, EdgeFits h ⟨start, d⟩ s t) :
    ∃ h', moveTargets start ds h = .ok () h' ∧ h'.nodes = h.nodes ∧ h'.Arena ∧
      (∀ e, e ∈ h'.edges ↔ (e ∈ h.edges ∧ e.dst ∉ ds) ∨ ∃ d ∈ ds, e = ⟨start, d⟩) ∧
      ∀ inside : Port → Bool, (∀ d ∈ ds, inside d = false) →
        h'.edges.filter (fun e => inside e.dst) = h.edges.filter (fun e => inside e.dst) := by
  induction ds generalizing h with
  | nil => exact ⟨h, rfl, rfl, hh, by simp, fun _ _ => rfl⟩
  | cons d ds ih =>
    rw [nodup_cons] at hnodup
    obtain ⟨s, t, hd⟩ := hfit d mem_cons_self
    have hcut := hh.disconnect d
    have hd' : EdgeFits (h.disconnect d) ⟨start, d⟩ s t :=
      hd.of_nodes (h := h.disconnect d) rfl
    have hfree : ∀ e ∈ (h.disconnect d).edges, e.dst ≠ d := fun e he => (mem_disconnect.1 he).2
    obtain ⟨h', hrun, hnodes, ha, hedges, hfilter⟩ := ih (hcut.connected hd' hfree) hnodup.2 (by
      intro c hc
      obtain ⟨s, t, hc⟩ := hfit c (mem_cons_of_mem _ hc)
      exact ⟨s, t, hc.of_nodes (h := ⟨h.nodes, _⟩) rfl⟩)
    refine ⟨h', ?_, hnodes, ha, ?_, ?_⟩
    · simp only [moveTargets, bind_ok]
      exact ⟨_, _, rfl, _, _, connect_ok hcut hd' hfree, hrun⟩
    · intro e
      rw [hedges]
      simp only [mem_append, mem_disconnect, mem_cons, not_mem_nil, or_false, not_or]
      constructor
      · rintro (⟨⟨he, hed⟩ | rfl, hds⟩ | ⟨c, hc, rfl⟩)
        · exact .inl ⟨he, hed, hds⟩
        · exact .inr ⟨d, .inl rfl, rfl⟩
        · exact .inr ⟨c, .inr hc, rfl⟩
      · rintro (⟨he, hed, hds⟩ | ⟨c, rfl | hc, rfl⟩)
        · exact .inl ⟨.inl ⟨he, hed⟩, hds⟩
        · exact .inl ⟨.inr rfl, hnodup.1⟩
        · exact .inr ⟨c, hc, rfl⟩
    · intro inside hin
      rw [hfilter inside fun c hc => hin c (mem_cons_of_mem _ hc)]
      have hout := hin d mem_cons_self
      simp only [disconnect, filter_append, filter_filter, filter_cons, hout,
        filter_nil, append_nil, Bool.false_eq_true, if_false]
      apply filter_congr
      intro e _
      by_cases he : e.dst = d
      · simp [he, hout]
      · simp [he]

/-- The edges out of some ports of a node start somewhere else. -/
structure Rerouted (x : NodeId) (start : Nat → Port) (js : List Nat) (h h' : Graph) : Prop where
  nodes : h'.nodes = h.nodes
  arena : h'.Arena
  edges : ∀ e, e ∈ h'.edges ↔ (e ∈ h.edges ∧ ∀ j ∈ js, e.src ≠ ⟨x, (j : Nat)⟩) ∨
    ∃ j ∈ js, ∃ d, ⟨⟨x, j⟩, d⟩ ∈ h.edges ∧ e = ⟨start j, d⟩
  others : ∀ inside : Port → Bool,
    (∀ j ∈ js, ∀ d, ⟨⟨x, (j : Nat)⟩, d⟩ ∈ h.edges → inside d = false) →
    h'.edges.filter (fun e => inside e.dst) = h.edges.filter (fun e => inside e.dst)

section Reroute

variable {x : NodeId} {start : Nat → Port} {j : Nat} {js : List Nat} {h h₁ h₂ : Graph}

theorem Rerouted.nil (hh : h.Arena) : Rerouted x start [] h h := ⟨rfl, hh, by simp, fun _ _ => rfl⟩

theorem Rerouted.edge (hr : Rerouted x start js h h₁) (hx : ∀ j ∈ js, (start j).node ≠ x) {i : Int}
    {d : Port} (he : ⟨⟨x, i⟩, d⟩ ∈ h₁.edges) : ⟨⟨x, i⟩, d⟩ ∈ h.edges := by
  obtain ⟨he, -⟩ | ⟨j, hj, d', -, heq⟩ := (hr.edges _).1 he
  · exact he
  · exact absurd (congrArg (fun e : Edge => e.src.node) heq).symm (hx j hj)

theorem Rerouted.cons (hj : Rerouted x start [j] h h₁) (hjs : Rerouted x start js h₁ h₂)
    (hx : (start j).node ≠ x) : Rerouted x start (j :: js) h h₂ where
  nodes := hjs.nodes.trans hj.nodes
  arena := hjs.arena
  edges e := by
    have hmem := hj.edges
    simp only [mem_singleton, forall_eq, exists_eq_left] at hmem
    have hne : ∀ i : Int, start j ≠ ⟨x, i⟩ := fun i heq => hx (by rw [heq])
    rw [hjs.edges]
    simp only [mem_cons, forall_eq_or_imp, exists_eq_or_imp]
    constructor
    · rintro (⟨he, hjs⟩ | ⟨i, hi, d, hd, rfl⟩)
      · obtain ⟨he, hej⟩ | he := (hmem e).1 he
        · exact .inl ⟨he, hej, hjs⟩
        · exact .inr (.inl he)
      · exact .inr (.inr ⟨i, hi, d, hj.edge (by simpa using hx) hd, rfl⟩)
    · rintro (⟨he, hej, hjs⟩ | ⟨d, hd, rfl⟩ | ⟨i, hi, d, hd, rfl⟩)
      · exact .inl ⟨(hmem e).2 (.inl ⟨he, hej⟩), hjs⟩
      · exact .inl ⟨(hmem _).2 (.inr ⟨d, hd, rfl⟩), fun i _ => hne i⟩
      by_cases hij : i = j
      · subst hij
        exact .inl ⟨(hmem _).2 (.inr ⟨d, hd, rfl⟩), fun i' _ => hne i'⟩
      · refine .inr ⟨i, hi, d, (hmem _).2 (.inl ⟨hd, fun heq => hij ?_⟩), rfl⟩
        exact Int.natCast_inj.1 (congrArg Port.index heq)
  others inside hin := by
    rw [hjs.others inside fun i hi d hd => ?_, hj.others inside fun i hi d hd => ?_]
    · exact hin i (mem_cons.2 (.inl (mem_singleton.1 hi))) d hd
    · exact hin i (mem_cons_of_mem _ hi) d (hj.edge (by simpa using hx) hd)

theorem replaceUses_ok (start : Nat → Port) (hh : h.Arena)
    (hfit : ∀ d, ⟨⟨x, j⟩, d⟩ ∈ h.edges → ∃ s t, EdgeFits h ⟨start j, d⟩ s t) :
    ∃ h', replaceUses ⟨x, j⟩ (start j) h = .ok () h' ∧ Rerouted x start [j] h h' := by
  obtain ⟨h', hrun, hnodes, ha, hedges, hfilter⟩ := moveTargets_ok (start j) hh
    (hh.targets_nodup ⟨x, j⟩) fun d hd => hfit d ((hh.mem_targets).1 hd)
  refine ⟨h', hrun, hnodes, ha, fun e => ?_, fun inside hin => hfilter inside fun d hd =>
    hin j mem_cons_self d ((hh.mem_targets).1 hd)⟩
  simp only [hedges, hh.mem_targets, mem_singleton, forall_eq, exists_eq_left]
  refine or_congr_left (and_congr_right fun he => not_congr ⟨fun hsrc => ?_, fun hsrc => ?_⟩)
  · -- one edge only ends at a port
    exact congrArg Edge.src (inj_on_of_nodup_map hh.single he hsrc rfl)
  · rw [← hsrc]
    exact he

end Reroute

namespace CallSite

variable {g h : Graph} {s : CallSite g} {made : NodeMap} {tops : List NodeId}

theorem Copied.of_nodes {k : Graph} (hc : s.Copied h made tops) (hn : k.nodes = h.nodes) :
    s.Copied k made tops := by
  obtain ⟨nodes, edges⟩ := k
  subst hn
  exact ⟨hc.keep rfl fun _ _ => rfl, hc.others, hc.holder⟩

/-- The edges into the function and into the call are what they were. -/
def Retains (s : CallSite g) (h : Graph) : Prop :=
  ∀ e : Edge, e.dst.node = s.call ∨ Under g s.callee e.dst.node → (e ∈ h.edges ↔ e ∈ g.edges)

theorem call_source (hr : s.Retains h) (hh : h.Arena) {k : Int} {src : Port}
    (hsrc : g.source? ⟨s.call, k⟩ = some src) : h.source? ⟨s.call, k⟩ = some src := by
  rw [source?_eq_some_iff hh, hr _ (.inl rfl)]
  exact source?_edge hsrc

theorem copiedSource_ok (hc : s.Copied h made tops) (hr : s.Retains h) (hh : h.Arena) {e : Edge}
    {S T : Node} {p q : NodeId} (old : NodeId) (hfit : EdgeFits g e S T) (hp : T.parent = some p)
    (hq : s.Becomes made p q) :
    copiedSource h s.call s.first old made e.src = .ok (s.copySource made e.src) := by
  unfold copiedSource
  by_cases hfirst : e.src.node = s.first
  · have hS := hfit.source
    rw [hfirst, s.bounded.first] at hS
    cases hS
    obtain ⟨k, hk, heq⟩ := natCast_index hfit.output
    rw [hfirst] at heq
    obtain ⟨src, hsrc, -, hcopy⟩ := s.copySource_of_first made hk
    rw [if_pos hfirst, heq, hcopy, call_source hr hh hsrc]
  · obtain ⟨y, hy⟩ := hc.source_copied hfit hp hq hfirst
    rw [if_neg hfirst, NodeMap.get?_of_mem hc.once hy, hc.copySource_of_mem hy]

theorem Copied.copy_fits (hc : s.Copied h made tops) (hh : h.Arena) {e : Edge} {S T : Node}
    (hfit : EdgeFits g e S T) {new : NodeId} (hnew : (e.dst.node, new) ∈ made) :
    (s.copySource made e.src).node ≠ s.call ∧
      ∃ S' T', EdgeFits h ⟨s.copySource made e.src, new, e.dst.index⟩ S' T' := by
  obtain ⟨p, m, hhang, -⟩ := (hc.key_under hnew).hangs s.arena hfit.target
  obtain ⟨q, hq, hpar⟩ := hc.parent_becomes hnew hfit.target hhang.parent
  obtain ⟨hne, n, hoff⟩ := hc.offers hh hfit hhang.parent hq
  obtain ⟨k, l, ht⟩ := hc.twins _ _ hnew
  have hk := ht.old
  rw [hfit.target] at hk
  cases hk
  have hsame := ht.same s.arena hh
  refine ⟨hne, n, l, hoff.node, ht.new, ?_, hoff.output, ?_, ?_⟩
  · rw [hoff.parent, ← hpar, parent?_of_node ht.new]
  · rw [hsame.inputs]
    exact hfit.input
  · rw [hoff.type, hsame.sig]

theorem Retains.append {k : Graph} {es : List Edge} (hc : s.Copied h made tops) (hr : s.Retains h)
    (hk : k.edges = h.edges ++ es) (hes : ∀ e ∈ es, ∃ a, (a, e.dst.node) ∈ made) : s.Retains k := by
  intro e he
  rw [hk, mem_append, ← hr e he]
  refine or_iff_left ?_
  intro hmem
  -- a fresh node is neither the call nor part of the function
  obtain ⟨a, hnew⟩ := hes e hmem
  have hbound := hc.fresh _ _ hnew
  obtain he | he := he
  · exact absurd (node?_lt s.hangs.node) (by rw [← he]; exact Nat.not_lt_of_le hbound)
  obtain ⟨n, hn⟩ := he.node
  exact absurd (node?_lt hn) (Nat.not_lt_of_le hbound)

theorem rewireInputs_ok {old new : NodeId} {k : Node} (hnew : (old, new) ∈ made)
    (hk : g.node? old = some k) {is : List Nat} (hc : s.Copied h made tops) (hr : s.Retains h)
    (hh : h.Arena) (hnodup : is.Nodup) (hlt : ∀ i ∈ is, i < k.inputCount)
    (hfree : ∀ i : Nat, i ∈ is → ∀ e ∈ h.edges, e.dst ≠ ⟨new, i⟩) :
    ∃ es h', rewireInputs s.call s.first old new made is h = .ok () h' ∧ h'.nodes = h.nodes ∧
      h'.edges = h.edges ++ es ∧ h'.Arena ∧ ∀ e, e ∈ es ↔ ∃ i : Nat, i ∈ is ∧ ∃ src,
        ⟨src, old, i⟩ ∈ g.edges ∧ e = ⟨s.copySource made src, new, i⟩ := by
  induction is generalizing h with
  | nil => exact ⟨[], h, rfl, rfl, by simp, hh, by simp⟩
  | cons i is ih =>
    rw [nodup_cons] at hnodup
    have hunder := hc.key_under hnew
    obtain ⟨src, hedge⟩ := s.lawful.fed _ _ hk i (hlt i mem_cons_self)
    have hfeed : h.feeder? ⟨old, i⟩ = some src := by
      rw [feeder?_eq_some_iff hh, hr _ (.inr hunder)]
      exact hedge
    obtain ⟨S, T, hfit⟩ := s.arena.edge _ hedge
    obtain ⟨p, m, hhang, -⟩ := hunder.hangs s.arena hfit.target
    obtain ⟨q, hq, -⟩ := hc.parent_becomes hnew hfit.target hhang.parent
    have hsource := copiedSource_ok hc hr hh old hfit hhang.parent hq
    obtain ⟨-, S', T', hfit'⟩ := hc.copy_fits hh hfit hnew
    have hfree' := hfree i mem_cons_self
    obtain ⟨es, h', hrun, hnodes, hedges, ha, hes⟩ :=
      ih (h := { h with edges := h.edges ++ [⟨s.copySource made src, new, i⟩] })
        (hc.of_nodes (k := ⟨h.nodes, _⟩) rfl)
        (hr.append hc rfl fun e he => ⟨old, by rw [mem_singleton.1 he]; exact hnew⟩)
        (hh.connected hfit' hfree') hnodup.2 (fun j hj => hlt j (mem_cons_of_mem _ hj))
        (by
          intro j hj e he
          rcases mem_append.1 he with he | he
          · exact hfree j (mem_cons_of_mem _ hj) e he
          rw [mem_singleton.1 he]
          intro hij
          simp only [Port.mk.injEq, true_and, Int.natCast_inj] at hij
          exact hnodup.1 (hij ▸ hj))
    refine ⟨⟨s.copySource made src, new, i⟩ :: es, h', ?_, hnodes, ?_, ha, ?_⟩
    · simp only [rewireInputs, bind_ok]
      refine ⟨h, h, rfl, ?_⟩
      rw [show (h.edges.find? fun e => e.dst == ⟨old, i⟩).map (·.src) = some src from hfeed]
      simp only [bind_ok, ofExcept_ok]
      exact ⟨_, _, ⟨hsource, rfl⟩, _, _, connect_ok hh hfit' hfree', hrun⟩
    · rw [hedges, append_assoc]
      rfl
    · intro e
      rw [mem_cons, hes]
      constructor
      · rintro (rfl | ⟨j, hj, src', hsrc', rfl⟩)
        · exact ⟨i, mem_cons_self, src, hedge, rfl⟩
        · exact ⟨j, mem_cons_of_mem _ hj, src', hsrc', rfl⟩
      · rintro ⟨j, hj, src', hsrc', rfl⟩
        rcases mem_cons.1 hj with rfl | hj
        · cases inj_on_of_nodup_map s.arena.single hedge hsrc' rfl
          exact .inl rfl
        · exact .inr ⟨j, hj, src', hsrc', rfl⟩

theorem rewireAll_ok {pairs : NodeMap} (hsub : ∀ p ∈ pairs, p ∈ made)
    (hnodup : (pairs.map (·.2)).Nodup) (hc : s.Copied h made tops) (hr : s.Retains h)
    (hh : h.Arena) (hfree : ∀ p ∈ pairs, ∀ e ∈ h.edges, e.dst.node ≠ p.2) :
    ∃ es h', rewireAll s.call s.first made pairs h = .ok () h' ∧ h'.nodes = h.nodes ∧
      h'.edges = h.edges ++ es ∧ h'.Arena ∧ ∀ e, e ∈ es ↔ ∃ d ∈ g.edges, ∃ new,
        (d.dst.node, new) ∈ pairs ∧ e = ⟨s.copySource made d.src, new, d.dst.index⟩ := by
  induction pairs generalizing h with
  | nil => exact ⟨[], h, rfl, rfl, by simp, hh, by simp⟩
  | cons pair pairs ih =>
    obtain ⟨old, new⟩ := pair
    rw [map_cons, nodup_cons] at hnodup
    have hnew := hsub (old, new) mem_cons_self
    obtain ⟨k, l, ht⟩ := hc.twins _ _ hnew
    obtain ⟨es₁, h₁, hrun₁, hnodes₁, hedges₁, ha₁, hes₁⟩ :=
      rewireInputs_ok hnew ht.old hc hr hh (nodup_range (n := k.inputCount))
        (fun i hi => mem_range.1 hi)
        (by
          intro i _ e he hdst
          exact hfree (old, new) mem_cons_self e he (by rw [hdst]))
    have hfresh : ∀ e ∈ es₁, e.dst.node = new := by
      intro e he
      obtain ⟨i, -, src, -, rfl⟩ := (hes₁ e).1 he
      rfl
    obtain ⟨es₂, h₂, hrun₂, hnodes₂, hedges₂, ha₂, hes₂⟩ := ih
      (fun p hp => hsub p (mem_cons_of_mem _ hp)) hnodup.2 (hc.of_nodes hnodes₁)
      (hr.append hc hedges₁ fun e he => ⟨old, by rw [hfresh e he]; exact hnew⟩) ha₁
      (by
        intro p hp e he
        rw [hedges₁, mem_append] at he
        obtain he | he := he
        · exact hfree p (mem_cons_of_mem _ hp) e he
        rw [hfresh e he]
        intro hpn
        exact hnodup.1 (mem_map.2 ⟨p, hp, hpn.symm⟩))
    refine ⟨es₁ ++ es₂, h₂, ?_, hnodes₂.trans hnodes₁, ?_, ha₂, ?_⟩
    · have hcount : ((h.slot? old).map (·.inputCount)).getD 0 = k.inputCount := by
        have hne := s.holder_apart (.inr (hc.key_under hnew))
        rw [hc.others old (node?_lt ht.old) hne, node?_slot ht.old]
        rfl
      simp only [rewireAll, bind_ok]
      refine ⟨h, h, rfl, (), h₁, ?_, hrun₂⟩
      rw [hcount]
      exact hrun₁
    · rw [hedges₂, hedges₁, append_assoc]
    · intro e
      rw [mem_append, hes₁, hes₂]
      constructor
      · rintro (⟨i, -, src, hsrc, rfl⟩ | ⟨d, hd, x, hx, rfl⟩)
        · exact ⟨_, hsrc, new, mem_cons_self, rfl⟩
        · exact ⟨d, hd, x, mem_cons_of_mem _ hx, rfl⟩
      · rintro ⟨⟨src, node, index⟩, hd, x, hx, rfl⟩
        rcases mem_cons.1 hx with he | hx
        · cases he
          obtain ⟨S, T, hfit⟩ := s.arena.edge _ hd
          have hT := hfit.target
          rw [ht.old] at hT
          cases hT
          obtain ⟨i, hi, heq⟩ := natCast_index hfit.input
          cases heq
          exact .inl ⟨i, mem_range.2 hi, src, hd, rfl⟩
        · exact .inr ⟨_, hd, x, hx, rfl⟩

/-- Where the consumers of an output of the call read in the end. -/
def start (s : CallSite g) (made : NodeMap) (j : Int) : Port :=
  s.copySource made ((g.source? ⟨s.last, j⟩).getD ⟨s.last, j⟩)

theorem last_count (s : CallSite g) : s.output.inputCount = s.node.outputCount := by
  rw [s.arena.inputs _ _ s.bounded.last, s.arena.outputs _ _ s.hangs.node, s.bounded.lastKind,
    s.kind, s.bounded.lastSig, s.sig]
  rfl

theorem last_fed (s : CallSite g) {j : Nat} (hj : j < s.node.outputCount) :
    ∃ src S, g.source? ⟨s.last, j⟩ = some src ∧ EdgeFits g ⟨src, s.last, j⟩ S s.output := by
  obtain ⟨src, hedge⟩ := s.lawful.fed _ _ s.bounded.last j (by rw [s.last_count]; exact hj)
  obtain ⟨S, T, hfit⟩ := s.arena.edge _ hedge
  have hT := hfit.target
  rw [s.bounded.last] at hT
  cases hT
  exact ⟨src, S, (source?_eq_some_iff s.arena).2 hedge, hfit⟩

theorem reader_apart (hr : s.Retains h) {j : Int} {d : Port} (he : ⟨⟨s.call, j⟩, d⟩ ∈ h.edges) :
    ¬(d.node = s.call ∨ Under g s.callee d.node) := by
  intro hd
  have hedge := (hr ⟨⟨s.call, j⟩, d⟩ hd).1 he
  obtain ⟨S, T, hfit⟩ := s.arena.edge _ hedge
  have hS := hfit.source
  rw [s.hangs.node] at hS
  cases hS
  have hpar : T.parent = some s.holder := hfit.siblings.symm.trans s.hangs.parent
  obtain hd | hd := hd
  · exact s.lawful.not_self hedge hd.symm
  · exact s.holder_apart (hd.cases_parent hfit.target hpar) rfl

theorem rewireOutputs_ok (name : String) (js : List Nat) (hc : s.Copied h made tops)
    (hr : s.Retains h) (hh : h.Arena) (hlt : ∀ j ∈ js, j < s.node.outputCount) :
    ∃ h', rewireOutputs s.call s.first s.last name made js h = .ok () h' ∧
      Rerouted s.call (fun j => s.start made j) js h h' := by
  induction js generalizing h with
  | nil => exact ⟨h, rfl, .nil hh⟩
  | cons j js ih =>
    obtain ⟨src, S, hsrc, hfit⟩ := s.last_fed (hlt j mem_cons_self)
    have hstart : s.start made j = s.copySource made src := by rw [start, hsrc]; rfl
    obtain ⟨hne, n, hoff⟩ := hc.offers hh hfit s.last_hangs.parent (.inl ⟨rfl, rfl⟩)
    rw [← hstart] at hne hoff
    obtain ⟨cs, hcall⟩ := hc.keeps _ _ s.hangs.node
    obtain ⟨h₁, hrun₁, hr₁⟩ :=
      replaceUses_ok (x := s.call) (j := j) (fun j => s.start made j) hh (by
        intro d hd
        obtain ⟨C, D, hold⟩ := hh.edge _ hd
        have hC := hold.source
        rw [hcall] at hC
        cases hC
        refine ⟨n, D, hoff.node, hold.target, ?_, hoff.output, hold.input, ?_⟩
        · rw [hoff.parent, ← hold.siblings]
          exact s.hangs.parent.symm
        · rw [hoff.type, ← hold.type, s.bounded.lastSig, s.sig]
          rfl)
    have hretains : s.Retains h₁ := by
      intro e he
      rw [hr₁.edges, ← hr e he]
      simp only [mem_singleton, forall_eq, exists_eq_left]
      constructor
      · rintro (⟨hmem, -⟩ | ⟨d, hd, rfl⟩)
        · exact hmem
        · exact absurd he (reader_apart hr hd)
      · intro hmem
        refine .inl ⟨hmem, fun hsrc => ?_⟩
        exact reader_apart hr (d := e.dst) (by rw [← hsrc]; exact hmem) he
    obtain ⟨h₂, hrun₂, hr₂⟩ :=
      ih (hc.of_nodes hr₁.nodes) hretains hr₁.arena fun i hi => hlt i (mem_cons_of_mem _ hi)
    refine ⟨h₂, ?_, hr₁.cons hr₂ hne⟩
    have hlast : h.source? ⟨s.last, j⟩ = some src := by
      rw [source?_eq_some_iff hh, hr _ (.inr (s.last_hangs.under (.inl rfl)))]
      exact source?_edge hsrc
    simp only [rewireOutputs, bind_ok]
    refine ⟨h, h, rfl, ?_⟩
    rw [hlast]
    dsimp only
    have hcopy := copiedSource_ok hc hr hh s.last hfit s.last_hangs.parent (.inl ⟨rfl, rfl⟩)
    rw [← hstart] at hcopy
    unfold copiedSource at hcopy
    by_cases hfirst : src.node = s.first
    · rw [if_pos hfirst] at hcopy ⊢
      cases hp : h.source? ⟨s.call, src.index⟩ with
      | none =>
        rw [hp] at hcopy
        cases hcopy
      | some p =>
        rw [hp] at hcopy
        cases hcopy
        simp only [bind_ok]
        exact ⟨_, _, rfl, _, _, hrun₁, hrun₂⟩
    · rw [if_neg hfirst] at hcopy ⊢
      cases hp : made.get? src.node with
      | none =>
        rw [hp] at hcopy
        cases hcopy
      | some y =>
        rw [hp] at hcopy
        have hport : ⟨y, src.index⟩ = s.start made j := Except.ok.inj hcopy
        simp only [bind_ok, Option.getD_some, hport]
        exact ⟨_, _, rfl, _, _, hrun₁, hrun₂⟩

end CallSite

end Qirc.Graph
