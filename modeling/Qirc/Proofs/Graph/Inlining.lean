import Qirc.Proofs.Graph.Rewiring

/-!
# What inlining does

A call outside the body of its callee can always be inlined in a checked graph. The result is
described by its nodes and by what feeds each port.
-/

namespace Qirc.Graph.CallSite

open List Step

variable {g : Graph} {s : CallSite g}

/-- A graph in which the call has been replaced by the body. -/
structure Spliced (s : CallSite g) (g' : Graph) (made : NodeMap) (tops : List NodeId) : Prop extends
    Copies g g' g.nodes.size s.holder s.body tops made where
  arena : g'.Arena
  gone : g'.node? s.call = none
  others : ∀ x : Nat, x < g.nodes.size → x ≠ s.holder → x ≠ s.call → g'.slot? x = g.slot? x
  holder : ∃ before after, s.region.children = before ++ s.call :: after ∧
    g'.node? s.holder = some { s.region with children := before ++ tops ++ after }
  oldSource : ∀ x k src, x ≠ s.call → g.source? ⟨x, k⟩ = some src →
    g'.source? ⟨x, k⟩ = some (if src.node = s.call then s.start made src.index else src)
  newSource : ∀ a b k src, (a, b) ∈ made → g.source? ⟨a, k⟩ = some src →
    g'.source? ⟨b, k⟩ = some (s.copySource made src)
  inside : ∀ q : Port → Bool, (∀ d, q d = true → Under g s.callee d.node) →
    g'.edges.filter (fun e => q e.dst) = g.edges.filter (fun e => q e.dst)

theorem position (s : CallSite g) : ∃ k, s.region.children.findIdx? (· == s.call) = some k ∧
    s.region.children.drop k = s.call :: s.region.children.drop (k + 1) := by
  obtain ⟨k, hk⟩ : ∃ k, s.region.children.findIdx? (· == s.call) = some k := by
    apply Option.isSome_iff_exists.1
    rw [findIdx?_isSome, any_eq_true]
    exact ⟨s.call, s.hangs.listed, by simp⟩
  obtain ⟨hlt, hat, -⟩ := findIdx?_eq_some_iff_getElem.1 hk
  rw [beq_iff_eq] at hat
  refine ⟨k, hk, ?_⟩
  rw [← hat, getElem_cons_drop]

theorem copied_of_grafted {h : Graph} {made : NodeMap} {tops : List NodeId} {k : Nat}
    (hg : Grafted g g h s.holder s.body tops made)
    (hk : s.region.children = s.region.children.take k ++ s.call :: s.region.children.drop (k + 1)) :
    s.Copied (h.setChildren s.holder
        (s.region.children.take k ++ tops ++ s.call :: s.region.children.drop (k + 1))) made tops ∧
      (h.setChildren s.holder
        (s.region.children.take k ++ tops ++ s.call :: s.region.children.drop (k + 1))).Arena := by
  have hnode := hg.holder _ s.hangs.holder
  refine ⟨⟨hg.keep (setChildren_size ..) fun p hp => ?_, ?_, ?_⟩, ?_⟩
  · exact setChildren_slot_other _ (hg.fresh_ne_holder (a := p.1) hp)
  · intro x hx hne
    rw [setChildren_slot_other _ hne, hg.others x hx hne]
  · refine ⟨_, _, hk, ?_⟩
    rw [setChildren_node_self _ hnode]
  · apply hg.arena.setChildren hnode
    have hcs : ({ s.region with children := s.region.children ++ tops } : Node).children =
        s.region.children.take k ++ s.call :: s.region.children.drop (k + 1) ++ tops := by
      rw [← hk]
    rw [hcs, append_assoc, append_assoc]
    exact List.Perm.append_left _ perm_append_comm

section Removal

variable {h : Graph} {made : NodeMap} {tops : List NodeId}

theorem Copied.mem_walk_call (hc : s.Copied h made tops) (hh : h.Arena) {x : NodeId} :
    x ∈ h.walk s.call ↔ x = s.call := by
  obtain ⟨cs, hcall⟩ := hc.keeps _ _ s.hangs.node
  exact mem_walk_leaf hh ((kind?_of_node hcall).trans (congrArg some s.kind)) fun _ => rfl

theorem Copied.hangs_call (hc : s.Copied h made tops) (hh : h.Arena) :
    ∃ k n, HangsFrom h s.call k s.holder n := by
  obtain ⟨cs, hcall⟩ := hc.keeps _ _ s.hangs.node
  obtain ⟨n, hhang⟩ := hh.hangs_of_parent hcall s.hangs.parent
  exact ⟨_, n, hhang⟩

theorem filter_call {before after : List NodeId}
    (hch : s.region.children = before ++ s.call :: after) {tops : List NodeId}
    (htops : s.call ∉ tops) :
    (before ++ tops ++ s.call :: after).filter (· != s.call) = before ++ tops ++ after := by
  have hnodup := s.arena.nodup _ _ s.hangs.holder
  rw [hch, nodup_append] at hnodup
  obtain ⟨-, hafter, hdisj⟩ := hnodup
  rw [nodup_cons] at hafter
  have hkeep : ∀ xs : List NodeId, s.call ∉ xs → xs.filter (· != s.call) = xs := by
    intro xs hx
    apply filter_eq_self.2
    intro c hc
    simp only [bne_iff_ne, ne_eq]
    rintro rfl
    exact hx hc
  have hbefore : s.call ∉ before := fun hb => hdisj _ hb _ mem_cons_self rfl
  rw [filter_append, filter_append, hkeep before hbefore, hkeep tops htops,
    filter_cons_of_neg (by simp), hkeep after hafter.1]

theorem Copied.call_not_top (hc : s.Copied h made tops) : s.call ∉ tops := by
  intro ht
  obtain ⟨c, -, hct, -⟩ := forall₂_of_mem_right hc.roots ht
  exact hc.fresh_ne_call hct rfl

theorem spliced_of_copied (hc : s.Copied h made tops) (hh : h.Arena)
    (hkept : ∀ e ∈ g.edges, e.src.node ≠ s.call → e ∈ h.edges)
    (hmoved : ∀ j d, ⟨⟨s.call, j⟩, d⟩ ∈ g.edges → ⟨s.start made j, d⟩ ∈ h.edges ∧
      (s.start made j).node ≠ s.call)
    (hcopies : ∀ e ∈ g.edges, ∀ new, (e.dst.node, new) ∈ made →
      ⟨s.copySource made e.src, new, e.dst.index⟩ ∈ h.edges ∧
        (s.copySource made e.src).node ≠ s.call)
    (hinside : ∀ q : Port → Bool, (∀ d, q d = true → Under g s.callee d.node) →
      h.edges.filter (fun e => q e.dst) = g.edges.filter fun e => q e.dst) :
    s.Spliced (h.without s.call s.holder) made tops := by
  obtain ⟨k, n, hhang⟩ := hc.hangs_call hh
  have ha := hh.without hhang
  have hwalk := fun x => hc.mem_walk_call hh (x := x)
  have hedge : ∀ src dst : Port, ⟨src, dst⟩ ∈ h.edges → src.node ≠ s.call → dst.node ≠ s.call →
      (h.without s.call s.holder).source? dst = some src := by
    intro src dst he hsrc hdst
    rw [source?_eq_some_iff ha, mem_without_edges, hwalk, hwalk]
    exact ⟨he, hsrc, hdst⟩
  have hslot : ∀ x, x ≠ s.holder → x ≠ s.call →
      (h.without s.call s.holder).slot? x = h.slot? x := by
    intro x hx hne
    exact without_slot_other (by rw [hwalk]; exact hne) hx
  have hholder : s.holder ≠ s.call := Nat.ne_of_lt s.hangs.older
  have hslot' : ∀ p ∈ made, (h.without s.call s.holder).slot? p.2 = h.slot? p.2 := by
    rintro ⟨a, b⟩ hab
    exact hslot b (hc.fresh_ne_holder hab) (hc.fresh_ne_call hab)
  refine ⟨hc.keep without_size hslot', ha, ?_, ?_, ?_, ?_, ?_, ?_⟩
  · rw [without_node, if_pos (by rw [hwalk])]
  · intro x hx hne hcall
    rw [hslot x hne hcall, hc.others x hx hne]
  · obtain ⟨before, after, hch, hnode⟩ := hc.holder
    refine ⟨before, after, hch, ?_⟩
    rw [without_of_node hh hhang hnode (by rw [hwalk]; exact hholder)]
    rw [filter_call hch hc.call_not_top]
  · intro x j src hne hsrc
    by_cases hcall : src.node = s.call
    · obtain ⟨node, index⟩ := src
      cases hcall
      rw [if_pos rfl]
      obtain ⟨hmem, hstart⟩ := hmoved _ _ (source?_edge hsrc)
      exact hedge _ _ hmem hstart hne
    · rw [if_neg hcall]
      exact hedge _ _ (hkept _ (source?_edge hsrc) hcall) hcall hne
  · intro a b j src hab hsrc
    obtain ⟨hmem, hstart⟩ := hcopies _ (source?_edge hsrc) b hab
    exact hedge _ _ hmem hstart (hc.fresh_ne_call hab)
  · intro q hq
    have hgone : (h.without s.call s.holder).edges = h.edges.filter (fun e =>
        !(h.walk s.call).contains e.src.node && !(h.walk s.call).contains e.dst.node) := by
      simp [without]
    rw [hgone, filter_filter, ← hinside q hq]
    apply filter_congr
    intro e he
    by_cases hin : q e.dst = true
    · -- what lies in the function does not touch the call
      have hmem : e ∈ g.edges :=
        mem_of_mem_filter (by rw [← hinside q hq]; exact mem_filter.2 ⟨he, hin⟩)
      obtain ⟨S, T, hfit⟩ := s.arena.edge e hmem
      have hdst := hq _ hin
      have hsrc : Under g s.callee e.src.node :=
        hdst.sibling s.arena hfit.target hfit.source hfit.siblings.symm
      simp [hwalk, s.call_apart (.inr hdst), s.call_apart (.inr hsrc)]
    · simp [hin]

end Removal

theorem inlineCall_spliced (s : CallSite g) :
    ∃ made tops g', inlineCall s.call g = .ok () g' ∧ s.Spliced g' made tops := by
  have hnodup : s.body.Nodup := by
    have := s.arena.nodup _ _ s.function
    rw [s.bounded.children, nodup_cons, nodup_cons] at this
    exact this.2.2
  obtain ⟨made, tops, h₀, hcopy, hg⟩ :=
    copyTrees_ok (lt_copyDepth g) s.arena hnodup fun c hc => s.body_copyable hc
  obtain ⟨k, hpos, hdrop⟩ := s.position
  obtain ⟨hc, hh⟩ := copied_of_grafted (k := k) hg (by rw [← hdrop, take_append_drop])
  generalize hh₁ : h₀.setChildren s.holder (s.region.children.take k ++ tops ++
    s.call :: s.region.children.drop (k + 1)) = h₁ at hc hh
  have hedges₁ : h₁.edges = g.edges := by
    rw [← hh₁, setChildren_edges, hg.edges]
  have hr : s.Retains h₁ := by
    intro e _
    rw [hedges₁]
  have hperm := mergeSort_perm made fun a b => decide (a.1 ≤ b.1)
  obtain ⟨es, h₂, hrun₂, hnodes₂, hedges₂, hh₂, hes⟩ :=
    rewireAll_ok (fun p hp => hperm.mem_iff.1 hp)
      ((hperm.map _).nodup_iff.2 hc.values) hc hr hh
      (by
        intro p hp e he
        rw [hedges₁] at he
        obtain ⟨S, T, hfit⟩ := s.arena.edge e he
        have hb := hc.fresh p.1 p.2 (hperm.mem_iff.1 hp)
        exact Nat.ne_of_lt (Nat.lt_of_lt_of_le (node?_lt hfit.target) hb))
  have hc₂ := hc.of_nodes hnodes₂
  have hfresh : ∀ e ∈ es, ∃ a, (a, e.dst.node) ∈ made := by
    intro e he
    obtain ⟨d, -, new, hnew, rfl⟩ := (hes e).1 he
    exact ⟨_, hperm.mem_iff.1 hnew⟩
  have hr₂ := hr.append hc hedges₂ hfresh
  obtain ⟨h₃, hrun₃, ⟨hnodes₃, hh₃, hedges₃, hothers₃⟩⟩ :=
    rewireOutputs_ok s.fn.name (range s.node.outputCount) hc₂ hr₂ hh₂
      fun j hj => mem_range.1 hj
  have hc₃ := hc₂.of_nodes hnodes₃
  obtain ⟨kc, n, hhang⟩ := hc₃.hangs_call hh₃
  refine ⟨made, tops, h₃.without s.call s.holder, ?_, spliced_of_copied hc₃ hh₃ ?_ ?_ ?_ ?_⟩
  · have hnow : h₀.children s.holder = s.region.children ++ tops :=
      children_of_node (hg.holder _ s.hangs.holder)
    have hlen : (s.region.children ++ tops).length - s.body.length = s.region.children.length := by
      rw [length_append, hg.roots.length_eq, Nat.add_sub_cancel]
    have hrest : s.fn.children.drop 2 = s.body := by rw [s.bounded.children]; rfl
    simp only [inlineCall, bind_ok]
    refine ⟨g, g, rfl, ?_⟩
    rw [s.hangs.node]
    dsimp only
    rw [if_neg (by simp [s.kind]), s.names]
    simp only [Option.bind_some, s.function, Option.getD_some]
    rw [if_neg (by simp [s.isFunction])]
    simp only [bind_ok, ofExcept_ok]
    refine ⟨_, _, ⟨s.bounded.boundary_eq s.function (by rw [s.isFunction]; rfl), rfl⟩, ?_⟩
    rw [s.hangs.parent]
    simp only [Option.bind_some, s.hangs.holder, Option.getD_some, hrest, bind_ok]
    refine ⟨made, h₀, hcopy, h₀, h₀, rfl, ?_⟩
    rw [hpos, hnow, hlen]
    simp only [take_left, drop_left, hdrop, bind_ok]
    exact ⟨⟨⟩, h₁, modify_ok.2 hh₁.symm, _, _, hrun₂, _, _, hrun₃, removeSubtree_ok hhang⟩
  · intro e he hne
    rw [hedges₃, hedges₂, hedges₁]
    refine .inl ⟨mem_append_left _ he, fun j _ heq => hne ?_⟩
    rw [heq]
  · intro j d he
    obtain ⟨S, T, hfit⟩ := s.arena.edge _ he
    have hS := hfit.source
    rw [s.hangs.node] at hS
    cases hS
    obtain ⟨i, hi, heq⟩ := natCast_index hfit.output
    cases heq
    obtain ⟨src, S₀, hsrc, hfit₀⟩ := s.last_fed hi
    have hstart : s.start made i = s.copySource made src := by rw [start, hsrc]; rfl
    refine ⟨?_, by rw [hstart]; exact (hc.offers hh hfit₀ s.last_hangs.parent (.inl ⟨rfl, rfl⟩)).1⟩
    rw [hedges₃, hedges₂, hedges₁]
    exact .inr ⟨i, mem_range.2 hi, d, mem_append_left _ he, rfl⟩
  · intro e he new hnew
    obtain ⟨S, T, hfit⟩ := s.arena.edge e he
    have hne := (hc.copy_fits hh hfit hnew).1
    refine ⟨?_, hne⟩
    rw [hedges₃, hedges₂]
    refine .inl ⟨mem_append_right _ ((hes _).2
      ⟨e, he, new, hperm.mem_iff.2 hnew, rfl⟩), fun j _ heq => hne ?_⟩
    rw [show s.copySource made e.src = ⟨s.call, j⟩ from heq]
  · intro q hq
    have hout : ∀ d, (∃ j : Int, ⟨⟨s.call, j⟩, d⟩ ∈ h₂.edges) → q d = false := by
      rintro d ⟨j, hd⟩
      refine Bool.eq_false_iff.2 fun hqd => ?_
      exact reader_apart hr₂ hd (.inr (hq d hqd))
    rw [hothers₃ q fun j _ d hd => hout d ⟨j, hd⟩, hedges₂, hedges₁, filter_append]
    have hnone : es.filter (fun e => q e.dst) = [] := by
      apply filter_eq_nil_iff.2
      intro e he hqe
      obtain ⟨a, hab⟩ := hfresh e he
      obtain ⟨n, hn⟩ := (hq _ hqe).node
      exact Nat.not_lt_of_le (hc.fresh _ _ hab) (node?_lt hn)
    rw [hnone, append_nil]

end Qirc.Graph.CallSite
