import Qirc.Proofs.Graph.InlineDenotation

/-!
# Inlining keeps a graph lawful

After inlining, an edge either was there before and missed the call, or it is made of up to three
edges through the call and the body. A value that had one reader at each stage has one reader in the
end; and as no stage goes back, no circle is closed.
-/

namespace Qirc.Graph

open List

variable {g g' : Graph}

theorem Arena.under_ends (ha : g.Arena) {e : Edge} (he : e ∈ g.edges) {r : NodeId} :
    Under g r e.src.node ↔ Under g r e.dst.node := by
  obtain ⟨S, T, hfit⟩ := ha.edge e he
  exact ⟨fun h => h.sibling ha hfit.source hfit.target hfit.siblings,
    fun h => h.sibling ha hfit.target hfit.source hfit.siblings.symm⟩

theorem Arena.edge_ends (ha : g.Arena) {x : NodeId} {n : Node} (hn : g.node? x = some n) {i : Nat}
    {d : Port} (he : ⟨⟨x, i⟩, d⟩ ∈ g.edges) : ∃ T, ∃ k : Nat, g.node? d.node = some T ∧
      d = ⟨d.node, k⟩ ∧ k < T.inputCount ∧ n.sig.outputs[i]? = T.sig.inputs[k]? := by
  obtain ⟨S, T, hfit⟩ := ha.edge _ he
  cases hn.symm.trans hfit.source
  obtain ⟨k, hk, hd⟩ := natCast_index hfit.input
  refine ⟨T, k, hfit.target, hd, hk, ?_⟩
  have htype := hfit.type
  have hidx : d.index = (k : Int) := congrArg Port.index hd
  rwa [hidx] at htype

namespace CallSite

variable {s : CallSite g} {made : NodeMap} {tops : List NodeId}

/-- A port of the graph after inlining that carries what a port of the function carries. -/
inductive Carried (s : CallSite g) (made : NodeMap) : Port → Port → Prop
  | passed {m : Nat} {q : Port} (he : ⟨q, ⟨s.call, m⟩⟩ ∈ g.edges) : Carried s made ⟨s.first, m⟩ q
  | copied {p : Port} {y : NodeId} (hy : (p.node, y) ∈ made) : Carried s made p ⟨y, p.index⟩

/-- A port of the graph after inlining that reads what a port of the function carries. -/
inductive Drains (s : CallSite g) (made : NodeMap) (p : Port) : Port → Prop
  | back {j : Nat} {d : Port} (hp : ⟨p, ⟨s.last, j⟩⟩ ∈ g.edges) (hd : ⟨⟨s.call, j⟩, d⟩ ∈ g.edges) :
      Drains s made p d
  | copied {a b : NodeId} {k : Nat} (hab : (a, b) ∈ made) (hp : ⟨p, ⟨a, k⟩⟩ ∈ g.edges) :
      Drains s made p ⟨b, k⟩

namespace Spliced

section Structure

variable (hs : s.Spliced g' made tops)
include hs

variable {x : NodeId} {l : Node}

theorem stands_holder {y : NodeId} (hyx : s.Stands made y x) : y = s.holder ↔ x = s.holder := by
  obtain ⟨rfl, -, -⟩ | hab := hyx
  · rfl
  exact ⟨fun hy => absurd hy (s.holder_apart (.inr (hs.key_under hab))),
    fun hx => absurd hx (hs.fresh_ne_holder hab)⟩

theorem region_holder (hfit : RegionFits g s.region) (hl : g'.node? s.holder = some l) :
    RegionFits g' l := by
  obtain ⟨first, last, rest, i, o, hb⟩ := hfit
  obtain ⟨a, z, pre, post, hch, hnode, hmem⟩ := hs.holder_split
  cases hl.symm.trans hnode
  have hcs := hb.children
  rw [hch] at hcs
  cases hcs
  refine hb.mirror hs.mirrors rfl rfl (stands_self hb.first (by rw [hb.firstKind]; decide))
    (stands_self hb.last (by rw [hb.lastKind]; decide)) fun c hc => .inl ?_
  have hc' : c ∈ pre ++ post ∨ c ∈ tops := by
    simp only [mem_append] at hc ⊢
    tauto
  obtain hc | hc := hc'
  · obtain ⟨hreg, hne⟩ := hmem c (mem_cons_of_mem _ (mem_cons_of_mem _ hc))
    obtain ⟨k, hh⟩ := s.arena.child _ _ c s.hangs.holder hreg
    refine ⟨c, k, .inl ⟨rfl, hne, node?_lt hh.node⟩, hh.node, hb.inner c ?_ k hh.node⟩
    rw [mem_append, mem_cons]
    exact (mem_append.1 hc).imp_right .inr
  · obtain ⟨d, hd, hdc, -⟩ := forall₂_of_mem_right hs.roots hc
    obtain ⟨k, t, htwin⟩ := hs.twins d c hdc
    exact ⟨d, k, .inr hdc, htwin.old, s.bounded.inner d hd k htwin.old⟩

theorem region_other {y : NodeId} {k : Node} (hyx : s.Stands made y x) (hy : y ≠ s.holder)
    (hk : g.node? y = some k) (hl : g'.node? x = some l) (hfit : RegionFits g k) :
    RegionFits g' l := by
  obtain ⟨first, last, rest, i, o, hb⟩ := hfit
  obtain ⟨l', ren, hl', hsame, hch, hstands, -⟩ := hs.renamed hyx hk hy
  cases hl.symm.trans hl'
  rw [hb.children] at hch hstands
  refine hb.mirror hs.mirrors hsame.sig hch (hstands first (by simp)) (hstands last (by simp))
    fun c hc => .inl ?_
  obtain ⟨d, hd, rfl⟩ := mem_map.1 hc
  obtain ⟨kd, hh⟩ := s.arena.child y k d hk (by simp [hb.children, hd])
  exact ⟨d, kd, hstands d (by simp [hd]), hh.node, hb.inner d hd kd hh.node⟩

theorem plain : g'.PlainBoundary := by
  constructor
  · intro x l hl hk
    obtain ⟨y, k, hky, hm⟩ := hs.origin_exists hl
    rw [hm.same.inputs]
    exact s.plain.input y k hky (hm.same.kind ▸ hk)
  · intro x l hl hk
    obtain ⟨y, k, hky, hm⟩ := hs.origin_exists hl
    rw [hm.same.outputs]
    exact s.plain.output y k hky (hm.same.kind ▸ hk)

end Structure

/-! ## Edges -/

theorem copy_exists (hs : s.Spliced g' made tops) {x : NodeId} (hx : Under g s.callee x)
    (hfirst : x ≠ s.first) (hlast : x ≠ s.last) : ∃ y, (x, y) ∈ made := by
  obtain ⟨n, hn⟩ := hx.node
  obtain ⟨c, hbody, hcx⟩ := under_behind_boundary s.arena s.function s.bounded.children
    (by rw [kind?_of_node s.bounded.first, s.bounded.firstKind])
    (by rw [kind?_of_node s.bounded.last, s.bounded.lastKind]) hx hfirst hlast
  exact hs.mem_of_key hn hbody hcx

theorem key_ne_last (hs : s.Spliced g' made tops) {a b : NodeId} (hab : (a, b) ∈ made) :
    a ≠ s.last := by
  rintro rfl
  obtain ⟨-, c, hcb, hx⟩ := (hs.keys _).1 (mem_map.2 ⟨_, hab, rfl⟩)
  obtain ⟨kc, hkc⟩ := s.child_of_callee (c := c) (by simp [s.bounded.children, hcb])
  obtain hx | hx := hx
  · subst hx
    exact (s.bounded.inner _ hcb _ s.bounded.last).2 s.bounded.lastKind
  · exact not_under_sibling s.arena hkc.node hkc.parent s.bounded.last s.last_hangs.parent hx

theorem start_eq (s : CallSite g) {j : Nat} {p : Port} (hp : ⟨p, s.last, j⟩ ∈ g.edges) :
    s.start made j = s.copySource made p := by
  rw [start, (source?_eq_some_iff s.arena).2 hp]
  rfl

section Edges

variable (hs : s.Spliced g' made tops)
include hs

theorem carried_copySource {e : Edge} (he : e ∈ g.edges) (hu : Under g s.callee e.src.node) :
    s.Carried made e.src (s.copySource made e.src) := by
  obtain ⟨S, T, hfit⟩ := s.arena.edge e he
  obtain ⟨m, hm, heq⟩ := natCast_index hfit.output
  by_cases hfirst : e.src.node = s.first
  · rw [hfirst] at heq
    have hS := hfit.source
    rw [hfirst] at hS
    cases s.bounded.first.symm.trans hS
    obtain ⟨q, hq, -, hcopy⟩ := s.copySource_of_first made hm
    rw [heq, hcopy]
    exact .passed (source?_edge hq)
  · obtain ⟨y, hy⟩ := hs.copy_exists hu hfirst (s.src_ne_last hfit)
    rw [hs.copySource_of_mem hy]
    exact .copied hy

theorem carried_eq {p q : Port} (hq : s.Carried made p q) : q = s.copySource made p := by
  cases hq with
  | passed hmem =>
    rw [copySource, if_pos rfl, (source?_eq_some_iff s.arena).2 hmem]
    rfl
  | copied hy => rw [hs.copySource_of_mem hy]

variable {i : Nat} {d : Port} {k : Node}

theorem edge_to_old {q : Port} (he : ⟨q, d⟩ ∈ g'.edges) (hcall : d.node ≠ s.call)
    (hk : g.node? d.node = some k) (hd : d = ⟨d.node, i⟩) (hi : i < k.inputCount) :
    (⟨q, d⟩ ∈ g.edges ∧ q.node ≠ s.call ∧ d.node ≠ s.call) ∨
      ∃ p, s.Carried made p q ∧ s.Drains made p d := by
  obtain ⟨src, hsrc⟩ := s.lawful.fed _ _ hk i hi
  rw [← hd] at hsrc
  have hnow := hs.oldSource d.node d.index src hcall ((source?_eq_some_iff s.arena).2 hsrc)
  rw [(source?_eq_some_iff hs.arena).2 he, Option.some.injEq] at hnow
  by_cases hnode : src.node = s.call
  · obtain ⟨S, T, hfit⟩ := s.arena.edge _ hsrc
    obtain ⟨j, hj, hjp⟩ := natCast_index hfit.output
    rw [show (⟨src, d⟩ : Edge).src = src from rfl, hnode] at hjp
    have hS := hfit.source
    rw [hnode] at hS
    cases s.hangs.node.symm.trans hS
    obtain ⟨p, P, hp, -⟩ := s.last_fed hj
    have hpe := source?_edge hp
    rw [if_pos hnode, hjp, start_eq s hpe] at hnow
    refine .inr ⟨p, ?_, .back hpe (hjp ▸ hsrc)⟩
    rw [hnow]
    exact hs.carried_copySource hpe ((s.arena.under_ends hpe).2 (s.last_hangs.under (.inl rfl)))
  · rw [if_neg hnode] at hnow
    subst hnow
    exact .inl ⟨hsrc, hnode, hcall⟩

theorem edges_iff {q : Port} :
    ⟨q, d⟩ ∈ g'.edges ↔
    (⟨q, d⟩ ∈ g.edges ∧ q.node ≠ s.call ∧ d.node ≠ s.call) ∨
      ∃ p, s.Carried made p q ∧ s.Drains made p d := by
  constructor
  · intro he
    obtain ⟨S, T, hfit⟩ := hs.arena.edge _ he
    obtain ⟨i, hi, hd⟩ := natCast_index hfit.input
    obtain ⟨y, k, hk, hm⟩ := hs.origin_exists hfit.target
    rw [hm.same.inputs] at hi
    obtain ⟨rfl, hcall, -⟩ | hab := hm.self
    · exact hs.edge_to_old he hcall hk hd hi
    obtain ⟨src, hsrc⟩ := s.lawful.fed _ _ hk i hi
    have hnow := hs.newSource _ _ _ _ hab ((source?_eq_some_iff s.arena).2 hsrc)
    rw [← hd, (source?_eq_some_iff hs.arena).2 he, Option.some.injEq] at hnow
    refine .inr ⟨src, ?_, ?_⟩
    · rw [hnow]
      exact hs.carried_copySource hsrc ((s.arena.under_ends hsrc).2 (hs.key_under hab))
    · rw [show d = ⟨d.node, (i : Int)⟩ from hd]
      exact .copied hab hsrc
  · rintro (⟨he, hq, hd⟩ | ⟨p, hq, hd⟩)
    · have hnow := hs.oldSource d.node d.index q hd ((source?_eq_some_iff s.arena).2 he)
      rw [if_neg hq] at hnow
      exact source?_edge hnow
    · rw [hs.carried_eq hq]
      cases hd with
      | @back j d hp hmem =>
        have hcall : d.node ≠ s.call := (s.lawful.not_self hmem).symm
        have hnow := hs.oldSource d.node d.index _ hcall ((source?_eq_some_iff s.arena).2 hmem)
        rw [if_pos rfl, start_eq s hp] at hnow
        exact source?_edge hnow
      | copied hab hp =>
        exact source?_edge (hs.newSource _ _ _ _ hab ((source?_eq_some_iff s.arena).2 hp))

theorem fed {x : NodeId} {l : Node} (hl : g'.node? x = some l) (hi : i < l.inputCount) :
    ∃ src, ⟨src, x, i⟩ ∈ g'.edges := by
  obtain ⟨y, k, hk, hm⟩ := hs.origin_exists hl
  rw [hm.same.inputs] at hi
  obtain ⟨src, hsrc⟩ := s.lawful.fed _ _ hk i hi
  have hsource := (source?_eq_some_iff s.arena).2 hsrc
  obtain ⟨rfl, hcall, -⟩ | hab := hm.self
  · exact ⟨_, source?_edge (hs.oldSource _ _ _ hcall hsource)⟩
  · exact ⟨_, source?_edge (hs.newSource _ _ _ _ hab hsource)⟩

/-! ## One reader -/

theorem drains_unique {a : NodeId} (ha : Under g s.callee a) (hk : g.node? a = some k)
    (hi : i < k.outputCount) (hq : k.sig.outputs[i]? = some .qubit) :
    ∃! d, s.Drains made ⟨a, i⟩ d := by
  obtain ⟨d, hd, huniq⟩ := s.lawful.linear a k hk i hi hq
  obtain ⟨T, m, hT, hdm, hm, htype⟩ := s.arena.edge_ends hk hd
  by_cases hlast : d.node = s.last
  · rw [hlast] at hdm hT
    cases s.bounded.last.symm.trans hT
    have hout : s.node.sig.outputs[m]? = some .qubit := by
      rw [← s.sig, ← s.bounded.lastSig, ← htype, hq]
    obtain ⟨d₂, hd₂, huniq₂⟩ := s.lawful.linear s.call s.node s.hangs.node m
      (by rw [← s.last_count]; exact hm) hout
    refine ⟨d₂, .back (hdm ▸ hd) hd₂, fun d' hd' => ?_⟩
    cases hd' with
    | back hp hmem =>
      have := huniq _ hp
      rw [hdm] at this
      cases this
      exact huniq₂ d' hmem
    | copied hab hp =>
      have := huniq _ hp
      rw [hdm] at this
      cases this
      exact absurd rfl (hs.key_ne_last hab)
  · obtain ⟨S, T, hfit⟩ := s.arena.edge _ hd
    obtain ⟨b, hb⟩ := hs.copy_exists ((s.arena.under_ends hd).1 ha) (s.dst_ne_first hfit) hlast
    refine ⟨⟨b, m⟩, .copied hb (hdm ▸ hd), fun d' hd' => ?_⟩
    cases hd' with
    | back hp _ =>
      exact absurd (congrArg Port.node (huniq _ hp)).symm hlast
    | copied hab hp =>
      have := huniq _ hp
      rw [hdm] at this
      cases this
      rw [hs.eq_of_key hab hb]

theorem linear_old {x : NodeId} (hk : g.node? x = some k) (hcall : x ≠ s.call)
    (hi : i < k.outputCount) (hq : k.sig.outputs[i]? = some .qubit) :
    ∃! d, ⟨⟨x, i⟩, d⟩ ∈ g'.edges := by
  have hlt := node?_lt hk
  obtain ⟨d, hd, huniq⟩ := s.lawful.linear x k hk i hi hq
  -- an old port is no copy, so it carries only what it carried to the call
  have hpassed : ∀ {p}, s.Carried made p ⟨x, i⟩ →
      ∃ m : Nat, p = ⟨s.first, m⟩ ∧ d = ⟨s.call, m⟩ := by
    intro p hp
    generalize hq : (⟨x, i⟩ : Port) = q at hp
    cases hp with
    | @passed m q he =>
      subst hq
      exact ⟨m, rfl, (huniq _ he).symm⟩
    | copied hy =>
      cases (Port.mk.inj hq).1
      exact absurd hlt (Nat.not_lt_of_le (hs.fresh _ _ hy))
  by_cases hdn : d.node = s.call
  · obtain ⟨T, m, hT, hdm, hm, htype⟩ := s.arena.edge_ends hk hd
    rw [hdn] at hdm hT
    cases s.hangs.node.symm.trans hT
    have hfirst : s.input.sig.outputs[m]? = some .qubit := by
      rw [s.bounded.firstSig, s.sig, ← htype, hq]
    obtain ⟨d', hd', huniq'⟩ := hs.drains_unique (s.first_hangs.under (.inl rfl))
      s.bounded.first (by rw [s.first_count]; exact hm) hfirst
    refine ⟨d', hs.edges_iff.2 (.inr ⟨_, .passed (hdm ▸ hd), hd'⟩), fun c hc => ?_⟩
    rcases hs.edges_iff.1 hc with ⟨he, -, hne⟩ | ⟨p, hp, hpc⟩
    · exact absurd (by rw [huniq c he, hdn]) hne
    obtain ⟨m', rfl, hm'⟩ := hpassed hp
    rw [hdm] at hm'
    cases hm'
    exact huniq' c hpc
  · refine ⟨d, hs.edges_iff.2 (.inl ⟨hd, hcall, hdn⟩), fun c hc => ?_⟩
    rcases hs.edges_iff.1 hc with ⟨he, -, -⟩ | ⟨p, hp, -⟩
    · exact huniq c he
    obtain ⟨m, -, rfl⟩ := hpassed hp
    exact absurd rfl hdn

theorem linear_new {a b : NodeId} (hab : (a, b) ∈ made) (hk : g.node? a = some k)
    (hi : i < k.outputCount) (hq : k.sig.outputs[i]? = some .qubit) :
    ∃! d, ⟨⟨b, i⟩, d⟩ ∈ g'.edges := by
  have hge := hs.fresh a b hab
  obtain ⟨d, hd, huniq⟩ := hs.drains_unique (hs.key_under hab) hk hi hq
  refine ⟨d, hs.edges_iff.2 (.inr ⟨⟨a, i⟩, .copied hab, hd⟩), fun c hc => ?_⟩
  rcases hs.edges_iff.1 hc with ⟨he, -, -⟩ | ⟨p, hp, hpc⟩
  · exact absurd (s.arena.source_lt he) (Nat.not_lt_of_le hge)
  generalize hq : (⟨b, i⟩ : Port) = q at hp
  cases hp with
  | passed he =>
    subst hq
    exact absurd (s.arena.source_lt he) (Nat.not_lt_of_le hge)
  | @copied p y hy =>
    obtain ⟨rfl, hidx⟩ := Port.mk.inj hq
    obtain ⟨node, index⟩ := p
    cases hidx
    cases hs.eq_of_value hab hy
    exact huniq c hpc

/-! ## No circle -/

/-- Seen from outside the copies stand where the call stood, and among themselves they are wired as
the body was. -/
theorem acyclic : WellFounded g'.Feeds := by
  let spot : NodeId → NodeId := fun x => if x < g.nodes.size then x else s.call
  have hold : ∀ {x : Nat}, x < g.nodes.size → spot x = x := fun hx => if_pos hx
  have hnew : ∀ {a b}, (a, b) ∈ made → spot b = s.call :=
    fun hab => if_neg (Nat.not_lt_of_le (hs.fresh _ _ hab))
  have hwf : WellFounded (Prod.Lex (Relation.TransGen g.Feeds) g.Feeds) :=
    WellFounded.prod_lex s.lawful.acyclic.transGen s.lawful.acyclic
  refine Subrelation.wf ?_ (InvImage.wf (fun x => (spot x, origin made x)) hwf)
  rintro x y ⟨⟨q, d⟩, he, rfl, rfl⟩
  change Prod.Lex _ _ (spot q.node, _) (spot d.node, _)
  rcases hs.edges_iff.1 he with ⟨he, -, -⟩ | ⟨p, hp, hd⟩
  · rw [hold (s.arena.source_lt he), hold (s.arena.target_lt he)]
    exact .left _ _ (.single ⟨_, he, rfl, rfl⟩)
  cases hp with
  | passed hq =>
    have hcall : g.Feeds q.node s.call := ⟨_, hq, rfl, rfl⟩
    rw [hold (s.arena.source_lt hq)]
    cases hd with
    | back _ hmem =>
      rw [hold (s.arena.target_lt hmem)]
      exact .left _ _ (.tail (.single hcall) ⟨_, hmem, rfl, rfl⟩)
    | copied hab _ =>
      rw [hnew hab]
      exact .left _ _ (.single hcall)
  | copied hy =>
    rw [hnew hy]
    cases hd with
    | back _ hmem =>
      rw [hold (s.arena.target_lt hmem)]
      exact .left _ _ (.single ⟨_, hmem, rfl, rfl⟩)
    | copied hab hpe =>
      rw [hnew hab, hs.origin_fresh hab, hs.origin_fresh hy]
      exact .right _ ⟨_, hpe, rfl, rfl⟩

theorem lawful : g'.Lawful where
  region x l hl hr := by
    obtain ⟨y, k, hk, hm⟩ := hs.origin_exists hl
    have hfit := s.lawful.region y k hk (hm.same.kind ▸ hr)
    by_cases hy : y = s.holder
    · have hx := (hs.stands_holder hm.self).1 hy
      subst hx hy
      cases s.hangs.holder.symm.trans hk
      exact hs.region_holder hfit hl
    · exact hs.region_other hm.self hy hk hl hfit
  call x l hl hk := by
    obtain ⟨y, k, hky, hm⟩ := hs.origin_exists hl
    exact hm.callFits hs.mirrors s.lawful hky hk
  const x l hl hk := by
    obtain ⟨y, k, hky, hm⟩ := hs.origin_exists hl
    obtain ⟨hout, htype⟩ := s.lawful.const y k hky (hm.same.kind ▸ hk)
    exact ⟨by rw [hm.same.sig, hm.same.const, hout], by rw [hm.same.const]; exact htype⟩
  conditional x l hl hk := by
    obtain ⟨y, k, hky, hm⟩ := hs.origin_exists hl
    exact hm.casesFit hs.mirrors s.lawful hky hk
  fed x l hl i hi := hs.fed hl hi
  linear x l hl i hi hq := by
    obtain ⟨y, k, hk, hm⟩ := hs.origin_exists hl
    rw [hm.same.outputs] at hi
    rw [hm.same.sig] at hq
    obtain ⟨rfl, hcall, -⟩ | hab := hm.self
    · exact hs.linear_old hk hcall hi hq
    · exact hs.linear_new hab hk hi hq
  acyclic := hs.acyclic

end Edges

end Spliced

end CallSite

end Qirc.Graph
