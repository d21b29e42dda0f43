import Qirc.Proofs.Graph.Gadgets
import Qirc.Proofs.Graph.Reachable
import Qirc.Proofs.Graph.Rewiring

/-!
# How a gadget gets to its place

First its nodes are put among the siblings of the gate. Then the edges into the gate are led to the
gadget, the gadget is wired, and the edges out of the gate are led out of the gadget, until the gate
stands alone and is removed. No edit on the way is refused.
-/

namespace Qirc.Graph

open List Step

variable {g h : Graph}

/-! ## Single edits -/

theorem moveBefore_ok {c anchor p : NodeId} {k l n : Node} (hc : HangsFrom h c k p n)
    (ha : HangsFrom h anchor l p n) (hne : c ≠ anchor) :
    ∃ i, (n.children.filter (· != c))[i]? = some anchor ∧ moveBefore c anchor h =
      .ok () (h.setChildren p ((n.children.filter (· != c)).take i ++
        c :: (n.children.filter (· != c)).drop i)) := by
  have hmem : anchor ∈ n.children.filter (· != c) :=
    mem_filter.2 ⟨ha.listed, by simpa using hne.symm⟩
  obtain ⟨i, hi⟩ : ∃ i, (n.children.filter (· != c)).findIdx? (· == anchor) = some i := by
    apply Option.isSome_iff_exists.1
    rw [findIdx?_isSome, any_eq_true]
    exact ⟨anchor, hmem, by simp⟩
  obtain ⟨hlt, hat, -⟩ := findIdx?_eq_some_iff_getElem.1 hi
  refine ⟨i, by rw [getElem?_eq_getElem hlt, beq_iff_eq.1 hat], ?_⟩
  simp only [moveBefore, get_bind, hc.node, ha.node, hc.parent, ha.parent, ne_eq,
    not_true_eq_false, hne, or_self, if_false, Option.bind_some, hc.holder, Option.getD_some, hi]
  rfl

theorem reconnect_ok (hh : h.Arena) {old dst src : Port} {s t : Node} (hsrc : ⟨src, old⟩ ∈ h.edges)
    (hfit : EdgeFits h ⟨src, dst⟩ s t) (hfree : ∀ e ∈ h.edges, e.dst ≠ dst) :
    ∃ h', reconnect old dst h = .ok () h' ∧ h'.nodes = h.nodes ∧ h'.Arena ∧
      ∀ e, e ∈ h'.edges ↔ (e ∈ h.edges ∧ e.dst ≠ old) ∨ e = ⟨src, dst⟩ := by
  have hcut := hh.disconnect old
  have hfit' : EdgeFits (h.disconnect old) ⟨src, dst⟩ s t :=
    hfit.of_nodes (h := h.disconnect old) rfl
  have hfree' : ∀ e ∈ (h.disconnect old).edges, e.dst ≠ dst :=
    fun e he => hfree e (mem_disconnect.1 he).1
  refine ⟨{ h.disconnect old with edges := (h.disconnect old).edges ++ [⟨src, dst⟩] }, ?_, rfl,
    hcut.connected hfit' hfree', fun e => ?_⟩
  · simp only [reconnect, get_bind, (source?_eq_some_iff hh).2 hsrc]
    exact bind_ok.2 ⟨⟨⟩, _, set_ok.2 rfl, connect_ok hcut hfit' hfree'⟩
  · simp [mem_append, mem_disconnect]

/-! ## The nodes of the gadget -/

section

variable (s : GateSite g)

/-- The gate stands in the region `p`, behind its boundary. -/
structure GateSite.Place (p : NodeId) (n : Node) (a b : NodeId) (rest : List NodeId) : Prop where
  hangs : HangsFrom g s.gate s.node p n
  region : n.kind.isRegion = true
  children : n.children = a :: b :: rest
  gate : s.gate ∈ rest

theorem GateSite.place : ∃ p n a b rest, s.Place p n a b rest := by
  obtain ⟨p, n, hh, hr⟩ := s.arena.region_of_ports s.here (by rw [s.kind]; rfl)
  obtain ⟨a, b, rest, i, o, hb⟩ := s.lawful.region p n hh.holder hr
  refine ⟨p, n, a, b, rest, hh, hr, hb.children, ?_⟩
  simpa [hb.children, s.ne_boundary hh.holder hr hb.children] using hh.listed

variable {s} {p a b : NodeId} {n : Node} {rest : List NodeId} (hs : s.Place p n a b rest)
include hs

theorem GateSite.Place.nodup : (a :: b :: rest).Nodup :=
  hs.children ▸ s.arena.nodup p n hs.hangs.holder

theorem GateSite.Place.child_lt {c : NodeId} (hc : c ∈ a :: b :: rest) : c < g.nodes.size := by
  obtain ⟨k, hk⟩ := s.arena.child p n c hs.hangs.holder (hs.children ▸ hc)
  exact node?_lt hk.node

end

namespace Gadget

/-- These bodies have been put into `p`, behind its boundary and in any order. -/
structure Placed (g h : Graph) (p : NodeId) (n : Node) (a b : NodeId) (rest : List NodeId)
    (bodies : List NodeBody) : Prop where
  arena : h.Arena
  lasting : Lasting g h
  edges : h.edges = g.edges
  size : h.nodes.size = g.nodes.size + bodies.length
  others : ∀ x, x < g.nodes.size → x ≠ p → h.node? x = g.node? x
  holder : ∃ rest', h.node? p = some { n with children := a :: b :: rest' } ∧
    rest'.Perm (rest ++ range' g.nodes.size bodies.length)
  fresh : ∀ i body, bodies[i]? = some body →
    h.node? (g.nodes.size + i) = some (Node.fresh body (some p))

variable {s : GateSite g} {p a b : NodeId} {n : Node} {rest : List NodeId} {bodies : List NodeBody}
  (hs : s.Place p n a b rest)
include hs

theorem placed_nil : Placed g g p n a b rest [] where
  arena := s.arena
  lasting := .refl g
  edges := rfl
  size := rfl
  others _ _ _ := rfl
  holder := ⟨rest, by rw [hs.hangs.holder, ← hs.children], by simp⟩
  fresh i body hb := by simp at hb

namespace Placed

variable (hp : Placed g h p n a b rest bodies)
include hp

theorem place (body : NodeBody) (hc : body.callee = none)
    (hk : body.kind = .op ∨ body.kind = .const) :
    ∃ h', place p body h = .ok (g.nodes.size + bodies.length) h' ∧
      Placed g h' p n a b rest (bodies ++ [body]) := by
  have hlt := node?_lt hs.hangs.holder
  have hm : n.kind.mayHold body.kind = true := by
    have hr := hs.region
    cases hn : n.kind <;> rw [hn] at hr <;> cases hr <;>
      rcases hk with hk | hk <;> rw [hk] <;> rfl
  obtain ⟨rest', hn, hperm⟩ := hp.holder
  have hbody : body.settleCallee = body := by
    rw [NodeBody.settleCallee, if_neg]
    rintro ⟨hroot, -⟩
    rw [hc] at hroot
    cases hroot
  have hnew := adopt_node_new body hn
  rw [hbody] at hnew
  refine ⟨h.adopt p body, by rw [place_ok hn hm, hp.size], ?_⟩
  refine ⟨hp.arena.adopt hn hm, hp.lasting.trans (.adopt p body), hp.edges, ?_, ?_, ?_, ?_⟩
  · simp [adopt_size, hp.size, Nat.add_assoc]
  · intro x hx hne
    have hxs : x ≠ h.nodes.size := by
      rw [hp.size]
      exact Nat.ne_of_lt (Nat.lt_of_lt_of_le hx (Nat.le_add_right _ _))
    rw [node?_congr (adopt_slot_other body hne hxs), hp.others x hx hne]
  · refine ⟨rest' ++ [h.nodes.size], ?_, ?_⟩
    · rw [adopt_node_parent body hn]
      rfl
    rw [length_append, length_singleton, range'_concat, Nat.one_mul,
      ← append_assoc, hp.size]
    exact hperm.append_right _
  · intro i body' hi
    rcases Nat.lt_trichotomy i bodies.length with hlti | rfl | hgt
    · rw [getElem?_append_left hlti] at hi
      have hne : g.nodes.size + i ≠ p :=
        Nat.ne_of_gt (Nat.lt_of_lt_of_le hlt (Nat.le_add_right _ _))
      have hxs : g.nodes.size + i ≠ h.nodes.size := by
        rw [hp.size]
        exact Nat.ne_of_lt (Nat.add_lt_add_left hlti _)
      rw [node?_congr (adopt_slot_other body hne hxs), hp.fresh i body' hi]
    · rw [getElem?_concat_length] at hi
      cases hi
      rw [← hp.size]
      exact hnew
    · rw [getElem?_eq_none (by simpa using Nat.succ_le_of_lt hgt)] at hi
      cases hi

theorem moveBefore {i : Nat} (hi : i < bodies.length) :
    ∃ h', moveBefore (g.nodes.size + i) s.gate h = .ok () h' ∧
      Placed g h' p n a b rest bodies := by
  obtain ⟨rest', hn, hperm⟩ := hp.holder
  have hc : g.nodes.size + i ∈ rest' := by
    rw [hperm.mem_iff, mem_append, mem_range'_1]
    exact .inr ⟨Nat.le_add_right _ _, Nat.add_lt_add_left hi _⟩
  have hanchor' : s.gate ∈ rest' := hperm.mem_iff.2 (mem_append_left _ hs.gate)
  have hold : ∀ x ∈ a :: b :: rest, x ≠ g.nodes.size + i :=
    fun x hx => Nat.ne_of_lt (Nat.lt_of_lt_of_le (hs.child_lt hx) (Nat.le_add_right _ _))
  obtain ⟨k, hck⟩ := hp.arena.child p _ _ hn (mem_cons_of_mem _ (mem_cons_of_mem _ hc))
  obtain ⟨l, hal⟩ :=
    hp.arena.child p _ _ hn (mem_cons_of_mem _ (mem_cons_of_mem _ hanchor'))
  obtain ⟨j, hj, hrun⟩ := moveBefore_ok hck hal (hold _ (by simp [hs.gate])).symm
  have hfilter : (a :: b :: rest').filter (· != g.nodes.size + i) =
      a :: b :: rest'.filter (· != g.nodes.size + i) := by
    rw [filter_cons_of_pos (by simpa using hold a (by simp)),
      filter_cons_of_pos (by simpa using hold b (by simp))]
  rw [hfilter] at hj hrun
  -- the anchor stands behind the boundary, so that the boundary stays in front
  obtain ⟨j, rfl⟩ : ∃ m, j = m + 2 := by
    have hnodup := hs.nodup
    simp only [nodup_cons, mem_cons, not_or] at hnodup
    match j with
    | 0 =>
      cases hj
      exact absurd hs.gate hnodup.1.2
    | 1 =>
      cases hj
      exact absurd hs.gate hnodup.2.1
    | m + 2 => exact ⟨m, rfl⟩
  simp only [take_succ_cons, drop_succ_cons, cons_append] at hrun
  have hmoved := reinsert_perm ((nodup_cons.1 (nodup_cons.1
    (hp.arena.nodup p _ hn)).2).2) hc j
  refine ⟨_, hrun, hp.arena.setChildren hn ((hmoved.cons b).cons a),
    hp.lasting.trans (.setChildren _ _), hp.edges, ?_, ?_, ?_, ?_⟩
  · rw [setChildren_size, hp.size]
  · intro x hx hne
    rw [node?_congr (setChildren_slot_other _ hne), hp.others x hx hne]
  · refine ⟨_, ?_, hmoved.trans hperm⟩
    rw [setChildren_node_self _ hn]
  intro m body' hm
  have hne : g.nodes.size + m ≠ p :=
    Nat.ne_of_gt (Nat.lt_of_lt_of_le (node?_lt hs.hangs.holder) (Nat.le_add_right _ _))
  rw [node?_congr (setChildren_slot_other _ hne), hp.fresh m body' hm]

end Placed

end Gadget

/-! ## The edges of the gadget -/

theorem reconnects_ok {x : NodeId} (dest : Nat → Port) {ks : List Nat} (hh : h.Arena)
    (hks : ks.Nodup) (hdest : (ks.map dest).Nodup) (hx : ∀ k ∈ ks, (dest k).node ≠ x)
    (hfed : ∀ k ∈ ks, ∃ src, ⟨src, x, k⟩ ∈ h.edges)
    (hfit : ∀ k ∈ ks, ∀ src, ⟨src, x, k⟩ ∈ h.edges → ∃ s t, EdgeFits h ⟨src, dest k⟩ s t)
    (hfree : ∀ k ∈ ks, ∀ e ∈ h.edges, e.dst ≠ dest k) :
    ∃ h', ks.forM (fun k => reconnect ⟨x, k⟩ (dest k)) h = .ok ⟨⟩ h' ∧ h'.nodes = h.nodes ∧
      h'.Arena ∧ ∀ e, e ∈ h'.edges ↔ (e ∈ h.edges ∧ ∀ k ∈ ks, e.dst ≠ ⟨x, (k : Nat)⟩) ∨
        ∃ k ∈ ks, ∃ src, ⟨src, x, k⟩ ∈ h.edges ∧ e = ⟨src, dest k⟩ := by
  induction ks generalizing h with
  | nil => exact ⟨h, forM_nil_ok.2 rfl, rfl, hh, by simp⟩
  | cons k ks ih =>
    rw [nodup_cons] at hks
    rw [map_cons, nodup_cons] at hdest
    obtain ⟨src, hsrc⟩ := hfed k mem_cons_self
    obtain ⟨s, t, hst⟩ := hfit k mem_cons_self src hsrc
    obtain ⟨h₁, hrun, hnodes, hh₁, hedges⟩ :=
      reconnect_ok hh hsrc hst (hfree k mem_cons_self)
    -- the other ports are as they were
    have hother : ∀ m ∈ ks, ∀ src, ⟨src, x, (m : Nat)⟩ ∈ h₁.edges ↔
        ⟨src, x, (m : Nat)⟩ ∈ h.edges := by
      intro m hm src'
      rw [hedges]
      constructor
      · rintro (⟨he, -⟩ | he)
        · exact he
        · exact absurd (congrArg (fun e : Edge => e.dst.node) he).symm (hx k mem_cons_self)
      · intro he
        refine .inl ⟨he, fun heq => ?_⟩
        simp only [Port.mk.injEq, Int.natCast_inj, true_and] at heq
        exact hks.1 (heq ▸ hm)
    obtain ⟨h₂, hrun₂, hnodes₂, hh₂, hedges₂⟩ := ih hh₁ hks.2 hdest.2
      (fun m hm => hx m (mem_cons_of_mem _ hm))
      (fun m hm => by
        obtain ⟨src, he⟩ := hfed m (mem_cons_of_mem _ hm)
        exact ⟨src, (hother m hm src).2 he⟩)
      (fun m hm src he => by
        obtain ⟨s, t, hst⟩ := hfit m (mem_cons_of_mem _ hm) src ((hother m hm src).1 he)
        exact ⟨s, t, hst.of_nodes hnodes⟩)
      (fun m hm e he => by
        rcases (hedges e).1 he with ⟨he, -⟩ | rfl
        · exact hfree m (mem_cons_of_mem _ hm) e he
        intro heq
        exact hdest.1 (mem_map.2 ⟨m, hm, heq.symm⟩))
    refine ⟨h₂, forM_cons_ok.2 ⟨h₁, hrun, hrun₂⟩, hnodes₂.trans hnodes, hh₂, fun e => ?_⟩
    rw [hedges₂, hedges]
    simp only [mem_cons, forall_eq_or_imp, exists_eq_or_imp]
    constructor
    · rintro (⟨⟨he, hne⟩ | rfl, hks⟩ | ⟨m, hm, src', he, rfl⟩)
      · exact .inl ⟨he, hne, hks⟩
      · exact .inr (.inl ⟨src, hsrc, rfl⟩)
      · exact .inr (.inr ⟨m, hm, src', (hother m hm src').1 he, rfl⟩)
    · rintro (⟨he, hne, hks⟩ | ⟨src', he, rfl⟩ | ⟨m, hm, src', he, rfl⟩)
      · exact .inl ⟨.inl ⟨he, hne⟩, hks⟩
      · have hsame : src' = src :=
          congrArg Edge.src (inj_on_of_nodup_map hh.single he hsrc rfl)
        refine .inl ⟨.inr (by rw [hsame]), fun m _ heq => ?_⟩
        exact hx k mem_cons_self (congrArg Port.node heq)
      · exact .inr ⟨m, hm, src', (hother m hm src').2 he, rfl⟩

theorem connects_ok (es : List Edge) (hh : h.Arena) (hes : (es.map (·.dst)).Nodup)
    (hfit : ∀ e ∈ es, ∃ s t, EdgeFits h e s t) (hfree : ∀ e ∈ es, ∀ e' ∈ h.edges, e'.dst ≠ e.dst) :
    ∃ h', es.forM (fun e => connect e.src e.dst) h = .ok ⟨⟩ h' ∧ h'.nodes = h.nodes ∧ h'.Arena ∧
      ∀ e, e ∈ h'.edges ↔ e ∈ h.edges ∨ e ∈ es := by
  induction es generalizing h with
  | nil => exact ⟨h, forM_nil_ok.2 rfl, rfl, hh, by simp⟩
  | cons e es ih =>
    rw [map_cons, nodup_cons] at hes
    obtain ⟨s, t, hst⟩ := hfit e mem_cons_self
    have hone := hfree e mem_cons_self
    obtain ⟨h', hrun, hnodes, ha, hedges⟩ := ih (hh.connected hst hone) hes.2
      (fun e' he' => by
        obtain ⟨s, t, hst⟩ := hfit e' (mem_cons_of_mem _ he')
        exact ⟨s, t, hst.of_nodes rfl⟩)
      (fun e' he' d hd => by
        rcases mem_append.1 hd with hd | hd
        · exact hfree e' (mem_cons_of_mem _ he') d hd
        rw [mem_singleton.1 hd]
        intro heq
        exact hes.1 (mem_map.2 ⟨e', he', heq.symm⟩))
    refine ⟨h', forM_cons_ok.2 ⟨_, connect_ok hh hst hone, hrun⟩, hnodes, ha, fun d => ?_⟩
    rw [hedges, mem_append, mem_singleton, mem_cons, or_assoc]

theorem replacements_ok {x : NodeId} (start : Nat → Port) (js : List Nat) (hh : h.Arena)
    (hx : ∀ j ∈ js, (start j).node ≠ x)
    (hfit : ∀ j ∈ js, ∀ d, ⟨⟨x, j⟩, d⟩ ∈ h.edges → ∃ s t, EdgeFits h ⟨start j, d⟩ s t) :
    ∃ h', js.forM (fun j => replaceUses ⟨x, j⟩ (start j)) h = .ok ⟨⟩ h' ∧
      Rerouted x start js h h' := by
  induction js generalizing h with
  | nil => exact ⟨h, forM_nil_ok.2 rfl, .nil hh⟩
  | cons j js ih =>
    obtain ⟨h₁, hrun, hr⟩ := replaceUses_ok start hh (hfit j mem_cons_self)
    obtain ⟨h₂, hrun₂, hr₂⟩ := ih hr.arena (fun m hm => hx m (mem_cons_of_mem _ hm))
      (fun m hm d he => by
        have hold := hr.edge (by simpa using hx j mem_cons_self) he
        obtain ⟨s, t, hst⟩ := hfit m (mem_cons_of_mem _ hm) d hold
        exact ⟨s, t, hst.of_nodes hr.nodes⟩)
    exact ⟨h₂, forM_cons_ok.2 ⟨h₁, hrun, hrun₂⟩, hr.cons hr₂ (hx j mem_cons_self)⟩

/-! ## From the gate to the gadget -/

theorem portInRange_of_typeAt? {ts : List ValueType} {index : Int} {t : ValueType}
    (h : typeAt? ts index = some t) : portInRange index ts.length = true := by
  unfold typeAt? at h
  split at h
  · cases h
  have := (List.getElem?_eq_some_iff.1 h).1
  simp only [portInRange, Bool.and_eq_true, decide_eq_true_eq]
  omega

namespace Gadget

/-- Wire a gadget whose first node is `base`, and remove the gate. -/
def install (G : Gadget) (base width : Nat) (gate : NodeId) : Step Graph Unit := do
  (range width).forM fun k => reconnect ⟨gate, k⟩ (shift base (G.enter k))
  (G.wires.map fun e => ⟨shift base e.src, shift base e.dst⟩).forM fun e : Edge =>
    connect e.src e.dst
  (range width).forM fun j => replaceUses ⟨gate, j⟩ (shift base (G.leave j))
  removeSubtree gate

section Install

variable {s : GateSite g} {G : Gadget} {p a b : NodeId} {n : Node} {rest : List NodeId}
  (hG : G.Fits s.width) (hs : s.Place p n a b rest) (hp : Placed g h p n a b rest G.bodies)

include hs hp in
theorem Placed.keeps : Keeps g h := by
  intro x k hk
  by_cases hx : x = p
  · subst hx
    cases hs.hangs.holder.symm.trans hk
    obtain ⟨rest', hnode, -⟩ := hp.holder
    exact ⟨_, hnode⟩
  · exact ⟨k.children, by rw [hp.others x (node?_lt hk) hx, hk]⟩

include hG in
theorem fresh_input {q : Port} {body : NodeBody} {t : ValueType}
    (hb : G.bodies[q.node]? = some body) (ht : typeAt? body.sig.inputs q.index = some t) :
    portInRange q.index (Node.fresh body (some p)).inputCount = true := by
  simp only [Node.fresh, hG.hasPorts hb, if_true]
  exact portInRange_of_typeAt? ht

include hG in
theorem fresh_output {q : Port} {body : NodeBody} {t : ValueType}
    (hb : G.bodies[q.node]? = some body) (ht : typeAt? body.sig.outputs q.index = some t) :
    portInRange q.index (Node.fresh body (some p)).outputCount = true := by
  simp only [Node.fresh, hG.hasPorts hb, if_true]
  exact portInRange_of_typeAt? ht

include hG hp

theorem inside_fits {e : Edge} (he : e ∈ G.wires) :
    ∃ S T, EdgeFits h ⟨shift g.nodes.size e.src, shift g.nodes.size e.dst⟩ S T := by
  obtain ⟨src, dst, t, hsrc, hd, hst, hdt⟩ := hG.wires e he
  exact ⟨_, _, hp.fresh _ _ hsrc, hp.fresh _ _ hd, rfl,
    fresh_output (q := e.src) hG hsrc hst, fresh_input (q := e.dst) hG hd hdt, hst.trans hdt.symm⟩

include hs

theorem entering_fits {src : Port} {k : Nat} (he : ⟨src, s.gate, k⟩ ∈ g.edges) :
    ∃ S T, EdgeFits h ⟨src, shift g.nodes.size (G.enter k)⟩ S T := by
  have hk := s.entering_lt he
  obtain ⟨S, T, hfit⟩ := s.arena.edge _ he
  cases s.here.symm.trans hfit.target
  obtain ⟨cs, hS⟩ := hp.keeps hs _ _ hfit.source
  obtain ⟨body, hb, ht⟩ := hG.enters k hk
  have htype := hfit.type
  rw [s.input_type hk] at htype
  exact ⟨_, _, hS, hp.fresh _ _ hb, hfit.siblings.trans hs.hangs.parent, hfit.output,
    fresh_input (q := G.enter k) hG hb ht, htype.trans ht.symm⟩

theorem leaving_fits {dst : Port} {j : Nat} (he : ⟨⟨s.gate, j⟩, dst⟩ ∈ g.edges) :
    ∃ S T, EdgeFits h ⟨shift g.nodes.size (G.leave j), dst⟩ S T := by
  have hj := s.leaving_lt he
  obtain ⟨S, T, hfit⟩ := s.arena.edge _ he
  cases s.here.symm.trans hfit.source
  obtain ⟨cs, hT⟩ := hp.keeps hs _ _ hfit.target
  obtain ⟨body, hb, ht⟩ := hG.leaves j hj
  have htype := hfit.type
  rw [typeAt?_natCast, s.output_type hj] at htype
  exact ⟨_, _, hp.fresh _ _ hb, hT, hs.hangs.parent.symm.trans hfit.siblings,
    fresh_output (q := G.leave j) hG hb ht, hfit.input, ht.trans htype⟩

theorem wired_ok : ∃ k, k.nodes = h.nodes ∧ k.Arena ∧
    (∀ e, e.src.node ≠ s.gate ∧ e.dst.node ≠ s.gate → (e ∈ k.edges ↔ G.Wired g s.gate e)) ∧
    ∀ k', removeSubtree s.gate k = .ok () k' →
      G.install g.nodes.size s.width s.gate h = .ok () k' := by
  have hlt := node?_lt s.here
  have hne : ∀ q, (shift g.nodes.size q).node ≠ s.gate := fun q =>
    Nat.ne_of_gt (Nat.lt_of_lt_of_le hlt (le_shift _ q))
  have hnew : ∀ {e : Edge} q, e ∈ g.edges → e.dst ≠ shift g.nodes.size q := by
    intro e q he heq
    have := s.arena.target_lt he
    rw [heq] at this
    exact absurd this (Nat.not_lt_of_le (le_shift _ q))
  obtain ⟨henter, hwires, hdisj⟩ := nodup_append.mp hG.once
  have hedges₀ := hp.edges
  obtain ⟨h₁, hrun₁, hnodes₁, ha₁, hedges₁⟩ := reconnects_ok (h := h) (x := s.gate)
    (fun k => shift g.nodes.size (G.enter k)) hp.arena (nodup_range (n := s.width))
    (by
      rw [← Function.comp_def, ← map_map]
      exact henter.map (fun _ _ hpq => shift_inj hpq))
    (fun k _ => hne _)
    (fun k hk => by
      rw [hedges₀]
      exact s.lawful.fed _ _ s.here k (by rw [s.inputCount]; exact mem_range.mp hk))
    (fun k _ src he => by
      rw [hedges₀] at he
      exact entering_fits hG hs hp he)
    (fun k _ e he => by
      rw [hedges₀] at he
      exact hnew _ he)
  rw [hedges₀] at hedges₁
  obtain ⟨h₂, hrun₂, hnodes₂, ha₂, hedges₂⟩ := connects_ok (h := h₁)
    (G.wires.map fun e => ⟨shift g.nodes.size e.src, shift g.nodes.size e.dst⟩) ha₁
    (by
      rw [map_map]
      have hmap : (G.wires.map fun e => shift g.nodes.size e.dst) =
          (G.wires.map (·.dst)).map (shift g.nodes.size) := by rw [map_map]; rfl
      rw [show ((fun e : Edge => e.dst) ∘ fun e : Edge =>
        (⟨shift g.nodes.size e.src, shift g.nodes.size e.dst⟩ : Edge)) =
          fun e => shift g.nodes.size e.dst from rfl, hmap]
      exact hwires.map (fun _ _ hpq => shift_inj hpq))
    (fun e he => by
      obtain ⟨w, hw, rfl⟩ := mem_map.mp he
      obtain ⟨S, T, hfit⟩ := inside_fits hG hp hw
      exact ⟨S, T, hfit.of_nodes hnodes₁⟩)
    (fun e he e' he' => by
      obtain ⟨w, hw, rfl⟩ := mem_map.mp he
      rcases (hedges₁ e').mp he' with ⟨he', -⟩ | ⟨k, hk, src, -, rfl⟩
      · exact hnew _ he'
      · intro heq
        exact hdisj _ (mem_map.mpr ⟨k, hk, rfl⟩) _ (mem_map.mpr ⟨w, hw, rfl⟩)
          (shift_inj heq))
  have hkept : ∀ j d, ⟨⟨s.gate, (j : Nat)⟩, d⟩ ∈ h₂.edges → ⟨⟨s.gate, (j : Nat)⟩, d⟩ ∈ g.edges := by
    intro j d he
    rcases (hedges₂ _).mp he with he | he
    · rcases (hedges₁ _).mp he with ⟨he, -⟩ | ⟨k, -, src, hmem, heq⟩
      · exact he
      · cases heq
        exact (s.lawful.not_self hmem rfl).elim
    · obtain ⟨w, -, heq⟩ := mem_map.mp he
      exact absurd (congrArg (fun e : Edge => e.src.node) heq) (hne _)
  obtain ⟨h₃, hrun₃, ⟨hnodes₃, ha₃, hedges₃, -⟩⟩ := replacements_ok (h := h₂) (x := s.gate)
    (fun j => shift g.nodes.size (G.leave j)) (range s.width) ha₂ (fun j _ => hne _)
    (fun j _ d he => by
      obtain ⟨S, T, hfit⟩ := leaving_fits hG hs hp (hkept j d he)
      exact ⟨S, T, hfit.of_nodes (hnodes₂.trans hnodes₁)⟩)
  refine ⟨h₃, hnodes₃.trans (hnodes₂.trans hnodes₁), ha₃, fun e ⟨hsrc, hdst⟩ => ?_, fun k' hk' => ?_⟩
  · have hports : ∀ {q : Port} {i : Int}, q.node ≠ s.gate → q ≠ ⟨s.gate, i⟩ :=
      fun hq heq => hq (congrArg Port.node heq)
    rw [hedges₃]
    constructor
    · rintro (⟨he, -⟩ | ⟨j, -, d, he, rfl⟩)
      · rcases (hedges₂ e).mp he with he | he
        · rcases (hedges₁ e).mp he with ⟨he, -⟩ | ⟨k, -, src, hmem, rfl⟩
          · exact .kept he hsrc hdst
          · exact .entering hmem hsrc
        · obtain ⟨w, hw, rfl⟩ := mem_map.mp he
          exact .inside hw
      · exact .leaving (hkept j d he) hdst
    · intro hw
      cases hw with
      | kept he =>
        exact .inl ⟨(hedges₂ _).mpr (.inl ((hedges₁ _).mpr (.inl ⟨he, fun k _ => hports hdst⟩))),
          fun j _ => hports hsrc⟩
      | @entering src k he =>
        exact .inl ⟨(hedges₂ _).mpr (.inl ((hedges₁ _).mpr
          (.inr ⟨k, mem_range.mpr (s.entering_lt he), src, he, rfl⟩))),
          fun j _ => hports hsrc⟩
      | inside hmem =>
        exact .inl ⟨(hedges₂ _).mpr (.inr (mem_map.mpr ⟨_, hmem, rfl⟩)),
          fun j _ => hports hsrc⟩
      | @leaving dst j he =>
        exact .inr ⟨j, mem_range.mpr (s.leaving_lt he), dst, (hedges₂ _).mpr (.inl
          ((hedges₁ _).mpr (.inl ⟨he, fun k _ => hports hdst⟩))), rfl⟩
  · exact bind_ok.mpr ⟨_, _, hrun₁, bind_ok.mpr ⟨_, _, hrun₂,
      bind_ok.mpr ⟨_, _, hrun₃, hk'⟩⟩⟩

theorem install_ok :
    ∃ h', G.install g.nodes.size s.width s.gate h = .ok () h' ∧ G.Seated g h' s.gate := by
  obtain ⟨k, hnodes, hk, hedges, hrun⟩ := wired_ok hG hs hp
  have hnode : ∀ x, k.node? x = h.node? x := fun x => by simp [node?, slot?, hnodes]
  obtain ⟨cs, hgnode⟩ := hp.keeps hs _ _ s.here
  rw [← hnode] at hgnode
  obtain ⟨n', hhk⟩ := hk.hangs_of_parent hgnode hs.hangs.parent
  have hremove := removeSubtree_ok hhk
  have hwalk : ∀ x, x ∈ k.walk s.gate ↔ x = s.gate := fun x =>
    mem_walk_leaf hk ((kind?_of_node hhk.node).trans (congrArg some s.kind)) fun _ => rfl
  refine ⟨_, hrun _ hremove, hk.without hhk, ?_, ?_, ?_, ?_, ?_⟩
  · exact (hp.lasting.trans (.of_nodes hnodes)).trans (.without _ _)
  · rw [without_node, if_pos ((hwalk _).2 rfl)]
  · intro x m hm hx
    have hgone : ∀ {l : Node}, h.node? x = some l → (k.without s.gate p).node? x =
        some { l with children := l.children.filter (· != s.gate) } := fun hl =>
      without_of_node hk hhk (by rw [hnode, hl]) fun hw => hx ((hwalk x).1 hw)
    by_cases hxp : x = p
    · subst hxp
      cases hs.hangs.holder.symm.trans hm
      obtain ⟨rest', hrest', hperm⟩ := hp.holder
      have hleft := hgone hrest'
      refine ⟨_, hleft, .inr ⟨hs.region, a, b, rest, rest'.filter (· != s.gate), hs.children,
        hs.gate, ?_, ?_⟩⟩
      · have hnodup := hs.nodup
        rw [nodup_cons, nodup_cons] at hnodup
        have hga : a ≠ s.gate := by
          rintro rfl
          exact hnodup.1 (mem_cons_of_mem _ hs.gate)
        have hgb : b ≠ s.gate := by
          rintro rfl
          exact hnodup.2.1 hs.gate
        rw [filter_cons_of_pos (by simpa using hga),
          filter_cons_of_pos (by simpa using hgb)]
      · intro c
        rw [mem_filter, hperm.mem_iff, mem_append, mem_range', bne_iff_ne, or_and_right]
        simp only [Nat.one_mul]
        refine or_congr_right (and_iff_left_of_imp ?_)
        rintro ⟨i, -, rfl⟩
        exact Nat.ne_of_gt (Nat.lt_of_lt_of_le (node?_lt s.here) (Nat.le_add_right _ i))
    · have hxm : h.node? x = some m := by rw [hp.others x (node?_lt hm) hxp, hm]
      have hnot : s.gate ∉ m.children := by
        intro hc
        have := s.arena.parent_of_child hm hc s.here
        rw [hs.hangs.parent] at this
        exact hxp (Option.some.inj this).symm
      refine ⟨_, hgone hxm, .inl ⟨filter_eq_self.2 fun c hc => ?_, hnot⟩⟩
      simp only [bne_iff_ne, ne_eq]
      rintro rfl
      exact hnot hc
  · intro x m hm hx
    obtain ⟨-, l, hl, rfl⟩ := node_of_without hk hhk hm
    rw [hnode] at hl
    have hxs := node?_lt hl
    rw [hp.size] at hxs
    obtain ⟨i, rfl⟩ := Nat.exists_eq_add_of_le hx
    have hi : i < G.bodies.length := Nat.lt_of_add_lt_add_left hxs
    have hbody : G.bodies[i]? = some G.bodies[i] := getElem?_eq_getElem hi
    refine ⟨i, G.bodies[i], p, rfl, hbody, ?_⟩
    cases hl.symm.trans (hp.fresh i _ hbody)
    rfl
  · intro e
    rw [mem_without_edges, hwalk, hwalk]
    constructor
    · rintro ⟨he, hne⟩
      exact (hedges e hne).1 he
    intro hw
    have hlt := node?_lt s.here
    have hne : ∀ q, (shift g.nodes.size q).node ≠ s.gate := fun q =>
      Nat.ne_of_gt (Nat.lt_of_lt_of_le hlt (le_shift _ q))
    have hends : e.src.node ≠ s.gate ∧ e.dst.node ≠ s.gate := by
      cases hw with
      | kept _ hsrc hd => exact ⟨hsrc, hd⟩
      | entering _ hsrc => exact ⟨hsrc, hne _⟩
      | inside _ => exact ⟨hne _, hne _⟩
      | leaving _ hd => exact ⟨hne _, hd⟩
    exact ⟨(hedges e hends).2 hw, hends⟩

end Install

end Gadget

end Qirc.Graph
