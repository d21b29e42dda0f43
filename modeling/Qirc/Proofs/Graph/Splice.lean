import Qirc.Proofs.Graph.Copying
import Qirc.Proofs.Graph.Transfer

/-!
# A body in the place of a call

Step by step, what becomes of a checked graph when one of its calls is replaced by a copy of what
it calls: the copy stands where the call stood, is fed by what fed the call, and feeds what the
call fed. No step on the way is refused.
-/

namespace Qirc.Graph

open List

/-- A call that does not lie in the body of what it calls, in a checked graph. -/
structure CallSite (g : Graph) where
  call : NodeId
  node : Node
  callee : NodeId
  fn : Node
  holder : NodeId
  region : Node
  first : NodeId
  last : NodeId
  body : List NodeId
  input : Node
  output : Node
  arena : g.Arena
  lawful : g.Lawful
  plain : g.PlainBoundary
  kind : node.kind = .call
  names : node.body.callee = some callee
  function : g.node? callee = some fn
  isFunction : fn.kind = .funcDefn
  sig : fn.sig = node.sig
  hangs : HangsFrom g call node holder region
  bounded : Bounded g fn first last body input output
  outside : ¬Under g callee call

theorem callSite_of_call {g : Graph} (ha : g.Arena) (hl : g.Lawful) (hp : g.PlainBoundary)
    {c f : NodeId} {n : Node} (hn : g.node? c = some n) (hk : n.kind = .call)
    (hf : n.body.callee = some f) (hout : ¬Under g f c) :
    ∃ s : CallSite g, s.call = c ∧ s.callee = f := by
  obtain ⟨f', fn, hf', hfn, hfk, hsig⟩ := hl.call c n hn hk
  rw [hf] at hf'
  cases hf'
  obtain ⟨first, last, body, i, o, hb⟩ := hl.region f fn hfn (by rw [hfk]; rfl)
  obtain ⟨p, r, hh⟩ := ha.hangs c n hn (ha.ne_root hn (by rw [hk]; decide))
  exact ⟨⟨c, n, f, fn, p, r, first, last, body, i, o, ha, hl, hp, hk, hf, hfn, hfk, hsig, hh, hb,
    hout⟩, rfl, rfl⟩

theorem isRegion_of_mayHold {a : NodeKind} (ha : a.mayHold .call = true) : a.isRegion = true := by
  cases a <;> first | rfl | simp [NodeKind.mayHold] at ha

theorem settleCallee_call {body : NodeBody} (h : body.kind = .call) : body.settleCallee = body := by
  rw [NodeBody.settleCallee, if_neg fun hc => hc.2 h]

theorem settleCallee_op (body : NodeBody) : body.settleCallee.op = body.op := by
  unfold NodeBody.settleCallee
  split <;> rfl

theorem settleCallee_const (body : NodeBody) : body.settleCallee.const = body.const := by
  unfold NodeBody.settleCallee
  split <;> rfl

variable {made : NodeMap} {a b : NodeId}

theorem Twin.same {g h : Graph} {k l : Node} (hg : g.Arena) (hh : h.Arena)
    (ht : Twin g h made a b k l) : Same k l := by
  have hkind : l.kind = k.kind := by
    unfold Node.kind
    rw [ht.body, settleCallee_kind]
  have hsig : l.sig = k.sig := by
    unfold Node.sig
    rw [ht.body, settleCallee_sig]
  refine ⟨hkind, hsig, ?_, ?_, ?_, ?_, ?_⟩
  · rw [ht.body, settleCallee_op]
  · rw [ht.body, settleCallee_const]
  · intro hk
    rw [ht.body, settleCallee_call hk]
  · rw [hh.inputs _ _ ht.new, hg.inputs _ _ ht.old, hkind, hsig]
  · rw [hh.outputs _ _ ht.new, hg.outputs _ _ ht.old, hkind, hsig]

theorem NodeMap.get?_of_mem (hn : (made.map (·.1)).Nodup) (h : (a, b) ∈ made) :
    made.get? a = some b := by
  exact Option.map_eq_some_iff.2 ⟨_, find?_key hn h, rfl⟩

namespace CallSite

variable {g : Graph} (s : CallSite g)

theorem holder_isRegion : s.region.kind.isRegion = true := by
  have h := s.hangs.allowed
  rw [s.kind] at h
  exact isRegion_of_mayHold h

theorem holder_apart {x : NodeId} (hx : x = s.callee ∨ Under g s.callee x) : x ≠ s.holder := by
  rintro rfl
  exact s.outside (.of_parent s.hangs.node s.hangs.parent hx)

theorem ne_call {x : NodeId} {n : Node} (hn : g.node? x = some n) (hk : n.kind ≠ .call) :
    x ≠ s.call := by
  rintro rfl
  cases s.hangs.node.symm.trans hn
  exact hk s.kind

theorem call_apart {x : NodeId} (hx : x = s.callee ∨ Under g s.callee x) : x ≠ s.call := by
  obtain rfl | hx := hx
  · exact s.ne_call s.function (by rw [s.isFunction]; decide)
  · rintro rfl
    exact s.outside hx

theorem child_of_callee {c : NodeId} (hc : c ∈ s.fn.children) :
    ∃ k, HangsFrom g c k s.callee s.fn := s.arena.child _ _ _ s.function hc

theorem first_hangs : HangsFrom g s.first s.input s.callee s.fn := by
  obtain ⟨k, hk⟩ := s.child_of_callee (c := s.first) (by simp [s.bounded.children])
  cases s.bounded.first.symm.trans hk.node
  exact hk

theorem last_hangs : HangsFrom g s.last s.output s.callee s.fn := by
  obtain ⟨k, hk⟩ := s.child_of_callee (c := s.last) (by simp [s.bounded.children])
  cases s.bounded.last.symm.trans hk.node
  exact hk

theorem src_ne_last {e : Edge} {S T : Node} (hfit : EdgeFits g e S T) : e.src.node ≠ s.last := by
  intro hx
  have hS := hfit.source
  rw [hx, s.bounded.last] at hS
  have hout := hfit.output
  rw [← Option.some.inj hS, s.plain.output _ _ s.bounded.last s.bounded.lastKind] at hout
  exact not_portInRange_zero _ hout

theorem dst_ne_first {e : Edge} {S T : Node} (hfit : EdgeFits g e S T) : e.dst.node ≠ s.first := by
  intro hx
  have hT := hfit.target
  rw [hx, s.bounded.first] at hT
  have hin := hfit.input
  rw [← Option.some.inj hT, s.plain.input _ _ s.bounded.first s.bounded.firstKind] at hin
  exact not_portInRange_zero _ hin

theorem body_under {c x : NodeId} (hc : c ∈ s.body) (hx : x = c ∨ Under g c x) :
    Under g s.callee x := by
  obtain ⟨k, hk⟩ := s.child_of_callee (c := c) (by simp [s.bounded.children, hc])
  exact hk.under hx

theorem body_copyable {c : NodeId} (hc : c ∈ s.body) :
    ∃ k, Copyable g g s.holder c k ∧ k.parent = some s.callee := by
  refine copyable_of_call s.arena s.hangs s.kind s.function s.isFunction ?_
    (by simp [s.bounded.children, hc])
  exact fun hu => s.holder_apart (.inr hu) rfl

theorem call_fed {i : Nat} (hi : i < s.node.inputCount) :
    ∃ src, g.source? ⟨s.call, i⟩ = some src ∧ src.node ≠ s.call := by
  obtain ⟨src, he⟩ := s.lawful.fed _ _ s.hangs.node i hi
  exact ⟨src, (source?_eq_some_iff s.arena).2 he, s.lawful.not_self he⟩

theorem call_arity : s.node.inputCount = s.fn.sig.inputs.length := by
  rw [s.arena.inputs _ _ s.hangs.node, s.kind, s.sig]
  rfl

theorem first_count : s.input.outputCount = s.node.inputCount := by
  rw [s.arena.outputs _ _ s.bounded.first, s.call_arity, s.bounded.firstKind, s.bounded.firstSig]
  rfl

/-- Where the copy of an edge starts that starts at a port of the function. -/
def copySource (made : NodeMap) (p : Port) : Port :=
  if p.node = s.first then (g.source? ⟨s.call, p.index⟩).getD p
  else ⟨(made.get? p.node).getD root, p.index⟩

/-- What a function and the parts of it become: the region of the call, and the copies. -/
def Becomes (made : NodeMap) (p q : NodeId) : Prop :=
  (p = s.callee ∧ q = s.holder) ∨ (p, q) ∈ made

/-- The nodes of a graph in which the body has been copied to the place of the call. -/
structure Copied (h : Graph) (made : NodeMap) (tops : List NodeId) : Prop extends
    Copies g h g.nodes.size s.holder s.body tops made where
  others : ∀ x : Nat, x < g.nodes.size → x ≠ s.holder → h.slot? x = g.slot? x
  holder : ∃ before after, s.region.children = before ++ s.call :: after ∧
    h.node? s.holder = some { s.region with children := before ++ tops ++ s.call :: after }

variable {s} {h : Graph} {made : NodeMap} {tops : List NodeId}

theorem copySource_of_first (s : CallSite g) (made : NodeMap) {k : Nat} (hk : k < s.input.outputCount) :
    ∃ src, g.source? ⟨s.call, k⟩ = some src ∧ src.node ≠ s.call ∧
      s.copySource made ⟨s.first, k⟩ = src := by
  obtain ⟨src, hsrc, hne⟩ := s.call_fed (by rw [← s.first_count]; exact hk)
  exact ⟨src, hsrc, hne, by rw [copySource, if_pos rfl, hsrc]; rfl⟩

end CallSite

namespace Copies

open CallSite

variable {g h : Graph} {s : CallSite g} {tops : List NodeId}
  (hc : Copies g h g.nodes.size s.holder s.body tops made)

include hc

theorem key_under (hab : (a, b) ∈ made) : Under g s.callee a := by
  obtain ⟨-, c, hcb, hx⟩ := (hc.keys a).1 (mem_map.2 ⟨(a, b), hab, rfl⟩)
  exact s.body_under hcb hx

theorem parent_becomes {p : NodeId} {k : Node} (hab : (a, b) ∈ made) (hk : g.node? a = some k)
    (hp : k.parent = some p) : ∃ q, s.Becomes made p q ∧ h.parent? b = some q := by
  obtain ⟨-, c, hcb, hx⟩ := (hc.keys a).1 (mem_map.2 ⟨(a, b), hab, rfl⟩)
  obtain ⟨kc, hkc⟩ := s.child_of_callee (c := c) (by simp [s.bounded.children, hcb])
  obtain rfl | hx := hx
  · have hpc := hkc.parent
    have hkk := hkc.node
    rw [hk] at hkk
    cases hkk
    rw [hp] at hpc
    cases hpc
    obtain ⟨t, -, hat, hpar⟩ := forall₂_of_mem_left hc.roots hcb
    exact ⟨s.holder, .inl ⟨rfl, rfl⟩, by rw [hc.eq_of_key hab hat, hpar]⟩
  · have hpx := hx.cases_parent hk hp
    obtain ⟨m, hh⟩ := s.arena.hangs_of_parent hk hp
    obtain ⟨p', hpp⟩ := hc.mem_of_key hh.holder hcb hpx
    obtain ⟨k', l, ht⟩ := hc.twins p p' hpp
    have hkk := ht.old
    rw [hh.holder] at hkk
    cases hkk
    obtain ⟨t, -, hat, hpar⟩ := forall₂_of_mem_left ht.children hh.listed
    exact ⟨p', .inr hpp, by rw [hc.eq_of_key hab hat, hpar]⟩

theorem becomes_unique {p q q' : NodeId} (hq : s.Becomes made p q)
    (hq' : s.Becomes made p q') : q = q' := by
  have hself : ∀ {x}, (s.callee, x) ∉ made :=
    fun hx => Nat.lt_irrefl _ ((hc.key_under hx).lt s.arena)
  obtain ⟨rfl, rfl⟩ | hq := hq
  · obtain ⟨-, rfl⟩ | hq' := hq'
    · rfl
    · exact absurd hq' hself
  · obtain ⟨rfl, -⟩ | hq' := hq'
    · exact absurd hq hself
    · exact hc.eq_of_key hq hq'

theorem source_copied {e : Edge} {S T : Node} {p q : NodeId}
    (hfit : EdgeFits g e S T) (hp : T.parent = some p) (hq : s.Becomes made p q)
    (hne : e.src.node ≠ s.first) : ∃ y, (e.src.node, y) ∈ made := by
  have hps : S.parent = some p := hfit.siblings.trans hp
  obtain ⟨m, hh⟩ := s.arena.hangs_of_parent hfit.source hps
  obtain ⟨rfl, -⟩ | hq := hq
  · have hm := hh.holder
    rw [s.function] at hm
    have hlisted := hh.listed
    rw [← Option.some.inj hm, s.bounded.children, mem_cons, mem_cons] at hlisted
    obtain hx | hx | hx := hlisted
    · exact absurd hx hne
    · exact absurd hx (s.src_ne_last hfit)
    · exact hc.mem_of_key hfit.source hx (.inl rfl)
  · obtain ⟨-, c, hcb, hx⟩ := (hc.keys p).1 (mem_map.2 ⟨(p, q), hq, rfl⟩)
    exact hc.mem_of_key hfit.source hcb (.inr (.of_parent hfit.source hps hx))

theorem copySource_of_mem {p : Port} {y : NodeId}
    (hy : (p.node, y) ∈ made) : s.copySource made p = ⟨y, p.index⟩ := by
  have hne : p.node ≠ s.first := by
    intro he
    obtain ⟨-, c, hcb, hx⟩ := (hc.keys _).1 (mem_map.2 ⟨_, hy, rfl⟩)
    obtain ⟨kc, hkc⟩ := s.child_of_callee (c := c) (by simp [s.bounded.children, hcb])
    have hki := s.first_hangs
    obtain hx | hx := hx
    · obtain ⟨hk, -⟩ := s.bounded.inner c hcb kc hkc.node
      have hi := hkc.node
      rw [← hx, he, s.bounded.first] at hi
      exact hk (by rw [← Option.some.inj hi, s.bounded.firstKind])
    · rw [he] at hx
      exact not_under_sibling s.arena hkc.node hkc.parent hki.node hki.parent hx
  rw [copySource, if_neg hne, NodeMap.get?_of_mem hc.once hy]
  rfl

theorem fresh_ne_call (hab : (a, b) ∈ made) : b ≠ s.call :=
  Nat.ne_of_gt (Nat.lt_of_lt_of_le (node?_lt s.hangs.node) (hc.fresh a b hab))

theorem fresh_ne_holder (hab : (a, b) ∈ made) : b ≠ s.holder :=
  Nat.ne_of_gt (Nat.lt_of_lt_of_le (node?_lt s.hangs.holder) (hc.fresh a b hab))

end Copies

namespace CallSite

variable {g h : Graph} {s : CallSite g} {tops : List NodeId}

theorem Copied.keeps (hc : s.Copied h made tops) : Keeps g h := by
  intro x n hn
  by_cases hx : x = s.holder
  · subst hx
    obtain ⟨before, after, -, hh⟩ := hc.holder
    rw [s.hangs.holder] at hn
    cases hn
    exact ⟨_, hh⟩
  · refine ⟨n.children, ?_⟩
    rw [node?_congr (hc.others x (node?_lt hn) hx), hn]

/-- A port from which an edge into the region `q` can start. -/
structure Offers (h : Graph) (p : Port) (q : NodeId) (t : Option ValueType) (n : Node) : Prop where
  node : h.node? p.node = some n
  parent : n.parent = some q
  output : portInRange p.index n.outputCount = true
  type : typeAt? n.sig.outputs p.index = t

theorem Copied.offers (hc : s.Copied h made tops) (hh : h.Arena) {e : Edge} {S T : Node}
    {p q : NodeId} (hfit : EdgeFits g e S T) (hp : T.parent = some p) (hq : s.Becomes made p q) :
    (s.copySource made e.src).node ≠ s.call ∧
      ∃ n, Offers h (s.copySource made e.src) q (typeAt? T.sig.inputs e.dst.index) n := by
  have hps : S.parent = some p := hfit.siblings.trans hp
  by_cases hfirst : e.src.node = s.first
  · have hS := hfit.source
    rw [hfirst, s.bounded.first] at hS
    cases hS
    have hpc : p = s.callee := Option.some.inj (hps.symm.trans s.first_hangs.parent)
    have hqh : q = s.holder := hc.becomes_unique hq (.inl ⟨hpc, rfl⟩)
    obtain ⟨k, hk, heq⟩ := natCast_index hfit.output
    rw [hfirst] at heq
    obtain ⟨src, hsrc, hne, hcopy⟩ := s.copySource_of_first made hk
    rw [heq, hcopy]
    obtain ⟨S₀, C, hfit₀⟩ := s.arena.edge _ (source?_edge hsrc)
    have hC := hfit₀.target
    rw [s.hangs.node] at hC
    cases hC
    obtain ⟨cs, hnode⟩ := hc.keeps _ _ hfit₀.source
    refine ⟨hne, _, hnode, ?_, hfit₀.output, ?_⟩
    · rw [hqh]
      exact hfit₀.siblings.trans s.hangs.parent
    have htype := hfit.type
    rw [heq, s.bounded.firstSig, s.sig] at htype
    rw [← htype]
    exact hfit₀.type
  · obtain ⟨y, hy⟩ := hc.source_copied hfit hp hq hfirst
    obtain ⟨k, l, ht⟩ := hc.twins _ _ hy
    have hk := ht.old
    rw [hfit.source] at hk
    cases hk
    obtain ⟨q', hq', hpar⟩ := hc.parent_becomes hy hfit.source hps
    have hsame := ht.same s.arena hh
    rw [hc.copySource_of_mem hy]
    refine ⟨hc.fresh_ne_call hy, l, ht.new, ?_, ?_, ?_⟩
    · rw [← parent?_of_node ht.new, hpar, hc.becomes_unique hq hq']
    · rw [hsame.outputs]
      exact hfit.output
    · rw [hsame.sig]
      exact hfit.type

end CallSite

end Qirc.Graph
