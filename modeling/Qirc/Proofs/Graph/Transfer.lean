import Mathlib.Data.List.Forall2
import Qirc.Proofs.Graph.Denotation

/-!
# Denotations carried from graph to graph

A node of one graph is a mirror of a node of another when both do the same with the same regions.
If what feeds them has the same values, both show the same; so regions whose children are mirrors
of each other denote the same.
-/

namespace Qirc.Graph

open List

structure Same (k l : Node) : Prop where
  kind : l.kind = k.kind
  sig : l.sig = k.sig
  op : l.body.op = k.body.op
  const : l.body.const = k.body.const
  callee : k.kind = .call → l.body.callee = k.body.callee
  inputs : l.inputCount = k.inputCount
  outputs : l.outputCount = k.outputCount

variable {k l : Node}

theorem Same.symm (h : Same k l) : Same l k :=
  ⟨h.kind.symm, h.sig.symm, h.op.symm, h.const.symm, fun hk => (h.callee (h.kind ▸ hk)).symm,
    h.inputs.symm, h.outputs.symm⟩

theorem Same.rehold (k : Node) (cs : List NodeId) : Same k { k with children := cs } :=
  ⟨rfl, rfl, rfl, rfl, fun _ => rfl, rfl, rfl⟩

/-- Two nodes that do the same with regions that stand for each other. -/
structure Mirrors (R : NodeId → NodeId → Prop) (c d : NodeId) (k l : Node) : Prop where
  same : Same k l
  self : R c d
  callees : ∀ f, k.kind = .call → k.body.callee = some f → R f f
  cases : k.kind = .conditional → Forall₂ R k.children l.children

variable {c d : NodeId}

theorem Mirrors.refl (c : NodeId) (k : Node) : Mirrors Eq c c k k :=
  ⟨.rehold k _, rfl, fun _ _ _ => rfl, fun _ => forall₂_same.2 fun _ _ => rfl⟩

theorem Mirrors.symm {R : NodeId → NodeId → Prop} (h : Mirrors R c d k l) :
    Mirrors (fun a b => R b a) d c l k := by
  refine ⟨h.same.symm, h.self, ?_, ?_⟩
  · intro f hk hf
    have hk' : k.kind = .call := h.same.kind ▸ hk
    exact h.callees f hk' (by rw [← h.same.callee hk', hf])
  · intro hk
    exact (h.cases (h.same.kind ▸ hk)).flip

variable {V : Type} {I : Interpretation V} {g h : Graph}
  {region region' : NodeId → List V → List V → Prop} {R : NodeId → NodeId → Prop}

variable {r : NodeId} {args : List V} {count : Nat} {out out' : Nat → V}

theorem Yields.congr (hout : ∀ k < count, out k = out' k) (hy : Yields region r args count out) :
    Yields region r args count out' := by
  obtain ⟨outs, hrun, hval⟩ := hy
  exact ⟨outs, hrun, fun k hk => by rw [hval k hk, hout k hk]⟩

theorem Yields.transfer (hR : ∀ r r' ins outs, R r r' → region r ins outs → region' r' ins outs)
    {r' : NodeId} (hr : R r r') (hy : Yields region r args count out) :
    Yields region' r' args count out := by
  obtain ⟨outs, hrun, hval⟩ := hy
  exact ⟨outs, hR _ _ _ _ hr hrun, hval⟩

theorem forall₂_getElem? {xs ys : List NodeId} (hxs : List.Forall₂ R xs ys) {i : Nat} {x : NodeId}
    (hx : xs[i]? = some x) : ∃ y, ys[i]? = some y ∧ R x y := by
  obtain ⟨hi, rfl⟩ := List.getElem?_eq_some_iff.1 hx
  have hi' : i < ys.length := hxs.length_eq ▸ hi
  exact ⟨ys[i], getElem?_eq_getElem hi', hxs.get hi hi'⟩

variable {α β : Type} {S : α → β → Prop} {as : List α} {bs : List β}

theorem forall₂_of_mem_left (hab : Forall₂ S as bs) {a : α} (ha : a ∈ as) : ∃ b ∈ bs, S a b := by
  induction hab with
  | nil => simp at ha
  | cons hr _ ih =>
    rcases mem_cons.1 ha with rfl | ha
    · exact ⟨_, mem_cons_self, hr⟩
    obtain ⟨b, hb, hr⟩ := ih ha
    exact ⟨b, mem_cons_of_mem _ hb, hr⟩

theorem forall₂_of_mem_right (hab : Forall₂ S as bs) {b : β} (hb : b ∈ bs) : ∃ a ∈ as, S a b :=
  forall₂_of_mem_left (S := fun b a => S a b) hab.flip hb

theorem Shows.transfer (hR : ∀ r r' ins outs, R r r' → region r ins outs → region' r' ins outs)
    (hm : Mirrors R c d k l) (hout : ∀ i < k.outputCount, out i = out' i)
    (hs : Shows I region c k args out) : Shows I region' d l args out' := by
  cases hk : k.kind <;> simp only [Shows, hk, hm.same.kind] at hs ⊢
  case op =>
    intro i hi
    rw [hm.same.outputs] at hi
    rw [← hout i hi, hs i hi, hm.same.op, hm.same.sig]
  case const =>
    intro i hi
    rw [hm.same.outputs] at hi
    rw [← hout i hi, hs i hi, hm.same.const]
  case dfg =>
    rw [hm.same.outputs]
    exact (hs.transfer hR hm.self).congr hout
  case call =>
    obtain ⟨f, hf, hy⟩ := hs
    refine ⟨f, by rw [hm.same.callee hk, hf], ?_⟩
    rw [hm.same.outputs]
    exact (hy.transfer hR (hm.callees f hk hf)).congr hout
  case conditional =>
    obtain ⟨p, rest, r, hargs, hch, hy⟩ := hs
    obtain ⟨r', hr', hrr⟩ := forall₂_getElem? (hm.cases hk) hch
    refine ⟨p, rest, r', hargs, hr', ?_⟩
    rw [hm.same.outputs]
    exact (hy.transfer hR hrr).congr hout

structure Agrees (g h : Graph) (env env' : Port → V) (c d : NodeId) (k : Node) : Prop where
  shown : ∀ i : Nat, env ⟨c, i⟩ = env' ⟨d, i⟩
  fed : ∀ i : Nat, i < k.inputCount → ∃ src src', g.source? ⟨c, i⟩ = some src ∧
    h.source? ⟨d, i⟩ = some src' ∧ env src = env' src'

variable {env env' : Port → V}

theorem Agrees.symm (ha : Agrees g h env env' c d k) (hs : Same k l) :
    Agrees h g env' env d c l := by
  refine ⟨fun i => (ha.shown i).symm, ?_⟩
  intro i hi
  rw [hs.inputs] at hi
  obtain ⟨src, src', hsrc, hsrc', he⟩ := ha.fed i hi
  exact ⟨src', src, hsrc', hsrc, he.symm⟩

theorem Fed.transfer (hin : l.inputCount = k.inputCount) (ha : Agrees g h env env' c d k)
    (hf : g.Fed env c k args) : h.Fed env' d l args := by
  refine ⟨by rw [hf.1, hin], ?_⟩
  intro i hi
  rw [hin] at hi
  obtain ⟨src, src', hsrc, hsrc', he⟩ := ha.fed i hi
  obtain ⟨src₀, hsrc₀, hval⟩ := hf.2 i hi
  rw [hsrc] at hsrc₀
  cases hsrc₀
  exact ⟨src', hsrc', by rw [hval, he]⟩

/-- Two children that are mirrors of each other and carry the same values. -/
def Paired (R : NodeId → NodeId → Prop) (g h : Graph) (env env' : Port → V) (c d : NodeId) : Prop :=
  ∃ k l, g.node? c = some k ∧ h.node? d = some l ∧ Mirrors R c d k l ∧ Agrees g h env env' c d k

theorem Paired.symm (hp : Paired R g h env env' c d) :
    Paired (fun a b => R b a) h g env' env d c := by
  obtain ⟨k, l, hk, hl, hm, ha⟩ := hp
  exact ⟨l, k, hl, hk, hm.symm, ha.symm hm.same⟩

theorem Paired.settled (hp : Paired R g h env env' c d)
    (hR : ∀ r r' ins outs, R r r' → region r ins outs → region' r' ins outs)
    (hs : ∃ n args, g.node? c = some n ∧ g.Fed env c n args ∧ Shows I region c n args (fun i => env
      ⟨c, i⟩)) :
    ∃ n args, h.node? d = some n ∧ h.Fed env' d n args ∧
      Shows I region' d n args (fun i => env' ⟨d, i⟩) := by
  obtain ⟨k, l, hk, hl, hm, ha⟩ := hp
  obtain ⟨n, args, hn, hfed, hshow⟩ := hs
  rw [hk] at hn
  cases hn
  exact ⟨l, args, hl, hfed.transfer hm.same.inputs ha, hshow.transfer hR hm fun i _ => ha.shown i⟩

variable {first last first' last' : NodeId} {rest rest' : List NodeId} {ins outs : List V}

theorem Settles.replace (hs : g.Settles I region k first last rest ins outs env)
    (hsig : l.sig = k.sig) (hch : l.children = first' :: last' :: rest')
    (hfirst : Paired R g h env env' first first') (hlast : Paired R g h env env' last last')
    (hinner : ∀ d ∈ rest', ∃ n args, h.node? d = some n ∧ h.Fed env' d n args ∧
      Shows I region' d n args (fun i => env' ⟨d, i⟩)) :
    h.Settles I region' l first' last' rest' ins outs env' := by
  refine ⟨hch, by rw [hs.arity, hsig], ?_, hinner, ?_⟩
  · obtain ⟨_, _, _, _, _, ha⟩ := hfirst
    intro i hi
    rw [hs.inputs i hi, ha.shown]
  · obtain ⟨k, l, hk, hl, hm, ha⟩ := hlast
    obtain ⟨o, ho, hfed⟩ := hs.output
    rw [hk] at ho
    cases ho
    exact ⟨l, hl, hfed.transfer hm.same.inputs ha⟩

theorem Settles.transfer (hR : ∀ r r' ins outs, R r r' → region r ins outs → region' r' ins outs)
    (hsame : Same k l) (hp : Forall₂ (Paired R g h env env') k.children l.children)
    (hs : g.Settles I region k first last rest ins outs env) :
    ∃ first' last' rest', h.Settles I region' l first' last' rest' ins outs env' := by
  rw [hs.children] at hp
  obtain ⟨first', tail, hfirst, htail, hl⟩ := forall₂_cons_left_iff.1 hp
  obtain ⟨last', rest', hlast, hrest, rfl⟩ := forall₂_cons_left_iff.1 htail
  refine ⟨first', last', rest', hs.replace hsame.sig hl hfirst hlast fun d hd => ?_⟩
  obtain ⟨c, hc, hpair⟩ := forall₂_of_mem_right hrest hd
  exact hpair.settled hR (hs.inner c hc)

theorem Fed.exists (env : Port → V)
    (hsrc : ∀ i : Nat, i < k.inputCount → ∃ src, g.source? ⟨c, i⟩ = some src) :
    ∃ args, g.Fed env c k args := by
  refine ⟨(range k.inputCount).map fun i : Nat => env ((g.source? ⟨c, i⟩).getD ⟨c, i⟩),
    by simp, ?_⟩
  intro i hi
  obtain ⟨src, hs⟩ := hsrc i hi
  refine ⟨src, hs, ?_⟩
  simp [hi, hs]

theorem Runs.succ {depth : Nat} (hrun : g.Runs I depth r ins outs) :
    g.Runs I (depth + 1) r ins outs := by
  induction depth generalizing r ins outs with
  | zero => cases hrun
  | succ depth ih =>
    obtain ⟨n, first, last, rest, env, hn, hr, hs⟩ := hrun
    refine ⟨n, first, last, rest, env, hn, hr, hs.children, hs.arity, hs.inputs, ?_, hs.output⟩
    intro c hc
    obtain ⟨k, args, hk, hfed, hshow⟩ := hs.inner c hc
    refine ⟨k, args, hk, hfed, hshow.transfer ?_ (.refl c k) fun _ _ => rfl⟩
    rintro r _ ins outs rfl
    exact ih

/-! ## The laws of mirrors -/

section Laws

variable (hR : ∀ {c d k}, R c d → g.node? c = some k → ∃ l, h.node? d = some l ∧ Mirrors R c d k l)
include hR

theorem Mirrors.callFits (hm : Mirrors R c d k l) (hg : g.Lawful) (hk : g.node? c = some k)
    (hkind : l.kind = .call) : CallFits h l := by
  have hcall : k.kind = .call := hm.same.kind ▸ hkind
  obtain ⟨callee, fn, hcallee, hfn, hfk, hsig⟩ := hg.call c k hk hcall
  obtain ⟨fn', hfn', hm'⟩ := hR (hm.callees callee hcall hcallee) hfn
  exact ⟨callee, fn', (hm.same.callee hcall).trans hcallee, hfn', hm'.same.kind.trans hfk,
    by rw [hm'.same.sig, hsig, hm.same.sig]⟩

theorem Mirrors.casesFit (hm : Mirrors R c d k l) (hg : g.Lawful) (hk : g.node? c = some k)
    (hkind : l.kind = .conditional) : CasesFit h l := by
  have hcond : k.kind = .conditional := hm.same.kind ▸ hkind
  obtain ⟨others, no, yes, a, b, hin, hcs, hno, hasig, hyes, hbsig⟩ := hg.conditional c k hk hcond
  have hch := hm.cases hcond
  rw [hcs] at hch
  obtain ⟨no', tail, hnn, htail, hl⟩ := forall₂_cons_left_iff.1 hch
  obtain ⟨yes', _, hyy, hnil, rfl⟩ := forall₂_cons_left_iff.1 htail
  cases hnil
  obtain ⟨a', ha, hma⟩ := hR hnn hno
  obtain ⟨b', hb, hmb⟩ := hR hyy hyes
  exact ⟨others, no', yes', a', b', hm.same.sig ▸ hin, hl, ha,
    by rw [hma.same.sig, hasig, hm.same.sig], hb, by rw [hmb.same.sig, hbsig, hm.same.sig]⟩

theorem Bounded.mirror {i o : Node} (hb : Bounded g k first last rest i o) (hsig : l.sig = k.sig)
    (hch : l.children = first' :: last' :: rest') (hfirst : R first first') (hlast : R last last')
    (hinner : ∀ c ∈ rest', (∃ b n, R b c ∧ g.node? b = some n ∧ n.kind ≠ .input ∧ n.kind ≠ .output) ∨
      ∀ m, h.node? c = some m → m.kind ≠ .input ∧ m.kind ≠ .output) : RegionFits h l := by
  obtain ⟨i', hi, hmi⟩ := hR hfirst hb.first
  obtain ⟨o', ho, hmo⟩ := hR hlast hb.last
  refine ⟨first', last', rest', i', o', hch, hi, hmi.same.kind.trans hb.firstKind,
    by rw [hmi.same.sig, hb.firstSig, hsig], ho, hmo.same.kind.trans hb.lastKind,
    by rw [hmo.same.sig, hb.lastSig, hsig], fun c hc m hm => ?_⟩
  rcases hinner c hc with ⟨b, n, hbc, hn, hkind⟩ | hkind
  · obtain ⟨m', hm', hmb⟩ := hR hbc hn
    cases hm.symm.trans hm'
    rw [hmb.same.kind]
    exact hkind
  · exact hkind m hm

end Laws

end Qirc.Graph
