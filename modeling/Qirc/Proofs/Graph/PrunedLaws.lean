import Qirc.Proofs.Graph.Pruning
import Qirc.Proofs.Graph.Selection

/-!
# Pruning keeps a graph lawful

What is removed is closed off: no edge leaves a function, and no call in a function that the entry
reaches names one that it does not reach. The graph in between may hold calls that lead nowhere.
-/

namespace Qirc.Graph

open List

variable {g h : Graph}

section Laws

variable {gone : List NodeId} (ha : g.Arena) (hl : g.Lawful) (hb : Bereft g h gone)
include ha hb

theorem bereft_child {p c : NodeId} {n k : Node} (hn : h.node? p = some n) (hp : p ≠ root)
    (hk : g.node? c = some k) (hparent : k.parent = some p) : h.node? c = some k := by
  have hspared : Spared g gone c := by
    intro f hf
    obtain ⟨hne, hnot⟩ := hb.spared p n hn f hf
    constructor
    · rintro rfl
      obtain ⟨m, hm, hmk⟩ := node_of_kind? (hb.functions c hf)
      obtain ⟨q, hh⟩ := ha.hangs_function hm hmk
      cases hk.symm.trans hm
      exact hp (Option.some.inj (hparent.symm.trans hh.parent))
    · intro hu
      rcases hu.cases_parent hk hparent with heq | hu
      · exact hne heq
      · exact hnot hu
  refine hb.node_kept ha hk ?_ hspared
  rintro rfl
  rw [(ha.root_node hk).2] at hparent
  cases hparent

theorem bereft_node {x : NodeId} {n : Node} (hn : h.node? x = some n) (hk : n.kind ≠ .module) :
    x ≠ root ∧ g.node? x = some n := by
  obtain ⟨m, hm, rfl⟩ := hb.node hn
  have hx : x ≠ root := ha.ne_root hm hk
  exact ⟨hx, by rw [hm, hb.children_kept ha hm hx]⟩

theorem bereft_edge {e : Edge} (he : e ∈ g.edges) {n : Node} (hn : h.node? e.src.node = some n) :
    e ∈ h.edges := by
  obtain ⟨s, t, hfit⟩ := ha.edge e he
  have hmod : n.kind ≠ .module := by
    intro hk
    obtain ⟨m, hm, rfl⟩ := hb.node hn
    cases hm.symm.trans hfit.source
    have hp := hfit.hasPorts ha
    rw [show s.kind = .module from hk] at hp
    cases hp
  obtain ⟨hroot, hs⟩ := bereft_node ha hb hn hmod
  cases hs.symm.trans hfit.source
  obtain ⟨p, m, hh⟩ := hb.arena.hangs _ _ hn hroot
  have hp : p ≠ root := by
    rintro rfl
    have hports := hfit.hasPorts ha
    obtain ⟨r, k, hhg, hr⟩ := ha.region_of_ports hfit.source hports
    cases hhg.parent.symm.trans hh.parent
    rw [(ha.root_node hhg.holder).1] at hr
    cases hr
  have ht := bereft_child ha hb hh.holder hp hfit.target (hfit.siblings.symm.trans hh.parent)
  exact hb.mem_edges.2 ⟨he, t, ht⟩

include hl

theorem bereft_lawful (hclosed : ∀ c n t, h.node? c = some n → n.kind = .call →
    n.body.callee = some t → t ∉ gone) : h.Lawful where
  region x n hn hr := by
    obtain ⟨hx, hg⟩ := bereft_node ha hb hn (by rintro hk; rw [hk] at hr; cases hr)
    obtain ⟨first, last, rest, i, o, hbd⟩ := hl.region x n hg hr
    have hchild : ∀ c ∈ n.children, ∀ k, g.node? c = some k → h.node? c = some k := fun c hc k hk =>
      bereft_child ha hb hn hx hk (ha.parent_of_child hg hc hk)
    refine ⟨first, last, rest, i, o, hbd.children, hchild _ (by simp [hbd.children]) _ hbd.first,
      hbd.firstKind, hbd.firstSig, hchild _ (by simp [hbd.children]) _ hbd.last, hbd.lastKind,
      hbd.lastSig, fun c hc k hk => ?_⟩
    obtain ⟨k', hh⟩ := ha.child x n c hg (by simp [hbd.children, hc])
    cases hk.symm.trans (hchild c (by simp [hbd.children, hc]) k' hh.node)
    exact hbd.inner c hc k hh.node
  call x n hn hk := by
    obtain ⟨-, hg⟩ := bereft_node ha hb hn (by rw [hk]; decide)
    obtain ⟨t, fn, ht, hfn, hfk, hsig⟩ := hl.call x n hg hk
    have hkept := hb.inside ha (by rw [kind?_of_node hfn, hfk]) (hclosed x n t hn hk ht) (.inl rfl)
    exact ⟨t, fn, ht, hkept.trans hfn, hfk, hsig⟩
  const x n hn hk := by
    obtain ⟨-, hg⟩ := bereft_node ha hb hn (by rw [hk]; decide)
    exact hl.const x n hg hk
  conditional x n hn hk := by
    obtain ⟨hx, hg⟩ := bereft_node ha hb hn (by rw [hk]; decide)
    obtain ⟨others, no, yes, a, b, hin, hcs, hno, hasig, hyes, hbsig⟩ := hl.conditional x n hg hk
    have hchild : ∀ c ∈ n.children, ∀ k, g.node? c = some k → h.node? c = some k := fun c hc k hk =>
      bereft_child ha hb hn hx hk (ha.parent_of_child hg hc hk)
    exact ⟨others, no, yes, a, b, hin, hcs, hchild no (by simp [hcs]) a hno, hasig,
      hchild yes (by simp [hcs]) b hyes, hbsig⟩
  fed x n hn i hi := by
    obtain ⟨m, hm, rfl⟩ := hb.node hn
    obtain ⟨src, he⟩ := hl.fed x m hm i hi
    exact ⟨src, hb.mem_edges.2 ⟨he, _, hn⟩⟩
  linear x n hn i hi hq := by
    obtain ⟨m, hm, rfl⟩ := hb.node hn
    obtain ⟨d, hd, huniq⟩ := hl.linear x m hm i hi hq
    exact ⟨d, bereft_edge ha hb hd hn, fun d' hd' => huniq d' (hb.mem_edges.1 hd').1⟩
  acyclic := by
    refine Subrelation.wf ?_ hl.acyclic
    rintro a b ⟨e, he, hsrc, hdst⟩
    exact ⟨e, (hb.mem_edges.1 he).1, hsrc, hdst⟩

end Laws

theorem prune_ok (ha : g.Arena) (hl : g.Lawful) {main : NodeId} (hmain : g.entry = .ok main) :
    ∃ r h, prune g = .ok r h ∧ h.Arena ∧ h.Lawful := by
  obtain ⟨fs, hfs, -, hmem⟩ := ha.functions
  obtain ⟨live, hlive, h, hrun, -, hb⟩ := prune_bereft ha hfs hmain
  have hgone : ∀ {f}, f ∈ (fs.filter (· ∉ live)).reverse ↔ f ∈ fs ∧ f ∉ live := by simp
  refine ⟨_, h, hrun, hb.arena, bereft_lawful ha hl hb fun c n t hn hk ht htgone => ?_⟩
  obtain ⟨hx, hg⟩ := bereft_node ha hb hn (by rw [hk]; decide)
  obtain ⟨f, hfrom⟩ := hl.callFrom ha (by rw [kind?_of_node hg, hk])
  rw [show g.calleeOf c = t by simp [calleeOf, hg, ht]] at hfrom
  -- the caller is left, so it is reached, and so is what it calls
  have hcaller : f ∈ live := by
    by_contra hnot
    exact (hb.spared _ _ hn f (hgone.2 ⟨(hmem f).2 hfrom.caller, hnot⟩)).2 hfrom.inside
  exact (hgone.1 htgone).2 ((hlive t).2 (((hlive f).1 hcaller).tail ⟨c, rfl, hfrom⟩))

end Qirc.Graph
