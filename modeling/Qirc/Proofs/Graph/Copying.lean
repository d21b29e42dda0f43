import Mathlib.Data.List.Forall2
import Qirc.Graph.Inlining
import Qirc.Proofs.Graph.Edits
import Qirc.Proofs.Step

/-!
# Copies of subtrees

A copied subtree has one fresh node for each old one. The fresh nodes stand to one another as the
old ones do, and nothing else in the arena changes but the list of children they were put in.
-/

namespace Qirc.Graph

open List Step

/-- A fresh node with the body of an old one and a fresh child for each of its children. -/
structure Twin (g h : Graph) (made : NodeMap) (a b : NodeId) (k l : Node) : Prop where
  old : g.node? a = some k
  new : h.node? b = some l
  body : l.body = k.body.settleCallee
  children : Forall₂ (fun c t => (c, t) ∈ made ∧ h.parent? t = some b) k.children l.children

/-- Copies of the subtrees at `cs`, with their tops in `q`, are numbered from `base` on. -/
structure Copies (g h : Graph) (base : Nat) (q : NodeId) (cs tops : List NodeId) (made : NodeMap) :
    Prop where
  size : h.nodes.size = base + made.length
  numbered : made.map (·.2) = range' base made.length
  roots : Forall₂ (fun c t => (c, t) ∈ made ∧ h.parent? t = some q) cs tops
  twins : ∀ a b, (a, b) ∈ made → ∃ k l, Twin g h made a b k l
  keys : ∀ x, x ∈ made.map (·.1) ↔ (∃ n, g.node? x = some n) ∧ ∃ c ∈ cs, x = c ∨ Under g c x
  once : (made.map (·.1)).Nodup

/-- What it means to have copied the subtrees at `cs` below `q`, on the way from `h` to `h'`. -/
structure Grafted (g h h' : Graph) (q : NodeId) (cs tops : List NodeId) (made : NodeMap) :
    Prop extends Copies g h' h.nodes.size q cs tops made where
  arena : h'.Arena
  edges : h'.edges = h.edges
  others : ∀ x : Nat, x < h.nodes.size → x ≠ q → h'.slot? x = h.slot? x
  holder : ∀ n, h.node? q = some n → h'.node? q = some { n with children := n.children ++ tops }

structure Copyable (g h : Graph) (q c : NodeId) (k : Node) : Prop where
  node : g.node? c = some k
  same : ∀ x, x = c ∨ Under g c x → h.slot? x = g.slot? x
  apart : ¬(q = c ∨ Under g c q)
  held : ∃ n, h.node? q = some n ∧ n.kind.mayHold k.kind = true

variable {g h h' : Graph} {q : NodeId}

theorem parent?_congr {x : NodeId} (he : h'.slot? x = h.slot? x) : h'.parent? x = h.parent? x := by
  simp [parent?, node?_congr he]

variable {cs tops : List NodeId} {made : NodeMap}

variable {k l : Node}

theorem Twin.keep {made' : NodeMap} {a b : NodeId} (ht : Twin g h made a b k l)
    (hab : (a, b) ∈ made) (hsub : ∀ p ∈ made, p ∈ made')
    (hslot : ∀ p ∈ made, h'.slot? p.2 = h.slot? p.2) : Twin g h' made' a b k l := by
  refine ⟨ht.old, ?_, ht.body, ?_⟩
  · rw [node?_congr (hslot _ hab), ht.new]
  refine ht.children.imp ?_
  rintro c t ⟨hct, hp⟩
  exact ⟨hsub _ hct, by rw [parent?_congr (hslot _ hct), hp]⟩

namespace Copies

variable {base : Nat} {a b : NodeId} (hc : Copies g h base q cs tops made)

include hc

theorem values : (made.map (·.2)).Nodup := by
  rw [hc.numbered]
  exact nodup_range'

theorem mem_values {x : Nat} : (∃ a, (a, x) ∈ made) ↔ base ≤ x ∧ x < h.nodes.size := by
  rw [hc.size, ← mem_range'_1, ← hc.numbered]
  simp

theorem fresh (a b : Nat) (hab : (a, b) ∈ made) : base ≤ b := (hc.mem_values.1 ⟨a, hab⟩).1

theorem covered (x : Nat) : x < base ∨ h.nodes.size ≤ x ∨ ∃ a, (a, x) ∈ made := by
  rw [hc.mem_values]
  omega

theorem eq_of_key {b' : NodeId} (h₁ : (a, b) ∈ made) (h₂ : (a, b') ∈ made) : b = b' := by
  have := inj_on_of_nodup_map hc.once h₁ h₂ rfl
  exact (Prod.mk.inj this).2

theorem eq_of_value {a' : NodeId} (h₁ : (a, b) ∈ made) (h₂ : (a', b) ∈ made) : a = a' := by
  have := inj_on_of_nodup_map hc.values h₁ h₂ rfl
  exact (Prod.mk.inj this).1

theorem mem_of_key {c x : NodeId} {n : Node} (hn : g.node? x = some n) (hcs : c ∈ cs)
    (hx : x = c ∨ Under g c x) : ∃ y, (x, y) ∈ made := by
  obtain ⟨⟨a, b⟩, hab, rfl⟩ := mem_map.1 ((hc.keys x).2 ⟨⟨n, hn⟩, c, hcs, hx⟩)
  exact ⟨b, hab⟩

theorem keep (hsize : h'.nodes.size = h.nodes.size)
    (hslot : ∀ p ∈ made, h'.slot? p.2 = h.slot? p.2) : Copies g h' base q cs tops made := by
  refine ⟨hsize.trans hc.size, hc.numbered, hc.roots.imp ?_, fun a b hab => ?_, hc.keys, hc.once⟩
  · rintro c t ⟨hct, hp⟩
    exact ⟨hct, by rw [parent?_congr (hslot _ hct), hp]⟩
  · obtain ⟨k, l, ht⟩ := hc.twins a b hab
    exact ⟨k, l, ht.keep hab (fun _ hp => hp) hslot⟩

end Copies

theorem Grafted.keeps (hg : Grafted g h h' q cs tops made) : Keeps h h' := by
  intro x n hn
  by_cases hx : x = q
  · subst hx
    exact ⟨_, hg.holder n hn⟩
  · refine ⟨n.children, ?_⟩
    rw [node?_congr (hg.others x (node?_lt hn) hx), hn]

theorem Grafted.nil (ha : h.Arena) : Grafted g h h q [] [] [] where
  arena := ha
  edges := rfl
  size := rfl
  others _ _ _ := rfl
  holder n hn := by simpa using hn
  numbered := rfl
  roots := .nil
  twins a b hab := by simp at hab
  keys x := by simp
  once := nodup_nil

variable {p c : NodeId} {n : Node}

theorem Grafted.cons {h₁ h₂ : Graph} {t : NodeId} {ts : List NodeId} {m₁ m₂ : NodeMap}
    (ha : g.Arena) (hq : h.node? q = some n) (hk : g.node? c = some k) (hp : k.parent = some p)
    (hc : c ∉ cs) (hcs : ∀ d ∈ cs, ∃ l, g.node? d = some l ∧ l.parent = some p)
    (hg₁ : Grafted g h h₁ q [c] [t] m₁) (hg₂ : Grafted g h₁ h₂ q cs ts m₂) :
    Grafted g h h₂ q (c :: cs) (t :: ts) (m₁ ++ m₂) := by
  have hqlt : (q : Nat) < h.nodes.size := node?_lt hq
  have hsize : h.nodes.size ≤ h₁.nodes.size := by
    rw [hg₁.size]
    exact Nat.le_add_right _ _
  have hslot : ∀ e ∈ m₁, h₂.slot? e.2 = h₁.slot? e.2 := by
    rintro ⟨a, b⟩ hab
    obtain ⟨hlo, hhi⟩ := hg₁.mem_values.1 ⟨a, hab⟩
    exact hg₂.others b hhi (Nat.ne_of_gt (Nat.lt_of_lt_of_le hqlt hlo))
  refine ⟨⟨?_, ?_, ?_, ?_, ?_, ?_⟩, hg₂.arena, ?_, ?_, ?_⟩
  · rw [hg₂.size, hg₁.size, length_append, Nat.add_assoc]
  · rw [map_append, hg₁.numbered, hg₂.numbered, hg₁.size, length_append, range'_append_1]
  · obtain ⟨⟨hct, hpt⟩, -⟩ := forall₂_cons.1 hg₁.roots
    refine .cons ⟨mem_append_left _ hct, ?_⟩ (hg₂.roots.imp ?_)
    · rw [parent?_congr (hslot _ hct), hpt]
    rintro d s ⟨hds, hps⟩
    exact ⟨mem_append_right _ hds, hps⟩
  · intro a b hab
    rcases mem_append.1 hab with hab | hab
    · obtain ⟨k, l, ht⟩ := hg₁.twins a b hab
      exact ⟨k, l, ht.keep hab (fun e he => mem_append_left _ he) hslot⟩
    · obtain ⟨k, l, ht⟩ := hg₂.twins a b hab
      exact ⟨k, l, ht.keep hab (fun e he => mem_append_right _ he) fun _ _ => rfl⟩
  · intro x
    rw [map_append, mem_append, hg₁.keys, hg₂.keys]
    simp only [mem_cons, not_mem_nil, or_false]
    constructor
    · rintro (⟨hx, d, rfl, hd⟩ | ⟨hx, d, hd, hdx⟩)
      · exact ⟨hx, d, .inl rfl, hd⟩
      · exact ⟨hx, d, .inr hd, hdx⟩
    · rintro ⟨hx, d, rfl | hd, hdx⟩
      · exact .inl ⟨hx, d, rfl, hdx⟩
      · exact .inr ⟨hx, d, hd, hdx⟩
  · rw [map_append, nodup_append]
    refine ⟨hg₁.once, hg₂.once, ?_⟩
    rintro x hx y hy rfl
    -- siblings have nothing below them in common
    obtain ⟨-, d, hd, hdx⟩ := (hg₁.keys x).1 hx
    obtain ⟨-, e, he, hex⟩ := (hg₂.keys x).1 hy
    rw [mem_singleton] at hd
    subst hd
    obtain ⟨l, hl, hlp⟩ := hcs e he
    have hne : d ≠ e := fun hde => hc (hde ▸ he)
    obtain rfl | hdx := hdx
    · obtain rfl | hex := hex
      · exact hne rfl
      · exact not_under_sibling ha hl hlp hk hp hex
    · obtain rfl | hex := hex
      · exact not_under_sibling ha hk hp hl hlp hdx
      · exact under_siblings_disjoint ha hne hk hp hl hlp hdx hex
  · rw [hg₂.edges, hg₁.edges]
  · intro x hx hne
    rw [hg₂.others x (Nat.lt_of_lt_of_le hx hsize) hne, hg₁.others x hx hne]
  · intro m hm
    rw [hg₂.holder _ (hg₁.holder m hm)]
    simp

theorem Grafted.node (ha : g.Arena) (hk : g.node? c = some k) (hq : h.node? q = some n)
    (hg : Grafted g (h.adopt q k.body) h' h.nodes.size k.children tops made) :
    Grafted g h h' q [c] [h.nodes.size] ((c, h.nodes.size) :: made) := by
  have hqlt : (q : Nat) < h.nodes.size := node?_lt hq
  have hnew := hg.holder _ (adopt_node_new k.body hq)
  refine ⟨⟨?_, ?_, ?_, ?_, ?_, ?_⟩, hg.arena, ?_, ?_, ?_⟩
  · rw [hg.size, adopt_size, length_cons]
    omega
  · rw [map_cons, hg.numbered, adopt_size]
    rfl
  · refine .cons ⟨mem_cons_self, ?_⟩ .nil
    rw [parent?_of_node hnew]
    rfl
  · intro a b hab
    rcases mem_cons.mp hab with he | hab
    · cases he
      refine ⟨k, _, hk, hnew, rfl, ?_⟩
      refine hg.roots.imp ?_
      rintro d t ⟨hdt, hpt⟩
      exact ⟨mem_cons_of_mem _ hdt, hpt⟩
    · obtain ⟨k', l, ht⟩ := hg.twins a b hab
      exact ⟨k', l, ht.keep hab (fun e he => mem_cons_of_mem _ he) (fun _ _ => rfl)⟩
  · intro x
    rw [map_cons, mem_cons, hg.keys]
    simp only [mem_singleton, exists_eq_left]
    constructor
    · rintro (rfl | ⟨hx, d, hd, hdx⟩)
      · exact ⟨⟨k, hk⟩, .inl rfl⟩
      · obtain ⟨l, hh⟩ := ha.child c k d hk hd
        exact ⟨hx, .inr (hh.under hdx)⟩
    · rintro ⟨hx, rfl | hu⟩
      · exact .inl rfl
      · obtain ⟨d, l, hd, hp, hdx⟩ := hu.first_child
        obtain ⟨m, hh⟩ := ha.hangs_of_parent hd hp
        have hm := hh.holder
        rw [hk] at hm
        cases hm
        exact .inr ⟨hx, d, hh.listed, hdx⟩
  · rw [map_cons, nodup_cons]
    refine ⟨?_, hg.once⟩
    intro hc
    obtain ⟨-, d, hd, hdc⟩ := (hg.keys c).mp hc
    obtain ⟨l, hh⟩ := ha.child c k d hk hd
    rcases hdc with rfl | hdc
    · exact Nat.lt_irrefl _ hh.lt
    · exact not_under_child ha hh.node hh.parent hdc
  · rw [hg.edges, adopt_edges]
  · intro x hx hne
    rw [hg.others x (by rw [adopt_size]; omega) (Nat.ne_of_lt hx),
      adopt_slot_other k.body hne (Nat.ne_of_lt hx)]
  · intro m hm
    rw [node?_congr (hg.others q (by rw [adopt_size]; exact Nat.lt_succ_of_lt hqlt) (Nat.ne_of_lt hqlt)),
      adopt_node_parent k.body hm]

theorem Copyable.adopt {d : NodeId} (hsize : g.nodes.size ≤ h.nodes.size) (hc : Copyable g h q c k)
    (hd : HangsFrom g d l c k) : Copyable g (h.adopt q k.body) h.nodes.size d l := by
  obtain ⟨n, hn, -⟩ := hc.held
  have hlt : ∀ x : Nat, (x = d ∨ Under g d x) → x < g.nodes.size := fun x =>
    lt_size_of_under hd.node
  have hup : ∀ x, (x = d ∨ Under g d x) → Under g c x := fun x => hd.under
  refine ⟨hd.node, ?_, ?_, ?_⟩
  · intro x hx
    have hxq : x ≠ q := by
      rintro rfl
      exact hc.apart (.inr (hup x hx))
    rw [adopt_slot_other k.body hxq (Nat.ne_of_lt (Nat.lt_of_lt_of_le (hlt x hx) hsize)),
      hc.same x (.inr (hup x hx))]
  · intro hx
    exact Nat.not_lt_of_le hsize (hlt _ hx)
  · refine ⟨_, adopt_node_new k.body hn, ?_⟩
    simpa [Node.fresh, Node.kind] using hd.allowed

theorem Copyable.grafted (hsize : g.nodes.size ≤ h.nodes.size) (hc : Copyable g h q c k)
    (hg : Grafted g h h' q cs tops made) : Copyable g h' q c k := by
  obtain ⟨n, hn, hm⟩ := hc.held
  refine ⟨hc.node, ?_, hc.apart, _, hg.holder n hn, hm⟩
  intro x hx
  have hxq : x ≠ q := by
    rintro rfl
    exact hc.apart hx
  have hxg := lt_size_of_under hc.node hx
  rw [hg.others x (Nat.lt_of_lt_of_le hxg hsize) hxq, hc.same x hx]

theorem copies_ok (depth : Nat) (ha : g.Arena)
    (hone : ∀ {h : Graph} {c : NodeId} {k : Node}, h.Arena → g.nodes.size ≤ h.nodes.size →
      Copyable g h q c k → g.nodes.size < depth + c → ∃ made h', copyTree depth q c h = .ok made h' ∧
        Grafted g h h' q [c] [h.nodes.size] made)
    (hh : h.Arena) (hsize : g.nodes.size ≤ h.nodes.size) (hnodup : cs.Nodup)
    (hcs : ∀ c ∈ cs, ∃ k, Copyable g h q c k ∧ k.parent = some p ∧ g.nodes.size < depth + c) :
    ∃ made tops h', cs.mapM (copyTree depth q) h = .ok made h' ∧
      Grafted g h h' q cs tops made.flatten := by
  induction cs generalizing h with
  | nil => exact ⟨[], [], h, mapM_nil_ok.2 ⟨rfl, rfl⟩, .nil hh⟩
  | cons c cs ih =>
    rw [nodup_cons] at hnodup
    obtain ⟨k, hc, hp, hd⟩ := hcs c mem_cons_self
    obtain ⟨made₁, h₁, hrun₁, hg₁⟩ := hone hh hsize hc hd
    have hsize₁ : g.nodes.size ≤ h₁.nodes.size := by
      rw [hg₁.size]
      omega
    obtain ⟨made₂, tops, h₂, hrun₂, hg₂⟩ := ih hg₁.arena hsize₁ hnodup.2
      (by
        intro d hdc
        obtain ⟨l, hl, hlp, hld⟩ := hcs d (mem_cons_of_mem _ hdc)
        exact ⟨l, hl.grafted hsize hg₁, hlp, hld⟩)
    obtain ⟨n, hn, -⟩ := hc.held
    refine ⟨made₁ :: made₂, _, h₂, mapM_cons_ok.2 ⟨_, h₁, _, hrun₁, hrun₂, rfl⟩,
      hg₁.cons ha hn hc.node hp hnodup.1 ?_ hg₂⟩
    intro d hdc
    obtain ⟨l, hl, hlp, -⟩ := hcs d (mem_cons_of_mem _ hdc)
    exact ⟨l, hl.node, hlp⟩

theorem copyTree_ok (depth : Nat) (ha : g.Arena) (hh : h.Arena)
    (hsize : g.nodes.size ≤ h.nodes.size) (hc : Copyable g h q c k) (hd : g.nodes.size < depth + c) :
    ∃ made h', copyTree depth q c h = .ok made h' ∧
      Grafted g h h' q [c] [h.nodes.size] made := by
  have hcl : (c : Nat) < g.nodes.size := node?_lt hc.node
  induction depth generalizing h q c k with
  | zero =>
    rw [Nat.zero_add] at hd
    exact absurd hcl (Nat.lt_asymm hd)
  | succ depth ih =>
    obtain ⟨n, hn, hm⟩ := hc.held
    have hslot : h.slot? c = some k := by rw [hc.same c (.inl rfl), node?_slot hc.node]
    have hcq : c ≠ q := fun he => hc.apart (.inl he.symm)
    have hchildren : (h.adopt q k.body).children c = k.children := by
      apply children_of_node
      apply node?_of_slot _ (node?_live hc.node)
      rw [adopt_slot_other k.body hcq (Nat.ne_of_lt (Nat.lt_of_lt_of_le hcl hsize)), hslot]
    obtain ⟨made, tops, h', hrun, hg⟩ := copies_ok depth (p := c) ha
      (fun hh' hsize' hd' hlt => ih hh' hsize' hd' hlt (node?_lt hd'.node))
      (hh.adopt hn hm) (by rw [adopt_size]; omega) (ha.nodup _ _ hc.node)
      (by
        intro d hdk
        obtain ⟨l, hl⟩ := ha.child c k d hc.node hdk
        have hlt := hl.lt
        exact ⟨l, hc.adopt hsize hl, hl.parent, by omega⟩)
    refine ⟨(c, h.nodes.size) :: made.flatten, h', ?_, hg.node ha hc.node hn⟩
    simp only [copyTree, bind_ok]
    refine ⟨h, h, rfl, ?_⟩
    rw [hslot]
    simp only [bind_ok]
    refine ⟨_, _, place_ok hn hm, _, _, rfl, made, h', ?_, rfl⟩
    rw [hchildren, hrun]

theorem mayHold_of_function {a b : NodeKind} (ha : a.mayHold .call = true)
    (hb : NodeKind.mayHold .funcDefn b = true) : a.mayHold b = true := by
  cases a <;> first | exact hb | simp [NodeKind.mayHold] at ha

/-- What a function holds can be copied to where a call stands. -/
theorem copyable_of_call (ha : g.Arena) {call r : Node} (hh : HangsFrom g p call q r)
    (hcall : call.kind = .call) (hk : g.node? c = some k) (hdef : k.kind = .funcDefn)
    (hq : ¬Under g c q) {d : NodeId} (hd : d ∈ k.children) :
    ∃ l, Copyable g g q d l ∧ l.parent = some c := by
  obtain ⟨l, hl⟩ := ha.child c k d hk hd
  refine ⟨l, ⟨hl.node, fun _ _ => rfl, fun hu => hq (hl.under hu), r, hh.holder, ?_⟩, hl.parent⟩
  exact mayHold_of_function (hcall ▸ hh.allowed) (hdef ▸ hl.allowed)

theorem lt_copyDepth (g : Graph) : g.nodes.size < g.copyDepth := by
  unfold copyDepth absentNode
  omega

theorem copyTrees_ok {depth : Nat} (hdepth : g.nodes.size < depth) (ha : g.Arena)
    (hnodup : cs.Nodup) (hcs : ∀ c ∈ cs, ∃ k, Copyable g g q c k ∧ k.parent = some p) :
    ∃ made tops h', copyTrees depth q cs g = .ok made h' ∧ Grafted g g h' q cs tops made := by
  obtain ⟨made, tops, h', hrun, hg⟩ := copies_ok depth ha
    (copyTree_ok _ ha) ha (Nat.le_refl _) hnodup
    (by
      intro c hc
      obtain ⟨k, hk, hkp⟩ := hcs c hc
      exact ⟨k, hk, hkp, by omega⟩)
  exact ⟨made.flatten, tops, h', bind_ok.2 ⟨made, h', hrun, rfl⟩, hg⟩

end Qirc.Graph
