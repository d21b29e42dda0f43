import Mathlib.Data.List.Nodup
import Qirc.Graph.Edit

/-!
# The arena of a program graph

The live nodes form a tree under the module, and an edge joins two ports of siblings that carry one
type. A node is older than its children, so no chain of parents is longer than the arena.
-/

namespace Qirc.Graph

open List

variable {g : Graph}

structure EdgeFits (g : Graph) (e : Edge) (s t : Node) : Prop where
  source : g.node? e.src.node = some s
  target : g.node? e.dst.node = some t
  siblings : s.parent = t.parent
  output : portInRange e.src.index s.outputCount = true
  input : portInRange e.dst.index t.inputCount = true
  type : typeAt? s.sig.outputs e.src.index = typeAt? t.sig.inputs e.dst.index

structure HangsFrom (g : Graph) (c : NodeId) (k : Node) (p : NodeId) (n : Node) : Prop where
  node : g.node? c = some k
  parent : k.parent = some p
  holder : g.node? p = some n
  listed : c ∈ n.children
  allowed : n.kind.mayHold k.kind = true
  older : p < c

structure Arena (g : Graph) : Prop where
  top : ∃ n, g.node? root = some n ∧ n.kind = .module ∧ n.parent = none
  child : ∀ p n c, g.node? p = some n → c ∈ n.children → ∃ k, HangsFrom g c k p n
  nodup : ∀ p n, g.node? p = some n → n.children.Nodup
  hangs : ∀ c k, g.node? c = some k → c ≠ root → ∃ p n, HangsFrom g c k p n
  inputs : ∀ c k, g.node? c = some k →
    k.inputCount = if k.kind.hasPorts then k.sig.inputs.length else 0
  outputs : ∀ c k, g.node? c = some k →
    k.outputCount = if k.kind.hasPorts then k.sig.outputs.length else 0
  edge : ∀ e ∈ g.edges, ∃ s t, EdgeFits g e s t
  single : (g.edges.map (·.dst)).Nodup

variable {k n : Node}

theorem HangsFrom.lt {c p : Nat} (h : HangsFrom g c k p n) : p < c := h.older

theorem HangsFrom.ne_root {c p : Nat} (h : HangsFrom g c k p n) : c ≠ root := by
  rintro rfl
  exact Nat.not_lt_zero p h.older

theorem not_portInRange_zero (index : Int) : ¬portInRange index 0 = true := by
  simp only [portInRange, Bool.and_eq_true, decide_eq_true_eq]
  omega

theorem node?_lt {id : Nat} (h : g.node? id = some n) : id < g.nodes.size := by
  obtain ⟨hs, -⟩ := Option.filter_eq_some_iff.1 h
  exact (Array.getElem?_eq_some_iff.1 hs).1

theorem slot?_of_size_le {x : Nat} (h : g.nodes.size ≤ x) : g.slot? x = none := by
  simp [slot?, h]

theorem node?_of_size_le {x : Nat} (h : g.nodes.size ≤ x) : g.node? x = none := by
  simp [node?, slot?_of_size_le h]

variable {id : NodeId}

theorem node?_slot (h : g.node? id = some n) : g.slot? id = some n :=
  (Option.filter_eq_some_iff.1 h).1

theorem node?_live (h : g.node? id = some n) : n.live = true :=
  (Option.filter_eq_some_iff.1 h).2

theorem kind?_of_node (h : g.node? id = some n) : g.kind? id = some n.kind := by
  simp [kind?, h]

theorem node_of_kind? {k : NodeKind} (h : g.kind? id = some k) :
    ∃ n, g.node? id = some n ∧ n.kind = k := by
  unfold kind? at h
  simpa using h

variable {x : NodeId}

theorem parent?_of_node (hn : g.node? x = some n) : g.parent? x = n.parent := by
  simp [parent?, hn]

theorem children_of_node (h : g.node? id = some n) : g.children id = n.children := by
  simp [children, h]

theorem find?_key {α β : Type} [BEq β] [LawfulBEq β] {l : List α} {key : α → β} {a : α}
    (hnd : (l.map key).Nodup) (ha : a ∈ l) : l.find? (fun x => key x == key a) = some a := by
  cases hf : l.find? (fun x => key x == key a) with
  | none => simpa using find?_eq_none.1 hf a ha
  | some b =>
    have hb := find?_some hf
    rw [beq_iff_eq] at hb
    rw [inj_on_of_nodup_map hnd (mem_of_find?_eq_some hf) ha hb]

theorem contains_iff : g.contains id = true ↔ ∃ n, g.node? id = some n := by
  rw [contains, Option.isSome_iff_exists]

/-! ## A test -/

def plainNode (kind : NodeKind) (sig : Signature) (parent : Nat) (children : List Nat) : Node :=
  { Node.fresh (NodeBody.ofKind kind sig) (some parent) with children }

def nodeFits (g : Graph) (id : NodeId) (n : Node) : Bool :=
  n.children.all (fun c => (g.node? c).any (fun k =>
    k.parent == some id && n.kind.mayHold k.kind && decide (id < c))) &&
  decide n.children.Nodup &&
  (if id = root then n.kind == .module && n.parent == none
    else n.parent.any (fun p => (g.children p).contains id)) &&
  n.inputCount == (if n.kind.hasPorts then n.sig.inputs.length else 0) &&
  n.outputCount == (if n.kind.hasPorts then n.sig.outputs.length else 0)

def edgeFits (g : Graph) (e : Edge) : Bool :=
  (g.node? e.src.node).any (fun s => (g.node? e.dst.node).any (fun t =>
    s.parent == t.parent && portInRange e.src.index s.outputCount &&
      portInRange e.dst.index t.inputCount &&
      typeAt? s.sig.outputs e.src.index == typeAt? t.sig.inputs e.dst.index))

def isArena (g : Graph) : Bool :=
  (g.node? root).isSome &&
  (range g.nodes.size).all (fun id => (g.node? id).all (g.nodeFits id)) &&
  g.edges.all g.edgeFits && decide (g.edges.map (·.dst)).Nodup

theorem arena_of_isArena (h : g.isArena = true) : g.Arena := by
  simp only [isArena, Bool.and_eq_true, decide_eq_true_eq, all_eq_true] at h
  obtain ⟨⟨⟨htop, hnodes⟩, hedges⟩, hsingle⟩ := h
  have hfits : ∀ id n, g.node? id = some n → g.nodeFits id n = true := by
    intro id n hn
    have := hnodes id (mem_range.2 (node?_lt hn))
    rw [hn] at this
    exact this
  simp only [nodeFits, Bool.and_eq_true, all_eq_true, Option.any_eq_true, beq_iff_eq,
    decide_eq_true_eq] at hfits
  have hchild : ∀ p n c, g.node? p = some n → c ∈ n.children → ∃ k, HangsFrom g c k p n := by
    intro p n c hp hc
    obtain ⟨⟨⟨⟨hch, -⟩, -⟩, -⟩, -⟩ := hfits p n hp
    obtain ⟨k, hk, ⟨hpar, hmay⟩, hlt⟩ := hch c hc
    exact ⟨k, hk, hpar, hp, hc, hmay, hlt⟩
  constructor
  · obtain ⟨n, hn⟩ := Option.isSome_iff_exists.1 htop
    obtain ⟨⟨⟨-, hroot⟩, -⟩, -⟩ := hfits root n hn
    simp only [if_true, Bool.and_eq_true, beq_iff_eq] at hroot
    exact ⟨n, hn, hroot.1, hroot.2⟩
  · exact hchild
  · intro p n hp
    exact (hfits p n hp).1.1.1.2
  · intro c k hk hne
    obtain ⟨⟨⟨-, hpar⟩, -⟩, -⟩ := hfits c k hk
    rw [if_neg hne] at hpar
    simp only [Option.any_eq_true, contains_iff_mem] at hpar
    obtain ⟨p, hp, hlist⟩ := hpar
    cases hn : g.node? p with
    | none => simp [children, hn] at hlist
    | some n =>
      rw [children_of_node hn] at hlist
      obtain ⟨k', hh⟩ := hchild p n c hn hlist
      have hkk := hh.node
      rw [hk] at hkk
      cases hkk
      exact ⟨p, n, hh⟩
  · intro c k hk
    exact (hfits c k hk).1.2
  · intro c k hk
    exact (hfits c k hk).2
  · intro e he
    have := hedges e he
    simp only [edgeFits, Option.any_eq_true, Bool.and_eq_true, beq_iff_eq] at this
    obtain ⟨s, hs, t, ht, ⟨⟨hpar, hout⟩, hin⟩, hty⟩ := this
    exact ⟨s, t, hs, ht, hpar, hout, hin, hty⟩
  · exact hsingle

namespace Arena

variable {k n : Node} {p c : NodeId}

theorem parent_of_child (ha : g.Arena) (hp : g.node? p = some n) (hc : c ∈ n.children)
    (hk : g.node? c = some k) : k.parent = some p := by
  obtain ⟨k', hh⟩ := ha.child p n c hp hc
  have := hh.node
  rw [hk] at this
  cases this
  exact hh.parent

theorem root_node (ha : g.Arena) (h : g.node? root = some n) :
    n.kind = .module ∧ n.parent = none := by
  obtain ⟨m, hm, hn⟩ := ha.top
  rw [h] at hm
  cases hm
  exact hn

theorem ne_root (ha : g.Arena) (hn : g.node? c = some n) (hk : n.kind ≠ .module) : c ≠ root := by
  rintro rfl
  exact hk (ha.root_node hn).1

theorem hangs_of_parent (ha : g.Arena) (hk : g.node? c = some k) (hp : k.parent = some p) :
    ∃ n, HangsFrom g c k p n := by
  have hne : c ≠ root := by
    rintro rfl
    rw [(ha.root_node hk).2] at hp
    cases hp
  obtain ⟨q, n, hh⟩ := ha.hangs c k hk hne
  have := hh.parent
  rw [hp] at this
  cases this
  exact ⟨n, hh⟩

theorem hangs_function (ha : g.Arena) {id : NodeId} (hn : g.node? id = some n)
    (hk : n.kind = .funcDefn) : ∃ m, HangsFrom g id n root m := by
  obtain ⟨p, m, hh⟩ := ha.hangs id n hn (ha.ne_root hn (by rw [hk]; decide))
  have hmodule : m.kind = .module := by
    have := hh.allowed
    rw [hk] at this
    cases hkm : m.kind <;> simp [hkm, NodeKind.mayHold] at this ⊢
  by_cases hp : p = root
  · subst hp
    exact ⟨m, hh⟩
  obtain ⟨q, k, hq⟩ := ha.hangs p m hh.holder hp
  have := hq.allowed
  rw [hmodule] at this
  cases hkq : k.kind <;> simp [hkq, NodeKind.mayHold] at this

end Arena

inductive Under (g : Graph) (r : NodeId) : NodeId → Prop
  | child {c : NodeId} {k : Node} (hk : g.node? c = some k) (hp : k.parent = some r) : Under g r c
  | deeper {c p : NodeId} {k : Node} (hk : g.node? c = some k) (hp : k.parent = some p)
      (h : Under g r p) : Under g r c

variable {c r : NodeId}

theorem Under.cases_parent {p : NodeId} (h : Under g r c) (hk : g.node? c = some k)
    (hp : k.parent = some p) : p = r ∨ Under g r p := by
  cases h with
  | child hk' hp' =>
    rw [hk] at hk'
    cases hk'
    rw [hp] at hp'
    cases hp'
    exact .inl rfl
  | deeper hk' hp' h =>
    rw [hk] at hk'
    cases hk'
    rw [hp] at hp'
    cases hp'
    exact .inr h

theorem Under.node (h : Under g r c) : ∃ k, g.node? c = some k := by
  cases h with
  | child hk _ => exact ⟨_, hk⟩
  | deeper hk _ _ => exact ⟨_, hk⟩

theorem lt_size_of_under {x : Nat} (hr : g.node? r = some n) (hx : x = r ∨ Under g r x) :
    x < g.nodes.size := by
  obtain rfl | hx := hx
  · exact node?_lt hr
  obtain ⟨m, hm⟩ := hx.node
  exact node?_lt hm

theorem Under.lt (ha : g.Arena) {r c : Nat} (h : Under g r c) : r < c := by
  induction h with
  | child hk hp =>
    obtain ⟨n, hh⟩ := ha.hangs_of_parent hk hp
    exact hh.older
  | deeper hk hp _ ih =>
    obtain ⟨n, hh⟩ := ha.hangs_of_parent hk hp
    exact Nat.lt_trans ih hh.older

theorem Under.trans {a b : NodeId} (hab : Under g a b) (hbc : Under g b c) : Under g a c := by
  induction hbc with
  | child hk hp => exact .deeper hk hp hab
  | deeper hk hp _ ih => exact .deeper hk hp ih

/-- A node whose parent is the root of a subtree or in it is in the subtree. -/
theorem Under.of_parent {p : NodeId} (hk : g.node? c = some k) (hp : k.parent = some p)
    (h : p = r ∨ Under g r p) : Under g r c := by
  obtain rfl | h := h
  · exact .child hk hp
  · exact .deeper hk hp h

theorem HangsFrom.under {p : NodeId} (hh : HangsFrom g c k p n) (h : x = c ∨ Under g c x) :
    Under g p x := by
  obtain rfl | h := h
  · exact .child hh.node hh.parent
  · exact (Under.child hh.node hh.parent).trans h

theorem Under.hangs (ha : g.Arena) (h : Under g r c) (hk : g.node? c = some k) :
    ∃ p n, HangsFrom g c k p n ∧ (p = r ∨ Under g r p) := by
  have hroot : c ≠ root := by
    rintro rfl
    exact Nat.not_lt_zero _ (h.lt ha)
  obtain ⟨p, n, hh⟩ := ha.hangs c k hk hroot
  exact ⟨p, n, hh, h.cases_parent hk hh.parent⟩

theorem Under.sibling (ha : g.Arena) {d : NodeId} {l : Node} (h : Under g r c)
    (hk : g.node? c = some k) (hl : g.node? d = some l) (hp : k.parent = l.parent) :
    Under g r d := by
  obtain ⟨p, n, hh, hup⟩ := h.hangs ha hk
  exact .of_parent hl (hp.symm.trans hh.parent) hup

theorem not_under_child (ha : g.Arena) (hk : g.node? c = some k) (hp : k.parent = some r) :
    ¬Under g c r := by
  intro h
  obtain ⟨n, hh⟩ := ha.hangs_of_parent hk hp
  exact Nat.lt_asymm (h.lt ha) hh.older

theorem not_under_sibling (ha : g.Arena) {d : NodeId} {l : Node} (hk : g.node? c = some k)
    (hp : k.parent = some r) (hl : g.node? d = some l) (hq : l.parent = some r) : ¬Under g c d := by
  intro h
  rcases h.cases_parent hl hq with rfl | h
  · obtain ⟨n, hh⟩ := ha.hangs_of_parent hk hp
    exact absurd hh.older (Nat.lt_irrefl _)
  · exact not_under_child ha hk hp h

theorem under_siblings_disjoint (ha : g.Arena) {d : NodeId} {l : Node} (hne : c ≠ d)
    (hk : g.node? c = some k) (hp : k.parent = some r) (hl : g.node? d = some l)
    (hq : l.parent = some r) (hc : Under g c x) (hd : Under g d x) : False := by
  induction hc with
  | child hx hpx =>
    rcases hd.cases_parent hx hpx with rfl | hd'
    · exact hne rfl
    · exact not_under_sibling ha hl hq hk hp hd'
  | deeper hx hpx h ih =>
    rcases hd.cases_parent hx hpx with rfl | hd'
    · exact not_under_sibling ha hk hp hl hq h
    · exact ih hd'

theorem Arena.function_under (ha : g.Arena) (hn : g.node? x = some n) (hk : n.kind = .funcDefn)
    (h : Under g r x) : r = root := by
  obtain ⟨m, hh⟩ := ha.hangs_function hn hk
  rcases h.cases_parent hn hh.parent with hr | hu
  · exact hr.symm
  · exact absurd (hu.lt ha) (Nat.not_lt_zero _)

theorem Arena.function_unique (ha : g.Arena) {f t : NodeId} (hf : g.kind? f = some .funcDefn)
    (ht : g.kind? t = some .funcDefn) (hfx : Under g f x) (htx : Under g t x) : f = t := by
  obtain ⟨n, hn, hnk⟩ := node_of_kind? hf
  obtain ⟨m, hm, hmk⟩ := node_of_kind? ht
  obtain ⟨_, hfh⟩ := ha.hangs_function hn hnk
  obtain ⟨_, hth⟩ := ha.hangs_function hm hmk
  refine Decidable.byContradiction fun hne => ?_
  exact under_siblings_disjoint ha hne hn hfh.parent hm hth.parent hfx htx

/-! ## Edges -/

variable {dst src : Port}

theorem source?_edge (h : g.source? dst = some src) : ⟨src, dst⟩ ∈ g.edges := by
  unfold source? at h
  split at h
  · obtain ⟨e, he, rfl⟩ := Option.map_eq_some_iff.1 h
    have hd := find?_some he
    rw [beq_iff_eq] at hd
    subst hd
    exact mem_of_find?_eq_some he
  · cases h

theorem source?_sibling (ha : g.Arena) (hn : g.node? dst.node = some n)
    (h : g.source? dst = some src) : ∃ s, g.node? src.node = some s ∧ s.parent = n.parent := by
  obtain ⟨s, t, he⟩ := ha.edge _ (source?_edge h)
  have ht := he.target
  rw [hn] at ht
  cases ht
  exact ⟨s, he.source, he.siblings⟩

theorem natCast_index {p : Port} {count : Nat} (h : portInRange p.index count = true) :
    ∃ k : Nat, k < count ∧ p = ⟨p.node, k⟩ := by
  obtain ⟨node, index⟩ := p
  simp only [portInRange, Bool.and_eq_true, decide_eq_true_eq] at h
  refine ⟨index.toNat, by omega, ?_⟩
  simp only [Port.mk.injEq, true_and]
  omega

theorem source?_listed (ha : g.Arena) (hn : g.node? r = some n) (h : g.source? dst = some src)
    (hc : dst.node ∈ n.children) :
    ∃ s, ∃ w : Nat, g.node? src.node = some s ∧ src.node ∈ n.children ∧ w < s.outputCount ∧
      src = ⟨src.node, w⟩ := by
  obtain ⟨s, t, hfit⟩ := ha.edge _ (source?_edge h)
  have hp : s.parent = some r := hfit.siblings.trans (ha.parent_of_child hn hc hfit.target)
  obtain ⟨m, hh⟩ := ha.hangs_of_parent hfit.source hp
  have hm := hh.holder
  rw [hn] at hm
  cases hm
  obtain ⟨w, hw, heq⟩ := natCast_index hfit.output
  exact ⟨s, w, hfit.source, hh.listed, hw, heq⟩

/-! ## Walks -/

variable {depth : Nat}

theorem node_of_mem_walkFrom (h : x ∈ g.walkFrom depth r) : ∃ n, g.node? x = some n := by
  induction depth generalizing r with
  | zero => simp [walkFrom] at h
  | succ depth ih =>
    simp only [walkFrom] at h
    split at h
    · rename_i n hn
      rcases mem_cons.1 h with rfl | h
      · exact ⟨n, hn⟩
      obtain ⟨c, -, hx⟩ := mem_flatMap.1 h
      exact ih hx
    · simp at h

theorem under_of_mem_walkFrom (ha : g.Arena) (h : x ∈ g.walkFrom depth r) :
    x = r ∨ Under g r x := by
  induction depth generalizing r with
  | zero => simp [walkFrom] at h
  | succ depth ih =>
    simp only [walkFrom] at h
    split at h
    · rename_i n hn
      rcases mem_cons.1 h with rfl | h
      · exact .inl rfl
      obtain ⟨c, hc, hx⟩ := mem_flatMap.1 h
      obtain ⟨k, hh⟩ := ha.child r n c hn hc
      exact .inr (hh.under (ih hx))
    · simp at h

theorem Under.first_child (h : Under g r x) :
    ∃ c k, g.node? c = some k ∧ k.parent = some r ∧ (x = c ∨ Under g c x) := by
  induction h with
  | child hk hp => exact ⟨_, _, hk, hp, .inl rfl⟩
  | deeper hk hp _ ih =>
    obtain ⟨c, k, hc, hr, h⟩ := ih
    exact ⟨c, k, hc, hr, .inr (.of_parent hk hp h)⟩

variable (ha : g.Arena)

include ha

theorem mem_walkFrom_of_under {r x : Nat} (h : x = r ∨ Under g r x)
    (hx : ∃ n, g.node? x = some n) (hd : x < depth + r) : x ∈ g.walkFrom depth r := by
  induction depth generalizing r with
  | zero =>
    obtain rfl | h := h
    · omega
    have := h.lt ha
    omega
  | succ depth ih =>
    obtain rfl | h := h
    · obtain ⟨n, hn⟩ := hx
      simp [walkFrom, hn]
    obtain ⟨c, k, hc, hp, hcx⟩ := h.first_child
    obtain ⟨n, hh⟩ := ha.hangs_of_parent hc hp
    have hlt := hh.lt
    simp only [walkFrom, hh.holder, mem_cons, mem_flatMap]
    exact .inr ⟨c, hh.listed, ih hcx (by omega)⟩

theorem walkFrom_stable {depth' r : Nat} (hd : g.nodes.size ≤ depth + r)
    (hd' : g.nodes.size ≤ depth' + r) : g.walkFrom depth r = g.walkFrom depth' r := by
  induction depth generalizing depth' r with
  | zero =>
    have hnone : g.node? r = none := node?_of_size_le (by omega)
    cases depth' <;> simp [walkFrom, hnone]
  | succ depth ih =>
    cases depth' with
    | zero =>
      have hnone : g.node? r = none := node?_of_size_le (by omega)
      simp [walkFrom, hnone]
    | succ depth' =>
      simp only [walkFrom]
      split
      · rename_i n hn
        rw [cons.injEq]
        refine ⟨rfl, ?_⟩
        refine congrArg flatten (map_congr_left ?_)
        intro c hc
        obtain ⟨k, hh⟩ := ha.child r n c hn hc
        have := hh.lt
        exact ih (by omega) (by omega)
      · rfl

theorem mem_walk_iff : x ∈ g.walk r ↔ (∃ n, g.node? x = some n) ∧ (x = r ∨ Under g r x) := by
  constructor
  · intro h
    exact ⟨node_of_mem_walkFrom h, under_of_mem_walkFrom ha h⟩
  rintro ⟨⟨n, hn⟩, h⟩
  have := node?_lt hn
  exact mem_walkFrom_of_under ha h ⟨n, hn⟩ (by omega)

theorem mem_walk_root (h : g.node? x = some n) : x ∈ g.walk root := by
  rw [mem_walk_iff ha]
  refine ⟨⟨n, h⟩, ?_⟩
  induction x using Nat.strongRecOn generalizing n with
  | ind x ih =>
    by_cases hr : x = root
    · exact .inl hr
    obtain ⟨p, m, hh⟩ := ha.hangs x n h hr
    exact .inr (.of_parent h hh.parent (ih p hh.older hh.holder))

theorem walkFrom_nodup (depth r : Nat) : (g.walkFrom depth r).Nodup := by
  induction depth generalizing r with
  | zero => exact nodup_nil
  | succ depth ih =>
    unfold walkFrom
    split
    · rename_i n hn
      have hbelow : ∀ c ∈ n.children, ∀ x ∈ g.walkFrom depth c, Under g r x := by
        intro c hc x hx
        obtain ⟨k, hh⟩ := ha.child r n c hn hc
        exact hh.under (under_of_mem_walkFrom ha hx)
      rw [nodup_cons, nodup_flatMap]
      refine ⟨fun hmem => ?_, fun c _ => ih c, ?_⟩
      · obtain ⟨c, hc, hx⟩ := mem_flatMap.1 hmem
        exact Nat.lt_irrefl r ((hbelow c hc r hx).lt ha)
      refine Pairwise.imp_of_mem ?_ (ha.nodup r n hn)
      intro c d hc hd hne x hxc hxd
      obtain ⟨k, hk⟩ := ha.child r n c hn hc
      obtain ⟨l, hl⟩ := ha.child r n d hn hd
      rcases under_of_mem_walkFrom ha hxc with rfl | huc <;>
        rcases under_of_mem_walkFrom ha hxd with rfl | hud
      · exact hne rfl
      · exact not_under_sibling ha hl.node hl.parent hk.node hk.parent hud
      · exact not_under_sibling ha hk.node hk.parent hl.node hl.parent huc
      · exact under_siblings_disjoint ha hne hk.node hk.parent hl.node hl.parent huc hud
    · exact nodup_nil

theorem not_under_leaf {kind : NodeKind} (hc : g.kind? c = some kind)
    (hleaf : ∀ b, kind.mayHold b = false) : ¬Under g c x := by
  intro hu
  obtain ⟨d, k, hd, hp, -⟩ := hu.first_child
  obtain ⟨m, hh⟩ := ha.hangs_of_parent hd hp
  rw [kind?_of_node hh.holder, Option.some.injEq] at hc
  have hallowed := hh.allowed
  rw [hc, hleaf] at hallowed
  cases hallowed

/-- What is in a region, its boundary apart, is in the nodes behind the boundary. -/
theorem under_behind_boundary {i o : NodeId} {rest : List NodeId} (hr : g.node? r = some n)
    (hch : n.children = i :: o :: rest) (hi : g.kind? i = some .input)
    (ho : g.kind? o = some .output) (hx : Under g r x) (hxi : x ≠ i) (hxo : x ≠ o) :
    ∃ c ∈ rest, x = c ∨ Under g c x := by
  obtain ⟨d, l, hl, hp, hdx⟩ := hx.first_child
  obtain ⟨m, hh⟩ := ha.hangs_of_parent hl hp
  cases hr.symm.trans hh.holder
  have hd := hh.listed
  rw [hch, mem_cons, mem_cons] at hd
  obtain rfl | rfl | hd := hd
  · exact absurd hdx (not_or.2 ⟨hxi, not_under_leaf ha hi fun _ => rfl⟩)
  · exact absurd hdx (not_or.2 ⟨hxo, not_under_leaf ha ho fun _ => rfl⟩)
  · exact ⟨d, hd, hdx⟩

theorem mem_walk_leaf {kind : NodeKind} (hc : g.kind? c = some kind)
    (hleaf : ∀ b, kind.mayHold b = false) : x ∈ g.walk c ↔ x = c := by
  obtain ⟨n, hn, -⟩ := node_of_kind? hc
  rw [mem_walk_iff ha]
  constructor
  · rintro ⟨-, rfl | hu⟩
    · rfl
    · exact absurd hu (not_under_leaf ha hc hleaf)
  · rintro rfl
    exact ⟨⟨n, hn⟩, .inl rfl⟩

end Qirc.Graph
