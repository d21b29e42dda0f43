import Qirc.Proofs.Graph.Edits

/-!
# Graphs in another numbering

The numbers of the nodes say where they lie in the arena and nothing else. A graph in which the live
nodes of another one have other numbers, and its edges another order, is an image of it.
-/

namespace Qirc

open List

def Node.renumber (σ : NodeId → NodeId) (n : Node) : Node :=
  { n with
    body := { n.body with callee := n.body.callee.map σ }
    parent := n.parent.map σ
    children := n.children.map σ }

def Node.revise (ν : NodeBody → NodeBody) (n : Node) : Node := { n with body := ν n.body }

def Port.renumber (σ : NodeId → NodeId) (p : Port) : Port := ⟨σ p.node, p.index⟩

theorem Port.renumber_injective {σ : NodeId → NodeId} {p q : Port}
    (hσ : σ p.node = σ q.node → p.node = q.node) (heq : p.renumber σ = q.renumber σ) : p = q := by
  obtain ⟨x, i⟩ := p
  obtain ⟨y, j⟩ := q
  simp only [Port.renumber, Port.mk.injEq] at heq
  obtain rfl : x = y := hσ heq.1
  rw [heq.2]

def Edge.renumber (σ : NodeId → NodeId) (e : Edge) : Edge := ⟨e.src.renumber σ, e.dst.renumber σ⟩

namespace Graph

variable {g h : Graph} {σ : NodeId → NodeId} {ν : NodeBody → NodeBody} {x : NodeId} {n : Node}

/-- The live nodes of `h` are those of `g` under the numbers that `σ` gives them, with revised
bodies, and are joined by the same edges. -/
structure Image (σ : NodeId → NodeId) (ν : NodeBody → NodeBody) (g h : Graph) : Prop where
  root : σ root = root
  node : ∀ x n, g.node? x = some n → h.node? (σ x) = some ((n.revise ν).renumber σ)
  onto : ∀ y m, h.node? y = some m → ∃ x n, g.node? x = some n ∧ σ x = y
  injective : ∀ x y n m, g.node? x = some n → g.node? y = some m → σ x = σ y → x = y
  edges : h.edges.Perm (g.edges.map (·.renumber σ))

namespace Image

variable (hi : Image σ ν g h)

include hi

theorem walkFrom (ha : g.Arena) (hn : g.node? x = some n) (depth : Nat) :
    h.walkFrom depth (σ x) = (g.walkFrom depth x).map σ := by
  induction depth generalizing x n with
  | zero => rfl
  | succ depth ih =>
    simp only [Graph.walkFrom, hi.node x n hn, hn, map_cons, cons.injEq, true_and]
    have hchildren : ((n.revise ν).renumber σ).children = n.children.map σ := rfl
    rw [hchildren, flatMap_map, map_flatMap]
    refine flatMap_congr fun c hc => ?_
    obtain ⟨k, hh⟩ := ha.child x n c hn hc
    exact ih hh.node

theorem walk (ha : g.Arena) (hh : h.Arena) : h.walk Graph.root = (g.walk Graph.root).map σ := by
  obtain ⟨n, hn, -⟩ := ha.top
  have hdepth : h.walk Graph.root = h.walkFrom (g.nodes.size + h.nodes.size) Graph.root :=
    walkFrom_stable hh (by omega) (by omega)
  have hdepth' : g.walk Graph.root = g.walkFrom (g.nodes.size + h.nodes.size) Graph.root :=
    walkFrom_stable ha (by omega) (by omega)
  have hwalk := hi.walkFrom ha hn (g.nodes.size + h.nodes.size)
  rw [hi.root] at hwalk
  rw [hdepth, hdepth', hwalk]

theorem port_injective {p q : Port} {m : Node} (hp : g.node? p.node = some n)
    (hq : g.node? q.node = some m) (heq : p.renumber σ = q.renumber σ) : p = q :=
  Port.renumber_injective (hi.injective _ _ n m hp hq) heq

theorem source? (ha : g.Arena) (hh : h.Arena) {p : Port} (hn : g.node? p.node = some n) :
    h.source? (p.renumber σ) = (g.source? p).map (·.renumber σ) := by
  refine Option.ext fun q => ?_
  rw [source?_eq_some_iff hh, Option.map_eq_some_iff]
  constructor
  · intro he
    obtain ⟨e, he', heq⟩ := mem_map.1 (hi.edges.mem_iff.1 he)
    obtain ⟨s, t, hfit⟩ := ha.edge e he'
    have hdst : e.dst = p := hi.port_injective hfit.target hn (congrArg (·.dst) heq)
    exact ⟨e.src, (source?_eq_some_iff ha).2 (hdst ▸ he'), congrArg (·.src) heq⟩
  · rintro ⟨src, hsrc, rfl⟩
    have he := (source?_eq_some_iff ha).1 hsrc
    exact hi.edges.mem_iff.2 (mem_map.2 ⟨⟨src, p⟩, he, rfl⟩)

end Image

end Graph

end Qirc
