import Qirc.Proofs.Graph.Lawful

/-!
# The function that a region denotes

Dataflow says what a region gives for its inputs: one value on every port of the region such that
each node turns the values that feed it into those it shows. No order of evaluation is chosen; where
the dataflow has no cycle, the result is unique.
-/

namespace Qirc

open List

/-- A reading of constants as values and of operations as functions. An operation gives one value
for each of its output ports. -/
structure Interpretation (V : Type) where
  const : Payload → V
  op : Operation → Signature → List V → Nat → V
  truth : V → Bool

namespace Graph

/-- Boundary nodes have no ports but those the region needs. -/
structure PlainBoundary (g : Graph) : Prop where
  input : ∀ id n, g.node? id = some n → n.kind = .input → n.inputCount = 0
  output : ∀ id n, g.node? id = some n → n.kind = .output → n.outputCount = 0

def isPlain (g : Graph) : Bool :=
  (List.range g.nodes.size).all (fun id => (g.node? id).all (fun n =>
    (n.kind != .input || n.inputCount == 0) && (n.kind != .output || n.outputCount == 0)))

theorem plainBoundary_of_isPlain {g : Graph} (h : g.isPlain = true) : g.PlainBoundary := by
  have hall : ∀ id n, g.node? id = some n →
      (n.kind = .input → n.inputCount = 0) ∧ (n.kind = .output → n.outputCount = 0) := by
    intro id n hn
    have := all_eq_true.1 h id (mem_range.2 (node?_lt hn))
    simp only [hn, Option.all_some, Bool.and_eq_true, Bool.or_eq_true, bne_iff_ne, beq_iff_eq]
      at this
    exact ⟨fun hk => this.1.resolve_left fun hne => hne hk,
      fun hk => this.2.resolve_left fun hne => hne hk⟩
  exact ⟨fun id n hn => (hall id n hn).1, fun id n hn => (hall id n hn).2⟩

section Definition

variable {V : Type} (g : Graph) (I : Interpretation V)

def Fed (env : Port → V) (id : NodeId) (n : Node) (args : List V) : Prop :=
  args.length = n.inputCount ∧
    ∀ k : Nat, k < n.inputCount → ∃ src, g.source? ⟨id, k⟩ = some src ∧ args[k]? = some (env src)

/-- What a region or a function gives, read off its ports. -/
def Yields (region : NodeId → List V → List V → Prop) (r : NodeId) (args : List V) (count : Nat)
    (out : Nat → V) : Prop :=
  ∃ outs, region r args outs ∧ ∀ k < count, outs[k]? = some (out k)

/-- What a node shows at its outputs, where `region` says what regions and functions give. -/
def Shows (region : NodeId → List V → List V → Prop) (id : NodeId) (n : Node) (args : List V)
    (out : Nat → V) : Prop :=
  match n.kind with
  | .const => ∀ k < n.outputCount, out k = I.const n.body.const
  | .op => ∀ k < n.outputCount, out k = I.op n.body.op n.sig args k
  | .call => ∃ f, n.body.callee = some f ∧ Yields region f args n.outputCount out
  | .dfg => Yields region id args n.outputCount out
  | .conditional => ∃ p rest r, args = p :: rest ∧
      n.children[if I.truth p then 1 else 0]? = some r ∧ Yields region r rest n.outputCount out
  | _ => False

/-- Values for the ports of a region that agree with its dataflow. -/
structure Settles (region : NodeId → List V → List V → Prop) (n : Node) (first last : NodeId)
    (rest : List NodeId) (ins outs : List V) (env : Port → V) : Prop where
  children : n.children = first :: last :: rest
  arity : ins.length = n.sig.inputs.length
  inputs : ∀ k : Nat, k < ins.length → ins[k]? = some (env ⟨first, k⟩)
  inner : ∀ c ∈ rest, ∃ k args, g.node? c = some k ∧ g.Fed env c k args ∧
    Shows I region c k args (fun i => env ⟨c, i⟩)
  output : ∃ o, g.node? last = some o ∧ g.Fed env last o outs

/-- What a region gives when what it contains and calls is unfolded `depth` times. -/
def Runs : Nat → NodeId → List V → List V → Prop
  | 0, _, _, _ => False
  | depth + 1, r, ins, outs => ∃ n first last rest env, g.node? r = some n ∧
      n.kind.isRegion = true ∧ g.Settles I (Runs depth) n first last rest ins outs env

/-- The denotation of a region, as a relation between what flows in and what flows out. -/
def Denotes (r : NodeId) (ins outs : List V) : Prop := ∃ depth, g.Runs I depth r ins outs

end Definition

variable {V : Type} {g : Graph} {I : Interpretation V}
  {region region' : NodeId → List V → List V → Prop}

variable {r : NodeId} {args : List V} {count : Nat} {out : Nat → V}

variable {id : NodeId} {n : Node}

/-! ## Uniqueness -/

theorem Fed.unique {env env' : Port → V} {args' : List V} (h : g.Fed env id n args)
    (h' : g.Fed env' id n args')
    (hagree : ∀ k : Nat, ∀ src, g.source? ⟨id, k⟩ = some src → env src = env' src) :
    args = args' := by
  apply ext_getElem?
  intro k
  by_cases hk : k < n.inputCount
  · obtain ⟨src, hsrc, hv⟩ := h.2 k hk
    obtain ⟨src', hsrc', hv'⟩ := h'.2 k hk
    rw [hsrc] at hsrc'
    cases hsrc'
    rw [hv, hv', hagree k src hsrc]
  · rw [getElem?_eq_none (by rw [h.1]; omega), getElem?_eq_none (by rw [h'.1]; omega)]

section

variable (hr : ∀ r ins outs outs', region r ins outs → region' r ins outs' → outs = outs')

include hr

theorem Yields.unique {out' : Nat → V} (h : Yields region r args count out)
    (h' : Yields region' r args count out') : ∀ k < count, out k = out' k := by
  obtain ⟨outs, hrun, hout⟩ := h
  obtain ⟨outs', hrun', hout'⟩ := h'
  cases hr _ _ _ _ hrun hrun'
  intro k hk
  have hv := hout k hk
  rw [hout' k hk] at hv
  exact (Option.some.inj hv).symm

theorem Shows.unique {out' : Nat → V} (h : Shows I region id n args out)
    (h' : Shows I region' id n args out') : ∀ k < n.outputCount, out k = out' k := by
  cases hk : n.kind <;> simp only [Shows, hk] at h h'
  case op => exact fun k hlt => (h k hlt).trans (h' k hlt).symm
  case const => exact fun k hlt => (h k hlt).trans (h' k hlt).symm
  case dfg => exact h.unique hr h'
  case call =>
    obtain ⟨f, hf, hy⟩ := h
    obtain ⟨f', hf', hy'⟩ := h'
    rw [hf] at hf'
    cases hf'
    exact hy.unique hr hy'
  case conditional =>
    obtain ⟨p, rest, r, rfl, hch, hy⟩ := h
    obtain ⟨p', rest', r', hargs, hch', hy'⟩ := h'
    cases hargs
    rw [hch] at hch'
    cases hch'
    exact hy.unique hr hy'

end

section Unique

variable (ha : g.Arena) (hc : g.check = .ok ()) (hp : g.PlainBoundary)
include ha hc hp

variable {r : NodeId} {ins outs outs' : List V}

theorem Settles.unique
    (hr : ∀ r ins outs outs', region r ins outs → region' r ins outs' → outs = outs') {n : Node}
    (hn : g.node? r = some n) (hreg : n.kind.isRegion = true) {first last first' last' : NodeId}
    {rest rest' : List NodeId} {env env' : Port → V}
    (h : g.Settles I region n first last rest ins outs env)
    (h' : g.Settles I region' n first' last' rest' ins outs' env') : outs = outs' := by
  have hsame := h.children
  rw [h'.children] at hsame
  cases hsame
  have hl := lawful_of_check ha hc
  obtain ⟨input, output, inner, i, o, hb⟩ := hl.region _ _ hn hreg
  have hbch := hb.children
  rw [h.children] at hbch
  cases hbch
  -- along the dataflow, each child shows the same values twice
  have hagree : ∀ c, c ∈ n.children → ∀ k, g.node? c = some k → ∀ j < k.outputCount,
      env ⟨c, j⟩ = env' ⟨c, j⟩ := by
    intro c
    induction c using hl.acyclic.induction
    rename_i c hprod
    intro hcn k hk j hj
    have hsources : ∀ q : Nat, ∀ src, g.source? ⟨c, q⟩ = some src → env src = env' src := by
      intro q src hsrc
      obtain ⟨s, w, hs, hlisted, hw, heq⟩ := source?_listed ha hn hsrc hcn
      rw [heq]
      exact hprod src.node ⟨_, source?_edge hsrc, rfl, rfl⟩ hlisted s hs w hw
    rw [h.children, mem_cons, mem_cons] at hcn
    obtain rfl | rfl | hcr := hcn
    · rw [hb.first] at hk
      cases hk
      have hlen : j < ins.length := by
        rw [h.arity, ← hb.firstSig]
        simpa [ha.outputs _ _ hb.first, hb.firstKind, NodeKind.hasPorts] using hj
      have hv := h.inputs j hlen
      rw [h'.inputs j hlen] at hv
      exact (Option.some.inj hv).symm
    · rw [hb.last] at hk
      cases hk
      rw [hp.output _ _ hb.last hb.lastKind] at hj
      exact absurd hj (Nat.not_lt_zero j)
    · obtain ⟨l, args, hl, hfed, hshow⟩ := h.inner c hcr
      obtain ⟨l', args', hl', hfed', hshow'⟩ := h'.inner c hcr
      rw [hk] at hl hl'
      cases hl
      cases hl'
      cases hfed.unique hfed' hsources
      exact hshow.unique hr hshow' j hj
  obtain ⟨e, he, hfed⟩ := h.output
  obtain ⟨e', he', hfed'⟩ := h'.output
  rw [he] at he'
  cases he'
  apply hfed.unique hfed'
  intro q src hsrc
  obtain ⟨s, w, hs, hlisted, hw, heq⟩ :=
    source?_listed ha hn hsrc (show last ∈ n.children by simp [h.children])
  rw [heq]
  exact hagree src.node hlisted s hs w hw

theorem Runs.unique {depth depth' : Nat} (h : g.Runs I depth r ins outs)
    (h' : g.Runs I depth' r ins outs') : outs = outs' := by
  induction depth generalizing depth' r ins outs outs' with
  | zero => cases h
  | succ depth ih =>
    cases depth' with
    | zero => cases h'
    | succ depth' =>
      obtain ⟨n, first, last, rest, env, hn, hreg, hs⟩ := h
      obtain ⟨n', first', last', rest', env', hn', -, hs'⟩ := h'
      rw [hn] at hn'
      cases hn'
      have hr : ∀ r ins outs outs', g.Runs I depth r ins outs → g.Runs I depth' r ins outs' →
          outs = outs' := fun _ _ _ _ h h' => ih h h'
      exact hs.unique ha hc hp hr hn hreg hs'

theorem Denotes.unique (h : g.Denotes I r ins outs) (h' : g.Denotes I r ins outs') :
    outs = outs' := by
  obtain ⟨depth, h⟩ := h
  obtain ⟨depth', h'⟩ := h'
  exact h.unique ha hc hp h'

end Unique

end Graph

end Qirc
