import Mathlib.Order.WellFounded
import Qirc.Proofs.Graph.Edits
import Qirc.Proofs.Graph.Order

/-!
# The laws of a checked graph

The check passes exactly when the walk over the graph finds nothing: every finding is an error, so
the limit of the bag and its order do not matter. What each rule accepts is stated as a law about
nodes, ports and edges, and an arena passes the check exactly when it is lawful.
-/

namespace Qirc

open List

theorem Bag.mem_addAll_of_mem (b : Bag) (ds : List Diagnostic) {d : Diagnostic}
    (h : d ∈ b.items) : d ∈ (b.addAll ds).items := by
  induction ds generalizing b with
  | nil => exact h
  | cons e ds ih =>
    apply ih
    unfold add
    split
    · exact h
    · simp [h]

namespace Graph

variable {g : Graph}

def AllErrors (ds : List Diagnostic) : Prop := ∀ d ∈ ds, d.severity.isError = true

theorem AllErrors.nil : AllErrors [] := by
  simp [AllErrors]

theorem AllErrors.finding (code : Code) (id : NodeId) (text : String) :
    AllErrors [finding code id text] := by
  simp only [AllErrors, mem_singleton, forall_eq]
  rfl

variable {ds es : List Diagnostic}

theorem AllErrors.append (hd : AllErrors ds) (he : AllErrors es) : AllErrors (ds ++ es) := by
  intro d h
  rcases mem_append.1 h with h | h
  · exact hd d h
  · exact he d h

theorem AllErrors.ite {c : Prop} [Decidable c] (hd : AllErrors ds) (he : AllErrors es) :
    AllErrors (if c then ds else es) := by
  split
  · exact hd
  · exact he

theorem AllErrors.filterMap {α : Type} {f : α → Option Diagnostic} (xs : List α)
    (h : ∀ x d, f x = some d → d.severity.isError = true) : AllErrors (xs.filterMap f) := by
  intro d hd
  obtain ⟨x, -, hx⟩ := mem_filterMap.1 hd
  exact h x d hx

variable {cs : List (Except Failure (List Diagnostic))}

theorem gather_allErrors (h : ∀ c ∈ cs, ∀ es, c = .ok es → AllErrors es) (hg : gather cs = .ok ds) :
    AllErrors ds := by
  induction cs generalizing ds with
  | nil =>
    cases hg
    exact .nil
  | cons c cs ih =>
    simp only [gather] at hg
    split at hg
    · cases hg
    split at hg
    · cases hg
    rename_i hm
    cases hg
    exact (h _ (by simp) _ rfl).append (ih (fun c hc => h c (by simp [hc])) hm)

theorem gather_nil_iff : gather cs = .ok [] ↔ ∀ c ∈ cs, c = .ok [] := by
  induction cs with
  | nil => simp [gather]
  | cons c cs ih =>
    simp only [gather]
    constructor
    · intro h
      split at h
      · cases h
      split at h
      · cases h
      rename_i hm
      simp only [Except.ok.injEq, append_eq_nil_iff] at h
      obtain ⟨rfl, rfl⟩ := h
      simpa using ih.1 hm
    · intro h
      rw [h c (by simp), ih.2 fun d hd => h d (by simp [hd])]
      rfl

theorem childFindings_allErrors (n : Node) : AllErrors (g.childFindings n) := by
  apply AllErrors.filterMap
  intro c d h
  dsimp only at h
  split at h
  · cases h
  cases h
  rfl

theorem boundaryFindings_allErrors (id : NodeId) (n : Node) :
    AllErrors (g.boundaryFindings id n).1 := by
  unfold boundaryFindings
  split
  · split
    · exact .finding _ _ _
    refine .append (.append (.ite .nil (.finding _ _ _)) (.ite .nil (.finding _ _ _))) ?_
    apply AllErrors.filterMap
    intro c d h
    dsimp only at h
    split at h
    · cases h
      rfl
    · cases h
  · exact .finding _ _ _

variable {id : NodeId} {n : Node}

theorem regionFindings_allErrors (h : g.regionFindings id n = .ok ds) : AllErrors ds := by
  have hb := boundaryFindings_allErrors (g := g) id n
  unfold regionFindings at h
  simp only at h
  split at h
  · split at h
    · cases h
      exact hb
    · cases h
      exact hb.append (.finding _ _ _)
    · cases h
  · cases h
    exact hb

theorem callFindings_allErrors (id : NodeId) (n : Node) : AllErrors (g.callFindings id n) := by
  unfold callFindings
  split
  · split
    · exact .finding _ _ _
    · exact .ite .nil (.finding _ _ _)
  · exact .finding _ _ _

theorem constFindings_allErrors (id : NodeId) (n : Node) : AllErrors (constFindings id n) := by
  exact .append (.ite .nil (.finding _ _ _)) (.ite .nil (.finding _ _ _))

theorem conditionalFindings_allErrors (id : NodeId) (n : Node) :
    AllErrors (g.conditionalFindings id n) := by
  unfold conditionalFindings
  split
  · split
    · exact .finding _ _ _
    apply AllErrors.filterMap
    intro c d h
    split at h
    · cases h
    cases h
    rfl
  · exact .finding _ _ _

theorem inputFindings_allErrors {i : Nat} (h : g.inputFindings id n i = .ok ds) : AllErrors ds := by
  unfold inputFindings at h
  split at h
  · cases h
    exact .finding _ _ _
  split at h
  · cases h
    exact .finding _ _ _
  simp only at h
  split at h
  · cases h
    exact .append (.ite .nil (.finding _ _ _)) (.ite .nil (.finding _ _ _))
  · cases h

theorem outputFindings_allErrors {i : Nat} (h : g.outputFindings id n i = .ok ds) :
    AllErrors ds := by
  unfold outputFindings at h
  split at h
  · cases h
  cases h
  exact .ite (.finding _ _ _) .nil

theorem nodeFindings_allErrors (h : g.nodeFindings id n = .ok ds) : AllErrors ds := by
  apply gather_allErrors _ h
  intro c hc es he
  simp only [mem_append, mem_cons, not_mem_nil, or_false] at hc
  obtain (rfl | rfl | rfl) | hc := hc
  · cases he
    exact childFindings_allErrors n
  · split at he
    · exact regionFindings_allErrors he
    cases he
    exact .nil
  · cases he
    split
    · exact callFindings_allErrors id n
    · exact constFindings_allErrors id n
    · exact conditionalFindings_allErrors id n
    · exact .nil
  · split at hc
    · rcases mem_append.1 hc with hc | hc
      · obtain ⟨i, -, rfl⟩ := mem_map.1 hc
        exact inputFindings_allErrors he
      · obtain ⟨i, -, rfl⟩ := mem_map.1 hc
        exact outputFindings_allErrors he
    · cases hc

theorem validate_allErrors (h : g.validate = .ok ds) : AllErrors ds := by
  unfold validate at h
  split at h
  · cases h
    exact .finding _ _ _
  apply gather_allErrors _ h
  intro c hc es he
  obtain ⟨id, -, rfl⟩ := mem_map.1 hc
  split at he
  · exact nodeFindings_allErrors he
  cases he
  exact .nil

theorem check_ok_iff : g.check = .ok () ↔ g.validate = .ok [] := by
  unfold check
  cases hv : g.validate with
  | error e => simp [bind, Except.bind]
  | ok ds =>
    cases ds with
    | nil => simp [bind, Except.bind, Bag.hasErrors, Bag.sort, Bag.addAll, Bag.empty]
    | cons d ds =>
      have hd : d ∈ ((Bag.empty 100).addAll (d :: ds)).sort.items := by
        simp only [Bag.sort, mem_mergeSort]
        apply Bag.mem_addAll_of_mem ((Bag.empty 100).add d) ds
        simp [Bag.add, Bag.empty]
      have he : ((Bag.empty 100).addAll (d :: ds)).sort.hasErrors = true := by
        simp only [Bag.hasErrors, any_eq_true]
        exact ⟨d, hd, validate_allErrors hv d (by simp)⟩
      simp [bind, Except.bind, he]

/-! ## The laws -/

theorem slotKind_of_node (h : g.node? id = some n) : g.slotKind id = n.kind := by
  simp [slotKind, node?_slot h]

theorem slotSig_of_node (h : g.node? id = some n) : g.slotSig id = n.sig := by
  simp [slotSig, node?_slot h]

/-- The two nodes that a region starts with fit its signature. -/
structure Bounded (g : Graph) (n : Node) (input output : NodeId) (rest : List NodeId)
    (i o : Node) : Prop where
  children : n.children = input :: output :: rest
  first : g.node? input = some i
  firstKind : i.kind = .input
  firstSig : i.sig.outputs = n.sig.inputs
  last : g.node? output = some o
  lastKind : o.kind = .output
  lastSig : o.sig.inputs = n.sig.outputs
  inner : ∀ c ∈ rest, ∀ k, g.node? c = some k → k.kind ≠ .input ∧ k.kind ≠ .output

theorem Bounded.boundary_eq {a z : NodeId} {rest : List NodeId} {i o : Node}
    (hb : Bounded g n a z rest i o) (hn : g.node? id = some n) (hr : n.kind.isRegion = true) :
    g.boundary id = .ok (a, z) := by
  simp [boundary, hn, hr, hb.children, kind?_of_node hb.first, kind?_of_node hb.last, hb.firstKind,
    hb.lastKind]

/-- A region starts with its boundary and holds no other one. -/
def RegionFits (g : Graph) (n : Node) : Prop :=
  ∃ input output rest i o, Bounded g n input output rest i o

def CallFits (g : Graph) (n : Node) : Prop :=
  ∃ callee fn, n.body.callee = some callee ∧ g.node? callee = some fn ∧ fn.kind = .funcDefn ∧
    fn.sig = n.sig

/-- A constant has one output of its own type, which is one that constants have. -/
def ConstFits (n : Node) : Prop :=
  n.sig.outputs = [n.body.const.type] ∧
    n.body.const.type ∈ [ValueType.bool, .int, .float, .string]

/-- A conditional has two cases that take what it takes behind its predicate. -/
def CasesFit (g : Graph) (n : Node) : Prop :=
  ∃ others no yes a b, n.sig.inputs = .bool :: others ∧ n.children = [no, yes] ∧
    g.node? no = some a ∧ a.sig = ⟨others, n.sig.outputs⟩ ∧
    g.node? yes = some b ∧ b.sig = ⟨others, n.sig.outputs⟩

/-- What the check asks for: boundaries, calls, constants and conditionals that fit, an edge into
every input port, one edge out of every port that carries a qubit, and no circle of edges. -/
structure Lawful (g : Graph) : Prop where
  region : ∀ id n, g.node? id = some n → n.kind.isRegion = true → RegionFits g n
  call : ∀ id n, g.node? id = some n → n.kind = .call → CallFits g n
  const : ∀ id n, g.node? id = some n → n.kind = .const → ConstFits n
  conditional : ∀ id n, g.node? id = some n → n.kind = .conditional → CasesFit g n
  fed : ∀ id n, g.node? id = some n → ∀ i : Nat, i < n.inputCount → ∃ src, ⟨src, ⟨id, i⟩⟩ ∈ g.edges
  linear : ∀ id n, g.node? id = some n → ∀ i : Nat, i < n.outputCount →
    n.sig.outputs[i]? = some .qubit → ∃! d, ⟨⟨id, i⟩, d⟩ ∈ g.edges
  acyclic : WellFounded g.Feeds

theorem typeAt?_natCast (ts : List ValueType) (i : Nat) : typeAt? ts i = ts[i]? := by
  simp [typeAt?]

variable {e : Edge}

theorem Arena.source_lt (ha : g.Arena) (he : e ∈ g.edges) : e.src.node < g.nodes.size := by
  obtain ⟨s, t, hfit⟩ := ha.edge e he
  exact node?_lt hfit.source

theorem Arena.target_lt (ha : g.Arena) (he : e ∈ g.edges) : e.dst.node < g.nodes.size := by
  obtain ⟨s, t, hfit⟩ := ha.edge e he
  exact node?_lt hfit.target

theorem Lawful.not_self (hl : g.Lawful) (he : e ∈ g.edges) : e.src.node ≠ e.dst.node := by
  intro heq
  have hself : g.Feeds e.src.node e.src.node := ⟨e, he, rfl, heq.symm⟩
  exact hl.acyclic.irrefl.irrefl _ hself

theorem Arena.edges_nodup (ha : g.Arena) : g.edges.Nodup := .of_map _ ha.single

/-- Edges that have nothing but their start in common end at different ports, so that to count them
is to count the ends. -/
theorem Arena.one_edge_iff (ha : g.Arena) {p : Port} :
    (g.edges.filter fun e => e.src == p).length = 1 ↔ ∃! d, ⟨p, d⟩ ∈ g.edges := by
  have hmem : ∀ e, e ∈ g.edges.filter (fun e => e.src == p) ↔ e ∈ g.edges ∧ e.src = p := by
    simp
  have hnodup := ha.edges_nodup.filter fun e => e.src == p
  rw [length_eq_one_iff]
  constructor
  · rintro ⟨⟨src, d⟩, he⟩
    simp only [he, mem_singleton] at hmem
    obtain ⟨hd, rfl⟩ := (hmem ⟨src, d⟩).1 rfl
    refine ⟨d, hd, fun d' hd' => ?_⟩
    cases (hmem ⟨src, d'⟩).2 ⟨hd', rfl⟩
    rfl
  · rintro ⟨d, hd, huniq⟩
    refine ⟨⟨p, d⟩, perm_singleton.1
      ((perm_ext_iff_of_nodup hnodup (nodup_singleton _)).2 fun e => ?_)⟩
    rw [hmem, mem_singleton]
    constructor
    · rintro ⟨he, rfl⟩
      rw [← huniq e.dst he]
    · rintro rfl
      exact ⟨hd, rfl⟩

/-! ## Order without circles -/

variable {id : NodeId} {n : Node}

theorem order_of_acyclic (hwf : WellFounded g.Feeds) (hn : g.node? id = some n)
    (hfit : RegionFits g n) : ∃ ids, g.order id = .ok ids := by
  obtain ⟨input, output, rest, i, o, hb⟩ := hfit
  cases ht : g.takeReady n.children.length n.children with
  | none =>
    obtain ⟨c, -, hc⟩ := takeReady_circle (Nat.le_refl _) ht
    exact absurd hc (hwf.transGen.irrefl.irrefl c)
  | some ids =>
    unfold order
    simp only [hn, ht]
    rw [hb.children]
    split
    · exact ⟨_, rfl⟩
    · exact ⟨_, rfl⟩

theorem Arena.region_of_ports (ha : g.Arena) {c : NodeId} {k : Node} (hk : g.node? c = some k)
    (hp : k.kind.hasPorts = true) : ∃ r n, HangsFrom g c k r n ∧ n.kind.isRegion = true := by
  have hroot : c ≠ root := ha.ne_root hk fun hkind => by
    rw [hkind] at hp
    cases hp
  obtain ⟨r, n, hh⟩ := ha.hangs c k hk hroot
  refine ⟨r, n, hh, ?_⟩
  have hallowed := hh.allowed
  cases hn : n.kind <;> simp only [hn, NodeKind.mayHold, beq_iff_eq] at hallowed
  case module => rw [hallowed] at hp; cases hp
  case conditional => rw [hallowed] at hp; cases hp
  case funcDefn | dfg | case => rfl
  all_goals cases hallowed

theorem Arena.hasPorts_of_output (ha : g.Arena) {c : NodeId} {k : Node} (hk : g.node? c = some k)
    {i : Nat} (hi : i < k.outputCount) : k.kind.hasPorts = true := by
  rw [ha.outputs c k hk] at hi
  split at hi
  · assumption
  · exact absurd hi (Nat.not_lt_zero i)

theorem EdgeFits.hasPorts (ha : g.Arena) {s t : Node} (hfit : EdgeFits g e s t) :
    s.kind.hasPorts = true := by
  obtain ⟨i, hi, -⟩ := natCast_index hfit.output
  exact ha.hasPorts_of_output hfit.source hi

theorem acyclic_of_orders (ha : g.Arena)
    (hord : ∀ id n, g.node? id = some n → n.kind.isRegion = true → ∃ ids, g.order id = .ok ids) :
    WellFounded g.Feeds := by
  refine ⟨fun b => ⟨b, ?_⟩⟩
  rintro a ⟨e, he, rfl, rfl⟩
  obtain ⟨s, t, hfit⟩ := ha.edge e he
  obtain ⟨r, n, hh, hr⟩ := ha.region_of_ports hfit.source (hfit.hasPorts ha)
  obtain ⟨ids, hids⟩ := hord r n hh.holder hr
  refine order_induction (P := Acc g.Feeds) hids hh.holder ?_ _ hh.listed
  intro c hc hprod
  exact ⟨c, fun p hp => hprod p hp (ha.feeder_listed hh.holder hc hp)⟩

/-! ## The rules, one by one -/

theorem ite_nil_iff {c : Prop} [Decidable c] {d : Diagnostic} :
    (if c then [] else [d]) = [] ↔ c := by
  split <;> simp_all

theorem ite_none_iff {c : Prop} [Decidable c] {d : Diagnostic} :
    (if c then none else some d) = none ↔ c := by
  split <;> simp_all

theorem callFindings_nil_iff : g.callFindings id n = [] ↔ CallFits g n := by
  unfold callFindings CallFits
  cases n.body.callee with
  | none => simp
  | some callee =>
    cases hfn : g.node? callee with
    | none => simp [hfn]
    | some fn => by_cases hk : fn.kind = .funcDefn <;> simp [hfn, hk]

theorem constFindings_nil_iff : constFindings id n = [] ↔ ConstFits n := by
  simp only [constFindings, ConstFits, append_eq_nil_iff, ite_nil_iff, contains_iff_mem]

section Rules

variable (ha : g.Arena) {id : NodeId} {n : Node} (hn : g.node? id = some n) {i : Nat}
include ha hn

theorem childFindings_nil : g.childFindings n = [] := by
  apply filterMap_eq_nil_iff.2
  intro c hc
  obtain ⟨k, hh⟩ := ha.child id n c hn hc
  simp [slotKind_of_node hh.node, hh.allowed]

theorem conditionalFindings_nil_iff : g.conditionalFindings id n = [] ↔ CasesFit g n := by
  constructor
  · intro h
    unfold conditionalFindings at h
    split at h
    · rename_i others hin
      split at h
      · cases h
      rename_i hlen
      obtain ⟨no, yes, hch⟩ := length_eq_two.1 (Decidable.not_not.1 hlen)
      obtain ⟨a, hA⟩ := ha.child id n no hn (by simp [hch])
      obtain ⟨b, hB⟩ := ha.child id n yes hn (by simp [hch])
      simp only [hch, filterMap_eq_nil_iff, forall_mem_cons, slotSig_of_node hA.node,
        slotSig_of_node hB.node, ite_none_iff] at h
      exact ⟨others, no, yes, a, b, hin, hch, hA.node, h.1, hB.node, h.2.1⟩
    · cases h
  · rintro ⟨others, no, yes, a, b, hin, hch, hno, hasig, hyes, hbsig⟩
    simp [conditionalFindings, hin, hch, slotSig_of_node hno, slotSig_of_node hyes, hasig, hbsig]

theorem boundaryFindings_nil_iff : g.boundaryFindings id n = ([], true) ↔ RegionFits g n := by
  constructor
  · intro h
    unfold boundaryFindings at h
    split at h
    · rename_i input output rest hch
      obtain ⟨i, hi⟩ := ha.child id n input hn (by simp [hch])
      obtain ⟨o, ho⟩ := ha.child id n output hn (by simp [hch])
      rw [slotKind_of_node hi.node, slotKind_of_node ho.node, slotSig_of_node hi.node,
        slotSig_of_node ho.node] at h
      split at h
      · simp at h
      rename_i hkinds
      simp only [ne_eq, not_or, Decidable.not_not] at hkinds
      simp only [Prod.mk.injEq, append_eq_nil_iff, ite_nil_iff, filterMap_eq_nil_iff, and_true] at h
      obtain ⟨⟨hin, hout⟩, hrest⟩ := h
      refine ⟨input, output, rest, i, o, hch, hi.node, hkinds.1, hin, ho.node, hkinds.2, hout, ?_⟩
      intro c hcr k hk
      simpa [slotKind_of_node hk] using hrest c hcr
    · simp at h
  · rintro ⟨input, output, rest, i, o, hb⟩
    have hinner : ∀ c ∈ rest, g.slotKind c ≠ .input ∧ g.slotKind c ≠ .output := by
      intro c hc
      obtain ⟨k, hh⟩ := ha.child id n c hn (by simp [hb.children, hc])
      rw [slotKind_of_node hh.node]
      exact hb.inner c hc k hh.node
    simpa [boundaryFindings, hb.children, slotKind_of_node hb.first, slotKind_of_node hb.last,
      slotSig_of_node hb.first, slotSig_of_node hb.last, hb.firstKind, hb.lastKind, hb.firstSig,
      hb.lastSig, filterMap_eq_nil_iff] using hinner

theorem regionFindings_nil_iff :
    g.regionFindings id n = .ok [] ↔ RegionFits g n ∧ ∃ ids, g.order id = .ok ids := by
  rw [← boundaryFindings_nil_iff ha hn]
  unfold regionFindings
  cases hb : g.boundaryFindings id n with
  | mk found bounded =>
    cases bounded with
    | true => cases g.order id with
      | ok ids => simp
      | error e => cases e <;> simp
    | false =>
      -- where the boundary is missing, that is a finding
      have hfound : found ≠ [] := by
        rintro rfl
        unfold boundaryFindings at hb
        split at hb
        · split at hb <;> simp at hb
        · simp at hb
      simp [hfound]

theorem inputFindings_nil_iff : g.inputFindings id n i = .ok [] ↔ ∃ src, ⟨src, id, i⟩ ∈ g.edges := by
  simp only [← feeder?_eq_some_iff ha]
  unfold inputFindings
  cases hsrc : g.feeder? ⟨id, i⟩ with
  | none => simp
  | some src =>
    obtain ⟨s, t, hfit⟩ := ha.edge _ ((feeder?_eq_some_iff ha).1 hsrc)
    cases hn.symm.trans hfit.target
    obtain ⟨a, hsa⟩ := hfit.typed ha
    have htype := hfit.type
    rw [typeAt?_natCast] at htype
    have hat : n.sig.inputs[i]? = some a := by rw [← htype, hsa]
    simp [hfit.source, hfit.siblings, hsa, hat]

theorem outputFindings_nil_iff (hi : i < n.outputCount) : g.outputFindings id n i = .ok [] ↔
    (n.sig.outputs[i]? = some .qubit → ∃! d, ⟨⟨id, i⟩, d⟩ ∈ g.edges) := by
  have hcount := ha.outputs id n hn
  rw [ha.hasPorts_of_output hn hi, if_pos rfl] at hcount
  have hat : n.sig.outputs[i]? = some n.sig.outputs[i] := getElem?_eq_getElem (hcount ▸ hi)
  rw [← ha.one_edge_iff]
  simp [outputFindings, hat, ValueType.isLinear]

theorem nodeFindings_nil_iff : g.nodeFindings id n = .ok [] ↔
    (n.kind.isRegion = true → RegionFits g n ∧ ∃ ids, g.order id = .ok ids) ∧
    (n.kind = .call → CallFits g n) ∧ (n.kind = .const → ConstFits n) ∧
    (n.kind = .conditional → CasesFit g n) ∧
    (∀ i : Nat, i < n.inputCount → ∃ src, ⟨src, id, i⟩ ∈ g.edges) ∧
    ∀ i : Nat, i < n.outputCount → n.sig.outputs[i]? = some .qubit → ∃! d, ⟨⟨id, i⟩, d⟩ ∈ g.edges := by
  have hregion : (if n.kind.isRegion = true then g.regionFindings id n else .ok []) = .ok [] ↔
      (n.kind.isRegion = true → RegionFits g n ∧ ∃ ids, g.order id = .ok ids) := by
    by_cases hr : n.kind.isRegion = true <;> simp [hr, regionFindings_nil_iff ha hn]
  have hports : (∀ c ∈ if n.kind.hasPorts = true then
      (range n.inputCount).map (g.inputFindings id n) ++
        (range n.outputCount).map (g.outputFindings id n) else [], c = .ok []) ↔
      (∀ i : Nat, i < n.inputCount → ∃ src, ⟨src, id, i⟩ ∈ g.edges) ∧
      ∀ i : Nat, i < n.outputCount → n.sig.outputs[i]? = some .qubit →
        ∃! d, ⟨⟨id, i⟩, d⟩ ∈ g.edges := by
    by_cases hp : n.kind.hasPorts = true
    · simp only [hp, if_true, forall_mem_append, forall_mem_map, mem_range]
      exact and_congr (forall₂_congr fun i _ => inputFindings_nil_iff ha hn)
        (forall₂_congr fun i hi => outputFindings_nil_iff ha hn hi)
    · simp [hp, ha.inputs id n hn, ha.outputs id n hn]
  rw [nodeFindings, gather_nil_iff, forall_mem_append, hports]
  simp only [forall_mem_cons, not_mem_nil, false_implies, implies_true, and_true,
    childFindings_nil ha hn, true_and, hregion, Except.ok.injEq, and_assoc]
  refine and_congr_right' ?_
  cases n.kind <;> simp [callFindings_nil_iff, constFindings_nil_iff,
    conditionalFindings_nil_iff ha hn]

end Rules

theorem check_ok_iff_lawful (ha : g.Arena) : g.check = .ok () ↔ Lawful g := by
  have hnodes : g.check = .ok () ↔ ∀ id n, g.node? id = some n → g.nodeFindings id n = .ok [] := by
    obtain ⟨m, hm, hkind, -⟩ := ha.top
    rw [check_ok_iff, validate, if_neg (by rw [kind?_of_node hm, hkind]; simp), gather_nil_iff,
      forall_mem_map]
    constructor
    · intro h id n hn
      simpa [hn] using h id (mem_walk_root ha hn)
    · intro h id _
      cases hn : g.node? id with
      | none => rfl
      | some n => exact h id n hn
  rw [hnodes]
  constructor
  · intro h
    have hall := fun id n hn => (nodeFindings_nil_iff ha hn).1 (h id n hn)
    exact {
      region := fun id n hn hr => ((hall id n hn).1 hr).1
      call := fun id n hn => (hall id n hn).2.1
      const := fun id n hn => (hall id n hn).2.2.1
      conditional := fun id n hn => (hall id n hn).2.2.2.1
      fed := fun id n hn => (hall id n hn).2.2.2.2.1
      linear := fun id n hn => (hall id n hn).2.2.2.2.2
      acyclic := acyclic_of_orders ha fun id n hn hr => ((hall id n hn).1 hr).2 }
  · intro hl id n hn
    exact (nodeFindings_nil_iff ha hn).2 ⟨fun hr => ⟨hl.region id n hn hr,
      order_of_acyclic hl.acyclic hn (hl.region id n hn hr)⟩, hl.call id n hn, hl.const id n hn,
      hl.conditional id n hn, hl.fed id n hn, hl.linear id n hn⟩

theorem lawful_of_check (ha : g.Arena) (hc : g.check = .ok ()) : Lawful g :=
  (check_ok_iff_lawful ha).1 hc

end Graph

end Qirc
