import Qirc.Graph.Validation
import Qirc.Proofs.Graph.Arena

/-!
# Edits keep the arena

What each edit does to the nodes and to the edges, and that the representation invariant outlasts
it: a new child, a list of children in another order, an edge more or less, a subtree removed.
-/

namespace Qirc.Graph

open List

variable {g : Graph}

/-! ## Slots -/

@[simp] theorem slot?_update (id x : NodeId) (f : Node → Node) :
    (g.update id f).slot? x = if x = id then (g.slot? x).map f else g.slot? x := by
  unfold update slot?
  rw [Array.getElem?_modify]
  by_cases h : x = id
  · simp [h]
  · rw [if_neg h, if_neg fun he => h he.symm]

@[simp] theorem update_edges (id : NodeId) (f : Node → Node) : (g.update id f).edges = g.edges :=
  rfl

@[simp] theorem update_size (id : NodeId) (f : Node → Node) :
    (g.update id f).nodes.size = g.nodes.size := by
  simp [update]

variable {x : NodeId} {n : Node}

theorem node?_of_slot (h : g.slot? x = some n) (hl : n.live = true) : g.node? x = some n := by
  simp [node?, h, hl]

variable {h : Graph}

theorem node?_congr (he : h.slot? x = g.slot? x) : h.node? x = g.node? x := by
  simp [node?, he]

theorem node?_update_children (id x : NodeId) (f : List NodeId → List NodeId) :
    (g.update id fun n => { n with children := f n.children }).node? x =
      (g.node? x).map (fun n => if x = id then { n with children := f n.children } else n) := by
  unfold node?
  rw [slot?_update]
  cases hs : g.slot? x with
  | none => simp
  | some n =>
    by_cases hx : x = id
    · cases hl : n.live with
      | true => simp [hx, Option.filter, hl]
      | false => simp [hx, Option.filter, hl]
    · cases hl : n.live with
      | true => simp [hx, Option.filter, hl]
      | false => simp [hx, Option.filter, hl]

theorem slot?_alloc (body : NodeBody) (p : Option NodeId) (x : NodeId) :
    (g.alloc body p).slot? x =
      if x = g.nodes.size then some (Node.fresh body p) else g.slot? x := by
  unfold alloc slot?
  rw [Array.getElem?_push]

/-! ## What stays of the nodes -/

/-- Every live node lives on; at most its list of children is another. -/
def Keeps (g h : Graph) : Prop :=
  ∀ x n, g.node? x = some n → ∃ cs, h.node? x = some { n with children := cs }

theorem Keeps.trans {k : Graph} (hgh : Keeps g h) (hhk : Keeps h k) : Keeps g k := by
  intro x n hn
  obtain ⟨cs, hx⟩ := hgh x n hn
  obtain ⟨ct, hx'⟩ := hhk x _ hx
  exact ⟨ct, hx'⟩

theorem Keeps.of_nodes (he : h.nodes = g.nodes) : Keeps g h := by
  intro x n hn
  refine ⟨n.children, ?_⟩
  rw [← hn]
  simp [node?, slot?, he]

variable {e : Edge} {s t : Node}

theorem EdgeFits.keep (hk : Keeps g h) (hfit : EdgeFits g e s t) : ∃ s' t', EdgeFits h e s' t' := by
  obtain ⟨cs, hs⟩ := hk _ _ hfit.source
  obtain ⟨ct, ht⟩ := hk _ _ hfit.target
  exact ⟨_, _, hs, ht, hfit.siblings, hfit.output, hfit.input, hfit.type⟩

/-! ## A new child -/

@[simp] theorem settleCallee_kind (body : NodeBody) : body.settleCallee.kind = body.kind := by
  unfold NodeBody.settleCallee
  split <;> rfl

@[simp] theorem settleCallee_sig (body : NodeBody) : body.settleCallee.sig = body.sig := by
  unfold NodeBody.settleCallee
  split <;> rfl

variable {p : NodeId} {body : NodeBody}

theorem refusal?_eq_none :
    g.refusal? p body = none ↔ ∃ n, g.node? p = some n ∧ n.kind.mayHold body.kind = true := by
  unfold refusal?
  cases g.node? p <;> simp

theorem place_ok (hn : g.node? p = some n) (hm : n.kind.mayHold body.kind = true) :
    place p body g = .ok g.nodes.size (g.adopt p body) := by
  simp only [place, refusal?_eq_none.2 ⟨n, hn, hm⟩]

theorem insert?_eq_ok {id : NodeId} (hi : g.insert? p body = .ok (id, h)) :
    id = g.nodes.size ∧ h = g.adopt p body ∧
      ∃ n, g.node? p = some n ∧ n.kind.mayHold body.kind = true := by
  unfold insert? at hi
  split at hi
  · cases hi
  · rename_i hnone
    cases hi
    exact ⟨rfl, rfl, refusal?_eq_none.1 hnone⟩

@[simp] theorem adopt_edges (p : NodeId) (body : NodeBody) : (g.adopt p body).edges = g.edges := rfl

@[simp] theorem adopt_size (p : NodeId) (body : NodeBody) :
    (g.adopt p body).nodes.size = g.nodes.size + 1 := by
  simp [adopt, alloc]

theorem adopt_slot_other (body : NodeBody) (hp : x ≠ p) (hx : x ≠ g.nodes.size) :
    (g.adopt p body).slot? x = g.slot? x := by
  rw [adopt, slot?_update, if_neg hp, slot?_alloc, if_neg hx]

theorem adopt_slot_parent (body : NodeBody) (hn : g.slot? p = some n) :
    (g.adopt p body).slot? p = some { n with children := n.children ++ [g.nodes.size] } := by
  have hp : p ≠ g.nodes.size := by
    rintro rfl
    rw [slot?_of_size_le (Nat.le_refl _)] at hn
    cases hn
  rw [adopt, slot?_update, if_pos rfl, slot?_alloc, if_neg hp, hn]
  rfl

theorem adopt_node_parent (body : NodeBody) (hn : g.node? p = some n) :
    (g.adopt p body).node? p = some { n with children := n.children ++ [g.nodes.size] } :=
  node?_of_slot (adopt_slot_parent body (node?_slot hn))
    (show n.live = true from node?_live hn)

theorem adopt_node_new (body : NodeBody) (hn : g.node? p = some n) :
    (g.adopt p body).node? g.nodes.size = some (Node.fresh body.settleCallee (some p)) := by
  have hp : g.nodes.size ≠ p := Nat.ne_of_gt (node?_lt hn)
  apply node?_of_slot _ rfl
  rw [adopt, slot?_update, if_neg hp, slot?_alloc, if_pos rfl]

/-- A node once a child has been added to `p`. -/
def holding (g : Graph) (p x : NodeId) (k : Node) : Node :=
  { k with children := k.children ++ if x = p then [g.nodes.size] else [] }

theorem adopt_node_old {k : Node} (body : NodeBody) (hn : g.node? p = some n)
    (hk : g.node? x = some k) : (g.adopt p body).node? x = some (g.holding p x k) := by
  by_cases hp : x = p
  · subst hp
    cases hn.symm.trans hk
    rw [adopt_node_parent body hn, holding, if_pos rfl]
  · rw [node?_congr (adopt_slot_other body hp (Nat.ne_of_lt (node?_lt hk))), hk, holding, if_neg hp,
      append_nil]

theorem adopt_node {k : Node} (body : NodeBody) (hk : (g.adopt p body).node? x = some k)
    (hn : g.node? p = some n) :
    (x = g.nodes.size ∧ k = Node.fresh body.settleCallee (some p)) ∨
      ∃ l, g.node? x = some l ∧ k = g.holding p x l := by
  by_cases hx : x = g.nodes.size
  · subst hx
    rw [adopt_node_new body hn] at hk
    exact .inl ⟨rfl, (Option.some.inj hk).symm⟩
  · by_cases hp : x = p
    · subst hp
      rw [adopt_node_old body hn hn] at hk
      exact .inr ⟨n, hn, (Option.some.inj hk).symm⟩
    · rw [node?_congr (adopt_slot_other body hp hx)] at hk
      have hold := adopt_node_old body hn hk
      rw [node?_congr (adopt_slot_other body hp hx), hk] at hold
      exact .inr ⟨k, hk, Option.some.inj hold⟩

theorem adopt_keeps (body : NodeBody) (hn : g.node? p = some n) : Keeps g (g.adopt p body) :=
  fun _ _ hk => ⟨_, adopt_node_old body hn hk⟩

theorem Arena.adopt (ha : g.Arena) (hn : g.node? p = some n) (hm : n.kind.mayHold body.kind = true) :
    (g.adopt p body).Arena := by
  have hold : ∀ {x k}, g.node? x = some k → (g.adopt p body).node? x = some (g.holding p x k) :=
    adopt_node_old body hn
  have hhangs : ∀ {c k q m}, HangsFrom g c k q m →
      HangsFrom (g.adopt p body) c (g.holding p c k) q (g.holding p q m) := fun hh =>
    ⟨hold hh.node, hh.parent, hold hh.holder, mem_append_left _ hh.listed, hh.allowed, hh.older⟩
  have hfresh : HangsFrom (g.adopt p body) g.nodes.size (Node.fresh body.settleCallee (some p)) p
      (g.holding p p n) :=
    ⟨adopt_node_new body hn, rfl, hold hn, by simp [holding],
      by simpa [Node.fresh, Node.kind, holding] using hm, node?_lt hn⟩
  constructor
  · obtain ⟨t, ht, htk, htp⟩ := ha.top
    exact ⟨_, hold ht, htk, htp⟩
  · intro q m c hq hc
    rcases adopt_node body hq hn with ⟨rfl, rfl⟩ | ⟨l, hl, rfl⟩
    · simp [Node.fresh] at hc
    rcases mem_append.1 hc with hc' | hc'
    · obtain ⟨k, hh⟩ := ha.child q l c hl hc'
      exact ⟨_, hhangs hh⟩
    split at hc'
    · rename_i hqp
      subst hqp
      cases hn.symm.trans hl
      rw [mem_singleton.1 hc']
      exact ⟨_, hfresh⟩
    · cases hc'
  · intro q m hq
    rcases adopt_node body hq hn with ⟨rfl, rfl⟩ | ⟨l, hl, rfl⟩
    · exact nodup_nil
    refine nodup_append.2 ⟨ha.nodup _ _ hl, by split <;> simp, ?_⟩
    intro a hamem b hb
    split at hb
    · rw [mem_singleton.1 hb]
      obtain ⟨k, hh⟩ := ha.child _ _ _ hl hamem
      exact Nat.ne_of_lt (node?_lt hh.node)
    · cases hb
  · intro c k hk hroot
    rcases adopt_node body hk hn with ⟨rfl, rfl⟩ | ⟨l, hl, rfl⟩
    · exact ⟨_, _, hfresh⟩
    · obtain ⟨q, m, hh⟩ := ha.hangs _ _ hl hroot
      exact ⟨q, _, hhangs hh⟩
  · intro c k hk
    rcases adopt_node body hk hn with ⟨rfl, rfl⟩ | ⟨l, hl, rfl⟩
    · rfl
    · have hin := ha.inputs _ _ hl
      exact hin
  · intro c k hk
    rcases adopt_node body hk hn with ⟨rfl, rfl⟩ | ⟨l, hl, rfl⟩
    · rfl
    · have hout := ha.outputs _ _ hl
      exact hout
  · intro e he
    obtain ⟨s, t, hfit⟩ := ha.edge e he
    exact hfit.keep (adopt_keeps body hn)
  · exact ha.single

/-! ## Children in another order -/

theorem setChildren_node (id x : NodeId) (cs : List NodeId) :
    (g.setChildren id cs).node? x =
      (g.node? x).map (fun n => if x = id then { n with children := cs } else n) :=
  node?_update_children id x fun _ => cs

theorem setChildren_node_self {id : NodeId} (cs : List NodeId) (hn : g.node? id = some n) :
    (g.setChildren id cs).node? id = some { n with children := cs } := by
  simp [setChildren_node, hn]

theorem setChildren_slot_other {id : NodeId} (cs : List NodeId) (hx : x ≠ id) :
    (g.setChildren id cs).slot? x = g.slot? x := by
  rw [setChildren, slot?_update, if_neg hx]

theorem setChildren_keeps (id : NodeId) (cs : List NodeId) : Keeps g (g.setChildren id cs) := by
  intro x n hn
  rw [setChildren_node, hn]
  by_cases hx : x = id
  · exact ⟨cs, by simp [hx]⟩
  · exact ⟨n.children, by simp [hx]⟩

@[simp] theorem setChildren_edges (id : NodeId) (cs : List NodeId) :
    (g.setChildren id cs).edges = g.edges := rfl

@[simp] theorem setChildren_size (id : NodeId) (cs : List NodeId) :
    (g.setChildren id cs).nodes.size = g.nodes.size := by
  simp [setChildren]

structure SameShape (n n' : Node) : Prop where
  kind : n'.kind = n.kind
  sig : n'.sig = n.sig
  parent : n'.parent = n.parent
  inputs : n'.inputCount = n.inputCount
  outputs : n'.outputCount = n.outputCount

/-- Nodes may go with all that they hold, and those that stay keep their shape. -/
theorem Arena.reshape (ha : g.Arena) {P : NodeId → Prop} {f : NodeId → Node → Node}
    (hn : ∀ {x n'}, h.node? x = some n' ↔ P x ∧ ∃ n, g.node? x = some n ∧ f x n = n')
    (hf : ∀ x n, SameShape n (f x n))
    (hch : ∀ {x n}, g.node? x = some n → P x →
      (f x n).children.Nodup ∧ ∀ c, c ∈ (f x n).children ↔ c ∈ n.children ∧ P c)
    (hroot : P root) (hup : ∀ {c k p n}, HangsFrom g c k p n → P c → P p)
    (he : ∀ e ∈ h.edges, (∃ s t, EdgeFits g e s t) ∧ P e.src.node ∧ P e.dst.node)
    (hs : (h.edges.map (·.dst)).Nodup) : h.Arena := by
  have hnode : ∀ {x n}, g.node? x = some n → P x → h.node? x = some (f x n) :=
    fun hx hk => hn.2 ⟨hk, _, hx, rfl⟩
  have hhangs : ∀ {c k p n}, HangsFrom g c k p n → P c → HangsFrom h c (f c k) p (f p n) :=
    fun hh hc => ⟨hnode hh.node hc, (hf _ _).parent.trans hh.parent, hnode hh.holder (hup hh hc),
      ((hch hh.holder (hup hh hc)).2 _).2 ⟨hh.listed, hc⟩,
      by rw [(hf _ _).kind, (hf _ _).kind]; exact hh.allowed, hh.older⟩
  constructor
  · obtain ⟨n, hr, hkind, hparent⟩ := ha.top
    exact ⟨_, hnode hr hroot, (hf _ _).kind.trans hkind, (hf _ _).parent.trans hparent⟩
  · intro p n' c hp hc
    obtain ⟨hk, n, hpn, rfl⟩ := hn.1 hp
    obtain ⟨hcn, hck⟩ := ((hch hpn hk).2 c).1 hc
    obtain ⟨k, hh⟩ := ha.child p n c hpn hcn
    exact ⟨_, hhangs hh hck⟩
  · intro p n' hp
    obtain ⟨hk, n, hpn, rfl⟩ := hn.1 hp
    exact (hch hpn hk).1
  · intro c k' hk hne
    obtain ⟨hkeep, k, hck, rfl⟩ := hn.1 hk
    obtain ⟨p, n, hh⟩ := ha.hangs c k hck hne
    exact ⟨p, _, hhangs hh hkeep⟩
  · intro c k' hk
    obtain ⟨-, k, hck, rfl⟩ := hn.1 hk
    rw [(hf _ _).inputs, (hf _ _).kind, (hf _ _).sig]
    exact ha.inputs c k hck
  · intro c k' hk
    obtain ⟨-, k, hck, rfl⟩ := hn.1 hk
    rw [(hf _ _).outputs, (hf _ _).kind, (hf _ _).sig]
    exact ha.outputs c k hck
  · intro e hmem
    obtain ⟨⟨s, t, hfit⟩, hks, hkt⟩ := he e hmem
    have hs := hf e.src.node s
    have ht := hf e.dst.node t
    refine ⟨_, _, hnode hfit.source hks, hnode hfit.target hkt, ?_, ?_, ?_, ?_⟩
    · rw [hs.parent, ht.parent]
      exact hfit.siblings
    · rw [hs.outputs]
      exact hfit.output
    · rw [ht.inputs]
      exact hfit.input
    · rw [hs.sig, ht.sig]
      exact hfit.type
  · exact hs

/-- The same where every node stays. -/
theorem Arena.restyle (ha : g.Arena) {f : NodeId → Node → Node}
    (hn : ∀ x, h.node? x = (g.node? x).map (f x)) (hf : ∀ x n, SameShape n (f x n))
    (hch : ∀ {x n}, g.node? x = some n → (f x n).children.Perm n.children)
    (he : ∀ e ∈ h.edges, ∃ s t, EdgeFits g e s t) (hs : (h.edges.map (·.dst)).Nodup) : h.Arena := by
  refine ha.reshape (P := fun _ => True) ?_ hf (fun hx _ => ?_) trivial (fun _ _ => trivial)
    (fun e hmem => ⟨he e hmem, trivial, trivial⟩) hs
  · simp [hn]
  · exact ⟨(hch hx).nodup_iff.2 (ha.nodup _ _ hx), by simp [(hch hx).mem_iff]⟩

theorem Arena.reorder (ha : g.Arena) {id : NodeId} {cs : List NodeId}
    (hp : cs.Perm (g.children id)) : (g.setChildren id cs).Arena := by
  refine ha.restyle (fun x => setChildren_node id x cs) (fun x n => ?_) (fun {x n} hn => ?_) ha.edge
    ha.single
  · split <;> exact ⟨rfl, rfl, rfl, rfl, rfl⟩
  · split
    · rename_i hx
      rw [← hx, children_of_node hn] at hp
      exact hp
    · exact .refl _

theorem Arena.setChildren (ha : g.Arena) {id : NodeId} (hn : g.node? id = some n) {cs : List NodeId}
    (hp : cs.Perm n.children) : (g.setChildren id cs).Arena :=
  ha.reorder (children_of_node hn ▸ hp)

/-! ## Edges -/

theorem Arena.withEdges (ha : g.Arena) {es : List Edge} (hfit : ∀ e ∈ es, ∃ s t, EdgeFits g e s t)
    (hs : (es.map (·.dst)).Nodup) : ({ g with edges := es } : Graph).Arena :=
  ha.restyle (f := fun _ n => n) (fun _ => Option.map_id'.symm) (fun _ _ => ⟨rfl, rfl, rfl, rfl, rfl⟩)
    (fun _ => .refl _) hfit hs

variable {dst src : Port}

theorem feeder?_eq_some_iff (ha : g.Arena) : g.feeder? dst = some src ↔ ⟨src, dst⟩ ∈ g.edges := by
  constructor
  · intro h
    obtain ⟨e, he, rfl⟩ := Option.map_eq_some_iff.1 h
    have hd := find?_some he
    rw [beq_iff_eq] at hd
    subst hd
    exact mem_of_find?_eq_some he
  · intro h
    exact Option.map_eq_some_iff.2 ⟨_, find?_key ha.single h, rfl⟩

theorem source?_eq_some_iff (ha : g.Arena) : g.source? dst = some src ↔ ⟨src, dst⟩ ∈ g.edges := by
  constructor
  · exact source?_edge
  intro h
  obtain ⟨s, t, hfit⟩ := ha.edge _ h
  have hin : g.hasInput dst = true := by
    simp only [hasInput, hfit.target]
    exact hfit.input
  rw [source?, if_pos hin]
  exact (feeder?_eq_some_iff ha).2 h

theorem Arena.mem_targets (ha : g.Arena) {s d : Port} : d ∈ g.targets s ↔ ⟨s, d⟩ ∈ g.edges := by
  unfold targets
  constructor
  · intro hd
    split at hd
    · obtain ⟨e, he, rfl⟩ := mem_map.1 hd
      obtain ⟨he, hs⟩ := mem_filter.1 he
      rw [beq_iff_eq] at hs
      rw [← hs]
      exact he
    · cases hd
  · intro he
    obtain ⟨a, b, hfit⟩ := ha.edge _ he
    rw [if_pos]
    · exact mem_map.2 ⟨_, mem_filter.2 ⟨he, by simp⟩, rfl⟩
    have hs : g.node? s.node = some a := hfit.source
    rw [hasOutput, hs]
    exact hfit.output

theorem Arena.targets_nodup (ha : g.Arena) (s : Port) : (g.targets s).Nodup := by
  unfold targets
  split
  · exact ha.single.sublist (filter_sublist.map _)
  · exact nodup_nil

theorem typeAt?_isSome {ts : List ValueType} {index : Int}
    (h : portInRange index ts.length = true) : ∃ t, typeAt? ts index = some t := by
  simp only [portInRange, Bool.and_eq_true, decide_eq_true_eq] at h
  refine ⟨ts.get ⟨index.toNat, by omega⟩, ?_⟩
  rw [typeAt?, if_neg (by omega), getElem?_eq_getElem (by omega)]
  rfl

section

variable (ha : g.Arena)

include ha

theorem Arena.output_typed {index : Int} (hn : g.node? x = some n)
    (h : portInRange index n.outputCount = true) : ∃ t, typeAt? n.sig.outputs index = some t := by
  rw [ha.outputs x n hn] at h
  split at h
  · exact typeAt?_isSome h
  · exact absurd h (not_portInRange_zero index)

theorem Arena.input_typed {index : Int} (hn : g.node? x = some n)
    (h : portInRange index n.inputCount = true) : ∃ t, typeAt? n.sig.inputs index = some t := by
  rw [ha.inputs x n hn] at h
  split at h
  · exact typeAt?_isSome h
  · exact absurd h (not_portInRange_zero index)

theorem EdgeFits.typed (hfit : EdgeFits g e s t) :
    ∃ a, typeAt? s.sig.outputs e.src.index = some a := ha.output_typed hfit.source hfit.output

variable (hfit : EdgeFits g ⟨src, dst⟩ s t) (hfree : ∀ e ∈ g.edges, e.dst ≠ dst)

include hfit hfree

theorem connect?_ok : g.connect? src dst = .ok { g with edges := g.edges ++ [⟨src, dst⟩] } := by
  obtain ⟨a, hsa⟩ := hfit.typed ha
  have htype := hfit.type
  have hany : g.edges.any (fun e => e.dst == dst) = false := by
    rw [any_eq_false]
    intro e he
    simpa using hfree e he
  simp only [connect?, hfit.source, hfit.target, hfit.output, hfit.input, hfit.siblings, hsa,
    ← htype, hany]
  simp

theorem connect_ok : connect src dst g = .ok () { g with edges := g.edges ++ [⟨src, dst⟩] } := by
  rw [connect, connect?_ok ha hfit hfree]

theorem Arena.connected : ({ g with edges := g.edges ++ [⟨src, dst⟩] } : Graph).Arena := by
  apply ha.withEdges
  · intro e he
    rcases mem_append.1 he with he | he
    · exact ha.edge e he
    rw [mem_singleton.1 he]
    exact ⟨s, t, hfit⟩
  · rw [map_append, nodup_append]
    refine ⟨ha.single, by simp, ?_⟩
    intro a hmem b hb
    obtain ⟨e, he, rfl⟩ := mem_map.1 hmem
    simp only [map_cons, map_nil, mem_singleton] at hb
    rw [hb]
    exact hfree e he

end

theorem mem_disconnect : e ∈ (g.disconnect dst).edges ↔ e ∈ g.edges ∧ e.dst ≠ dst := by
  simp [disconnect]

theorem Arena.disconnect (ha : g.Arena) (dst : Port) : (g.disconnect dst).Arena := by
  apply ha.withEdges
  · intro e he
    exact ha.edge e (mem_disconnect.1 he).1
  · exact ha.single.sublist (filter_sublist.map _)

/-! ## Removal -/

/-- The graph without the slots of a list, which is what is left of a subtree. -/
def bury (g : Graph) (doomed : List NodeId) : Graph :=
  doomed.foldl (fun g i => g.update i (fun n => { n with live := false, children := [] })) g

@[simp] theorem bury_edges (doomed : List NodeId) : (g.bury doomed).edges = g.edges := by
  induction doomed generalizing g with
  | nil => rfl
  | cons d rest ih => exact ih (g := g.update d _)

@[simp] theorem bury_size (doomed : List NodeId) : (g.bury doomed).nodes.size = g.nodes.size := by
  induction doomed generalizing g with
  | nil => rfl
  | cons d rest ih =>
    have h := ih (g := g.update d fun n => { n with live := false, children := [] })
    rw [update_size] at h
    exact h

theorem bury_slot_other {doomed : List NodeId} (hx : x ∉ doomed) :
    (g.bury doomed).slot? x = g.slot? x := by
  induction doomed generalizing g with
  | nil => rfl
  | cons d rest ih =>
    rw [mem_cons, not_or] at hx
    have h := ih (g := g.update d fun n => { n with live := false, children := [] }) hx.2
    rw [slot?_update, if_neg hx.1] at h
    exact h

theorem bury_node {doomed : List NodeId} (x : NodeId) :
    (g.bury doomed).node? x = if x ∈ doomed then none else g.node? x := by
  by_cases hx : x ∈ doomed
  · rw [if_pos hx]
    induction doomed generalizing g with
    | nil => simp at hx
    | cons d rest ih =>
      by_cases hr : x ∈ rest
      · exact ih (g := g.update d _) hr
      have hd : x = d := by simpa [hr] using hx
      have h := bury_slot_other
        (g := g.update d fun n => { n with live := false, children := [] }) hr
      rw [slot?_update, if_pos hd] at h
      show ((g.update d fun n => { n with live := false, children := [] }).bury rest).node? x =
        none
      rw [node?, h]
      cases g.slot? x <;> simp [Option.filter]
  · rw [if_neg hx]
    exact node?_congr (bury_slot_other hx)

section Removal

variable {id p : NodeId} {k n : Node}

/-- What is left when a subtree is removed: the edges apart from it, its parent without it. -/
def without (g : Graph) (id p : NodeId) : Graph :=
  (({ g with edges := g.edges.filter (fun e =>
    !(g.walk id).contains e.src.node && !(g.walk id).contains e.dst.node) } : Graph).update p
      (fun n => { n with children := n.children.filter (· != id) })).bury (g.walk id)

theorem removeSubtree_ok (hh : HangsFrom g id k p n) :
    removeSubtree id g = .ok () (g.without id p) := by
  have hcontains : ({ g with edges := g.edges.filter (fun e =>
      !(g.walk id).contains e.src.node && !(g.walk id).contains e.dst.node) } : Graph).contains p =
        true := by
    exact Option.isSome_iff_exists.2 ⟨n, hh.holder⟩
  simp only [removeSubtree, removeSubtree?, hh.node, if_neg hh.ne_root, hh.parent]
  rw [if_pos hcontains]
  rfl

theorem mem_without_edges {e : Edge} : e ∈ (g.without id p).edges ↔
    e ∈ g.edges ∧ e.src.node ∉ g.walk id ∧ e.dst.node ∉ g.walk id := by
  simp [without]

theorem without_node (x : NodeId) : (g.without id p).node? x =
    if x ∈ g.walk id then none
    else (g.node? x).map
      (fun n => if x = p then { n with children := n.children.filter (· != id) } else n) := by
  rw [without, bury_node]
  split
  · rfl
  · exact node?_update_children p x fun cs => cs.filter (· != id)

theorem without_slot_other {x : NodeId} (hx : x ∉ g.walk id) (hp : x ≠ p) :
    (g.without id p).slot? x = g.slot? x := by
  rw [without, bury_slot_other hx, slot?_update, if_neg hp]
  rfl

@[simp] theorem without_size : (g.without id p).nodes.size = g.nodes.size := by
  simp [without]

theorem node_of_without (ha : g.Arena) (hh : HangsFrom g id k p n) {x : NodeId} {m : Node}
    (hm : (g.without id p).node? x = some m) :
    x ∉ g.walk id ∧ ∃ l, g.node? x = some l ∧
      m = { l with children := l.children.filter (· != id) } := by
  rw [without_node] at hm
  split at hm
  · cases hm
  rename_i hx
  obtain ⟨l, hl, rfl⟩ := Option.map_eq_some_iff.1 hm
  refine ⟨hx, l, hl, ?_⟩
  split
  · rfl
  rename_i hxp
  have : l.children.filter (· != id) = l.children := by
    apply filter_eq_self.2
    intro c hc
    simp only [bne_iff_ne, ne_eq]
    rintro rfl
    have hpar := ha.parent_of_child hl hc hh.node
    rw [hh.parent] at hpar
    exact hxp (Option.some.inj hpar).symm
  rw [this]

theorem without_of_node (ha : g.Arena) (hh : HangsFrom g id k p n) {x : NodeId} {l : Node}
    (hl : g.node? x = some l) (hx : x ∉ g.walk id) :
    (g.without id p).node? x = some { l with children := l.children.filter (· != id) } := by
  have hsome : ∃ m, (g.without id p).node? x = some m := by
    rw [without_node, if_neg hx, hl]
    exact ⟨_, rfl⟩
  obtain ⟨m, hm⟩ := hsome
  obtain ⟨-, l', hl', rfl⟩ := node_of_without ha hh hm
  rw [hl] at hl'
  cases hl'
  exact hm

theorem Arena.without (ha : g.Arena) (hh : HangsFrom g id k p n) : (g.without id p).Arena := by
  refine ha.reshape (P := (· ∉ g.walk id))
    (f := fun _ l => { l with children := l.children.filter (· != id) }) (fun {x m} => ⟨fun hm => ?_, ?_⟩)
    (fun _ _ => ⟨rfl, rfl, rfl, rfl, rfl⟩) (fun {q l} hl hq => ?_) ?_ (fun {c l q m} hc hcw hq => ?_)
    (fun e he => ?_) ?_
  · obtain ⟨hx, l, hl, rfl⟩ := node_of_without ha hh hm
    exact ⟨hx, l, hl, rfl⟩
  · rintro ⟨hx, l, hl, rfl⟩
    exact without_of_node ha hh hl hx
  · refine ⟨(ha.nodup _ _ hl).filter _, fun c => ?_⟩
    rw [mem_filter, bne_iff_ne]
    refine and_congr_right fun hc => ?_
    obtain ⟨kc, hhc⟩ := ha.child q l c hl hc
    constructor
    · intro hne hcw
      rcases ((mem_walk_iff ha).1 hcw).2 with rfl | hu
      · exact hne rfl
      refine hq ((mem_walk_iff ha).2 ⟨⟨l, hl⟩, ?_⟩)
      exact hu.cases_parent hhc.node hhc.parent
    · rintro hcw rfl
      exact hcw ((mem_walk_iff ha).2 ⟨⟨kc, hhc.node⟩, .inl rfl⟩)
  · intro hr
    rcases ((mem_walk_iff ha).1 hr).2 with rfl | hu
    · exact hh.ne_root rfl
    · exact absurd (hu.lt ha) (Nat.not_lt_zero id)
  · refine hcw ((mem_walk_iff ha).2 ⟨⟨l, hc.node⟩, .inr ?_⟩)
    exact .of_parent hc.node hc.parent ((mem_walk_iff ha).1 hq).2
  · obtain ⟨he, hsrc, hdst⟩ := mem_without_edges.1 he
    exact ⟨ha.edge e he, hsrc, hdst⟩
  · rw [Graph.without, bury_edges]
    exact ha.single.sublist (filter_sublist.map _)

end Removal

end Qirc.Graph
