import Mathlib.Data.List.Perm.Basic
import Qirc.Proofs.Graph.Reachable
import Qirc.Proofs.Graph.Images
import Qirc.Proofs.Graph.Positions

/-!
# Reading the records of a graph

The records of a graph are its live nodes in the order of the walk. A reader that has come to a
record has made the nodes of those before it, with as many of their children as it has met. In the
end every live node has a counterpart, with its name and tag in normal form.
-/

namespace Qirc

open List Step

def NodeBody.normalized (b : NodeBody) : NodeBody :=
  { b with name := Text.normalize b.name, op := { b.op with tag := Text.normalize b.op.tag } }

def Node.stored (σ : NodeId → NodeId) (n : Node) : Node :=
  Node.renumber σ (n.revise NodeBody.normalized)

namespace Graph

variable {g : Graph} {x y : NodeId} {n : Node}

/-- A live node whose record says all that there is to say about it. -/
structure Storable (g : Graph) (n : Node) : Prop where
  regular : n.body.Regular
  types : ∀ t ∈ n.sig.inputs ++ n.sig.outputs, t ∈ ValueType.all
  named : n.kind = .op → n.body.op.key.dialect ≠ "" ∧ n.body.op.key.name ≠ ""
  callee : n.kind = .call → ∃ f k, n.body.callee = some f ∧ g.node? f = some k ∧
    k.kind = .funcDefn ∧ k.sig = n.sig

def record (g : Graph) (x : NodeId) : NodeRecord := Document.recordOf x ((g.node? x).getD default)

theorem record_of_node (hn : g.node? x = some n) : g.record x = Document.recordOf x n := by
  rw [record, hn, Option.getD_some]

open Document

theorem ofGraph_nodes (g : Graph) : (ofGraph g).nodes = (g.walk root).map g.record := by
  have hlive : ∀ xs : List NodeId, (∀ x ∈ xs, ∃ n, g.node? x = some n) →
      (xs.filterMap fun x => (g.node? x).map fun n => (x, n)).map (fun p => recordOf p.1 p.2) =
        xs.map g.record := by
    intro xs hxs
    induction xs with
    | nil => rfl
    | cons x xs ih =>
      rw [forall_mem_cons] at hxs
      obtain ⟨n, hn⟩ := hxs.1
      rw [filterMap_cons, hn, Option.map_some, map_cons, ih hxs.2, map_cons,
        record_of_node hn]
  exact hlive _ fun x hx => node_of_mem_walkFrom hx

theorem ofGraph_ids_nodup (ha : g.Arena) : ((ofGraph g).nodes.map (·.id)).Nodup := by
  have hid : (fun r : NodeRecord => r.id) ∘ g.record = id := rfl
  rw [ofGraph_nodes, map_map, hid, map_id]
  exact walk_nodup ha

theorem ofGraph_nodes_ne_nil (ha : g.Arena) : (ofGraph g).nodes ≠ [] := by
  obtain ⟨rest, hw⟩ := walk_root_cons ha
  rw [ofGraph_nodes, hw]
  simp

theorem find?_beq_self {xs : List NodeId} (hx : x ∈ xs) :
    xs.find? (fun y => y == x) = some x := by
  cases hf : xs.find? (fun y => y == x) with
  | none => simpa using find?_eq_none.1 hf x hx
  | some y =>
    have hy := find?_some hf
    rw [beq_iff_eq] at hy
    rw [hy]

section Records

variable (ha : g.Arena)

include ha

theorem Arena.kind_mem (hn : g.node? x = some n) : n.kind ∈ NodeKind.all := by
  by_cases hx : x = root
  · subst hx
    rw [(ha.root_node hn).1]
    decide
  · obtain ⟨p, k, hh⟩ := ha.hangs x n hn hx
    have hallowed := hh.allowed
    generalize n.kind = c at hallowed
    generalize k.kind = q at hallowed
    cases c with
    | unknown code => cases q <;> simp [NodeKind.mayHold] at hallowed
    | _ => decide

theorem find?_record (hn : g.node? x = some n) :
    Document.find? (ofGraph g).nodes x = some (recordOf x n) := by
  have hid : (fun r : NodeRecord => r.id == x) ∘ g.record = fun y => y == x := rfl
  rw [Document.find?, ofGraph_nodes, find?_map, hid, find?_beq_self (mem_walk_root ha hn),
    Option.map_some, record_of_node hn]

end Records

theorem kind_ofName? {k : NodeKind} (hk : k ∈ NodeKind.all) : NodeKind.ofName? k.name = some k := by
  revert k
  decide

theorem type_ofName? {t : ValueType} (ht : t ∈ ValueType.all) :
    ValueType.ofName? t.name = some t := by
  revert t
  decide

theorem parseTypes_names {ts : List ValueType} (hts : ∀ t ∈ ts, t ∈ ValueType.all) :
    parseTypes (ts.map ValueType.name) = .ok ts := by
  induction ts with
  | nil => rfl
  | cons t ts ih =>
    rw [forall_mem_cons] at hts
    rw [map_cons, parseTypes, ih hts.2, parseType, type_ofName? hts.1]
    rfl

/-- The body that is made for a record, before the calls get their targets. -/
def NodeBody.unaimed (b : NodeBody) : NodeBody := { b.normalized with callee := none }

theorem callSignature_recordOf (ha : g.Arena) (hs : g.Storable n) (hk : n.body.kind = .call) :
    callSignature (ofGraph g).nodes (recordOf x n) = .ok n.sig := by
  obtain ⟨f, k, hcallee, hf, hfk, hsig⟩ := hs.callee hk
  have hkind : k.body.kind = .funcDefn := hfk
  have hin : ∀ t ∈ k.body.sig.inputs, t ∈ ValueType.all := fun t ht =>
    hs.types t (mem_append_left _ (hsig ▸ ht))
  have hout : ∀ t ∈ k.body.sig.outputs, t ∈ ValueType.all := fun t ht =>
    hs.types t (mem_append_right _ (hsig ▸ ht))
  have htarget : (recordOf x n).callee = some f := by simp [recordOf, hk, hcallee]
  have hi : (recordOf f k).inputs = k.body.sig.inputs.map ValueType.name := by
    simp [recordOf, hkind]
  have ho : (recordOf f k).outputs = k.body.sig.outputs.map ValueType.name := by
    simp [recordOf, hkind]
  have hname : (recordOf f k).kind = NodeKind.funcDefn.name := congrArg NodeKind.name hfk
  simp only [callSignature, htarget, find?_record ha hf, hname, ne_eq, not_true, if_false, hi, ho,
    parseTypes_names hin, parseTypes_names hout]
  exact congrArg Except.ok hsig

theorem parse_recordOf (hs : g.Storable n) (hcall : n.body.kind ≠ .call)
    (hconst : n.body.kind ≠ .const) :
    parseTypes (recordOf x n).inputs = .ok n.body.sig.inputs ∧
      parseTypes (recordOf x n).outputs = .ok n.body.sig.outputs := by
  have hi : (recordOf x n).inputs = n.body.sig.inputs.map ValueType.name := by simp [recordOf, hcall]
  have ho : (recordOf x n).outputs = n.body.sig.outputs.map ValueType.name := by
    simp [recordOf, hcall, hconst]
  rw [hi, ho]
  exact ⟨parseTypes_names fun t ht => hs.types t (mem_append_left _ ht),
    parseTypes_names fun t ht => hs.types t (mem_append_right _ ht)⟩

theorem bodyOf_recordOf (ha : g.Arena) (hs : g.Storable n) :
    bodyOf (ofGraph g).nodes n.kind (recordOf x n) = .ok (NodeBody.unaimed n.body) := by
  have hkind : n.kind = n.body.kind := rfl
  rw [bodyOf, hkind]
  cases hk : n.body.kind with
  | call =>
    have hi : (recordOf x n).inputs = [] := by simp [recordOf, hk]
    have ho : (recordOf x n).outputs = [] := by simp [recordOf, hk]
    simp only [hi, ho, parseTypes, callSignature_recordOf (x := x) ha hs hk]
    rw [NodeBody.unaimed, NodeBody.normalized, hs.regular.payload (by rw [hk]; nofun), hk]
    rfl
  | const =>
    have hsig := hs.regular.const hk
    have htype : n.body.const.type ∈ ValueType.all := by
      refine hs.types _ (mem_append_right _ ?_)
      rw [Node.sig, hsig]
      exact mem_singleton_self _
    have hi : (recordOf x n).inputs = [] := by simp [recordOf, hk, hsig]
    have ho : (recordOf x n).outputs = [] := by simp [recordOf, hk]
    have hv : (recordOf x n).value = some ⟨n.body.const.type.name, n.body.const.bool,
        n.body.const.int, n.body.const.float, n.body.const.text⟩ := by simp [recordOf, hk]
    simp only [hi, ho, hv, parseTypes, parseType, type_ofName? htype]
    rw [NodeBody.unaimed, NodeBody.normalized, hk, hsig]
    rfl
  | op =>
    have hnamed : ¬((recordOf x n).dialect = "" ∨ (recordOf x n).op = "") :=
      not_or.2 (hs.named hk)
    obtain ⟨hi, ho⟩ := parse_recordOf (x := x) hs (by rw [hk]; nofun) (by rw [hk]; nofun)
    simp only [hi, ho, if_neg hnamed]
    rw [NodeBody.unaimed, NodeBody.normalized, hs.regular.payload (by rw [hk]; nofun), hk]
    rfl
  | _ =>
    obtain ⟨hi, ho⟩ := parse_recordOf (x := x) hs (by rw [hk]; nofun) (by rw [hk]; nofun)
    simp only [hi, ho]
    rw [NodeBody.unaimed, NodeBody.normalized, hs.regular.payload (by rw [hk]; nofun), hk]
    rfl

/-! ## Nodes -/

theorem get?_of_ids {xs : List NodeId} {σ : NodeId → NodeId} {b : Builder}
    (hids : b.ids = xs.map fun y => (y, σ y)) (hx : x ∈ xs) : b.get? x = some (σ x) := by
  have hkey : (fun p : Nat × NodeId => p.1 == x) ∘ (fun y => (y, σ y)) = fun y => y == x := rfl
  rw [Builder.get?, hids, find?_map, hkey, find?_beq_self hx]
  rfl

/-- The counterpart of a node when the records of some nodes have been read. -/
def drafted (g : Graph) (met : List NodeId) (y : NodeId) (n : Node) : Node :=
  { Node.fresh (NodeBody.unaimed n.body) (n.parent.map g.position) with
    children := (met.filter (fun c => g.parent? c == some y)).map g.position }

structure Loaded (g : Graph) (met : List NodeId) (b : Builder) : Prop where
  size : b.graph.nodes.size = met.length
  slot : ∀ y ∈ met, ∀ n, g.node? y = some n →
    b.graph.slot? (g.position y) = some (g.drafted met y n)
  edges : b.graph.edges = []
  ids : b.ids = met.map fun y => (y, g.position y)

section Loading

variable {met rest : List NodeId} {b : Builder} (ha : g.Arena)

include ha

theorem not_mem_met (hw : g.walk root = met ++ y :: rest) : y ∉ met := by
  have hnd := walk_nodup ha
  rw [hw] at hnd
  exact fun hmem => (nodup_append.1 hnd).2.2 y hmem y mem_cons_self rfl

theorem met_filter_next (hw : g.walk root = met ++ y :: rest) :
    (met ++ [y]).filter (fun c => g.parent? c == some y) = [] := by
  have hy := not_mem_met ha hw
  rw [filter_eq_nil_iff]
  intro c hc hp
  rw [beq_iff_eq] at hp
  obtain hc | hc := mem_append.1 hc
  · obtain ⟨before, after, rfl⟩ := append_of_mem hc
    rw [append_assoc] at hw
    exact hy (mem_append_left _ (parent_mem_before ha hw hp))
  · rw [mem_singleton.1 hc] at hp
    exact hy (parent_mem_before ha hw hp)

theorem addRecord_root (hn : g.node? y = some n) (hs : g.Storable n) (hk : n.kind = .module)
    (hp : n.parent = none) : addRecord (ofGraph g).nodes ⟨⟨#[], []⟩, []⟩ (g.record y) =
      .ok ⟨ofRoot (NodeBody.unaimed n.body), [(y, root)]⟩ := by
  have hkind : NodeKind.ofName? (recordOf y n).kind = some n.kind := kind_ofName? (ha.kind_mem hn)
  have hparent : (recordOf y n).parent = none := hp
  rw [record_of_node hn]
  simp only [addRecord, hkind, hparent]
  refine except_bind_ok.2 ⟨_, congrArg (inNode y) (bodyOf_recordOf ha hs), if_neg ?_⟩
  simp [hk]

theorem addRecord_child {p q id : NodeId} {graph : Graph} (hn : g.node? y = some n)
    (hs : g.Storable n) (hp : n.parent = some p) (hq : b.get? p = some q)
    (hi : b.graph.insert? q (NodeBody.unaimed n.body) = .ok (id, graph)) :
    addRecord (ofGraph g).nodes b (g.record y) = .ok ⟨graph, b.ids ++ [(y, id)]⟩ := by
  have hkind : NodeKind.ofName? (recordOf y n).kind = some n.kind := kind_ofName? (ha.kind_mem hn)
  have hparent : (recordOf y n).parent = some p := hp
  rw [record_of_node hn]
  simp only [addRecord, hkind, hparent, hq]
  refine except_bind_ok.2 ⟨_, congrArg (inNode y) (bodyOf_recordOf ha hs), ?_⟩
  exact except_bind_ok.2 ⟨_, congrArg (inNode y) hi, rfl⟩

theorem loaded_root (hw : g.walk root = y :: rest) (hn : g.node? y = some n) (hs : g.Storable n) :
    ∃ b', addRecord (ofGraph g).nodes ⟨⟨#[], []⟩, []⟩ (g.record y) = .ok b' ∧ Loaded g [y] b' := by
  obtain ⟨tail, htail⟩ := walk_root_cons ha
  obtain rfl : y = root := (cons.inj (hw.symm.trans htail)).1
  obtain ⟨m, hm, hk, hp⟩ := ha.top
  cases hn.symm.trans hm
  refine ⟨_, addRecord_root ha hn hs hk hp, ?_⟩
  have hroot := position_root ha
  constructor
  · rfl
  · intro z hz k hk
    obtain rfl := mem_singleton.1 hz
    cases hn.symm.trans hk
    have hnil : g.walk root = [] ++ root :: rest := hw
    have hchildren := met_filter_next ha hnil
    rw [nil_append] at hchildren
    rw [hroot, drafted, hchildren, hp]
    rfl
  · rfl
  · rw [map_singleton, hroot]

theorem Loaded.step (hl : Loaded g met b) (hw : g.walk root = met ++ y :: rest)
    (hmet : met ≠ []) (hn : g.node? y = some n) (hs : g.Storable n) :
    ∃ b', addRecord (ofGraph g).nodes b (g.record y) = .ok b' ∧ Loaded g (met ++ [y]) b' := by
  have hy := not_mem_met ha hw
  have hnotRoot : y ≠ root := by
    obtain ⟨tail, htail⟩ := walk_root_cons ha
    cases met with
    | nil => exact absurd rfl hmet
    | cons z met =>
      rw [htail] at hw
      rintro rfl
      exact hy (mem_cons.2 (.inl (cons.inj hw).1))
  obtain ⟨p, m, hh⟩ := ha.hangs y n hn hnotRoot
  have hparent : g.parent? y = some p := (parent?_of_node hn).trans hh.parent
  have hp : p ∈ met := parent_mem_before ha hw hparent
  have hslot := hl.slot p hp m hh.holder
  have hnode : b.graph.node? (g.position p) = some (g.drafted met p m) := node?_of_slot hslot rfl
  have hpos : g.position y = b.graph.nodes.size := (position_of_split ha hw).trans hl.size.symm
  have hinsert : b.graph.insert? (g.position p) (NodeBody.unaimed n.body) =
      .ok (b.graph.nodes.size, b.graph.adopt (g.position p) (NodeBody.unaimed n.body)) := by
    have hallowed : (g.drafted met p m).kind.mayHold (NodeBody.unaimed n.body).kind = true :=
      hh.allowed
    simp only [insert?, refusal?_eq_none.2 ⟨_, hnode, hallowed⟩]
  refine ⟨⟨b.graph.adopt (g.position p) (NodeBody.unaimed n.body), b.ids ++ [(y, g.position y)]⟩,
    ?_, ?_⟩
  · rw [hpos]
    exact addRecord_child ha hn hs hh.parent (get?_of_ids hl.ids hp) hinsert
  constructor
  · simp [hl.size]
  · intro z hz k hk
    by_cases hzy : z = y
    · subst hzy
      cases hn.symm.trans hk
      have hnew := node?_slot (adopt_node_new (NodeBody.unaimed n.body) hnode)
      rw [hpos, hnew, drafted, met_filter_next ha hw, hh.parent]
      rfl
    · have hzmet : z ∈ met := (mem_append.1 hz).resolve_right fun h =>
        hzy (mem_singleton.1 h)
      have hold := hl.slot z hzmet k hk
      by_cases hzp : z = p
      · subst hzp
        rw [adopt_slot_parent _ hold, ← hpos, drafted, drafted, filter_append,
          filter_singleton, hparent]
        simp
      · have hzy' : g.position z ≠ b.graph.nodes.size := fun heq =>
          hzy (position_injective ha hk hn (heq.trans hpos.symm))
        have hzp' : g.position z ≠ g.position p := fun heq =>
          hzp (position_injective ha hk hh.holder heq)
        have hother : (g.parent? y == some z) = false := by
          rw [hparent, beq_eq_false_iff_ne]
          exact fun heq => hzp (Option.some.inj heq).symm
        rw [adopt_slot_other _ hzp' hzy', hold, drafted, drafted, filter_append,
          filter_singleton, hother]
        simp
  · exact hl.edges
  · rw [hl.ids, map_append]
    rfl

variable (hs : ∀ y n, g.node? y = some n → g.Storable n)

include hs

theorem Loaded.run (hl : Loaded g met b) (hw : g.walk root = met ++ rest) (hmet : met ≠ []) :
    ∃ b', addRecords (ofGraph g).nodes b (rest.map g.record) = .ok b' ∧
      Loaded g (g.walk root) b' := by
  induction rest generalizing met b with
  | nil =>
    rw [append_nil] at hw
    exact ⟨b, rfl, hw ▸ hl⟩
  | cons y rest ih =>
    have hy : y ∈ g.walk root := hw ▸ mem_append_right _ mem_cons_self
    obtain ⟨n, hn⟩ := node_of_mem_walkFrom hy
    obtain ⟨b₁, hadd, hl⟩ := hl.step ha hw hmet hn (hs y n hn)
    obtain ⟨b₂, hrest, hl⟩ := ih hl (by rw [hw, append_assoc]; rfl) (by simp)
    exact ⟨b₂, except_bind_ok.2 ⟨b₁, hadd, hrest⟩, hl⟩

theorem addRecords_ofGraph :
    ∃ b, addRecords (ofGraph g).nodes ⟨⟨#[], []⟩, []⟩ (ofGraph g).nodes = .ok b ∧
      Loaded g (g.walk root) b := by
  obtain ⟨rest, hw⟩ := walk_root_cons ha
  obtain ⟨n, hn, -⟩ := ha.top
  obtain ⟨b₁, hadd, hl⟩ := loaded_root ha hw hn (hs root n hn)
  obtain ⟨b₂, hrest, hl⟩ := hl.run ha hs hw (by simp)
  have hnodes : (ofGraph g).nodes = g.record root :: rest.map g.record := by
    rw [ofGraph_nodes, hw, map_cons]
  refine ⟨b₂, ?_, hl⟩
  nth_rewrite 2 [hnodes]
  exact except_bind_ok.2 ⟨b₁, hadd, hrest⟩

end Loading

/-! ## Calls -/

/-- The counterpart of a node once its call, if it is one, has its target. -/
def targeted (g : Graph) (done : List NodeId) (y : NodeId) (n : Node) : Node :=
  { n.stored g.position with
    body := { n.body.normalized with
      callee := if y ∈ done then n.body.callee.map g.position else none } }

/-- A reader that has met all nodes and aimed the calls among some of them. -/
structure Aimed (g : Graph) (done : List NodeId) (b : Builder) : Prop where
  size : b.graph.nodes.size = (g.walk root).length
  slot : ∀ y n, g.node? y = some n → b.graph.slot? (g.position y) = some (g.targeted done y n)
  edges : b.graph.edges = []
  ids : b.ids = (g.walk root).map fun y => (y, g.position y)

section Aiming

variable {done rest : List NodeId} {b : Builder} (ha : g.Arena)

include ha

theorem Loaded.aimed (hl : Loaded g (g.walk root) b) : Aimed g [] b where
  size := hl.size
  slot y n hn := by
    rw [hl.slot y (mem_walk_root ha hn) n hn, drafted, walk_filter_parent ha hn]
    refine congrArg some (Node.mk.injEq .. |>.mpr ⟨?_, rfl, rfl, ?_, ?_, (node?_live hn).symm⟩)
    · rfl
    · exact (ha.inputs y n hn).symm
    · exact (ha.outputs y n hn).symm
  edges := hl.edges
  ids := hl.ids

variable (hs : ∀ y n, g.node? y = some n → g.Storable n)

include hs

theorem Aimed.step (hm : Aimed g done b) (hn : g.node? y = some n) (records : List NodeRecord) :
    ∃ b', linkCalls b (g.record y :: records) = linkCalls b' records ∧
      Aimed g (done ++ [y]) b' := by
  have hstored := hs y n hn
  have hwalk := mem_walk_root ha hn
  rw [record_of_node hn]
  by_cases hk : n.body.kind = .call
  · obtain ⟨f, k, hcallee, hf, -⟩ := hstored.callee hk
    have hkind : (recordOf y n).kind = NodeKind.call.name := congrArg NodeKind.name hk
    have htarget : (recordOf y n).callee = some f := by simp [recordOf, hk, hcallee]
    have hself : b.get? (recordOf y n).id = some (g.position y) := get?_of_ids hm.ids hwalk
    have haim : b.get? f = some (g.position f) := get?_of_ids hm.ids (mem_walk_root ha hf)
    refine ⟨⟨b.graph.aim (g.position y) (g.position f), b.ids⟩, ?_, ?_⟩
    · rw [linkCalls, if_neg (not_not.2 hkind)]
      simp only [hself, htarget, haim]
      rfl
    · refine ⟨(update_size ..).trans hm.size, fun z m hz => ?_, hm.edges, hm.ids⟩
      rw [aim_slot, hm.slot z m hz]
      by_cases hzy : z = y
      · subst hzy
        cases hn.symm.trans hz
        have hmem : z ∈ done ++ [z] := mem_append_right _ mem_cons_self
        simp only [if_true, Option.map_some, targeted, hmem, hcallee]
        rfl
      · rw [if_neg fun h => hzy (position_injective ha hz hn h), targeted, targeted]
        simp [hzy]
  · have hkind : (recordOf y n).kind ≠ NodeKind.call.name := by
      intro h
      have hname : NodeKind.ofName? n.kind.name = some n.kind := kind_ofName? (ha.kind_mem hn)
      have hcall : n.kind.name = NodeKind.call.name := h
      rw [hcall] at hname
      exact hk (Option.some.inj hname).symm
    refine ⟨b, by rw [linkCalls, if_pos hkind], hm.size, fun z m hz => ?_, hm.edges, hm.ids⟩
    rw [hm.slot z m hz]
    by_cases hzy : z = y
    · subst hzy
      cases hn.symm.trans hz
      rw [targeted, targeted, hstored.regular.callee hk]
      simp
    · rw [targeted, targeted]
      simp [hzy]

theorem Aimed.run (hm : Aimed g done b) (hrest : ∀ y ∈ rest, ∃ n, g.node? y = some n) :
    ∃ b', linkCalls b (rest.map g.record) = .ok b' ∧ Aimed g (done ++ rest) b' := by
  induction rest generalizing done b with
  | nil => exact ⟨b, rfl, (append_nil done).symm ▸ hm⟩
  | cons y rest ih =>
    rw [forall_mem_cons] at hrest
    obtain ⟨n, hn⟩ := hrest.1
    obtain ⟨b₁, hstep, hm⟩ := hm.step ha hs hn (rest.map g.record)
    obtain ⟨b₂, hlink, hm⟩ := ih hm hrest.2
    rw [append_assoc] at hm
    exact ⟨b₂, hstep.trans hlink, hm⟩

theorem linkCalls_ofGraph :
    ∃ b, (addRecords (ofGraph g).nodes ⟨⟨#[], []⟩, []⟩ (ofGraph g).nodes >>= fun b =>
        linkCalls b (ofGraph g).nodes) = .ok b ∧ b.graph.Arena ∧ Aimed g (g.walk root) b := by
  obtain ⟨b₁, hadd, hl⟩ := addRecords_ofGraph ha hs
  have hlive : ∀ y ∈ g.walk root, ∃ n, g.node? y = some n := fun _ hy => node_of_mem_walkFrom hy
  obtain ⟨b₂, hlink, hm⟩ := (hl.aimed ha).run ha hs hlive
  rw [← ofGraph_nodes] at hlink
  exact ⟨b₂, except_bind_ok.2 ⟨b₁, hadd, hlink⟩,
    (filing_of_linkCalls (ofGraph_ids_nodup ha) hadd hlink).arena (ofGraph_nodes_ne_nil ha), hm⟩

end Aiming

end Graph

end Qirc
