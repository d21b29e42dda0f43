import Qirc.Graph.Document.Basic
import Qirc.Proofs.Graph.Upkeep

/-!
# Graphs that documents describe

Record after record, a document makes an arena whose nodes are regular. Then calls are aimed at what
they call, and the edges are drawn.
-/

namespace Qirc.Graph

open List Document Step

variable {g h : Graph} {body : NodeBody}

/-! ## Regular bodies -/

/-- All slots, dead or alive, have regular bodies. -/
def Tidy (g : Graph) : Prop := ∀ id n, g.slot? id = some n → n.body.Regular

namespace Tidy

theorem of_lasting (hg : g.Tidy) (hl : Lasting g h)
    (hnew : ∀ id n, g.nodes.size ≤ id → h.slot? id = some n → n.body.Regular) : h.Tidy := by
  intro id n hn
  by_cases hlt : id < g.nodes.size
  · obtain ⟨n', hn', hbody, -⟩ := hl.slot id _ (Array.getElem?_eq_getElem hlt)
    cases hn.symm.trans hn'
    rw [hbody]
    exact hg id _ (Array.getElem?_eq_getElem hlt)
  · exact hnew id n (Nat.le_of_not_lt hlt) hn

theorem of_size (hg : g.Tidy) (hl : Lasting g h) (hsize : h.nodes.size = g.nodes.size) : h.Tidy := by
  refine hg.of_lasting hl fun id n hle hn => ?_
  have hlt := (Array.getElem?_eq_some_iff.1 hn).1
  rw [hsize] at hlt
  exact absurd hlt (Nat.not_lt_of_le hle)

theorem adopt (hg : g.Tidy) (p : NodeId) (hb : body.Regular) : (g.adopt p body).Tidy := by
  refine hg.of_lasting (.adopt p body) fun id n hle hn => ?_
  have hid : id = g.nodes.size := by
    have hsize := (Array.getElem?_eq_some_iff.1 hn).1
    rw [adopt_size] at hsize
    exact Nat.le_antisymm (Nat.lt_succ_iff.1 hsize) hle
  rw [Graph.adopt, slot?_update, slot?_alloc, hb.settleCallee, if_pos hid] at hn
  split at hn <;> cases hn <;> exact hb

theorem ofRoot (hb : body.Regular) : (ofRoot body).Tidy := by
  intro id n hn
  have hlt : id < 1 := (Array.getElem?_eq_some_iff.1 hn).1
  obtain rfl : id = root := Nat.lt_one_iff.1 hlt
  cases hn
  exact hb

end Tidy

def Tidies (g h : Graph) : Prop := g.Tidy → h.Tidy

instance : Enduring Tidies where
  of_nodes he hg id n hn := hg id n (by rwa [slot?, he] at hn)
  trans hgh hhk hg := hhk (hgh hg)
  adopt p hb hg := hg.adopt p hb
  copy p hn hg := hg.adopt p (hg _ _ hn)
  setChildren p cs hg := hg.of_size (.setChildren p cs) (by simp [setChildren])
  without id p hg := hg.of_size (.without id p) (by simp [without])

/-! ## Records -/

theorem Arena.ofRoot (hk : body.kind = .module) : (ofRoot body).Arena := by
  have hnode : ∀ x n, (Graph.ofRoot body).node? x = some n → x = root ∧ n = Node.fresh body none := by
    intro x n hx
    have hlt : x < 1 := node?_lt hx
    obtain rfl : x = root := Nat.lt_one_iff.1 hlt
    exact ⟨rfl, (Option.some.inj hx).symm⟩
  constructor
  · exact ⟨Node.fresh body none, rfl, hk, rfl⟩
  · intro p n c hp hc
    obtain ⟨rfl, rfl⟩ := hnode p n hp
    cases hc
  · intro p n hp
    obtain ⟨rfl, rfl⟩ := hnode p n hp
    exact nodup_nil
  · intro c k hc hne
    exact absurd (hnode c k hc).1 hne
  · intro c k hc
    obtain ⟨rfl, rfl⟩ := hnode c k hc
    rfl
  · intro c k hc
    obtain ⟨rfl, rfl⟩ := hnode c k hc
    rfl
  · intro e he
    cases he
  · exact nodup_nil

theorem inNode_ok {α : Type} {id : Nat} {x : Except GraphError α} {a : α}
    (hx : inNode id x = .ok a) : x = .ok a := by
  cases x with
  | ok b =>
    cases hx
    rfl
  | error e => cases hx

variable {records : List NodeRecord} {r : NodeRecord}

theorem bodyOf_kind {kind : NodeKind} (hb : bodyOf records kind r = .ok body) :
    body.kind = kind := by
  obtain ⟨inputs, -, hb⟩ := except_bind_ok.1 hb
  obtain ⟨outputs, -, hb⟩ := except_bind_ok.1 hb
  split at hb
  · split at hb
    · cases hb
    cases hb
    rfl
  · obtain ⟨sig, -, hb⟩ := except_bind_ok.1 hb
    cases hb
    rfl
  · split at hb
    · cases hb
    obtain ⟨t, -, hb⟩ := except_bind_ok.1 hb
    cases hb
    rfl
  · cases hb
    rfl

theorem bodyOf_regular {kind : NodeKind} (hb : bodyOf records kind r = .ok body) :
    body.Regular := by
  obtain ⟨inputs, -, hb⟩ := except_bind_ok.1 hb
  obtain ⟨outputs, -, hb⟩ := except_bind_ok.1 hb
  split at hb
  · split at hb
    · cases hb
    cases hb
    exact ⟨fun _ => rfl, nofun, fun _ => rfl⟩
  · obtain ⟨sig, -, hb⟩ := except_bind_ok.1 hb
    cases hb
    exact ⟨fun _ => rfl, nofun, fun _ => rfl⟩
  · split at hb
    · cases hb
    obtain ⟨t, -, hb⟩ := except_bind_ok.1 hb
    cases hb
    exact ⟨fun _ => rfl, fun _ => rfl, absurd rfl⟩
  · rename_i hconst
    cases hb
    exact ⟨fun _ => rfl, fun h => absurd h hconst, fun _ => rfl⟩

theorem duplicate?_eq_none {seen : List Nat} :
    duplicate? seen records = none ↔
      (records.map (·.id)).Nodup ∧ ∀ r ∈ records, r.id ∉ seen := by
  induction records generalizing seen with
  | nil => simp [duplicate?]
  | cons r rest ih =>
    simp only [duplicate?, map_cons, nodup_cons, forall_mem_cons]
    by_cases hr : r.id ∈ seen
    · simp [hr]
    rw [if_neg (by simpa using hr), ih]
    simp only [mem_cons, not_or, mem_map, not_exists, not_and]
    constructor
    · rintro ⟨hnd, hseen⟩
      exact ⟨⟨fun x hx hid => (hseen x hx).1 hid, hnd⟩, hr, fun x hx => (hseen x hx).2⟩
    · rintro ⟨⟨hne, hnd⟩, -, hseen⟩
      exact ⟨hnd, fun x hx => ⟨hne x hx, hseen x hx⟩⟩

def Filed (g : Graph) (r : NodeRecord) (p : Nat × NodeId) : Prop :=
  p.1 = r.id ∧ ∃ n, g.slot? p.2 = some n ∧ NodeKind.ofName? r.kind = some n.kind

theorem Filed.lasting {p : Nat × NodeId} (hf : Filed g r p) (hl : Lasting g h) : Filed h r p := by
  obtain ⟨hid, n, hn, hk⟩ := hf
  obtain ⟨n', hn', hbody, -⟩ := hl.slot _ _ hn
  exact ⟨hid, n', hn', by rw [hk, Node.kind, Node.kind, hbody]⟩

/-- What a reader made of the records that it met. -/
structure Filing (done : List NodeRecord) (b : Builder) : Prop where
  arena : done ≠ [] → b.graph.Arena
  tidy : b.graph.Tidy
  filed : Forall₂ (Filed b.graph) done b.ids

variable {done rest : List NodeRecord} {b b' : Builder}

theorem Filing.addRecord (hf : Filing done b) (hr : addRecord records b r = .ok b') :
    Filing (done ++ [r]) b' := by
  obtain ⟨graph, ids⟩ := b
  obtain ⟨harena, htidy, hfiled⟩ := hf
  unfold Document.addRecord at hr
  split at hr
  · cases hr
  rename_i kind hkind
  obtain ⟨body, hbody, hr⟩ := except_bind_ok.1 hr
  have hbody := inNode_ok hbody
  have hbk := bodyOf_kind hbody
  have hregular := bodyOf_regular hbody
  split at hr
  · split at hr
    · cases hr
    rename_i hroot
    cases hr
    simp only [not_or, ne_eq, Decidable.not_not] at hroot
    -- nothing is filed in an arena without slots
    have hempty : done = [] ∧ ids = [] := by
      cases hfiled with
      | nil => exact ⟨rfl, rfl⟩
      | cons hf _ =>
        obtain ⟨-, n, hn, -⟩ := hf
        have hlt := (Array.getElem?_eq_some_iff.1 hn).1
        exact absurd hlt (hroot.2 ▸ Nat.not_lt_zero _)
    obtain ⟨rfl, rfl⟩ := hempty
    refine ⟨fun _ => .ofRoot (hbk.trans hroot.1), .ofRoot hregular, .cons ⟨rfl, _, rfl, ?_⟩ .nil⟩
    rw [hkind, ← hbk]
    rfl
  · split at hr
    · cases hr
    rename_i p hget
    obtain ⟨⟨id, graph'⟩, hi, hr⟩ := except_bind_ok.1 hr
    cases hr
    obtain ⟨rfl, rfl, n, hn, hm⟩ := insert?_eq_ok (inNode_ok hi)
    have hmet : done ≠ [] := by
      rintro rfl
      cases hfiled
      cases hget
    refine ⟨fun _ => (harena hmet).adopt hn hm, htidy.adopt p hregular,
      rel_append (hfiled.imp fun _ _ hf => hf.lasting (.adopt p body))
        (.cons ⟨rfl, _, node?_slot (adopt_node_new body hn), ?_⟩ .nil)⟩
    rw [hkind, ← hbk]
    exact congrArg some (settleCallee_kind body).symm

theorem Filing.addRecords (hf : Filing done b) (hr : addRecords records b rest = .ok b') :
    Filing (done ++ rest) b' := by
  induction rest generalizing b done with
  | nil =>
    cases hr
    rwa [append_nil]
  | cons r rest ih =>
    obtain ⟨b'', h, hr⟩ := except_bind_ok.1 hr
    have hdone := ih (hf.addRecord h) hr
    rwa [append_assoc] at hdone

/-! ## Calls -/

variable {id : NodeId}

theorem filed_get? {ids : List (Nat × NodeId)} (hfiled : Forall₂ (Filed g) records ids)
    (hnd : (records.map (·.id)).Nodup) (hr : r ∈ records)
    (hid : Builder.get? ⟨g, ids⟩ r.id = some id) : Filed g r (r.id, id) := by
  simp only [Builder.get?, Option.map_eq_some_iff] at hid
  obtain ⟨⟨k, id'⟩, hfind, rfl⟩ := hid
  induction hfiled with
  | nil => cases hr
  | @cons r' p records ids hf hrest ih =>
    rw [map_cons, nodup_cons] at hnd
    rw [find?_cons] at hfind
    obtain rfl | hr := mem_cons.1 hr
    · rw [hf.1, beq_self_eq_true] at hfind
      cases hfind
      exact ⟨rfl, hf.2⟩
    · have hne : (p.1 == r.id) = false := by
        rw [beq_eq_false_iff_ne, hf.1]
        intro heq
        exact hnd.1 (mem_map.2 ⟨r, hr, heq.symm⟩)
      rw [hne] at hfind
      exact ih hnd.2 hr hfind

def aimed (t : NodeId) (n : Node) : Node := { n with body := { n.body with callee := some t } }

def aim (g : Graph) (id t : NodeId) : Graph := g.update id (aimed t)

theorem aim_slot (id t x : NodeId) : (g.aim id t).slot? x =
    if x = id then (g.slot? x).map (aimed t) else g.slot? x := slot?_update ..

theorem Arena.aim (ha : g.Arena) (id t : NodeId) : (g.aim id t).Arena := by
  refine ha.restyle (f := fun x n => if x = id then aimed t n else n) (fun x => ?_) (fun _ _ => ?_)
    (fun _ => ?_) ha.edge ha.single
  · unfold node?
    rw [aim_slot]
    cases hs : g.slot? x with
    | none => simp
    | some n =>
      by_cases hx : x = id
      · cases hl : n.live <;> simp [hx, Option.filter, hl, aimed]
      · cases hl : n.live <;> simp [hx, Option.filter, hl]
  · split <;> exact ⟨rfl, rfl, rfl, rfl, rfl⟩
  · split <;> exact .refl _

theorem Filing.aim (hf : Filing records b) (hnd : (records.map (·.id)).Nodup) (hr : r ∈ records)
    (hid : b.get? r.id = some id) (hkind : r.kind = NodeKind.call.name) (t : NodeId) :
    Filing records ⟨b.graph.aim id t, b.ids⟩ := by
  obtain ⟨-, n, hn, hk⟩ := filed_get? hf.filed hnd hr hid
  have hcall : n.kind = .call := by
    rw [hkind] at hk
    exact (Option.some.inj hk).symm
  refine ⟨fun hne => (hf.arena hne).aim id t, fun x m hm => ?_, hf.filed.imp fun r p hp => ?_⟩
  · rw [aim_slot] at hm
    split at hm
    · rename_i hx
      obtain ⟨m', hm', rfl⟩ := Option.map_eq_some_iff.1 hm
      cases (hx ▸ hm').symm.trans hn
      exact ⟨absurd hcall, (hf.tidy _ _ hm').const, (hf.tidy _ _ hm').payload⟩
    · exact hf.tidy x m hm
  · obtain ⟨hpid, m, hm, hmk⟩ := hp
    by_cases hx : p.2 = id
    · exact ⟨hpid, aimed t m, by rw [aim_slot, if_pos hx, hm]; rfl, hmk⟩
    · exact ⟨hpid, m, by rw [aim_slot, if_neg hx, hm], hmk⟩

theorem Filing.linkCalls (hf : Filing records b) (hnd : (records.map (·.id)).Nodup)
    (hsub : ∀ r ∈ rest, r ∈ records) (hr : linkCalls b rest = .ok b') : Filing records b' := by
  induction rest generalizing b with
  | nil =>
    cases hr
    exact hf
  | cons r rest ih =>
    rw [forall_mem_cons] at hsub
    unfold Document.linkCalls at hr
    split at hr
    · exact ih hf hsub.2 hr
    rename_i hkind
    rw [Decidable.not_not] at hkind
    split at hr
    · split at hr
      · cases hr
      rename_i id _ hid _ _ t _
      exact ih (hf.aim hnd hsub.1 hid hkind t) hsub.2 hr
    · exact ih hf hsub.2 hr

theorem filing_of_linkCalls (hnd : (records.map (·.id)).Nodup)
    (hr : addRecords records ⟨⟨#[], []⟩, []⟩ records = .ok b)
    (hl : linkCalls b records = .ok b') : Filing records b' := by
  have hf : Filing [] ⟨⟨#[], []⟩, []⟩ := ⟨absurd rfl, fun _ _ hn => (by cases hn), .nil⟩
  exact (hf.addRecords hr).linkCalls hnd (fun _ hr => hr) hl

/-! ## Edges -/

theorem Arena.addEdges {edges : List EdgeRecord} (ha : b.graph.Arena)
    (hr : addEdges b edges = .ok g) : g.Arena ∧ g.nodes = b.graph.nodes := by
  induction edges generalizing b with
  | nil =>
    cases hr
    exact ⟨ha, rfl⟩
  | cons e edges ih =>
    unfold Document.addEdges at hr
    split at hr
    · obtain ⟨graph, hc, hr⟩ := except_bind_ok.1 hr
      obtain ⟨ha', hnodes⟩ := ha.connect? hc
      obtain ⟨hg, hsame⟩ := ih (b := ⟨graph, b.ids⟩) ha' hr
      exact ⟨hg, hsame.trans hnodes⟩
    · cases hr

theorem toGraph_eq_ok {d : Document} : d.toGraph = .ok g ↔
    d.version = currentVersion ∧ d.nodes ≠ [] ∧ duplicate? [] d.nodes = none ∧
      ∃ b b', addRecords d.nodes ⟨⟨#[], []⟩, []⟩ d.nodes = .ok b ∧ linkCalls b d.nodes = .ok b' ∧
        addEdges b' d.edges = .ok g := by
  unfold toGraph
  split
  · simp [*]
  split
  · simp_all
  split
  · simp [*]
  rename_i hv hne _ hdup
  rw [Decidable.not_not] at hv
  rw [List.isEmpty_iff] at hne
  simp only [hv, hdup, ne_eq, hne, not_false_eq_true, true_and]
  split
  · rename_i hread
    refine ⟨nofun, fun ⟨b, b', hrec, hlink, _⟩ => ?_⟩
    cases hread.symm.trans (except_bind_ok.2 ⟨b, hrec, hlink⟩)
  · rename_i b' hread
    obtain ⟨b, hrec, hlink⟩ := except_bind_ok.1 hread
    refine ⟨fun h => ⟨b, b', hrec, hlink, h⟩, fun ⟨c, c', hrec', hlink', h⟩ => ?_⟩
    cases hrec.symm.trans hrec'
    cases hlink.symm.trans hlink'
    exact h

theorem arena_of_toGraph {d : Document} (hd : d.toGraph = .ok g) : g.Arena ∧ g.Tidy := by
  obtain ⟨-, hne, hdup, b, b', hrec, hlink, hedges⟩ := toGraph_eq_ok.1 hd
  have hf := filing_of_linkCalls (duplicate?_eq_none.1 hdup).1 hrec hlink
  obtain ⟨ha, hnodes⟩ := (hf.arena hne).addEdges hedges
  exact ⟨ha, Bearing.of_nodes (R := Tidies) hnodes hf.tidy⟩

end Qirc.Graph
