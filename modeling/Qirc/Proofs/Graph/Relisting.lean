import Qirc.Proofs.Graph.Rearranged

/-!
# Documents that list a graph differently

The ids of a document are names: only which of them are equal matters to the graph that is built. A
document whose ids are renamed is therefore read, or refused, like the first one. The edges may be
listed in another order as well; the graph then has the same nodes and the same edges.
-/

namespace Qirc

open List Graph

def NodeRecord.rename (ρ : Nat → Nat) (r : NodeRecord) : NodeRecord :=
  { r with id := ρ r.id, parent := r.parent.map ρ, callee := r.callee.map ρ }

def EdgeRecord.rename (ρ : Nat → Nat) (e : EdgeRecord) : EdgeRecord :=
  { e with src := ρ e.src, dst := ρ e.dst }

namespace Document

/-- A document under other ids, where they are given and wherever they are named. -/
def rename (ρ : Nat → Nat) (d : Document) : Document :=
  ⟨d.version, d.nodes.map (.rename ρ), d.edges.map (.rename ρ)⟩

def Builder.rename (ρ : Nat → Nat) (b : Builder) : Builder :=
  { b with ids := b.ids.map fun p => (ρ p.1, p.2) }

/-! ## Other ids -/

section Renaming

variable {ρ : Nat → Nat} (hρ : Function.Injective ρ) {α β ε : Type}

theorem toOption_bind (x : Except ε α) (f : α → Except ε β) :
    (x >>= f).toOption = x.toOption.bind fun a => (f a).toOption := by
  cases x <;> rfl

theorem toOption_inNode (id : Nat) (x : Except GraphError α) :
    (inNode id x).toOption = x.toOption := by
  cases x <;> rfl

include hρ

theorem rename_beq (x y : Nat) : (ρ x == ρ y) = (x == y) := by
  rw [Bool.eq_iff_iff, beq_iff_eq, beq_iff_eq, hρ.eq_iff]

theorem get?_rename (b : Builder) (id : Nat) : (b.rename ρ).get? (ρ id) = b.get? id := by
  simp [Builder.get?, Builder.rename, find?_map, Function.comp_def, rename_beq hρ]

section

variable (records : List NodeRecord)

include records

theorem find?_rename (id : Nat) :
    find? (records.map (.rename ρ)) (ρ id) = (find? records id).map (.rename ρ) := by
  simp [find?, NodeRecord.rename, find?_map, Function.comp_def, rename_beq hρ]

theorem callSignature_rename (r : NodeRecord) :
    (callSignature (records.map (.rename ρ)) (r.rename ρ)).toOption =
      (callSignature records r).toOption := by
  unfold callSignature
  cases hc : r.callee with
  | none => simp [NodeRecord.rename, hc]
  | some target =>
    simp only [NodeRecord.rename, hc, Option.map_some, find?_rename hρ]
    cases find? records target with
    | none => rfl
    | some f =>
      simp only [Option.map_some, NodeRecord.rename]
      split <;> rfl

theorem bodyOf_rename (kind : NodeKind) (r : NodeRecord) :
    (bodyOf (records.map (.rename ρ)) kind (r.rename ρ)).toOption =
      (bodyOf records kind r).toOption := by
  simp only [bodyOf, toOption_bind]
  refine congrArg _ (funext fun inputs => congrArg _ (funext fun outputs => ?_))
  cases kind with
  | call => simp only [toOption_bind, callSignature_rename hρ]; rfl
  | _ => rfl

theorem addRecord_rename (b : Builder) (r : NodeRecord) :
    (addRecord (records.map (.rename ρ)) (b.rename ρ) (r.rename ρ)).toOption =
      (addRecord records b r).toOption.map (Builder.rename ρ) := by
  have hkind : (r.rename ρ).kind = r.kind := rfl
  unfold addRecord
  rw [hkind]
  cases NodeKind.ofName? r.kind with
  | none => rfl
  | some kind =>
    simp only [toOption_bind, toOption_inNode, bodyOf_rename hρ]
    cases (bodyOf records kind r).toOption with
    | none => rfl
    | some body =>
      have hparent : (r.rename ρ).parent = r.parent.map ρ := rfl
      rw [Option.bind_some, Option.bind_some, hparent]
      cases r.parent with
      | none =>
        dsimp only [Option.map_none]
        split
        · rw [if_pos ‹_›]; rfl
        · rw [if_neg ‹_›]
          simp [Builder.rename, NodeRecord.rename, Except.toOption]
      | some parent =>
        simp only [Option.map_some, get?_rename hρ]
        cases b.get? parent with
        | none => rfl
        | some p =>
          simp only [toOption_bind, toOption_inNode]
          have hgraph : (b.rename ρ).graph = b.graph := rfl
          rw [hgraph]
          cases (b.graph.insert? p body).toOption with
          | none => rfl
          | some made => simp [Builder.rename, NodeRecord.rename, Except.toOption, pure, Except.pure]

end

theorem addRecords_rename (records rest : List NodeRecord) (b : Builder) :
    (addRecords (records.map (.rename ρ)) (b.rename ρ) (rest.map (.rename ρ))).toOption =
      (addRecords records b rest).toOption.map (Builder.rename ρ) := by
  induction rest generalizing b with
  | nil => rfl
  | cons r rest ih =>
    simp only [map_cons, addRecords, toOption_bind, addRecord_rename hρ]
    cases (addRecord records b r).toOption with
    | none => rfl
    | some b => exact ih b

theorem linkCalls_rename (rest : List NodeRecord) (b : Builder) :
    (linkCalls (b.rename ρ) (rest.map (.rename ρ))).toOption =
      (linkCalls b rest).toOption.map (Builder.rename ρ) := by
  induction rest generalizing b with
  | nil => rfl
  | cons r rest ih =>
    have hid : (r.rename ρ).id = ρ r.id := rfl
    have hcallee : (r.rename ρ).callee = r.callee.map ρ := rfl
    have hkind : (r.rename ρ).kind = r.kind := rfl
    simp only [map_cons, linkCalls, hkind, hid, hcallee, get?_rename hρ]
    split
    · exact ih b
    cases b.get? r.id with
    | none => exact ih b
    | some id =>
      cases r.callee with
      | none => exact ih b
      | some target =>
        simp only [Option.map_some, get?_rename hρ]
        cases b.get? target with
        | none => rfl
        | some t => exact ih { b with graph := _ }

theorem addEdges_rename (es : List EdgeRecord) (b : Builder) :
    (addEdges (b.rename ρ) (es.map (.rename ρ))).toOption = (addEdges b es).toOption := by
  induction es generalizing b with
  | nil => rfl
  | cons e es ih =>
    have hsrc : (e.rename ρ).src = ρ e.src := rfl
    have hdst : (e.rename ρ).dst = ρ e.dst := rfl
    simp only [map_cons, addEdges, hsrc, hdst, get?_rename hρ]
    cases b.get? e.src with
    | none => rfl
    | some src =>
      cases b.get? e.dst with
      | none => rfl
      | some dst =>
        simp only [toOption_bind]
        exact congrArg _ (funext fun graph => ih { b with graph })

theorem build_rename (records : List NodeRecord) :
    (addRecords (records.map (.rename ρ)) ⟨⟨#[], []⟩, []⟩ (records.map (.rename ρ)) >>=
        fun b => linkCalls b (records.map (.rename ρ))).toOption =
      (addRecords records ⟨⟨#[], []⟩, []⟩ records >>= fun b => linkCalls b records).toOption.map
        (Builder.rename ρ) := by
  have hempty := addRecords_rename hρ records records ⟨⟨#[], []⟩, []⟩
  rw [toOption_bind, toOption_bind]
  refine (congrArg (Option.bind · _) hempty).trans ?_
  cases (addRecords records ⟨⟨#[], []⟩, []⟩ records).toOption with
  | none => rfl
  | some b => exact linkCalls_rename hρ records b

theorem duplicate?_rename (records : List NodeRecord) :
    duplicate? [] (records.map (.rename ρ)) = none ↔ duplicate? [] records = none := by
  have hids : (records.map (NodeRecord.rename ρ)).map (·.id) = (records.map (·.id)).map ρ := by
    rw [map_map, map_map]
    rfl
  rw [duplicate?_eq_none, duplicate?_eq_none, hids, nodup_map_iff hρ]
  simp

theorem toGraph_rename (d : Document) : (d.rename ρ).toGraph.toOption = d.toGraph.toOption := by
  simp only [toGraph, rename, isEmpty_map]
  split
  · rfl
  split
  · rfl
  have hdup := duplicate?_rename hρ d.nodes
  cases hd : duplicate? [] d.nodes with
  | some id =>
    cases hd' : duplicate? [] (d.nodes.map (.rename ρ)) with
    | some id' => rfl
    | none => cases hd.symm.trans (hdup.1 hd')
  | none =>
    simp only [hdup.2 hd]
    have hbuilt := build_rename hρ d.nodes
    revert hbuilt
    generalize addRecords d.nodes _ d.nodes >>= _ = x
    generalize addRecords _ _ _ >>= _ = y
    intro hbuilt
    cases x with
    | error e =>
      cases y with
      | error e' => rfl
      | ok b' => cases hbuilt
    | ok b =>
      cases y with
      | error e' => cases hbuilt
      | ok b' =>
        cases hbuilt
        exact addEdges_rename hρ d.edges b

theorem toGraph_rename_ok {d : Document} {g : Graph} :
    (d.rename ρ).toGraph = .ok g ↔ d.toGraph = .ok g := by
  have hok (x : Except Failure Graph) : x.toOption = some g ↔ x = .ok g := by
    cases x <;> simp [Except.toOption]
  rw [← hok, toGraph_rename hρ, hok]

end Renaming

/-! ## Another order of the edges -/

open Graph (Rearranged EdgeFits connect?_eq_ok connect?_ok)

variable {g h g₁ g₂ : Graph}

theorem connect?_swap (hr : Rearranged g h) {s d s' d' : Port} (hok : g.connect? s d = .ok g₁)
    (hok' : g₁.connect? s' d' = .ok g₂) :
    ∃ h₁ h₂, h.connect? s' d' = .ok h₁ ∧ h₁.connect? s d = .ok h₂ ∧ Rearranged g₂ h₂ := by
  obtain ⟨⟨n, m, hfit⟩, hfree, rfl⟩ := connect?_eq_ok hok
  obtain ⟨⟨n', m', hfit'⟩, hfree', rfl⟩ := connect?_eq_ok hok'
  have hh' : EdgeFits h ⟨s', d'⟩ n' m' := hfit'.of_nodes hr.nodes
  have hleft := (hr.left.connected hfit hfree).connected hfit' hfree'
  simp only [mem_append, mem_singleton, or_imp, forall_and, forall_eq] at hfree'
  have hopen' : ∀ e ∈ h.edges, e.dst ≠ d' := fun e he => hfree'.1 e ((hr.edges e).1 he)
  have hright := hr.right.connected hh' hopen'
  have hh : EdgeFits { h with edges := h.edges ++ [⟨s', d'⟩] } ⟨s, d⟩ n m := hfit.of_nodes hr.nodes
  have hopen : ∀ e ∈ h.edges ++ [⟨s', d'⟩], e.dst ≠ d := by
    intro e he
    obtain he | he := mem_append.1 he
    · exact hfree e ((hr.edges e).1 he)
    rw [mem_singleton.1 he]
    exact Ne.symm hfree'.2
  refine ⟨_, _, connect?_ok hr.right hh' hopen', connect?_ok hright hh hopen, hleft,
    hright.connected hh hopen, hr.nodes, fun e => ?_⟩
  simp only [mem_append, hr.edges]
  exact or_right_comm

variable {b : Builder} {es : List EdgeRecord}

theorem addEdges_cons_ok {e : EdgeRecord} :
    addEdges b (e :: es) = .ok g ↔ ∃ src dst k, b.get? e.src = some src ∧ b.get? e.dst = some dst ∧
      b.graph.connect? ⟨src, e.srcPort⟩ ⟨dst, e.dstPort⟩ = .ok k ∧ addEdges ⟨k, b.ids⟩ es = .ok g := by
  rw [addEdges]
  cases b.get? e.src with
  | none => simp
  | some src =>
    cases b.get? e.dst with
    | none => simp
    | some dst => simp [Step.except_bind_ok]

theorem addEdges_rearranged (hr : Rearranged b.graph h) (hok : addEdges b es = .ok g) :
    ∃ g', addEdges ⟨h, b.ids⟩ es = .ok g' ∧ Rearranged g g' := by
  induction es generalizing b h with
  | nil =>
    cases hok
    exact ⟨h, rfl, hr⟩
  | cons e es ih =>
    obtain ⟨src, dst, k, hsrc, hdst, hc, hok⟩ := addEdges_cons_ok.1 hok
    obtain ⟨k', hc', hk⟩ := hr.connect? hc
    obtain ⟨g', hok', hg⟩ := ih (b := ⟨k, b.ids⟩) hk hok
    exact ⟨g', addEdges_cons_ok.2 ⟨src, dst, k', hsrc, hdst, hc', hok'⟩, hg⟩

theorem addEdges_perm {es' : List EdgeRecord} (hp : es.Perm es') (ha : b.graph.Arena)
    (hok : addEdges b es = .ok g) : ∃ g', addEdges b es' = .ok g' ∧ Rearranged g g' := by
  induction hp generalizing b g with
  | nil => exact ⟨g, hok, .refl (ha.addEdges hok).1⟩
  | cons e _ ih =>
    obtain ⟨src, dst, k, hsrc, hdst, hc, hok⟩ := addEdges_cons_ok.1 hok
    obtain ⟨g', hok', hg⟩ := ih (b := ⟨k, b.ids⟩) (ha.connect? hc).1 hok
    exact ⟨g', addEdges_cons_ok.2 ⟨src, dst, k, hsrc, hdst, hc, hok'⟩, hg⟩
  | swap e e' es =>
    obtain ⟨src, dst, k, hsrc, hdst, hc, hok⟩ := addEdges_cons_ok.1 hok
    obtain ⟨src', dst', k', hsrc', hdst', hc', hok⟩ := addEdges_cons_ok.1 hok
    obtain ⟨h₁, h₂, hh₁, hh₂, hk⟩ := connect?_swap (.refl ha) hc hc'
    obtain ⟨g', hok', hg⟩ := addEdges_rearranged (b := ⟨k', b.ids⟩) hk hok
    exact ⟨g', addEdges_cons_ok.2 ⟨src', dst', h₁, hsrc', hdst', hh₁,
      addEdges_cons_ok.2 ⟨src, dst, h₂, hsrc, hdst, hh₂, hok'⟩⟩, hg⟩
  | trans _ _ ih ih' =>
    obtain ⟨g₁, hok₁, hg₁⟩ := ih ha hok
    obtain ⟨g₂, hok₂, hg₂⟩ := ih' ha hok₁
    exact ⟨g₂, hok₂, hg₁.trans hg₂⟩

theorem toGraph_perm {d : Document} (hp : d.edges.Perm es) (hd : d.toGraph = .ok g) :
    ∃ g', { d with edges := es }.toGraph = .ok g' ∧ Rearranged g g' := by
  obtain ⟨hv, hne, hdup, b, b', hrec, hlink, hok⟩ := toGraph_eq_ok.1 hd
  have hf := filing_of_linkCalls (duplicate?_eq_none.1 hdup).1 hrec hlink
  obtain ⟨g', hok', hr⟩ := addEdges_perm hp (hf.arena hne) hok
  exact ⟨g', toGraph_eq_ok.2 ⟨hv, hne, hdup, b, b', hrec, hlink, hok'⟩, hr⟩

end Document

end Qirc
