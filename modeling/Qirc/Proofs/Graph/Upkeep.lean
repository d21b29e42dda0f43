import Qirc.Graph.GateSet
import Qirc.Graph.Inlining
import Qirc.Proofs.Graph.Edits
import Qirc.Proofs.Step

/-!
# Edits uphold the arena

Every edit leaves an arena behind, also one that fails after some of its work is done, and no edit
brings a dead node back or makes another node of one that is there. An edit made of others does so
because they do.
-/

namespace Qirc

open List Step

namespace NodeBody

/-- The fields of a body that its kind has no use for are empty. -/
structure Regular (b : NodeBody) : Prop where
  callee : b.kind ≠ .call → b.callee = none
  const : b.kind = .const → b.sig = ⟨[], [b.const.type]⟩
  payload : b.kind ≠ .const → b.const = Payload.zero .invalid

theorem Regular.settleCallee {b : NodeBody} (hb : b.Regular) : b.settleCallee = b := by
  rw [NodeBody.settleCallee, if_neg]
  rintro ⟨hcallee, hkind⟩
  rw [hb.callee hkind] at hcallee
  cases hcallee

theorem Regular.plain {kind : NodeKind} {sig : Signature} (name : String) (op : Operation)
    (hk : kind ≠ .const) : ({ ofKind kind sig with name, op } : NodeBody).Regular :=
  ⟨fun _ => rfl, fun h => absurd h hk, fun _ => rfl⟩

theorem Regular.constant (c : Payload) :
    ({ ofKind .const ⟨[], [c.type]⟩ with const := c } : NodeBody).Regular :=
  ⟨fun _ => rfl, fun _ => rfl, absurd rfl⟩

end NodeBody

namespace Graph

variable {α β : Type} {g h k : Graph}

/-- The nodes of the first graph are those of the second one at their positions, dead if they were
dead; new nodes come behind them. -/
structure Lasting (g h : Graph) : Prop where
  size : g.nodes.size ≤ h.nodes.size
  slot : ∀ id n, g.slot? id = some n → ∃ n', h.slot? id = some n' ∧ n'.body = n.body ∧
    n'.parent = n.parent ∧ (n'.live = true → n.live = true)

namespace Lasting

theorem of_nodes (he : h.nodes = g.nodes) : Lasting g h where
  size := Nat.le_of_eq (by rw [he])
  slot id n hn := ⟨n, by rwa [slot?, he], rfl, rfl, fun hl => hl⟩

theorem refl (g : Graph) : Lasting g g := of_nodes rfl

theorem trans (hgh : Lasting g h) (hhk : Lasting h k) : Lasting g k where
  size := Nat.le_trans hgh.size hhk.size
  slot id n hn := by
    obtain ⟨n', hn', hbody, hparent, hlive⟩ := hgh.slot id n hn
    obtain ⟨n'', hn'', hbody', hparent', hlive'⟩ := hhk.slot id n' hn'
    exact ⟨n'', hn'', hbody'.trans hbody, hparent'.trans hparent, fun hl => hlive (hlive' hl)⟩

theorem update (id : NodeId) {f : Node → Node} (hbody : ∀ n, (f n).body = n.body)
    (hparent : ∀ n, (f n).parent = n.parent) (hlive : ∀ n, (f n).live = true → n.live = true) :
    Lasting g (g.update id f) where
  size := Nat.le_of_eq (update_size id f).symm
  slot x n hn := by
    rw [slot?_update, hn]
    by_cases hx : x = id
    · exact ⟨f n, by rw [if_pos hx]; rfl, hbody n, hparent n, hlive n⟩
    · exact ⟨n, by rw [if_neg hx], rfl, rfl, fun hl => hl⟩

theorem adopt (p : NodeId) (body : NodeBody) : Lasting g (g.adopt p body) := by
  have halloc : Lasting g (g.alloc body.settleCallee (some p)) := by
    refine ⟨by simp [alloc], fun x n hn => ⟨n, ?_, rfl, rfl, fun hl => hl⟩⟩
    have hx : x ≠ g.nodes.size := by
      rintro rfl
      rw [slot?_of_size_le (Nat.le_refl _)] at hn
      cases hn
    rw [slot?_alloc, if_neg hx, hn]
  exact halloc.trans (.update p (fun _ => rfl) (fun _ => rfl) fun _ hl => hl)

theorem setChildren (id : NodeId) (cs : List NodeId) : Lasting g (g.setChildren id cs) :=
  .update id (fun _ => rfl) (fun _ => rfl) fun _ hl => hl

theorem bury (doomed : List NodeId) : Lasting g (g.bury doomed) := by
  induction doomed generalizing g with
  | nil => exact .refl g
  | cons d rest ih =>
    have hstep : Lasting g (g.update d fun n => { n with live := false, children := [] }) :=
      .update d (fun _ => rfl) (fun _ => rfl) fun _ hl => by cases hl
    exact hstep.trans ih

theorem without (id p : NodeId) : Lasting g (g.without id p) := by
  unfold Graph.without
  generalize hh : ({ g with edges := _ } : Graph) = h
  have hg : Lasting g h := .of_nodes (by rw [← hh])
  have hp : Lasting h (h.update p fun n => { n with children := n.children.filter (· != id) }) :=
    .update p (fun _ => rfl) (fun _ => rfl) fun _ hl => hl
  exact hg.trans (hp.trans (.bury _))

theorem node (hl : Lasting g h) {id : NodeId} {n' : Node} (hn : h.node? id = some n')
    (hlt : id < g.nodes.size) :
    ∃ n, g.node? id = some n ∧ n'.body = n.body ∧ n'.parent = n.parent := by
  obtain ⟨n, hslot⟩ : ∃ n, g.slot? id = some n := ⟨_, Array.getElem?_eq_getElem hlt⟩
  obtain ⟨m, hm, hbody, hparent, hlive⟩ := hl.slot id n hslot
  cases (node?_slot hn).symm.trans hm
  exact ⟨n, node?_of_slot hslot (hlive (node?_live hn)), hbody, hparent⟩

theorem kind? (hl : Lasting g h) {id : NodeId} {k : NodeKind} (hk : h.kind? id = some k)
    (hlt : id < g.nodes.size) : g.kind? id = some k := by
  obtain ⟨n', hn', rfl⟩ := node_of_kind? hk
  obtain ⟨n, hn, hbody, -⟩ := hl.node hn' hlt
  rw [kind?_of_node hn]
  exact congrArg (fun b => some b.kind) hbody.symm

end Lasting

/-- A relation between what an edit finds and what it leaves in which the edges have no part. -/
class Bearing (R : Graph → Graph → Prop) : Prop where
  of_nodes : ∀ {g h : Graph}, h.nodes = g.nodes → R g h
  trans : ∀ {g h k : Graph}, R g h → R h k → R g k

/-- One that also holds when a regular node is made, a node is copied, children are put in another
order or a subtree goes. -/
class Enduring (R : Graph → Graph → Prop) : Prop extends Bearing R where
  adopt : ∀ {g : Graph} {body : NodeBody} (p : NodeId), body.Regular → R g (g.adopt p body)
  copy : ∀ {g : Graph} {id : NodeId} {n : Node} (p : NodeId), g.slot? id = some n →
    R g (g.adopt p n.body)
  setChildren : ∀ {g : Graph} (p : NodeId) (cs : List NodeId), R g (g.setChildren p cs)
  without : ∀ {g : Graph} (id p : NodeId), R g (g.without id p)

instance : Enduring Lasting where
  of_nodes := .of_nodes
  trans := .trans
  adopt p _ := .adopt p _
  copy p _ := .adopt p _
  setChildren := .setChildren
  without := .without

def SameNodes (g h : Graph) : Prop := h.nodes = g.nodes

instance : Bearing SameNodes := ⟨fun he => he, fun hgh hhk => Eq.trans hhk hgh⟩

/-- Whatever comes of the edit, it leaves an arena that stands in the relation to the one it
found. -/
def Upholds (R : Graph → Graph → Prop) (x : Step Graph α) (g : Graph) : Prop :=
  g.Arena → (x.after g).Arena ∧ R g (x.after g)

variable {R : Graph → Graph → Prop}

namespace Upholds

variable {x : Step Graph α}

theorem ok {a : α} (hx : Upholds R x g) (ha : g.Arena) (hok : x g = .ok a h) :
    h.Arena ∧ R g h := after_of_ok hok ▸ hx ha

theorem inContext (context : String) (hx : Upholds R x g) :
    Upholds R (Step.inContext context x) g := by
  unfold Upholds
  rw [after_inContext]
  exact hx

theorem modify {f : Graph → Graph} (hf : g.Arena → (f g).Arena ∧ R g (f g)) :
    Upholds R (modify f : Step Graph PUnit) g := hf

theorem ite {c : Prop} [Decidable c] {y : Step Graph α} (hx : c → Upholds R x g)
    (hy : ¬c → Upholds R y g) : Upholds R (if c then x else y) g := by
  split
  · exact hx (by assumption)
  · exact hy (by assumption)

variable [Bearing R]

theorem idle (hx : x.after g = g) : Upholds R x g := by
  intro ha
  rw [hx]
  exact ⟨ha, Bearing.of_nodes rfl⟩

theorem pure (a : α) : Upholds R (Pure.pure a : Step Graph α) g := idle rfl

theorem throw (e : Failure) : Upholds R (MonadExcept.throw e : Step Graph α) g := idle rfl

theorem ofExcept (x : Except Failure α) : Upholds R (Step.ofExcept x) g :=
  idle (after_ofExcept x g)

theorem bind {f : α → Step Graph β} (hx : Upholds R x g)
    (hf : ∀ a h, x g = .ok a h → Upholds R (f a) h) : Upholds R (x >>= f) g := by
  intro ha
  obtain ⟨harena, hlast⟩ := hx ha
  obtain ⟨a, h, hxg, hafter⟩ | ⟨e, h, hxg, hafter⟩ := after_bind x f g
  · rw [after_of_ok hxg] at harena hlast
    obtain ⟨harena', hlast'⟩ := hf a h hxg harena
    rw [hafter]
    exact ⟨harena', Bearing.trans hlast hlast'⟩
  · have hx : x.after g = h := by simp [Step.after, hxg]
    rw [hafter, ← hx]
    exact ⟨harena, hlast⟩

theorem throw_bind (e : Failure) {f : α → Step Graph β} :
    Upholds R (MonadExcept.throw e >>= f) g := idle rfl

theorem get_bind {f : Graph → Step Graph α} (hf : Upholds R (f g) g) :
    Upholds R (MonadState.get >>= f) g :=
  bind (idle rfl) fun a h hget => by
    obtain ⟨rfl, rfl⟩ := get_ok.1 hget
    exact hf

theorem mapM {f : α → Step Graph β} (hf : ∀ a g, Upholds R (f a) g) {l : List α} :
    Upholds R (l.mapM f) g := by
  induction l generalizing g with
  | nil => exact mapM_nil (f := f) ▸ pure _
  | cons a l ih =>
    rw [mapM_cons]
    exact bind (hf a g) fun _ _ _ => bind ih fun _ _ _ => pure _

end Upholds

variable [Bearing R] {E : Graph → Graph → Prop} [Enduring E]

/-! ## Building -/

section Building

variable {parent : NodeId} {body : NodeBody}

theorem Upholds.of_adopt (hR : ∀ n, g.node? parent = some n → R g (g.adopt parent body)) :
    Upholds R (place parent body) g := by
  cases hn : g.node? parent with
  | none => exact .idle (by simp [Step.after, place, refusal?, hn])
  | some n =>
    cases hm : n.kind.mayHold body.kind with
    | true =>
      intro ha
      rw [after_of_ok (place_ok hn hm)]
      exact ⟨ha.adopt hn hm, hR n hn⟩
    | false => exact .idle (by simp [Step.after, place, refusal?, hn, hm])

theorem upholds_place (hb : body.Regular) : Upholds E (place parent body) g :=
  .of_adopt fun _ _ => Enduring.adopt parent hb

variable {sig : Signature}

theorem upholds_plain {kind : NodeKind} {name : String} {op : Operation} (hk : kind ≠ .const) :
    Upholds E (place parent { NodeBody.ofKind kind sig with name, op }) g :=
  upholds_place (.plain name op hk)

theorem upholds_placeBoundary {region : NodeId} : Upholds E (placeBoundary region sig) g :=
  .bind (upholds_plain nofun) fun _ _ _ => .bind (upholds_plain nofun) fun _ _ _ => .pure _

theorem upholds_addCall {callee : NodeId} : Upholds E (addCall parent callee) g := by
  refine .get_bind ?_
  cases g.node? callee with
  | none => exact .throw _
  | some fn =>
    exact .ite (fun _ => upholds_place ⟨absurd rfl, nofun, fun _ => rfl⟩) fun _ => .throw _

theorem upholds_addConditional {others outputs : List ValueType} :
    Upholds E (addConditional parent others outputs) g :=
  .bind (upholds_plain nofun) fun _ _ _ => .bind (upholds_plain nofun) fun _ _ _ =>
    .bind upholds_placeBoundary fun _ _ _ => .bind (upholds_plain nofun) fun _ _ _ =>
      .bind upholds_placeBoundary fun _ _ _ => .pure _

end Building

/-! ## Edges -/

section Edges

variable {src dst : Port}

theorem connect?_eq_ok (hc : g.connect? src dst = .ok h) :
    (∃ s t, EdgeFits g ⟨src, dst⟩ s t) ∧ (∀ e ∈ g.edges, e.dst ≠ dst) ∧
      h = { g with edges := g.edges ++ [⟨src, dst⟩] } := by
  unfold connect? at hc
  cases hs : g.node? src.node with
  | none => simp [hs] at hc
  | some s =>
    cases ht : g.node? dst.node with
    | none => simp [hs, ht] at hc
    | some t =>
      simp only [hs, ht] at hc
      split at hc
      · cases hc
      rename_i hout
      split at hc
      · cases hc
      rename_i hin
      split at hc
      · cases hc
      rename_i hsib
      split at hc
      · rename_i hst hdt
        split at hc
        · cases hc
        rename_i hty
        split at hc
        · cases hc
        rename_i hfree
        cases hc
        simp only [Bool.not_eq_true', Bool.not_eq_false, ne_eq,
          Decidable.not_not] at hout hin hsib hty
        refine ⟨⟨s, t, hs, ht, hsib, hout, hin, ?_⟩, ?_, rfl⟩
        · rw [hst, hdt, hty]
        intro e he hd
        exact hfree (any_eq_true.2 ⟨e, he, by simpa using hd⟩)
      · cases hc

theorem Arena.connect? (ha : g.Arena) (hc : g.connect? src dst = .ok h) :
    h.Arena ∧ h.nodes = g.nodes := by
  obtain ⟨⟨s, t, hfit⟩, hfree, rfl⟩ := connect?_eq_ok hc
  exact ⟨ha.connected hfit hfree, rfl⟩

theorem upholds_connect : Upholds R (connect src dst) g := by
  cases hc : g.connect? src dst with
  | error f => exact .idle (by simp [Step.after, connect, hc])
  | ok h =>
    intro ha
    have hok : connect src dst g = .ok () h := by simp [connect, hc]
    rw [after_of_ok hok]
    obtain ⟨harena, hnodes⟩ := ha.connect? hc
    exact ⟨harena, Bearing.of_nodes hnodes⟩

theorem upholds_disconnect : Upholds R (modify (·.disconnect dst) : Step Graph PUnit) g :=
  .modify fun ha => ⟨ha.disconnect dst, Bearing.of_nodes rfl⟩

theorem upholds_moveTargets {dest : Port} {ports : List Port} :
    Upholds R (moveTargets dest ports) g := by
  induction ports generalizing g with
  | nil => exact .pure _
  | cons dst rest ih =>
    exact .bind upholds_disconnect fun _ _ _ =>
      .bind upholds_connect fun _ _ _ => ih

theorem upholds_replaceUses {dest : Port} : Upholds R (replaceUses src dest) g :=
  .get_bind upholds_moveTargets

theorem upholds_reconnect {old : Port} : Upholds R (reconnect old dst) g := by
  refine .get_bind ?_
  cases g.source? old with
  | none => exact .throw _
  | some src => exact .bind upholds_disconnect fun _ _ _ => upholds_connect

end Edges

/-! ## Places -/

section Places

variable {id : NodeId}

theorem Upholds.of_without (hR : g.Arena → ∀ k p n, HangsFrom g id k p n → R g (g.without id p)) :
    Upholds R (removeSubtree id) g := by
  intro ha
  cases hn : g.node? id with
  | none => exact Upholds.idle (by simp [Step.after, removeSubtree, removeSubtree?, hn]) ha
  | some n =>
    by_cases hroot : id = root
    · refine Upholds.idle ?_ ha
      simp [Step.after, removeSubtree, removeSubtree?, hn, if_pos hroot]
    obtain ⟨p, k, hh⟩ := ha.hangs id n hn hroot
    rw [after_of_ok (removeSubtree_ok hh)]
    exact ⟨ha.without hh, hR ha _ p k hh⟩

theorem upholds_removeSubtree : Upholds E (removeSubtree id) g :=
  .of_without fun _ _ p _ _ => Enduring.without id p

theorem reinsert_perm {l : List NodeId} (hnd : l.Nodup) (hid : id ∈ l) (n : Nat) :
    ((l.filter (· != id)).take n ++ id :: (l.filter (· != id)).drop n).Perm l := by
  rw [← hnd.erase_eq_filter]
  refine perm_middle.trans ?_
  rw [take_append_drop]
  exact (perm_cons_erase hid).symm

theorem inserted_perm (l : List NodeId) (n k : Nat) :
    ((l.take n).take k ++ l.drop n ++ (l.take n).drop k).Perm l := by
  calc ((l.take n).take k ++ l.drop n ++ (l.take n).drop k).Perm
        ((l.take n).take k ++ ((l.take n).drop k ++ l.drop n)) := by
          rw [append_assoc]
          exact List.Perm.append_left _ perm_append_comm
    _ = l := by rw [← append_assoc, take_append_drop, take_append_drop]

theorem Upholds.of_setChildren {anchor : NodeId} (hR : ∀ p cs, R g (g.setChildren p cs)) :
    Upholds R (moveBefore id anchor) g := by
  refine .get_bind ?_
  cases hn : g.node? id with
  | none => exact .throw _
  | some n =>
    cases ha : g.node? anchor with
    | none => exact .throw _
    | some a =>
      refine .ite (fun _ => .throw _) fun hsame => ?_
      simp only [not_or, ne_eq, Decidable.not_not] at hsame
      obtain ⟨hparent, hne⟩ := hsame
      cases hp : n.parent with
      | none => exact .throw _
      | some p =>
        cases hpn : g.node? p with
        | none =>
          simp only [Option.bind_some, hpn]
          exact .throw _
        | some pn =>
          simp only [Option.bind_some, hpn, Option.getD_some]
          intro harena
          obtain ⟨_, hid⟩ := harena.hangs_of_parent hn hp
          obtain ⟨_, hanchor⟩ := harena.hangs_of_parent ha (hparent.symm.trans hp)
          cases hpn.symm.trans hid.holder
          cases hpn.symm.trans hanchor.holder
          have hmem : anchor ∈ pn.children.filter (· != id) :=
            mem_filter.2 ⟨hanchor.listed, by simpa using Ne.symm hne⟩
          cases hk : (pn.children.filter (· != id)).findIdx? (· == anchor) with
          | none =>
            rw [findIdx?_eq_none_iff] at hk
            simpa using hk anchor hmem
          | some k =>
            exact ⟨harena.setChildren hpn (reinsert_perm (harena.nodup p pn hpn) hid.listed k),
              hR p _⟩

theorem upholds_moveBefore {anchor : NodeId} : Upholds E (moveBefore id anchor) g :=
  .of_setChildren Enduring.setChildren

end Places

/-! ## Inlining -/

section Inlining

variable {parent : NodeId} {depth : Nat} {map : NodeMap}

theorem Upholds.of_copyTree {id : NodeId} (hR : ∀ {g : Graph} {id p : NodeId} {n m : Node},
    g.slot? id = some n → g.node? p = some m → R g (g.adopt p n.body)) :
    Upholds R (copyTree depth parent id) g := by
  induction depth generalizing g parent id with
  | zero => exact .throw _
  | succ depth ih =>
    refine .get_bind ?_
    cases hn : g.slot? id with
    | none => exact .throw _
    | some n =>
      exact .bind (.of_adopt fun _ hm => hR hn hm) fun _ _ _ =>
        .get_bind (.bind (.mapM fun _ _ => ih) fun _ _ _ => .pure _)

theorem upholds_copyTree {id : NodeId} : Upholds E (copyTree depth parent id) g :=
  .of_copyTree fun hn _ => Enduring.copy _ hn

theorem upholds_copyTrees {ids : List NodeId} : Upholds E (copyTrees depth parent ids) g :=
  .bind (.mapM fun _ _ => upholds_copyTree) fun _ _ _ => .pure _

variable {call input : NodeId} {ports : List Nat}

theorem upholds_rewireInputs {old fresh : NodeId} :
    Upholds R (rewireInputs call input old fresh map ports) g := by
  induction ports generalizing g with
  | nil => exact .pure _
  | cons i rest ih =>
    refine .get_bind ?_
    cases (g.edges.find? fun e => e.dst == ⟨old, i⟩).map (·.src) with
    | none => exact ih
    | some src =>
      exact .bind (.ofExcept _) fun _ _ _ => .bind upholds_connect fun _ _ _ => ih

theorem upholds_rewireAll {todo : NodeMap} : Upholds R (rewireAll call input map todo) g := by
  induction todo generalizing g with
  | nil => exact .pure _
  | cons entry rest ih =>
    exact .get_bind (.bind upholds_rewireInputs fun _ _ _ => ih)

theorem upholds_rewireOutputs {output : NodeId} {name : String} :
    Upholds R (rewireOutputs call input output name map ports) g := by
  induction ports generalizing g with
  | nil => exact .pure _
  | cons j rest ih =>
    refine .get_bind ?_
    cases g.source? ⟨output, j⟩ with
    | none => exact .throw _
    | some src =>
      have hmove : ∀ {start ports h}, Upholds R (do
          moveTargets start ports
          rewireOutputs call input output name map rest) h :=
        .bind upholds_moveTargets fun _ _ _ => ih
      refine .ite (fun _ => ?_) fun _ => .bind (.pure _) fun _ _ _ => hmove
      cases g.source? ⟨call, src.index⟩ with
      | none => exact .throw_bind _
      | some p => exact .bind (.pure _) fun _ _ _ => hmove

theorem upholds_inlineCall : Upholds E (inlineCall call) g := by
  refine .get_bind ?_
  cases hc : g.node? call with
  | none => exact .throw _
  | some c =>
    refine .ite (fun _ => .throw_bind _) fun _ => ?_
    cases c.body.callee.bind g.node? with
    | none => exact .throw _
    | some callee =>
      refine .ite (fun _ => .throw_bind _) fun _ => .bind (.ofExcept _) fun boundary h hb => ?_
      obtain ⟨-, rfl⟩ := ofExcept_ok.1 hb
      cases hp : c.parent.bind h.node? with
      | none => exact .throw _
      | some parent =>
        cases hk : parent.children.findIdx? (· == call) with
        | none =>
          intro ha
          obtain ⟨p, hcp, hpn⟩ := Option.bind_eq_some_iff.1 hp
          obtain ⟨n, hh⟩ := ha.hangs_of_parent hc hcp
          cases hpn.symm.trans hh.holder
          rw [findIdx?_eq_none_iff] at hk
          simpa using hk call hh.listed
        | some k =>
          refine .bind upholds_copyTrees fun map h' _ => .get_bind ?_
          rw [hk]
          refine .bind (.modify ?_) fun _ _ _ => ?_
          · exact fun ha => ⟨ha.reorder (inserted_perm _ _ k), Enduring.setChildren _ _⟩
          exact .bind upholds_rewireAll fun _ _ _ =>
            .bind upholds_rewireOutputs fun _ _ _ => upholds_removeSubtree

theorem upholds_inlineSites {name : String} {sites : List NodeId} :
    Upholds E (inlineSites name sites) g := by
  induction sites generalizing g with
  | nil => exact .pure _
  | cons call rest ih => exact .bind (.inContext _ upholds_inlineCall) fun _ _ _ => ih

theorem upholds_inlineCallers {cg : CallGraph} {callers : List NodeId} :
    Upholds E (inlineCallers cg callers) g := by
  induction callers generalizing g with
  | nil => exact .pure _
  | cons caller rest ih => exact .get_bind (.bind upholds_inlineSites fun _ _ _ => ih)

theorem upholds_inlineCalls {chosen : List NodeId} : Upholds E (inlineCalls chosen) g := by
  refine .get_bind ?_
  cases chosen.find? (fun id => g.kind? id != some .call) with
  | some id => exact .throw _
  | none =>
    refine .ite (fun _ => .pure _) fun _ => .bind (.ofExcept _) fun cg h _ => ?_
    refine .ite (fun _ => .throw_bind _) fun _ => .bind upholds_inlineCallers fun _ h' _ => ?_
    refine .get_bind ?_
    cases chosen.find? h'.contains with
    | some id => exact .throw _
    | none => exact .pure _

end Inlining

/-! ## Pruning and the base gate set -/

section Passes

theorem upholds_pruneFuncs {live funcs : List NodeId} {done : Pruned} :
    Upholds E (pruneFuncs live done funcs) g := by
  induction funcs generalizing g done with
  | nil => exact .pure _
  | cons fn rest ih =>
    exact .ite (fun _ => ih) fun _ =>
      .get_bind (.bind (.inContext _ upholds_removeSubtree) fun _ _ _ => ih)

theorem upholds_prune : Upholds E prune g :=
  .get_bind (.bind (.ofExcept _) fun _ _ _ => .bind (.ofExcept _) fun _ _ _ => upholds_pruneFuncs)

/-- What the expansion of a gate is made of, apart from the edges. -/
structure Expands (R : Graph → Graph → Prop) (id : NodeId) : Prop where
  const : ∀ {g : Graph} {parent : NodeId} {angle : Float},
    Upholds R (addConst parent { Payload.zero .float with float := angle }) g
  rotation : ∀ {g : Graph} {parent : NodeId} {text : String},
    Upholds R (addOp parent ⟨⟨quantumDialect, "Rx"⟩, "", text⟩ ⟨[.qubit, .float], [.qubit]⟩) g
  controlled : ∀ {g : Graph} {parent : NodeId},
    Upholds R (addOp parent ⟨⟨quantumDialect, "CX"⟩, "", ""⟩ ⟨qubits 2, qubits 2⟩) g
  move : ∀ {g : Graph} {c anchor : NodeId}, Upholds R (moveBefore c anchor) g
  remove : ∀ {g : Graph}, Upholds R (removeSubtree id) g

def SameFunctions (g h : Graph) : Prop :=
  ∀ x, h.kind? x = some .funcDefn ↔ g.kind? x = some .funcDefn

/-- The functions stay what they are, unless some of the nodes are functions. -/
structure Spares (ids : List NodeId) (g h : Graph) : Prop where
  lasting : Lasting g h
  functions : (∀ id ∈ ids, ∃ n, g.slot? id = some n ∧ n.kind ≠ .funcDefn) → SameFunctions g h

namespace Spares

variable {ids : List NodeId}

instance : Bearing (Spares ids) where
  of_nodes he := ⟨.of_nodes he, fun _ x => by simp only [kind?, node?, slot?, he]⟩
  trans hgh hhk := by
    refine ⟨hgh.lasting.trans hhk.lasting, fun hids x => ?_⟩
    refine (hhk.functions (fun id hid => ?_) x).trans (hgh.functions hids x)
    obtain ⟨n, hn, hk⟩ := hids id hid
    obtain ⟨n', hn', hbody, -⟩ := hgh.lasting.slot id n hn
    exact ⟨n', hn', by unfold Node.kind; rwa [hbody]⟩

variable {parent : NodeId}

theorem place {body : NodeBody} (hk : body.kind ≠ .funcDefn) :
    Upholds (Spares ids) (place parent body) g := by
  refine .of_adopt fun n hn => ⟨.adopt parent body, fun _ x => ?_⟩
  by_cases hx : x = g.nodes.size
  · subst hx
    rw [kind?_of_node (adopt_node_new body hn), kind?, node?_of_size_le (Nat.le_refl _)]
    simpa [Node.fresh, Node.kind] using hk
  · by_cases hp : x = parent
    · subst hp
      rw [kind?_of_node (adopt_node_parent body hn), kind?_of_node hn]
      rfl
    · rw [kind?, kind?, node?_congr (adopt_slot_other body hp hx)]

theorem addConst {c : Payload} :
    Upholds (Spares ids) (addConst parent c) g := place (by simp [NodeBody.ofKind])

theorem addOp {op : Operation} {sig : Signature} :
    Upholds (Spares ids) (addOp parent op sig) g := place (by simp [NodeBody.ofKind])

theorem moveBefore {anchor c : NodeId} : Upholds (Spares ids) (moveBefore c anchor) g := by
  refine .of_setChildren fun p cs => ⟨.setChildren p cs, fun _ x => ?_⟩
  rw [kind?, setChildren_node, kind?]
  cases g.node? x with
  | none => rfl
  | some n =>
    split <;> rfl

theorem removeSubtree {id : NodeId} (hid : id ∈ ids) :
    Upholds (Spares ids) (removeSubtree id) g := by
  refine .of_without fun ha k p n hh => ⟨.without id p, fun hids x => ?_⟩
  obtain ⟨m, hm, hk⟩ := hids id hid
  cases (node?_slot hh.node).symm.trans hm
  have hspared : ∀ l, g.node? x = some l → l.kind = .funcDefn → x ∉ g.walk id := by
    intro l hl hlk hx
    obtain ⟨-, rfl | hu⟩ := (mem_walk_iff ha).1 hx
    · cases hl.symm.trans hh.node
      exact hk hlk
    · exact hh.ne_root (ha.function_under hl hlk hu)
  constructor
  · intro hx
    obtain ⟨l, hl, hlk⟩ := node_of_kind? hx
    obtain ⟨-, l', hl', rfl⟩ := node_of_without ha hh hl
    rw [kind?_of_node hl']
    exact congrArg some hlk
  · intro hx
    obtain ⟨l, hl, hlk⟩ := node_of_kind? hx
    rw [kind?_of_node (without_of_node ha hh hl (hspared l hl hlk))]
    exact congrArg some hlk

end Spares

variable {id : NodeId}

theorem Spares.expands {ids : List NodeId} (hid : id ∈ ids) : Expands (Spares ids) id where
  const := Spares.addConst
  rotation := Spares.addOp
  controlled := Spares.addOp
  move := Spares.moveBefore
  remove := Spares.removeSubtree hid

theorem Enduring.expands (id : NodeId) : Expands E id where
  const := upholds_place (.constant _)
  rotation := upholds_plain nofun
  controlled := upholds_plain nofun
  move := upholds_moveBefore
  remove := upholds_removeSubtree

variable {parent : NodeId}

theorem upholds_expandRotation {angle : Float} {text : String} (hR : Expands R id) :
    Upholds R (expandRotation angle text id parent) g :=
  .bind hR.const fun _ _ _ => .bind hR.rotation fun _ _ _ =>
    .bind hR.move fun _ _ _ => .bind hR.move fun _ _ _ =>
      .bind upholds_reconnect fun _ _ _ => .bind upholds_connect fun _ _ _ =>
        .bind upholds_replaceUses fun _ _ _ => hR.remove

theorem upholds_addControlledX (hR : Expands R id) : Upholds R (addControlledX id parent) g :=
  .bind hR.controlled fun _ _ _ => .bind hR.move fun _ _ _ => .pure _

theorem upholds_expandSwap (hR : Expands R id) : Upholds R (expandSwap id parent) g :=
  .bind (upholds_addControlledX hR) fun _ _ _ => .bind (upholds_addControlledX hR) fun _ _ _ =>
    .bind (upholds_addControlledX hR) fun _ _ _ =>
      .bind upholds_reconnect fun _ _ _ => .bind upholds_reconnect fun _ _ _ =>
        .bind upholds_connect fun _ _ _ => .bind upholds_connect fun _ _ _ =>
          .bind upholds_connect fun _ _ _ => .bind upholds_connect fun _ _ _ =>
            .bind upholds_replaceUses fun _ _ _ => .bind upholds_replaceUses fun _ _ _ =>
              hR.remove

theorem upholds_expand {rule : GateRule} {n : Node} (hR : Expands R id) :
    Upholds R (rule.expand id n) g := by
  refine .ite (fun _ => .throw _) fun _ => ?_
  cases rule with
  | rotateX angle text => exact upholds_expandRotation hR
  | swap => exact upholds_expandSwap hR

theorem Arena.expandGates_upholds (ha : g.Arena) (ids : List NodeId) (done : Expanded)
    (hR : ∀ id ∈ ids, Expands R id) :
    (expandGates ids done g).2.Arena ∧ R g (expandGates ids done g).2 := by
  induction ids generalizing g done with
  | nil => exact ⟨ha, Bearing.of_nodes rfl⟩
  | cons id rest ih =>
    rw [forall_mem_cons] at hR
    unfold expandGates
    cases g.node? id with
    | none => exact ⟨ha, Bearing.of_nodes rfl⟩
    | some n =>
      dsimp only
      cases gateRule? n.body.op.key with
      | none => exact ⟨ha, Bearing.of_nodes rfl⟩
      | some rule =>
        dsimp only
        have hexpand : Upholds R (rule.expand id n) g := upholds_expand hR.1
        have hstep :=
          hexpand.inContext ("rebase " ++ n.body.op.key.text ++ s!" (node {id})") ha
        unfold Step.after at hstep
        split
        · rename_i hok
          rw [hok] at hstep
          obtain ⟨ha', hR'⟩ := ih hstep.1 _ hR.2
          exact ⟨ha', Bearing.trans hstep.2 hR'⟩
        · rename_i herror
          rw [herror] at hstep
          exact hstep

theorem Arena.rebase_upholds (ha : g.Arena) (validated : Bool)
    (hR : ∀ id ∈ g.outsideBase, Expands R id) :
    (rebase validated g).2.Arena ∧ R g (rebase validated g).2 := by
  unfold rebase
  cases g.entry with
  | error f => exact ⟨ha, Bearing.of_nodes rfl⟩
  | ok _ =>
    have h := ha.expandGates_upholds g.outsideBase [] hR
    generalize expandGates g.outsideBase [] g = r at h
    obtain ⟨⟨done, f⟩, g'⟩ := r
    cases f with
    | some f => exact h
    | none =>
      dsimp only
      split
      · split <;> exact h
      · exact h

theorem outsideBase_slot (hid : id ∈ g.outsideBase) :
    ∃ n, g.slot? id = some n ∧ n.kind ≠ .funcDefn := by
  obtain ⟨-, hop⟩ := mem_filter.1 hid
  cases hn : g.node? id with
  | none => simp [hn] at hop
  | some n =>
    simp only [hn, Bool.and_eq_true, beq_iff_eq] at hop
    exact ⟨n, node?_slot hn, by simp [hop.1]⟩

theorem Arena.rebase (ha : g.Arena) (validated : Bool) :
    (rebase validated g).2.Arena ∧ Lasting g (rebase validated g).2 ∧
      SameFunctions g (rebase validated g).2 := by
  obtain ⟨ha', hspares⟩ := ha.rebase_upholds validated fun _ hid => Spares.expands hid
  exact ⟨ha', hspares.lasting, hspares.functions fun _ hid => outsideBase_slot hid⟩

end Passes

end Graph

end Qirc
