import Mathlib.Algebra.BigOperators.Group.Multiset.Basic
import Qirc.Proofs.Graph.CallsGone
import Qirc.Proofs.Graph.SplicedLaws

/-!
# What a body holds once calls are inlined

A body with its chosen calls written out holds its own operations and constants and, for each of the
calls, what the body it names holds when written out. Inlining one call adds what the function holds
to the body the call stood in, and to no other one.
-/

namespace Qirc.Graph

open List

variable {g h : Graph} {chosen : List NodeId}

/-- The operation or the constant that a node stands for. -/
def payload? (g : Graph) (x : NodeId) : Option (Operation ⊕ Payload) :=
  (g.node? x).bind fun n =>
    match n.kind with
    | .op => some (.inl n.body.op)
    | .const => some (.inr n.body.const)
    | _ => none

/-- The operations and constants in a body, as often as they occur. -/
def payloads (g : Graph) (f : NodeId) : Multiset (Operation ⊕ Payload) :=
  ((g.walk f).filterMap g.payload? : List (Operation ⊕ Payload))

/-- The chosen calls in a body. -/
def chosenIn (g : Graph) (chosen : List NodeId) (f : NodeId) : List NodeId :=
  (g.walk f).filter (· ∈ chosen)

def calleeOf (g : Graph) (c : NodeId) : NodeId := ((g.node? c).bind (·.body.callee)).getD absentNode

/-- What a body comes to hold when its chosen calls are written out, and those in their callees. -/
inductive Unfolds (g : Graph) (chosen : List NodeId) : NodeId → Multiset (Operation ⊕ Payload) → Prop
  | body {f : NodeId} (part : NodeId → Multiset (Operation ⊕ Payload))
      (hpart : ∀ c ∈ g.chosenIn chosen f, Unfolds g chosen (g.calleeOf c) (part c)) :
      Unfolds g chosen f (g.payloads f + ((g.chosenIn chosen f).map part).sum)

theorem perm_filterMap {α β : Type} {p : α → Option β} {xs ys : List α} (hx : xs.Nodup)
    (hy : ys.Nodup) (h : ∀ x b, p x = some b → (x ∈ xs ↔ x ∈ ys)) :
    (xs.filterMap p).Perm (ys.filterMap p) := by
  have hfilter : ∀ zs : List α, zs.filterMap p = (zs.filter fun x => (p x).isSome).filterMap p := by
    intro zs
    rw [filterMap_filter]
    refine filterMap_congr fun x _ => ?_
    cases p x <;> rfl
  rw [hfilter xs, hfilter ys]
  refine ((perm_ext_iff_of_nodup (hx.filter _) (hy.filter _)).2 fun x => ?_).filterMap p
  simp only [mem_filter]
  refine and_congr_left fun hsome => ?_
  obtain ⟨b, hb⟩ := Option.isSome_iff_exists.1 hsome
  exact h x b hb

theorem node_of_payload {x : NodeId} {b : Operation ⊕ Payload} (hb : g.payload? x = some b) :
    ∃ n, g.node? x = some n ∧ (n.kind = .op ∨ n.kind = .const) := by
  obtain ⟨n, hn, hb⟩ := Option.bind_eq_some_iff.1 hb
  refine ⟨n, hn, ?_⟩
  split at hb
  · exact .inl (by assumption)
  · exact .inr (by assumption)
  · cases hb

theorem payload?_of_same {x y : NodeId} {k l : Node} (hk : g.node? x = some k)
    (hl : h.node? y = some l) (hsame : Same k l) : h.payload? y = g.payload? x := by
  simp only [payload?, hk, hl, Option.bind_some, hsame.kind, hsame.op, hsame.const]

namespace CallSite.Spliced

variable {s : CallSite g} {made : NodeMap} {tops : List NodeId} (hs : s.Spliced h made tops)
include hs

theorem payload?_old {x : Nat} (hx : x < g.nodes.size) : h.payload? x = g.payload? x := by
  by_cases hcall : x = s.call
  · subst hcall
    simp [payload?, hs.gone, s.hangs.node, s.kind]
  cases hk : g.node? x with
  | none =>
    have hh : x ≠ s.holder := by
      rintro rfl
      cases s.hangs.holder.symm.trans hk
    simp [payload?, hk, node?_congr (hs.others x hx hh hcall)]
  | some k =>
    obtain ⟨l, hl, hm⟩ := hs.mirrors (.inl ⟨rfl, hcall, hx⟩) hk
    exact payload?_of_same hk hl hm.same

theorem payload?_walk (f : NodeId) : (g.walk f).filterMap h.payload? = (g.walk f).filterMap g.payload? :=
  filterMap_congr fun x hx => by
    obtain ⟨n, hn⟩ := node_of_mem_walkFrom hx
    exact hs.payload?_old (node?_lt hn)

theorem payload?_new {a b : NodeId} (hab : (a, b) ∈ made) : h.payload? b = g.payload? a := by
  obtain ⟨k, l, ht⟩ := hs.twins a b hab
  exact payload?_of_same ht.old ht.new (ht.same s.arena hs.arena)

/-- The operations and constants of the callee are those that have been copied. -/
theorem payloads_callee :
    g.payloads s.callee = (((made.map (·.1)).filterMap g.payload? : List _) : Multiset _) := by
  refine Multiset.coe_eq_coe.2 (perm_filterMap (walkFrom_nodup s.arena _ _) hs.once fun x b hb => ?_)
  obtain ⟨n, hn, hk⟩ := node_of_payload hb
  rw [mem_walk_iff s.arena, and_iff_right ⟨n, hn⟩]
  constructor
  · intro hx
    have hne : ∀ {y m}, g.node? y = some m → m.kind ≠ .op ∧ m.kind ≠ .const → x ≠ y := by
      rintro y m hm hmk rfl
      cases hn.symm.trans hm
      exact hk.elim hmk.1 hmk.2
    have hu := hx.resolve_left (hne s.function (by rw [s.isFunction]; decide))
    obtain ⟨y, hy⟩ := hs.copy_exists hu (hne s.bounded.first (by rw [s.bounded.firstKind]; decide))
      (hne s.bounded.last (by rw [s.bounded.lastKind]; decide))
    exact mem_map.2 ⟨_, hy, rfl⟩
  · intro hx
    obtain ⟨⟨a, b⟩, hab, rfl⟩ := mem_map.1 hx
    exact .inr (hs.key_under hab)

variable (hlast : Lasting g h)
include hlast

/-- The copies stand in the functions the call stood in. -/
theorem under_new {f : NodeId} (hf : g.kind? f = some .funcDefn) {a b : NodeId}
    (hab : (a, b) ∈ made) : Under h f b ↔ Under g f s.call := by
  have hdown : ∀ {f}, Under g f s.call → ∀ a b, (a, b) ∈ made → Under h f b := by
    intro f hu a
    obtain ⟨before, after, -, hnode⟩ := hs.holder
    have hholder : s.holder = f ∨ Under h f s.holder :=
      (hu.cases_parent s.hangs.node s.hangs.parent).imp_right
        (hlast.under_iff hs.arena hnode (node?_lt s.hangs.holder)).2
    induction a using Nat.strong_induction_on with
    | _ a ih =>
      intro b hab
      obtain ⟨k, l, ht⟩ := hs.twins a b hab
      obtain ⟨p, m, hh, -⟩ := (hs.key_under hab).hangs s.arena ht.old
      obtain ⟨q, hq, hpar⟩ := hs.parent_becomes hab ht.old hh.parent
      rw [parent?_of_node ht.new] at hpar
      obtain ⟨-, rfl⟩ | hpq := hq
      · exact .of_parent ht.new hpar hholder
      · exact .deeper ht.new hpar (ih p hh.older q hpq)
  refine ⟨fun hu => ?_, fun hu => hdown hu a b hab⟩
  obtain ⟨f', -, hf', hu'⟩ := s.arena.enclosing_ok (by rw [kind?_of_node s.hangs.node, s.kind])
  have hkind : ∀ {f}, g.kind? f = some .funcDefn → h.kind? f = some .funcDefn := by
    intro f hf
    obtain ⟨n, hn, hk⟩ := node_of_kind? hf
    obtain ⟨l, hl, hm⟩ := hs.mirrors (stands_self hn (by rw [hk]; decide)) hn
    rw [kind?_of_node hl, hm.same.kind, hk]
  cases hs.arena.function_unique (hkind hf) (hkind hf') hu (hdown hu' a b hab)
  exact hu'

theorem mem_walk {f x : NodeId} (hf : g.kind? f = some .funcDefn) {b : Operation ⊕ Payload}
    (hb : h.payload? x = some b) :
    x ∈ h.walk f ↔ x ∈ g.walk f ∨ Under g f s.call ∧ x ∈ made.map (·.2) := by
  obtain ⟨n, hn, -⟩ := node_of_payload hb
  obtain ⟨m, hm, -⟩ := node_of_kind? hf
  rw [mem_walk_iff hs.arena, mem_walk_iff s.arena, and_iff_right ⟨n, hn⟩]
  rcases hs.covered x with hlt | hge | ⟨a, hax⟩
  · obtain ⟨k, hk, -⟩ := node_of_payload ((hs.payload?_old hlt).symm.trans hb)
    rw [and_iff_right ⟨k, hk⟩, hlast.under_iff hs.arena hn hlt]
    refine (or_iff_left ?_).symm
    rintro ⟨-, hx⟩
    obtain ⟨⟨a, x⟩, hax, rfl⟩ := mem_map.1 hx
    exact Nat.not_lt_of_le (hs.fresh a x hax) hlt
  · exact absurd (node?_lt hn) (Nat.not_lt_of_le hge)
  · have hge := hs.fresh a x hax
    have hne : x ≠ f := Nat.ne_of_gt (Nat.lt_of_lt_of_le (node?_lt hm) hge)
    have hnone : ¬∃ k, g.node? x = some k := fun ⟨k, hk⟩ => Nat.not_lt_of_le hge (node?_lt hk)
    simp only [hne, hnone, hs.under_new hlast hf hax, false_or, false_and,
      mem_map_of_mem (f := Prod.snd) hax, and_true]

/-- What inlining a call adds to the body it stood in. -/
theorem payloads_caller {f : NodeId} (hf : g.kind? f = some .funcDefn) (hu : Under g f s.call) :
    h.payloads f = g.payloads f + g.payloads s.callee := by
  have hnodup : (g.walk f ++ made.map (·.2)).Nodup := by
    refine (walkFrom_nodup s.arena _ _).append hs.values fun x hx hx' => ?_
    obtain ⟨n, hn⟩ := node_of_mem_walkFrom hx
    obtain ⟨⟨a, x⟩, hax, rfl⟩ := mem_map.1 hx'
    exact Nat.not_lt_of_le (hs.fresh a x hax) (node?_lt hn)
  have hperm : ((h.walk f).filterMap h.payload?).Perm
      ((g.walk f ++ made.map (·.2)).filterMap h.payload?) := by
    refine perm_filterMap (walkFrom_nodup hs.arena _ _) hnodup fun x b hb => ?_
    rw [hs.mem_walk hlast hf hb, mem_append, and_iff_right hu]
  have hnew : (made.map (·.2)).filterMap h.payload? = (made.map (·.1)).filterMap g.payload? := by
    rw [filterMap_map, filterMap_map]
    exact filterMap_congr fun p hp => hs.payload?_new hp
  rw [filterMap_append, hs.payload?_walk, hnew] at hperm
  rw [hs.payloads_callee]
  exact Multiset.coe_eq_coe.2 hperm

/-- Inlining a call leaves the other bodies alone. -/
theorem payloads_other {f : NodeId} (hf : g.kind? f = some .funcDefn) (hu : ¬Under g f s.call) :
    h.payloads f = g.payloads f := by
  have hperm : ((h.walk f).filterMap h.payload?).Perm ((g.walk f).filterMap h.payload?) := by
    refine perm_filterMap (walkFrom_nodup hs.arena _ _) (walkFrom_nodup s.arena _ _) fun x b hb => ?_
    rw [hs.mem_walk hlast hf hb, or_iff_left fun hx => hu hx.1]
  rw [hs.payload?_walk] at hperm
  exact Multiset.coe_eq_coe.2 hperm

end CallSite.Spliced

end Qirc.Graph
