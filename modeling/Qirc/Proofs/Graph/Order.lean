import Mathlib.Order.WellFoundedSet
import Qirc.Graph.Order
import Qirc.Proofs.Graph.Arena

/-!
# Regions and their order

What a region starts with, that its order is made of its children, each of them once, that a region
with an order allows induction along its dataflow, and that one without an order has a circle.
-/

namespace Qirc.Graph

open List Relation

/-- Where everything has a predecessor, everything lies behind a circle. -/
theorem exists_circle {α : Type} {r : α → α → Prop} {xs : List α} (hpre : ∀ x ∈ xs, ∃ y ∈ xs, r y x)
    {x : α} (hx : x ∈ xs) : ∃ c ∈ xs, TransGen r c c ∧ ReflTransGen r c x := by
  by_contra hnone
  -- without a circle what leads to `x` is ordered, and something in it is least
  let before : α → α → Prop := fun a b => a ∈ xs ∧ TransGen r a b ∧ ReflTransGen r b x
  have : IsStrictOrder α before := {
    irrefl := fun a ⟨ha, haa, hax⟩ => hnone ⟨a, ha, haa, hax⟩
    trans := fun _ _ _ ⟨ha, hab, _⟩ ⟨_, hbc, hcx⟩ => ⟨ha, hab.trans hbc, hcx⟩ }
  have hwf : {a | a ∈ xs}.WellFoundedOn before := xs.finite_toSet.wellFoundedOn
  obtain ⟨⟨m, hm⟩, hmx, hmin⟩ := WellFounded.has_min hwf {a | ReflTransGen r a.1 x} ⟨⟨x, hx⟩, .refl⟩
  obtain ⟨y, hy, hym⟩ := hpre m hm
  exact hmin ⟨y, hy⟩ (.head hym hmx) ⟨hy, .single hym, hmx⟩

def Feeds (g : Graph) (a b : NodeId) : Prop := ∃ e ∈ g.edges, e.src.node = a ∧ e.dst.node = b

variable {g : Graph} {id : NodeId}

theorem boundary_ok {first last : NodeId} (h : g.boundary id = .ok (first, last)) :
    ∃ n rest, g.node? id = some n ∧ n.kind.isRegion = true ∧
      n.children = first :: last :: rest := by
  unfold boundary at h
  cases hn : g.node? id with
  | none => simp [hn] at h
  | some n =>
    rw [hn] at h
    dsimp only at h
    split at h
    · cases h
    rename_i hr
    split at h
    · rename_i rest hch
      iterate 4
        split at h
        · cases h
      cases h
      exact ⟨n, rest, rfl, by simpa using hr, hch⟩
    · cases h

variable {count : Nat} {waiting ids : List NodeId}

theorem isReady_iff {c : NodeId} : g.isReady waiting c = true ↔ ∀ p, g.Feeds p c → p ∉ waiting := by
  simp only [isReady, producers, all_eq_true, mem_map, mem_filter, beq_iff_eq, Bool.not_eq_true',
    contains_eq_mem, decide_eq_false_iff_not]
  constructor
  · rintro h p ⟨e, he, hp, hc⟩
    exact h p ⟨e, ⟨he, hc⟩, hp⟩
  · rintro h p ⟨e, ⟨he, hc⟩, hp⟩
    exact h p ⟨e, he, hp, hc⟩

/-- Induction along the choices of the first ready child. -/
theorem takeReady_rec {P : List NodeId → List NodeId → Prop} (nil : P [] [])
    (cons : ∀ waiting x ids, waiting.find? (g.isReady waiting) = some x →
      P (waiting.erase x) ids → P waiting (x :: ids))
    (h : g.takeReady count waiting = some ids) : P waiting ids := by
  induction count generalizing waiting ids with
  | zero =>
    cases waiting with
    | nil => exact Option.some.inj h ▸ nil
    | cons c rest => cases h
  | succ count ih =>
    cases waiting with
    | nil => exact Option.some.inj h ▸ nil
    | cons c rest =>
      simp only [takeReady] at h
      split at h
      · cases h
      rename_i x hx
      obtain ⟨ids', hids, rfl⟩ := Option.map_eq_some_iff.1 h
      exact cons _ x ids' hx (ih hids)

theorem takeReady_circle (hlen : waiting.length ≤ count) (h : g.takeReady count waiting = none) :
    ∃ c ∈ waiting, TransGen g.Feeds c c := by
  induction count generalizing waiting with
  | zero =>
    cases length_eq_zero_iff.1 (Nat.le_zero.1 hlen)
    cases h
  | succ count ih =>
    cases waiting with
    | nil => cases h
    | cons w rest =>
      simp only [takeReady] at h
      split at h
      · rename_i hnone
        have hpre : ∀ x ∈ w :: rest, ∃ y ∈ w :: rest, g.Feeds y x := by
          intro x hx
          have hwaits := find?_eq_none.1 hnone x hx
          simp only [isReady_iff, not_forall, not_not] at hwaits
          obtain ⟨p, hp, hw⟩ := hwaits
          exact ⟨p, hw, hp⟩
        obtain ⟨c, hc, hcirc, -⟩ := exists_circle hpre mem_cons_self
        exact ⟨c, hc, hcirc⟩
      · rename_i x hx
        obtain ⟨c, hc, hcirc⟩ := ih
          (by rw [length_erase_of_mem (mem_of_find?_eq_some hx)]; omega) (Option.map_eq_none_iff.1 h)
        exact ⟨c, mem_of_mem_erase hc, hcirc⟩

theorem takeReady_perm (h : g.takeReady count waiting = some ids) : ids.Perm waiting :=
  takeReady_rec (P := fun waiting ids => ids.Perm waiting) (.refl _)
    (fun _ x _ hx ih => (ih.cons x).trans (perm_cons_erase (mem_of_find?_eq_some hx)).symm) h

theorem order_ok (h : g.order id = .ok ids) :
    ∃ n taken, g.node? id = some n ∧ taken.Perm n.children ∧
      (ids = taken ∨ ∃ first last rest, n.children = first :: last :: rest ∧
        ids = taken.filter (· != last) ++ [last]) := by
  unfold order at h
  cases hn : g.node? id with
  | none => simp [hn] at h
  | some n =>
    rw [hn] at h
    dsimp only at h
    split at h
    · cases h
    rename_i taken ht
    have hp := takeReady_perm ht
    split at h
    · split at h
      · rename_i first last rest hch
        cases h
        exact ⟨n, taken, rfl, hp, .inr ⟨first, last, rest, hch, rfl⟩⟩
      · cases h
    · simp only [Except.ok.injEq] at h
      exact ⟨n, taken, rfl, hp, .inl h.symm⟩

variable {n : Node} {c : NodeId}

theorem mem_children_of_order (h : g.order id = .ok ids) (hn : g.node? id = some n) (hc : c ∈ ids) :
    c ∈ n.children := by
  obtain ⟨n', taken, hn', hp, hids⟩ := order_ok h
  rw [hn] at hn'
  cases hn'
  obtain rfl | ⟨first, last, rest, hch, rfl⟩ := hids
  · exact hp.mem_iff.1 hc
  rcases mem_append.1 hc with hc | hc
  · exact hp.mem_iff.1 (mem_filter.1 hc).1
  rw [mem_singleton.1 hc, hch]
  simp

theorem order_nodup (ha : g.Arena) (h : g.order id = .ok ids) : ids.Nodup := by
  obtain ⟨n, taken, hn, hp, hids⟩ := order_ok h
  have hnodup : taken.Nodup := hp.nodup_iff.2 (ha.nodup id n hn)
  obtain rfl | ⟨first, last, rest, hch, rfl⟩ := hids
  · exact hnodup
  rw [nodup_append]
  refine ⟨hnodup.filter _, by simp, ?_⟩
  intro a hamem b hb
  rw [mem_singleton.1 hb]
  have := (mem_filter.1 hamem).2
  simpa using this

/-! ## Induction along the dataflow -/

theorem takeReady_induction {P : NodeId → Prop} (h : g.takeReady count waiting = some ids)
    (step : ∀ c ∈ waiting, (∀ p, g.Feeds p c → p ∈ waiting → P p) → P c) : ∀ c ∈ waiting, P c := by
  revert step
  refine takeReady_rec (P := fun waiting _ => (∀ c ∈ waiting,
    (∀ p, g.Feeds p c → p ∈ waiting → P p) → P c) → ∀ c ∈ waiting, P c) (by simp) ?_ h
  intro waiting x ids hx ih step
  have hP : P x :=
    step x (mem_of_find?_eq_some hx) fun p hp hw => absurd hw (isReady_iff.1 (find?_some hx) p hp)
  have hrest := ih fun d hd hprod => step d (mem_of_mem_erase hd) (by
    intro p hp hw
    by_cases hpx : p = x
    · exact hpx ▸ hP
    · exact hprod p hp ((mem_erase_of_ne hpx).2 hw))
  intro d hd
  by_cases hdx : d = x
  · exact hdx ▸ hP
  · exact hrest d ((mem_erase_of_ne hdx).2 hd)

theorem order_induction {P : NodeId → Prop} (h : g.order id = .ok ids) (hn : g.node? id = some n)
    (step : ∀ c ∈ n.children, (∀ p, g.Feeds p c → p ∈ n.children → P p) → P c) :
    ∀ c ∈ n.children, P c := by
  unfold order at h
  rw [hn] at h
  dsimp only at h
  split at h
  · cases h
  rename_i ht
  exact takeReady_induction ht step

theorem Arena.feeder_listed (ha : g.Arena) (hn : g.node? id = some n) (hc : c ∈ n.children)
    {p : NodeId} (h : g.Feeds p c) : p ∈ n.children := by
  obtain ⟨e, he, rfl, rfl⟩ := h
  obtain ⟨s, t, hfit⟩ := ha.edge e he
  obtain ⟨m, hh⟩ := ha.hangs_of_parent hfit.source
    (hfit.siblings.trans (ha.parent_of_child hn hc hfit.target))
  cases hn.symm.trans hh.holder
  exact hh.listed

end Qirc.Graph
