import Qirc.Proofs.Graph.Arena

/-!
# The order of a walk

The walk from the module meets every live node once, a node before its children and these in their
order. So the position in the walk is a numbering of the live nodes from zero on.
-/

namespace Qirc.Graph

open List

variable {g : Graph} {x y p : NodeId} {n k : Node}

def position (g : Graph) (x : NodeId) : NodeId := (g.walk root).idxOf x

section Sublists

variable (ha : g.Arena)

include ha

theorem walkFrom_cons {depth r : Nat} (hn : g.node? r = some n) (hd : g.nodes.size ≤ depth + r) :
    ∃ rest, g.walkFrom depth r = r :: rest ∧ n.children.Sublist rest := by
  cases depth with
  | zero => exact absurd (node?_lt hn) (by omega)
  | succ depth =>
    refine ⟨n.children.flatMap (g.walkFrom depth), by simp [walkFrom, hn], ?_⟩
    have heach : ∀ cs : List NodeId, (∀ c ∈ cs, c ∈ n.children) →
        (cs.flatMap fun c => [c]).Sublist (cs.flatMap (g.walkFrom depth)) := by
      intro cs hcs
      induction cs with
      | nil => exact Sublist.refl _
      | cons c cs ih =>
        rw [forall_mem_cons] at hcs
        obtain ⟨k, hh⟩ := ha.child r n c hn hcs.1
        have hlt := hh.lt
        have hc : c ∈ g.walkFrom depth c :=
          mem_walkFrom_of_under ha (.inl rfl) ⟨k, hh.node⟩ (by have := node?_lt hh.node; omega)
        exact (singleton_sublist.2 hc).append (ih hcs.2)
    have hsub := heach n.children fun _ hc => hc
    simpa using hsub

theorem walkFrom_sublist {depth depth' r : Nat} {x : Nat} (hx : x ∈ g.walkFrom depth r)
    (hd : g.nodes.size ≤ depth + r) (hd' : g.nodes.size ≤ depth' + x) :
    (g.walkFrom depth' x).Sublist (g.walkFrom depth r) := by
  induction depth generalizing r with
  | zero => cases hx
  | succ depth ih =>
    by_cases hxr : x = r
    · subst hxr
      rw [walkFrom_stable ha hd' hd]
    unfold walkFrom at hx
    split at hx
    · rename_i n hn
      obtain hx | hx := mem_cons.1 hx
      · exact absurd hx hxr
      obtain ⟨c, hc, hx⟩ := mem_flatMap.1 hx
      obtain ⟨k, hh⟩ := ha.child r n c hn hc
      have hlt := hh.lt
      have hsub := ih hx (by omega)
      have hpart : (g.walkFrom depth c).Sublist (n.children.flatMap (g.walkFrom depth)) :=
        sublist_flatten_of_mem (mem_map_of_mem hc)
      simp only [walkFrom, hn]
      exact (hsub.trans hpart).cons r
    · cases hx

theorem cons_children_sublist (hn : g.node? x = some n) :
    (x :: n.children).Sublist (g.walk root) := by
  have hsub := walkFrom_sublist ha (mem_walk_root ha hn) (Nat.le_add_right _ _)
    (Nat.le_add_right g.nodes.size x)
  obtain ⟨rest, hrest, hchildren⟩ := walkFrom_cons ha hn (Nat.le_add_right g.nodes.size x)
  rw [hrest] at hsub
  exact (hchildren.cons_cons x).trans hsub

theorem mem_children_iff (hn : g.node? x = some n) : y ∈ n.children ↔ g.parent? y = some x := by
  constructor
  · intro hy
    obtain ⟨k, hh⟩ := ha.child x n y hn hy
    rw [parent?_of_node hh.node, hh.parent]
  · intro hy
    obtain ⟨k, hk, hp⟩ := Option.bind_eq_some_iff.1 hy
    obtain ⟨n', hh⟩ := ha.hangs_of_parent hk hp
    cases hn.symm.trans hh.holder
    exact hh.listed

theorem walk_nodup : (g.walk root).Nodup := walkFrom_nodup ha _ _

theorem walk_filter_parent (hn : g.node? x = some n) :
    (g.walk root).filter (fun y => g.parent? y == some x) = n.children := by
  have hp : ∀ y, (g.parent? y == some x) = true ↔ y ∈ n.children := by
    intro y
    rw [beq_iff_eq, mem_children_iff ha hn]
  have hsub : n.children.Sublist ((g.walk root).filter fun y => g.parent? y == some x) := by
    have h := ((sublist_cons_self x n.children).trans
      (cons_children_sublist ha hn)).filter fun y => g.parent? y == some x
    rwa [filter_eq_self.2 fun y hy => (hp y).2 hy] at h
  refine (hsub.eq_of_length_le ?_).symm
  refine ((walk_nodup ha).filter _).length_le_of_subset fun y hy => ?_
  exact (hp y).1 (mem_filter.1 hy).2

theorem parent_mem_before {before after : List NodeId} (hw : g.walk root = before ++ y :: after)
    (hy : g.parent? y = some x) : x ∈ before := by
  obtain ⟨k, hk, hp⟩ := Option.bind_eq_some_iff.1 hy
  obtain ⟨n, hh⟩ := ha.hangs_of_parent hk hp
  have hpair : [x, y].Sublist (before ++ y :: after) := by
    rw [← hw]
    exact ((singleton_sublist.2 hh.listed).cons_cons x).trans
      (cons_children_sublist ha hh.holder)
  have hnd := walk_nodup ha
  rw [hw] at hnd
  obtain ⟨-, hafter, hapart⟩ := nodup_append.1 hnd
  rw [nodup_cons] at hafter
  obtain ⟨l₁, l₂, heq, h₁, h₂⟩ := sublist_append_iff.1 hpair
  match l₁, heq, h₁ with
  | [], heq, _ =>
    subst heq
    cases h₂ with
    | cons _ h => exact absurd (h.subset (by simp)) hafter.1
    | cons_cons _ h => exact absurd (h.subset (by simp)) hafter.1
  | z :: l₁, heq, h₁ =>
    rw [(cons.inj heq).1]
    exact h₁.subset mem_cons_self

/-! ## Positions -/

theorem walk_root_cons : ∃ rest, g.walk root = root :: rest := by
  obtain ⟨n, hn, -⟩ := ha.top
  obtain ⟨rest, hrest, -⟩ := walkFrom_cons ha hn (Nat.le_add_right g.nodes.size root)
  exact ⟨rest, hrest⟩

theorem position_root : g.position root = root := by
  obtain ⟨rest, hrest⟩ := walk_root_cons ha
  rw [position, hrest]
  rfl

theorem getElem?_position (hn : g.node? x = some n) : (g.walk root)[g.position x]? = some x :=
  getElem?_idxOf (mem_walk_root ha hn)

theorem position_injective (hn : g.node? x = some n) (hk : g.node? y = some k)
    (h : g.position x = g.position y) : x = y := by
  have hx := getElem?_position ha hn
  rw [h, getElem?_position ha hk] at hx
  exact (Option.some.inj hx).symm

theorem walk_map_position : (g.walk root).map g.position = range (g.walk root).length := by
  refine ext_getElem (by simp) fun i hi _ => ?_
  rw [getElem_map, getElem_range]
  exact (walk_nodup ha).idxOf_getElem i (by simpa using hi)

theorem position_of_split {before after : List NodeId} (hw : g.walk root = before ++ x :: after) :
    g.position x = before.length := by
  have hnd := walk_nodup ha
  have hx : x ∉ before := by
    rw [hw] at hnd
    intro hmem
    exact (nodup_append.1 hnd).2.2 x hmem x mem_cons_self rfl
  rw [position, hw, idxOf_append_of_notMem hx, idxOf_cons_self, Nat.add_zero]

end Sublists

end Qirc.Graph
