import Mathlib.Data.Set.Card
import Qirc.Proofs.Graph.CallOrder

/-!
# The call graph of a program

Edges, in-degrees and sites of a call graph are those of the kept calls from function to function,
and its order sorts the functions by them.
-/

namespace Qirc.CallGraph

open List Graph

variable {g : Graph} {keep : NodeId → Bool} {cg : CallGraph} {i j : Nat}

section

variable (hb : Built g keep cg)

include hb

theorem Built.mem_edges : j ∈ cg.edges i ↔
    ∃ f t, cg.funcs[i]? = some f ∧ cg.funcs[j]? = some t ∧ g.Links keep f t := by
  rw [edges, mem_filter]
  constructor
  · rintro ⟨-, he⟩
    obtain ⟨s, hs, rfl, rfl⟩ := hasEdge_iff.1 he
    obtain ⟨f, t, hf, ht⟩ := hb.numbered.named s hs
    exact ⟨f, t, hf, ht, hb.calls_iff.1 ⟨s, hs, hf, ht⟩⟩
  · rintro ⟨f, t, hf, ht, hlead⟩
    exact ⟨mem_numbers ht, (hb.numbered.calls_iff hf ht).1 (hb.calls_iff.2 hlead)⟩

theorem Built.indegree_eq : cg.indegree j = {i | j ∈ cg.edges i}.ncard := by
  have hset : {i | j ∈ cg.edges i} = (cg.numbers.filter (cg.hasEdge · j)).toFinset := by
    ext i
    rw [coe_toFinset]
    show j ∈ cg.edges i ↔ i ∈ cg.numbers.filter (cg.hasEdge · j)
    rw [edges, mem_filter, mem_filter]
    refine and_congr_left fun he => ?_
    obtain ⟨s, hs, rfl, rfl⟩ := hasEdge_iff.1 he
    obtain ⟨f, t, hf, ht⟩ := hb.numbered.named s hs
    exact iff_of_true (mem_numbers ht) (mem_numbers hf)
  have hnd : (cg.numbers.filter (cg.hasEdge · j)).Nodup := nodup_range.filter _
  rw [hset, Set.ncard_coe_finset, toFinset_card_of_nodup hnd, indegree]

theorem Built.mem_sites {c : NodeId} : c ∈ cg.sites i j ↔
    ∃ f t, cg.funcs[i]? = some f ∧ cg.funcs[j]? = some t ∧ keep c = true ∧ g.CallFrom c f t := by
  simp only [sites, mem_map, mem_filter, Bool.and_eq_true, beq_iff_eq]
  constructor
  · rintro ⟨s, ⟨hs, rfl, rfl⟩, rfl⟩
    obtain ⟨hkeep, f, t, hst⟩ := hb.site s hs
    exact ⟨f, t, hst.caller, hst.callee, hkeep, hst.call⟩
  · rintro ⟨f, t, hf, ht, hkeep, hc⟩
    obtain ⟨s, hs, rfl, hst⟩ := hb.whole hc hkeep
    exact ⟨s, ⟨hs, hb.numbered.index hst.caller hf, hb.numbered.index hst.callee ht⟩, rfl⟩

theorem Built.site_unique (ha : g.Arena) {c f t : NodeId} (hkeep : keep c = true)
    (hc : g.CallFrom c f t) : ∃! ij : Nat × Nat, c ∈ cg.sites ij.1 ij.2 := by
  obtain ⟨i, hi⟩ := mem_iff_getElem?.1 ((hb.functions f).2 hc.caller)
  obtain ⟨j, hj⟩ := mem_iff_getElem?.1 ((hb.functions t).2 hc.callee)
  refine ⟨(i, j), hb.mem_sites.2 ⟨f, t, hi, hj, hkeep, hc⟩, ?_⟩
  rintro ⟨i', j'⟩ hmem
  obtain ⟨f', t', hi', hj', -, hc'⟩ := hb.mem_sites.1 hmem
  cases ha.function_unique hc.caller hc'.caller hc.inside hc'.inside
  cases hc.callee_unique hc'
  exact Prod.ext (hb.numbered.index hi' hi) (hb.numbered.index hj' hj)

end

/-- The first function calls the second twice, the third calls itself. -/
def selfCall : Graph where
  nodes :=
    let call callee parent :=
      Node.fresh { NodeBody.ofKind .call ⟨[], []⟩ with callee := some callee } (some parent)
    #[{ Node.fresh (NodeBody.ofKind .module ⟨[], []⟩) none with children := [1, 2, 3] },
      plainNode .funcDefn ⟨[], []⟩ 0 [4, 5], plainNode .funcDefn ⟨[], []⟩ 0 [],
      plainNode .funcDefn ⟨[], []⟩ 0 [6], call 2 1, call 2 1, call 3 3]
  edges := []

end Qirc.CallGraph
