import Qirc.Proofs.Graph.PrunedLaws
import Qirc.Proofs.Graph.Rebasing
import Qirc.Proofs.Pipeline.OneBody

/-!
# A valid graph stays valid

The three passes over the graph succeed on a valid one and leave a valid one each: expressing gates
in the base set, inlining a selection of calls, and pruning.
-/

namespace Qirc.Graph

variable {g : Graph}

/-- A checked graph with one entry, plain boundaries and gates on qubits is expressed in the base gate
set, whether the result is checked there or not. Then any selection of its calls that leads in no
circle is inlined, and the rest is pruned. Each result passes the check, and so keeps the laws: every
input port is fed inside its region, every qubit has one reader, no edges form a circle, and every
call names a function. -/
theorem graph_passes_stay_valid (ha : g.Arena) (hc : g.check = .ok ()) (hp : g.PlainBoundary)
    {main : NodeId} (hmain : g.funcsByName entryName = .ok [main]) (hfit : g.GatesFit)
    (validated : Bool) :
    ∃ done g₁, rebase validated g = ((done, none), g₁) ∧ g₁.check = .ok () ∧ g₁.Lawful ∧
      ∀ chosen, (∀ c ∈ chosen, g₁.kind? c = some .call) →
        (∀ f, ¬Relation.TransGen (g₁.Leads chosen) f f) →
        ∃ g₂, inlineCalls chosen g₁ = .ok () g₂ ∧ g₂.check = .ok () ∧ g₂.Lawful ∧
          ∃ pruned g₃, prune g₂ = .ok pruned g₃ ∧ g₃.check = .ok () ∧ g₃.Lawful := by
  obtain ⟨g₁, hrebase, hex, hlast₁, hsame₁⟩ :=
    rebase_ok ha (lawful_of_check ha hc) hfit (entry_of_funcsByName hmain) validated
  have ha₁ := hex.arena
  have hl₁ := hex.lawful
  refine ⟨_, g₁, hrebase, (check_ok_iff_lawful ha₁).mpr hl₁, hl₁, fun chosen hchosen hacyc => ?_⟩
  obtain ⟨g₂, hinline, ha₂, hl₂, -, hlast₂, hsame₂⟩ := inlineCalls_ok ha₁ hl₁ (hex.plain hp) hchosen hacyc
  have hmain₂ : g₂.funcsByName entryName = .ok [main] :=
    funcsByName_of_same ha₁ ha₂ hlast₂ hsame₂ (funcsByName_of_same ha ha₁ hlast₁ hsame₁ hmain)
  obtain ⟨pruned, g₃, hprune, ha₃, hl₃⟩ := prune_ok ha₂ hl₂ (entry_of_funcsByName hmain₂)
  exact ⟨g₂, hinline, (check_ok_iff_lawful ha₂).mpr hl₂, hl₂, pruned, g₃, hprune,
    (check_ok_iff_lawful ha₃).mpr hl₃, hl₃⟩

theorem graph_passes_stay_valid_exchangeCall :
    ∃ done g₁ g₂ pruned g₃, rebase false exchangeCall = ((done, none), g₁) ∧
      inlineCalls [5] g₁ = .ok () g₂ ∧ prune g₂ = .ok pruned g₃ ∧ g₃.check = .ok () := by
  have ha : exchangeCall.Arena := arena_of_isArena (by decide +kernel)
  have hmain : exchangeCall.funcsByName entryName = .ok [1] := by rfl
  obtain ⟨done, g₁, hrebase, hc₁, -, hrest⟩ := graph_passes_stay_valid ha
    (check_ok_iff.mpr (by rfl)) (plainBoundary_of_isPlain (by decide +kernel)) hmain
    (.of_gatesFit (by decide +kernel)) false
  have hg₁ : g₁ = (rebase false exchangeCall).2 := by rw [hrebase]
  have ha₁ : g₁.Arena := hg₁ ▸ (ha.rebase false).1
  have hcall : (g₁.node? 5).any (fun n => n.kind == .call && n.parent == some 1 &&
      n.body.callee == some 6) = true := by
    rw [hg₁]
    decide +kernel
  simp only [Option.any_eq_true, Bool.and_eq_true, beq_iff_eq] at hcall
  obtain ⟨n, hn, ⟨hk, hparent⟩, hcallee⟩ := hcall
  have hentry : g₁.kind? 1 = some .funcDefn := by
    rw [hg₁]
    decide +kernel
  have hleads : ∀ {f t}, g₁.Leads [5] f t → f = 1 ∧ t = 6 := by
    rintro f t ⟨hf, c, hc, hu, m, hm, -, ht⟩
    cases List.mem_singleton.mp hc
    cases hn.symm.trans hm
    exact ⟨ha₁.function_unique hf hentry hu (.child hn hparent),
      Option.some.inj (ht.symm.trans hcallee)⟩
  obtain ⟨g₂, hinline, -, -, pruned, g₃, hprune, hc₃, -⟩ := hrest [5] (by
      intro c hc
      rw [List.mem_singleton.mp hc, kind?_of_node hn, hk]) (by
      intro f hf
      obtain ⟨x, hfx, -⟩ := Relation.TransGen.head'_iff.mp hf
      obtain ⟨y, -, hyf⟩ := Relation.TransGen.tail'_iff.mp hf
      exact absurd ((hleads hfx).1.symm.trans (hleads hyf).2) (by decide))
  exact ⟨done, g₁, g₂, pruned, g₃, hrebase, hinline, hprune, hc₃⟩

end Qirc.Graph
