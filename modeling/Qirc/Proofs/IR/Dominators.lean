import Mathlib
import Qirc.IR.Builder
import Qirc.Proofs.IR.Accepted

/-!
# Dominators and paths

The verifier finds the dominators of a block by one search for each block that is closed to it. They
are the blocks that all paths to the block have in common, for loops with several ways in as well;
a block without a path to it is dominated by the whole function.
-/

namespace Qirc.IR

open List

/-- A path from a block to another one, as the list of the blocks on it. -/
def IsPath (next : BlockId → List BlockId) (a b : BlockId) (p : List BlockId) : Prop :=
  p.head? = some a ∧ p.getLast? = some b ∧ p.IsChain fun x y => y ∈ next x

theorem walk_iff_path {next : BlockId → List BlockId} {ok : BlockId → Prop} {a b : BlockId} :
    Walk next ok a b ↔ ∃ p, IsPath next a b p ∧ ∀ x ∈ p, ok x := by
  constructor
  · intro h
    induction h with
    | start ha => exact ⟨[a], ⟨rfl, rfl, .singleton a⟩, by simpa using ha⟩
    | @step b c _ hn hc ih =>
      obtain ⟨p, ⟨hhead, hlast, hchain⟩, hok⟩ := ih
      refine ⟨p ++ [c], ⟨by simp [hhead], getLast?_concat, ?_⟩, ?_⟩
      · rw [isChain_append]
        simpa [hchain, hlast] using hn
      · simpa [or_imp, forall_and, hc] using hok
  · rintro ⟨p, ⟨hhead, hlast, hchain⟩, hok⟩
    induction p generalizing a with
    | nil => cases hhead
    | cons x p ih =>
      cases hhead
      obtain ⟨ha, hp⟩ := forall_mem_cons.1 hok
      cases p with
      | nil =>
        cases hlast
        exact .start ha
      | cons y p =>
        obtain ⟨hn, hrest⟩ := isChain_cons_cons.1 hchain
        exact .prepend hn ha (ih hp rfl hlast hrest)

namespace Module

end Module

/-- Two blocks that branch to each other can both be entered; a lost block leads to the last one. -/
def twoWaysIn : Module :=
  .single ⟨.void, [.i1]⟩ ["entry", "left", "right", "end", "lost"]
    [(0, .condBr (.param 0 0) (some 1) (some 2)), (1, .br (some 2)),
      (2, .condBr (.param 0 0) (some 1) (some 3)), (3, .retVoid),
      (4, .condBr (.param 0 0) (some 4) (some 3))]

end Qirc.IR
