import Qirc.IR.Printer
import Mathlib.Tactic.Common

/-!
# When a module has no text

Printing has no errors of its own: it stops only where an instruction lacks a part that it has to
have.
-/

namespace Qirc

/-- The computation stops, if at all, where a precondition is broken. -/
def OnlyAborts {α : Type} (x : Except Failure α) : Prop := ∀ e, x ≠ .error (.error e)

namespace OnlyAborts

variable {α β : Type}

theorem ok (a : α) : OnlyAborts (.ok a) := by
  intro e h
  cases h

theorem abort (cause : Option Error) : OnlyAborts (.error (.abort cause) : Except Failure α) := by
  intro e h
  cases h

theorem bind {x : Except Failure α} {f : α → Except Failure β} (hx : OnlyAborts x)
    (hf : ∀ a, OnlyAborts (f a)) : OnlyAborts (x >>= f) := by
  intro e h
  match x, hx, h with
  | .ok a, _, h => exact hf a e h
  | .error (.error e'), hx, _ => exact hx e' rfl
  | .error (.abort _), _, h => cases h

theorem mapM {f : α → Except Failure β} (hf : ∀ a, OnlyAborts (f a)) (l : List α) :
    OnlyAborts (l.mapM f) := by
  induction l with
  | nil => exact ok []
  | cons a l ih =>
    rw [List.mapM_cons]
    exact bind (hf a) fun _ => bind ih fun _ => ok _

end OnlyAborts

namespace IR.Module

open OnlyAborts

theorem blockText_aborts (m : Module) (b : Option (Option BlockId)) :
    OnlyAborts (m.blockText b) := by
  unfold blockText
  split
  · exact ok _
  · exact abort _

theorem operandAt_aborts (i : Instr) (k : Nat) : OnlyAborts (operandAt i k) := by
  unfold operandAt
  split
  · exact ok _
  · exact abort _

section

variable (m : Module) (names : Names)

include m names

theorem incomingText_aborts (vs : List Value)
    (bs : List (Option BlockId)) : OnlyAborts (m.incomingText names vs bs) := by
  induction vs generalizing bs with
  | nil => exact ok _
  | cons v vs ih => exact bind (blockText_aborts m _) fun _ => bind (ih _) fun _ => ok _

theorem instrText_aborts (i : InstrId) : OnlyAborts (m.instrText names i) := by
  unfold instrText
  dsimp only
  -- every opcode prints its operands and blocks in turn
  repeat' first
    | exact ok _
    | exact abort _
    | exact incomingText_aborts _ _ _ _
    | exact blockText_aborts _ _
    | exact operandAt_aborts _ _
    | refine bind ?_ fun _ => ?_
    | split

theorem blockLines_aborts (b : BlockId) : OnlyAborts (m.blockLines names b) :=
  bind (OnlyAborts.mapM (instrText_aborts m names) _) fun _ => ok _

theorem bodyLines_aborts (bs : List BlockId) : OnlyAborts (m.bodyLines names bs) := by
  fun_induction bodyLines m names bs with
  | case1 => exact ok _
  | case2 b => exact blockLines_aborts m names b
  | case3 b rest _ ih => exact bind (blockLines_aborts m names b) fun _ => bind ih fun _ => ok _

end

theorem text_aborts (m : Module) : OnlyAborts m.text :=
  bind (OnlyAborts.mapM (fun _ => bind (bodyLines_aborts m _ _) fun _ => ok _) _) fun _ => ok _

end IR.Module

end Qirc
