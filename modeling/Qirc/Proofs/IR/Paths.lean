import Qirc.IR.ControlFlow

/-!
# Walks and dominance

A walk goes from block to block along branches and keeps to the blocks that are allowed. The search
of a function finds exactly the blocks that such a walk gets to. Dominance is an order on the blocks
that can be reached.
-/

namespace Qirc.IR

open List

/-- The ends of walks from a block through allowed blocks. -/
inductive Walk (next : BlockId → List BlockId) (ok : BlockId → Prop) (a : BlockId) : BlockId → Prop
  | start (h : ok a) : Walk next ok a a
  | step {b c : BlockId} (h : Walk next ok a b) (hn : c ∈ next b) (hc : ok c) : Walk next ok a c

namespace Walk

variable {next : BlockId → List BlockId} {ok : BlockId → Prop} {a b c d : BlockId}

section

variable (h : Walk next ok a b)

include h

theorem ok_end : ok b := by
  cases h with
  | start h => exact h
  | step _ _ hc => exact hc

theorem ok_start : ok a := by
  induction h with
  | start h => exact h
  | step _ _ _ ih => exact ih

theorem mono {ok' : BlockId → Prop} (hok : ∀ x, ok x → ok' x) : Walk next ok' a b := by
  induction h with
  | start h => exact .start (hok _ h)
  | step _ hn hc ih => exact .step ih hn (hok _ hc)

theorem along {next' : BlockId → List BlockId}
    (hn : ∀ x y, Walk next ok a x → y ∈ next x → y ∈ next' x) : Walk next' ok a b := by
  induction h with
  | start h => exact .start h
  | step h hc hok ih => exact .step ih (hn _ _ h hc) hok

theorem within {allowed : List BlockId} (hin : ∀ x, Walk next ok a x → x ∈ allowed) :
    Walk next (· ∈ allowed) a b := by
  induction h with
  | start h => exact .start (hin a (.start h))
  | step h hn hc ih => exact .step ih hn (hin _ (h.step hn hc))

theorem trans (h' : Walk next ok b c) : Walk next ok a c := by
  induction h' with
  | start => exact h
  | step _ hn hc ih => exact .step ih hn hc

end

theorem prepend (hn : b ∈ next a) (ha : ok a) (h : Walk next ok b c) : Walk next ok a c :=
  (Walk.step (.start ha) hn h.ok_start).trans h

theorem carry {p : BlockId → Prop} (h : Walk next ok a b) (ha : p a)
    (hstep : ∀ x y, Walk next ok a x → p x → y ∈ next x → ok y → p y) : p b := by
  induction h with
  | start => exact ha
  | step h hn hc ih => exact hstep _ _ h ih hn hc

theorem leave (h : Walk next ok a c) (d : BlockId) :
    Walk next (fun x => ok x ∧ x ≠ d) a c ∨ c = d ∨
      ∃ s ∈ next d, Walk next (fun x => ok x ∧ x ≠ d) s c := by
  induction h with
  | start h =>
    by_cases had : a = d
    · exact .inr (.inl had)
    · exact .inl (.start ⟨h, had⟩)
  | @step b c _ hn hc ih =>
    by_cases hcd : c = d
    · exact .inr (.inl hcd)
    obtain h | rfl | ⟨s, hs, h⟩ := ih
    · exact .inl (.step h hn ⟨hc, hcd⟩)
    · exact .inr (.inr ⟨c, hn, .start ⟨hc, hcd⟩⟩)
    · exact .inr (.inr ⟨s, hs, .step h hn ⟨hc, hcd⟩⟩)

theorem hit (p : BlockId → Prop) (h : Walk next ok a c) (hp : p c) :
    ∃ d, p d ∧ ok d ∧
      (d = a ∨ ∃ u, Walk next (fun x => ok x ∧ ¬p x) a u ∧ d ∈ next u) := by
  by_cases hall : Walk next (fun x => ok x ∧ ¬p x) a c
  · exact absurd hp hall.ok_end.2
  clear hp
  induction h with
  | start h =>
    by_cases ha : p a
    · exact ⟨a, ha, h, .inl rfl⟩
    · exact absurd (.start ⟨h, ha⟩) hall
  | @step b c _ hn hc ih =>
    by_cases hb : Walk next (fun x => ok x ∧ ¬p x) a b
    · by_cases hpc : p c
      · exact ⟨c, hpc, hc, .inr ⟨b, hb, hn⟩⟩
      · exact absurd (.step hb hn ⟨hc, hpc⟩) hall
    · exact ih hb

theorem avoid_or_pass (h : Walk next ok a c) (d : BlockId) :
    Walk next (fun x => ok x ∧ x ≠ d) a c ∨ Walk next ok a d := by
  induction h with
  | start h =>
    by_cases had : a = d
    · exact .inr (had ▸ .start h)
    · exact .inl (.start ⟨h, had⟩)
  | @step b c hb hn hc ih =>
    obtain h | h := ih
    · by_cases hcd : c = d
      · exact .inr (hcd ▸ hb.step hn hc)
      · exact .inl (.step h hn ⟨hc, hcd⟩)
    · exact .inr h

end Walk

theorem mem_reach {next : BlockId → List BlockId} {allowed pending : List BlockId} {c : BlockId} :
    c ∈ reach next allowed pending ↔ ∃ a ∈ pending, Walk next (· ∈ allowed) a c := by
  fun_induction reach next allowed pending with
  | case1 => simp
  | case2 allowed b rest hb ih =>
    have hmem : ∀ x, x ∈ allowed ∧ x ≠ b → x ∈ allowed.erase b :=
      fun x hx => (mem_erase_of_ne hx.2).2 hx.1
    rw [mem_cons, ih]
    constructor
    · rintro (rfl | ⟨a, ha, h⟩)
      · exact ⟨c, mem_cons_self, .start hb⟩
      have h' : Walk next (· ∈ allowed) a c := h.mono fun _ => mem_of_mem_erase
      obtain ha | ha := mem_append.1 ha
      · exact ⟨b, mem_cons_self, .prepend ha hb h'⟩
      · exact ⟨a, mem_cons_of_mem _ ha, h'⟩
    · rintro ⟨a, ha, h⟩
      obtain h' | rfl | ⟨s, hs, h'⟩ := h.leave b
      · obtain rfl | ha := mem_cons.1 ha
        · exact absurd rfl h'.ok_start.2
        · exact .inr ⟨a, mem_append_right _ ha, h'.mono hmem⟩
      · exact .inl rfl
      · exact .inr ⟨s, mem_append_left _ hs, h'.mono hmem⟩
  | case3 allowed b rest hb ih =>
    rw [ih]
    constructor
    · rintro ⟨a, ha, h⟩
      exact ⟨a, mem_cons_of_mem _ ha, h⟩
    rintro ⟨a, ha, h⟩
    obtain rfl | ha := mem_cons.1 ha
    · exact absurd h.ok_start hb
    · exact ⟨a, ha, h⟩

/-! ## Dominance -/

section Dominance

variable (next : BlockId → List BlockId) (e : BlockId)

def Reached (b : BlockId) : Prop := Walk next (fun _ => True) e b

def Dominates (d b : BlockId) : Prop := ¬Walk next (· ≠ d) e b

end Dominance

section Order

variable {next : BlockId → List BlockId} {e a b c d u : BlockId}

theorem Reached.entry : Reached next e e := .start trivial

theorem Reached.onward (h : Reached next e b) (hn : c ∈ next b) : Reached next e c :=
  Walk.step h hn trivial

theorem Dominates.refl (b : BlockId) : Dominates next e b b := fun h => h.ok_end rfl

theorem Dominates.of_entry (b : BlockId) : Dominates next e e b := fun h => h.ok_start rfl

theorem Dominates.eq_entry (h : Dominates next e d e) : d = e := by
  apply Decidable.byContradiction
  intro hne
  exact h (.start (Ne.symm hne))

theorem Dominates.reached (h : Dominates next e d b) (hb : Reached next e b) :
    Reached next e d := by
  obtain h' | h' := hb.avoid_or_pass d
  · exact absurd (h'.mono fun _ hx => hx.2) h
  · exact h'

theorem Dominates.trans (h : Dominates next e a b) (h' : Dominates next e b c) :
    Dominates next e a c := by
  intro hw
  obtain hw' | hw' := hw.avoid_or_pass b
  · exact h' (hw'.mono fun _ hx => hx.2)
  · exact h hw'

theorem Dominates.antisymm (h : Dominates next e a b) (h' : Dominates next e b a)
    (hb : Reached next e b) : a = b := by
  apply Decidable.byContradiction
  intro hne
  -- The first of the two that a walk to `b` meets is met without the other one.
  obtain ⟨d, hd, -, hfirst⟩ := hb.hit (fun x => x = a ∨ x = b) (.inr rfl)
  have hwalk : ∀ x, d ≠ x → (x = a ∨ x = b) → Walk next (· ≠ x) e d := by
    rintro x hdx hx
    obtain rfl | ⟨u, hu, hn⟩ := hfirst
    · exact .start hdx
    refine .step (hu.mono fun y hy => ?_) hn hdx
    rintro rfl
    exact hy.2 hx
  obtain rfl | rfl := hd
  · exact h' (hwalk b hne (.inr rfl))
  · exact h (hwalk a (Ne.symm hne) (.inl rfl))

theorem Dominates.pred (h : Dominates next e d c) (hn : c ∈ next b) (hne : c ≠ d) :
    Dominates next e d b := fun hw => h (hw.step hn hne)

/-- A block is dominated by what dominates its predecessors, as far as a walk gets to them without
the block itself. -/
theorem Dominates.of_preds (hb : b ≠ e)
    (h : ∀ u, Walk next (· ≠ b) e u → b ∈ next u → Dominates next e d u) :
    Dominates next e d b := by
  intro hw
  obtain ⟨x, rfl, -, rfl | ⟨u, hu, hn⟩⟩ := hw.hit (fun x => x = b) rfl
  · exact hb rfl
  · exact h u (hu.mono fun _ hx => hx.2) hn (hu.mono fun _ hx => hx.1)

theorem Dominates.ne_of_pred (hb : Reached next e b) (hbe : b ≠ e)
    (h : ∀ u, Walk next (· ≠ b) e u → b ∈ next u → Dominates next e d u) : d ≠ b := by
  rintro rfl
  obtain ⟨x, rfl, -, rfl | ⟨u, hu, hn⟩⟩ := hb.hit (fun x => x = d) rfl
  · exact hbe rfl
  have hu' : Walk next (· ≠ x) e u := hu.mono fun _ hx => hx.2
  exact h u hu' hn hu'

end Order

end Qirc.IR
