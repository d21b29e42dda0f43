import Mathlib.Data.List.Perm.Subperm
import Qirc.IR.Value

/-!
# Chains

A block may have one block to pass control on to. The place where a chain of such links stops is
where there is no link, or the first block on a cycle. Shortening every link to the place where its
chain stops changes no such place.
-/

namespace Qirc.IR

open List

/-- Follow the links of a map, until there is none or one leads back. -/
def follow (g : BlockId → Option BlockId) : Nat → List BlockId → BlockId → BlockId
  | 0, _, b => b
  | n + 1, visited, b =>
    match g b with
    | none => b
    | some t => if b ∈ visited then b else follow g n (b :: visited) t

inductive Hops (g : BlockId → Option BlockId) : BlockId → BlockId → Prop
  | refl (a : BlockId) : Hops g a a
  | step {a b c : BlockId} (h : g a = some b) (rest : Hops g b c) : Hops g a c

def OnCycle (g : BlockId → Option BlockId) (b : BlockId) : Prop :=
  ∃ t, g b = some t ∧ Hops g t b

/-- The first block on a chain that has no link or lies on a cycle. -/
inductive Stops (g : BlockId → Option BlockId) : BlockId → BlockId → Prop
  | here {a : BlockId} (h : g a = none ∨ OnCycle g a) : Stops g a a
  | further {a b c : BlockId} (h : g a = some b) (hn : ¬OnCycle g a) (rest : Stops g b c) :
      Stops g a c

/-- The blocks of a chain from one block up to another one, each once. -/
inductive Trail (g : BlockId → Option BlockId) (b : BlockId) : BlockId → List BlockId → Prop
  | nil : Trail g b b []
  | cons {a c : BlockId} {l : List BlockId} (h : g a = some c) (hb : a ≠ b) (hl : a ∉ l)
      (rest : Trail g b c l) : Trail g b a (a :: l)

variable {g g' : BlockId → Option BlockId} {a b c t u : BlockId}

theorem Hops.trans (h : Hops g a b) (h' : Hops g b c) : Hops g a c := by
  induction h with
  | refl => exact h'
  | step hs _ ih => exact .step hs (ih h')

theorem Hops.single (h : g a = some b) : Hops g a b := .step h (.refl b)

theorem OnCycle.next (h : OnCycle g a) (ha : g a = some b) : OnCycle g b := by
  obtain ⟨t, ht, hback⟩ := h
  cases ha.symm.trans ht
  cases hback with
  | refl => exact ⟨a, ha, .refl a⟩
  | step hb hrest => exact ⟨_, hb, hrest.trans (.single ha)⟩

theorem OnCycle.hops (h : OnCycle g a) (hb : Hops g a b) : OnCycle g b := by
  induction hb with
  | refl => exact h
  | step hs _ ih => exact ih (h.next hs)

/-! ## Where a chain stops -/

theorem Stops.stop (h : Stops g a u) : g u = none ∨ OnCycle g u := by
  induction h with
  | here h => exact h
  | further _ _ _ ih => exact ih

theorem Stops.hops (h : Stops g a u) : Hops g a u := by
  induction h with
  | here => exact .refl _
  | further h _ _ ih => exact .step h ih

theorem Stops.unique (h : Stops g a b) (h' : Stops g a c) : b = c := by
  induction h with
  | here hs =>
    cases h' with
    | here => rfl
    | further hn hc =>
      obtain hs | hs := hs
      · rw [hs] at hn
        cases hn
      · exact absurd hs hc
  | further hn hc _ ih =>
    cases h' with
    | here hs =>
      obtain hs | hs := hs
      · rw [hs] at hn
        cases hn
      · exact absurd hs hc
    | further hn' _ rest =>
      cases hn.symm.trans hn'
      exact ih rest

variable {l : List BlockId}

section

variable (h : Trail g b a l)

include h

theorem Trail.not_mem : b ∉ l := by
  induction h with
  | nil => simp
  | cons _ hb _ _ ih => simp [Ne.symm hb, ih]

theorem Trail.nodup : l.Nodup := by
  induction h with
  | nil => simp
  | cons _ _ hl _ ih => exact nodup_cons.2 ⟨hl, ih⟩

theorem Trail.linked {x : BlockId} (hx : x ∈ l) : ∃ y, g x = some y := by
  induction h with
  | nil => cases hx
  | cons h _ _ _ ih =>
    obtain rfl | hx := mem_cons.1 hx
    · exact ⟨_, h⟩
    · exact ih hx

theorem Trail.hops {x : BlockId} (hx : x ∈ l) : Hops g a x := by
  induction h with
  | nil => cases hx
  | cons h _ _ _ ih =>
    obtain rfl | hx := mem_cons.1 hx
    · exact .refl _
    · exact .step h (ih hx)

theorem Trail.from_mem {x : BlockId} (hx : x ∈ l) : ∃ l', Trail g b x l' := by
  induction h with
  | nil => cases hx
  | cons h hb hl rest ih =>
    obtain rfl | hx := mem_cons.1 hx
    · exact ⟨_, .cons h hb hl rest⟩
    · exact ih hx

end

theorem Hops.trail (h : Hops g a b) : ∃ l, Trail g b a l := by
  induction h with
  | refl => exact ⟨[], .nil⟩
  | @step a c b h _ ih =>
    obtain ⟨l, hl⟩ := ih
    by_cases hab : a = b
    · subst hab
      exact ⟨[], .nil⟩
    by_cases ha : a ∈ l
    · exact hl.from_mem ha
    · exact ⟨a :: l, .cons h hab ha hl⟩

theorem Trail.follow_eq (h : Trail g b a l) {n : Nat} {visited : List BlockId} (hb : b ∈ visited)
    (hnew : ∀ x ∈ l, x ∉ visited) (hn : l.length ≤ n) : follow g n visited a = b := by
  induction h generalizing n visited with
  | nil =>
    cases n with
    | zero => rfl
    | succ n =>
      unfold follow
      split
      · rfl
      · rw [if_pos hb]
  | cons ha hab hal rest ih =>
    cases n with
    | zero => cases hn
    | succ n =>
      rw [forall_mem_cons] at hnew
      unfold follow
      rw [ha]
      dsimp only
      rw [if_neg hnew.1]
      refine ih (mem_cons_of_mem _ hb) (fun x hx => ?_) (Nat.le_of_succ_le_succ hn)
      rw [mem_cons, not_or]
      exact ⟨fun h => hal (h ▸ hx), hnew.2 x hx⟩

section Bounded

variable {size : Nat} (hsize : ∀ a t : BlockId, g a = some t → a < size)

include hsize

theorem length_le_size {l : List Nat} (hnd : l.Nodup) (hl : ∀ x ∈ l, ∃ y, g x = some y) :
    l.length ≤ size := by
  have hsub : l.Subperm (range size) := by
    refine subperm_of_subset hnd fun x hx => mem_range.2 ?_
    obtain ⟨y, hy⟩ := hl x hx
    exact hsize x y hy
  simpa using hsub.length_le

theorem OnCycle.follow_eq (h : OnCycle g b) (hb : g b = some t) {n : Nat} (hn : size ≤ n) :
    follow g n [b] t = b := by
  obtain ⟨t', ht', hback⟩ := h
  cases hb.symm.trans ht'
  obtain ⟨l, hl⟩ := hback.trail
  refine hl.follow_eq (by simp) (fun x hx hxb => ?_) ?_
  · rw [mem_singleton] at hxb
    exact hl.not_mem (hxb ▸ hx)
  · exact Nat.le_trans (length_le_size hsize hl.nodup fun x hx => hl.linked hx) hn

theorem follow_stops {n : Nat} {visited : List BlockId} (hnd : visited.Nodup)
    (hlinked : ∀ x ∈ visited, ∃ y, g x = some y) (hcycle : ∀ x ∈ visited, ¬OnCycle g x)
    (hhops : ∀ x ∈ visited, ∃ y, g x = some y ∧ Hops g y b)
    (hn : size < n + visited.length) : Stops g b (follow g n visited b) := by
  induction n generalizing visited b with
  | zero =>
    have hle := length_le_size hsize hnd hlinked
    omega
  | succ n ih =>
    unfold follow
    split
    · rename_i hb
      exact .here (.inl hb)
    rename_i t hb
    have hnew : b ∉ visited := fun h => hcycle b h (hhops b h)
    rw [if_neg hnew]
    by_cases hcb : OnCycle g b
    · -- The rest of the cycle is new to the search, which therefore comes back here.
      obtain ⟨t', ht', hback⟩ := hcb
      cases hb.symm.trans ht'
      obtain ⟨l, hl⟩ := hback.trail
      have hoff : ∀ x ∈ l, x ∉ visited := by
        intro x hx hxv
        exact hcycle x hxv (OnCycle.hops ⟨t, hb, hback⟩ (.step hb (hl.hops hx)))
      have hlen : (l ++ b :: visited).length ≤ size := by
        refine length_le_size hsize ?_ ?_
        · refine nodup_append.2 ⟨hl.nodup, nodup_cons.2 ⟨hnew, hnd⟩, ?_⟩
          rintro x hx y hy rfl
          obtain rfl | hy := mem_cons.1 hy
          · exact hl.not_mem hx
          · exact hoff x hx hy
        · intro x hx
          obtain hx | hx := mem_append.1 hx
          · exact hl.linked hx
          obtain rfl | hx := mem_cons.1 hx
          · exact ⟨t, hb⟩
          · exact hlinked x hx
      rw [length_append, length_cons] at hlen
      rw [hl.follow_eq mem_cons_self ?_ (by omega)]
      · exact .here (.inr ⟨t, hb, hback⟩)
      intro x hx
      rw [mem_cons, not_or]
      exact ⟨fun h => hl.not_mem (h ▸ hx), hoff x hx⟩
    · refine .further hb hcb (ih (nodup_cons.2 ⟨hnew, hnd⟩) ?_ ?_ ?_ ?_)
      · exact forall_mem_cons.2 ⟨⟨t, hb⟩, hlinked⟩
      · exact forall_mem_cons.2 ⟨hcb, hcycle⟩
      · refine forall_mem_cons.2 ⟨⟨t, hb, .refl t⟩, fun x hx => ?_⟩
        obtain ⟨y, hy, hrest⟩ := hhops x hx
        exact ⟨y, hy, hrest.trans (.single hb)⟩
      · rw [length_cons]
        omega

theorem follow_stops_of_link (hb : g b = some t) (hc : ¬OnCycle g b) :
    Stops g t (follow g (size + 1) [b] t) := by
  refine follow_stops hsize (by simp) ?_ ?_ ?_ ?_
  · exact forall_mem_cons.2 ⟨⟨t, hb⟩, by simp⟩
  · exact forall_mem_cons.2 ⟨hc, by simp⟩
  · exact forall_mem_cons.2 ⟨⟨t, hb, .refl t⟩, by simp⟩
  · omega

end Bounded

/-- Where the chain of a block stops, when that is another block. -/
def stop? (g : BlockId → Option BlockId) (size : Nat) (b : BlockId) : Option BlockId :=
  match g b with
  | none => none
  | some t =>
    let last := follow g (size + 1) [b] t
    if last = b then none else some last

theorem stop?_eq_some {size : Nat} (hsize : ∀ a t : BlockId, g a = some t → a < size) :
    stop? g size b = some u ↔ ¬OnCycle g b ∧ ∃ t, g b = some t ∧ Stops g t u := by
  unfold stop?
  cases hb : g b with
  | none => simp
  | some t =>
    simp only [Option.some.injEq, exists_eq_left']
    by_cases hc : OnCycle g b
    · simp [hc, hc.follow_eq hsize hb (Nat.le_succ size)]
    have hstops := follow_stops_of_link hsize hb hc
    have hne : follow g (size + 1) [b] t ≠ b := by
      intro heq
      exact hc ⟨t, hb, heq ▸ hstops.hops⟩
    simp only [if_neg hne, Option.some.injEq, hc, not_false_eq_true, true_and]
    constructor
    · rintro rfl
      exact hstops
    · exact hstops.unique

theorem stop?_of_stop {size : Nat} (hsize : ∀ a t : BlockId, g a = some t → a < size)
    (h : g b = none ∨ OnCycle g b) : stop? g size b = none := by
  cases hs : stop? g size b with
  | none => rfl
  | some u =>
    obtain ⟨hc, t, ht, -⟩ := (stop?_eq_some hsize).1 hs
    obtain h | h := h
    · rw [h] at ht
      cases ht
    · exact absurd h hc

theorem Hops.closed {p : BlockId → Prop} (hp : ∀ a t, p a → g a = some t → p t) (h : Hops g a b)
    (ha : p a) : p b := by
  induction h with
  | refl => exact ha
  | step hs _ ih => exact ih (hp _ _ ha hs)

theorem stop?_shortened {size : Nat} (hsize : ∀ a t : BlockId, g a = some t → a < size)
    (hsize' : ∀ a t : BlockId, g' a = some t → a < size) {p : BlockId → Prop}
    (hp : ∀ a t, p a → g a = some t → p t) (hnone : ∀ a, p a → g a = none → g' a = none)
    (hcycle : ∀ a, p a → OnCycle g a → g' a = g a)
    (hstops : ∀ a t u, p a → g a = some t → ¬OnCycle g a → Stops g t u → g' a = some u) (hb : p b) :
    stop? g' size b = stop? g size b := by
  have hexists : ∀ a t, g a = some t → ¬OnCycle g a → ∃ u, Stops g t u :=
    fun a t ha hc => ⟨_, follow_stops_of_link hsize ha hc⟩
  have hback : ∀ a c, p a → g' a = some c → ∃ t, g a = some t ∧ Hops g t c := by
    intro a c hpa ha
    cases hga : g a with
    | none =>
      rw [hnone a hpa hga] at ha
      cases ha
    | some t =>
      by_cases hc : OnCycle g a
      · rw [hcycle a hpa hc, hga] at ha
        exact ⟨c, ha, .refl c⟩
      obtain ⟨u, hu⟩ := hexists a t hga hc
      rw [hstops a t u hpa hga hc hu] at ha
      cases ha
      exact ⟨t, rfl, hu.hops⟩
  have hhops : ∀ a c, p a → Hops g' a c → Hops g a c := by
    intro a c hpa h
    induction h with
    | refl => exact .refl _
    | step h _ ih =>
      obtain ⟨t, ht, hh⟩ := hback _ _ hpa h
      have hlink := Hops.step ht hh
      exact hlink.trans (ih (hlink.closed hp hpa))
  have hon : ∀ a, p a → (OnCycle g' a ↔ OnCycle g a) := by
    intro a hpa
    constructor
    · rintro ⟨c, hc, h⟩
      obtain ⟨t, ht, hh⟩ := hback a c hpa hc
      exact ⟨t, ht, hh.trans (hhops c a ((Hops.step ht hh).closed hp hpa) h)⟩
    · intro h
      have hkeep : ∀ x y, p x → OnCycle g x → Hops g x y → Hops g' x y := by
        intro x y hpx hx hxy
        induction hxy with
        | refl => exact .refl _
        | step hs _ ih =>
          exact .step ((hcycle _ hpx hx).trans hs) (ih (hp _ _ hpx hs) (hx.next hs))
      obtain ⟨t, ht, hh⟩ := h
      have ha : OnCycle g a := ⟨t, ht, hh⟩
      exact ⟨t, (hcycle a hpa ha).trans ht, hkeep t a (hp a t hpa ht) (ha.next ht) hh⟩
  apply Option.ext
  intro u
  rw [stop?_eq_some hsize', stop?_eq_some hsize, hon b hb]
  refine and_congr_right fun hc => ?_
  constructor
  · rintro ⟨t', ht', hu⟩
    obtain ⟨t, ht, -⟩ := hback b t' hb ht'
    obtain ⟨w, hw⟩ := hexists b t ht hc
    have hwt : w = t' := Option.some.inj ((hstops b t w hb ht hc hw).symm.trans ht')
    have hpw : p w := hw.hops.closed hp (hp b t hb ht)
    have hw' : Stops g' w w := .here (hw.stop.imp (hnone w hpw) (hon w hpw).2)
    rw [← hwt] at hu
    rw [← hw'.unique hu]
    exact ⟨t, ht, hw⟩
  · rintro ⟨t, ht, hu⟩
    have hpu : p u := hu.hops.closed hp (hp b t hb ht)
    exact ⟨u, hstops b t u hb ht hc hu, .here (hu.stop.imp (hnone u hpu) (hon u hpu).2)⟩

end Qirc.IR
