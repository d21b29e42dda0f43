import Qirc.Error

/-!
# Steps that succeed and steps that fail

A step built from others succeeds exactly when each of them does. The lemmas take a step apart along
its construction, so that no proof has to open the state monad itself.
-/

namespace Qirc.Step

open List

variable {σ τ α β : Type}

variable {a : α} {s t : σ}

theorem pure_ok {b : α} : (pure a : Step σ α) s = .ok b t ↔ a = b ∧ s = t := by
  constructor
  · intro h
    cases h
    exact ⟨rfl, rfl⟩
  · rintro ⟨rfl, rfl⟩
    rfl

variable {x : Step σ α} {f : α → Step σ β} {u : σ} {b : β}

theorem bind_ok : (x >>= f) s = .ok b u ↔ ∃ a t, x s = .ok a t ∧ f a t = .ok b u := by
  change EStateM.bind x f s = _ ↔ _
  unfold EStateM.bind
  cases hx : x s with
  | ok a t =>
    constructor
    · intro h
      exact ⟨a, t, rfl, h⟩
    rintro ⟨_, _, h, h'⟩
    cases h
    exact h'
  | error e t => simp

theorem bind_error {e : Failure} :
    (x >>= f) s = .error e u ↔
      x s = .error e u ∨ ∃ a t, x s = .ok a t ∧ f a t = .error e u := by
  change EStateM.bind x f s = _ ↔ _
  unfold EStateM.bind
  cases hx : x s with
  | ok a t =>
    constructor
    · intro h
      exact .inr ⟨a, t, rfl, h⟩
    rintro (h | ⟨_, _, h, h'⟩)
    · cases h
    cases h
    exact h'
  | error e' t => simp

/-- What a step fails with. -/
def failure? : EStateM.Result Failure σ α → Option Failure
  | .ok _ _ => none
  | .error e _ => some e

theorem throw_ok {e : Failure} : (throw e : Step σ α) s = .ok a t ↔ False := by
  constructor
  · intro h
    cases h
  · exact False.elim

theorem get_ok {a : σ} : (get : Step σ σ) s = .ok a t ↔ a = s ∧ t = s := by
  constructor
  · intro h
    cases h
    exact ⟨rfl, rfl⟩
  · rintro ⟨rfl, rfl⟩
    rfl

theorem ofExcept_bind {x : Except Failure α} (h : x = .ok a) (f : α → Step σ β) (s : σ) :
    (ofExcept x >>= f) s = f a s := by
  rw [h]
  rfl

theorem get_bind (f : σ → Step σ α) (s : σ) : (get >>= f : Step σ α) s = f s s := rfl

theorem set_ok {x : σ} {a : PUnit} : (set x : Step σ PUnit) s = .ok a t ↔ t = x := by
  constructor
  · intro h
    cases h
    rfl
  · rintro rfl
    rfl

theorem modify_ok {f : σ → σ} {a : PUnit} : (modify f : Step σ PUnit) s = .ok a t ↔ t = f s := by
  constructor
  · intro h
    cases h
    rfl
  · rintro rfl
    rfl

theorem ofExcept_ok {x : Except Failure α} :
    (ofExcept x : Step σ α) s = .ok a t ↔ x = .ok a ∧ t = s := by
  cases x with
  | ok b =>
    simp only [ofExcept, pure_ok, Except.ok.injEq]
    exact ⟨fun h => ⟨h.1, h.2.symm⟩, fun h => ⟨h.1, h.2.symm⟩⟩
  | error e => simp [ofExcept, throw_ok]

theorem ofExcept_error {x : Except Failure α} {e : Failure}
    (h : (ofExcept x : Step σ α) s = .error e t) : x = .error e := by
  cases x with
  | ok a => cases h
  | error e' =>
    cases h
    rfl

theorem inContext_ok {context : String} : inContext context x s = .ok a t ↔ x s = .ok a t := by
  unfold inContext
  cases hx : x s with
  | ok b u => simp
  | error e u => simp

theorem zoom_ok {part : σ → τ} {put : τ → σ → σ} {x : Step τ α} :
    zoom part put x s = .ok a t ↔ ∃ u, x (part s) = .ok a u ∧ t = put u s := by
  unfold zoom
  cases hx : x (part s) with
  | ok b u =>
    simp only [EStateM.Result.ok.injEq]
    constructor
    · rintro ⟨rfl, rfl⟩
      exact ⟨u, ⟨rfl, rfl⟩, rfl⟩
    · rintro ⟨w, ⟨rfl, rfl⟩, rfl⟩
      exact ⟨rfl, rfl⟩
  | error e u => simp

theorem ite_ok {c : Prop} [Decidable c] {y : Step σ α} :
    (if c then x else y) s = .ok a t ↔ (c ∧ x s = .ok a t) ∨ (¬c ∧ y s = .ok a t) := by
  split <;> simp_all

theorem forM_nil_ok {f : α → Step σ PUnit} {a : PUnit} :
    (([] : List α).forM f) s = .ok a t ↔ t = s := by
  rw [forM_eq_forM, forM_nil, pure_ok]
  exact ⟨fun h => h.2.symm, fun h => ⟨rfl, h.symm⟩⟩

variable {xs : List α}

theorem forM_cons_ok {f : α → Step σ PUnit} {x : α} {a : PUnit} :
    ((x :: xs).forM f) s = .ok a t ↔
      ∃ u, f x s = .ok ⟨⟩ u ∧ (xs.forM f) u = .ok a t := by
  rw [forM_eq_forM, forM_cons, bind_ok]
  constructor
  · rintro ⟨_, u, h, h'⟩
    exact ⟨u, h, h'⟩
  · rintro ⟨u, h, h'⟩
    exact ⟨_, u, h, h'⟩

theorem mapM_nil_ok {bs : List β} : (([] : List α).mapM f) s = .ok bs t ↔ bs = [] ∧ t = s := by
  rw [mapM_nil, pure_ok]
  exact ⟨fun h => ⟨h.1.symm, h.2.symm⟩, fun h => ⟨h.1.symm, h.2.symm⟩⟩

theorem mapM_cons_ok {x : α} {bs : List β} :
    ((x :: xs).mapM f) s = .ok bs t ↔
      ∃ b u rest, f x s = .ok b u ∧ (xs.mapM f) u = .ok rest t ∧ bs = b :: rest := by
  simp only [mapM_cons, bind_ok, pure_ok]
  constructor
  · rintro ⟨b, u, hb, rest, w, hr, rfl, rfl⟩
    exact ⟨b, u, rest, hb, hr, rfl⟩
  · rintro ⟨b, u, rest, hb, hr, rfl⟩
    exact ⟨b, u, hb, rest, t, hr, rfl, rfl⟩

theorem except_bind_ok {ε : Type} {x : Except ε α} {f : α → Except ε β} :
    (x >>= f) = .ok b ↔ ∃ a, x = .ok a ∧ f a = .ok b := by
  cases x with
  | ok a => exact ⟨fun h => ⟨a, rfl, h⟩, fun ⟨_, h, h'⟩ => by cases h; exact h'⟩
  | error e => simp [bind, Except.bind]

/-! ## Whatever comes of a step -/

/-- The state that a step leaves behind, whether it succeeds or not. -/
def after (x : Step σ α) (s : σ) : σ :=
  match x s with
  | .ok _ t => t
  | .error _ t => t

theorem after_of_ok (h : x s = .ok a t) : after x s = t := by
  simp [after, h]

theorem after_bind (x : Step σ α) (f : α → Step σ β) (s : σ) :
    (∃ a t, x s = .ok a t ∧ after (x >>= f) s = after (f a) t) ∨
      (∃ e t, x s = .error e t ∧ after (x >>= f) s = t) := by
  change (∃ a t, _ ∧ after (EStateM.bind x f) s = _) ∨ ∃ e t, _ ∧ after (EStateM.bind x f) s = _
  unfold after EStateM.bind
  cases hx : x s with
  | ok a t => exact .inl ⟨a, t, rfl, rfl⟩
  | error e t => exact .inr ⟨e, t, rfl, rfl⟩

theorem after_get_bind (f : σ → Step σ α) (s : σ) : after (get >>= f) s = after (f s) s := rfl

theorem after_bind_ok (h : x s = .ok a t) : after (x >>= f) s = after (f a) t := by
  change after (EStateM.bind x f) s = _
  simp only [after, EStateM.bind, h]

theorem after_inContext (context : String) (x : Step σ α) (s : σ) :
    after (inContext context x) s = after x s := by
  unfold after inContext
  cases x s <;> rfl

theorem after_ofExcept (x : Except Failure α) (s : σ) : after (ofExcept x) s = s := by
  cases x <;> rfl

/-- A step that succeeds ends in such a state, and it fails only if that is allowed. -/
def Ends (fails : Prop) (x : Step σ α) (s : σ) (Q : σ → Prop) : Prop :=
  match x s with
  | .ok _ t => Q t
  | .error _ _ => fails

namespace Ends

variable {fails : Prop} {Q R : σ → Prop}

theorem bind (hx : Ends fails x s Q) (hf : ∀ a t, Q t → Ends fails (f a) t R) :
    Ends fails (x >>= f) s R := by
  unfold Ends at hx ⊢
  change match EStateM.bind x f s with | .ok _ t => R t | .error _ _ => fails
  unfold EStateM.bind
  cases hs : x s with
  | ok a t =>
    rw [hs] at hx
    exact hf a t hx
  | error e t =>
    rw [hs] at hx
    exact hx

theorem inContext (context : String) (hx : Ends fails x s Q) :
    Ends fails (inContext context x) s Q := by
  unfold Ends Step.inContext at *
  cases hs : x s <;> rw [hs] at hx <;> exact hx

theorem of_eq (h : x s = .ok a t) (ht : Q t) : Ends fails x s Q := by
  unfold Ends
  rw [h]
  exact ht

theorem of_ok (hx : ∀ a t, x s = .ok a t → Q t) : Ends True x s Q := by
  unfold Ends
  split
  · exact hx _ _ (by assumption)
  · trivial

theorem ok (hx : Ends fails x s Q) (h : x s = .ok a t) : Q t := by
  unfold Ends at hx
  rw [h] at hx
  exact hx

theorem exists_ok {x : Step σ Unit} (hx : Ends False x s Q) : ∃ t, x s = .ok () t ∧ Q t := by
  unfold Ends at hx
  cases hs : x s with
  | ok a t => exact ⟨t, rfl, by rwa [hs] at hx⟩
  | error e t => rw [hs] at hx; exact hx.elim

end Ends

end Qirc.Step
