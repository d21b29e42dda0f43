import Qirc.Error

/-!
# Steps that agree

Two runs agree if both succeed, with one value and in states that are related, or if both fail with
one kind of error. The lemmas follow the construction of a step.
-/

namespace Qirc

/-- The kind of error that a failure is reported under; none for a broken precondition. -/
def Failure.kind : Failure → Option ErrorKind
  | .error e => some e.kind
  | .abort _ => none

@[simp] theorem Failure.kind_within (context : String) (f : Failure) :
    (f.within context).kind = f.kind := by
  cases f with
  | error e => simp [Failure.within, kind, Error.kind, Error.kinds]
  | abort cause => rfl

@[simp] theorem Failure.kind_graph (e : GraphError) : (Failure.graph e).kind = some .graph := by
  simp [Failure.graph, kind, Error.kind, Error.kinds, ErrorKind.all]

variable {σ τ α β : Type} {R : σ → σ → Prop} {S : τ → τ → Prop} {x y : Step σ α} {s t : σ}

inductive Agree (R : σ → σ → Prop) :
    EStateM.Result Failure σ α → EStateM.Result Failure σ α → Prop
  | ok {s t : σ} (a : α) (h : R s t) : Agree R (.ok a s) (.ok a t)
  | error {e f : Failure} {s t : σ} (h : e.kind = f.kind) : Agree R (.error e s) (.error f t)

/-- The same for attempts that also say how far they got. -/
inductive AgreeReport (R : σ → σ → Prop) :
    (α × Option Failure) × σ → (α × Option Failure) × σ → Prop
  | ok {s t : σ} (a : α) (h : R s t) : AgreeReport R ((a, none), s) ((a, none), t)
  | error {a b : α} {e f : Failure} {s t : σ} (h : e.kind = f.kind) :
      AgreeReport R ((a, some e), s) ((b, some f), t)

namespace Agree

theorem bind {f f' : α → Step σ β} (hx : Agree R (x s) (y t))
    (hf : ∀ a s' t', x s = .ok a s' → R s' t' → Agree R (f a s') (f' a t')) :
    Agree R ((x >>= f) s) ((y >>= f') t) := by
  change Agree R (EStateM.bind x f s) (EStateM.bind y f' t)
  unfold EStateM.bind
  generalize x s = r at hx hf
  generalize y t = r' at hx
  cases hx with
  | ok a h => exact hf a _ _ rfl h
  | error h => exact .error h

theorem throw (e : Failure) : Agree R ((throw e : Step σ α) s) ((throw e : Step σ α) t) := .error rfl

theorem ofExcept (x : Except Failure α) (h : R s t) :
    Agree R (Step.ofExcept x s) (Step.ofExcept x t) := by
  cases x with
  | ok a => exact .ok a h
  | error e => exact .error rfl

theorem inContext (context : String) (hx : Agree R (x s) (y t)) :
    Agree R (Step.inContext context x s) (Step.inContext context y t) := by
  unfold Step.inContext
  generalize x s = r at hx
  generalize y t = r' at hx
  cases hx with
  | ok a h => exact .ok a h
  | error h => exact .error (by rwa [Failure.kind_within, Failure.kind_within])

theorem zoom {part : σ → τ} {put : τ → σ → σ} {x y : Step τ α}
    (hx : Agree S (x (part s)) (y (part t))) (hput : ∀ u v, S u v → R (put u s) (put v t)) :
    Agree R (Step.zoom part put x s) (Step.zoom part put y t) := by
  unfold Step.zoom
  generalize x (part s) = r at hx
  generalize y (part t) = r' at hx
  cases hx with
  | ok a h => exact .ok a (hput _ _ h)
  | error h => exact .error h

theorem mapM {f : α → Step σ β} (hf : ∀ a s t, R s t → Agree R (f a s) (f a t)) {l : List α}
    (h : R s t) : Agree R (l.mapM f s) (l.mapM f t) := by
  induction l generalizing s t with
  | nil => exact .ok [] h
  | cons a l ih =>
    rw [List.mapM_cons]
    exact bind (hf a s t h) fun _ _ _ _ hk => bind (ih hk) fun _ _ _ _ hk => .ok _ hk

theorem forM {f : α → Step σ PUnit} (hf : ∀ a s t, R s t → Agree R (f a s) (f a t)) {l : List α}
    (h : R s t) : Agree R (l.forM f s) (l.forM f t) := by
  induction l generalizing s t with
  | nil => exact .ok _ h
  | cons a l ih => exact bind (hf a s t h) fun _ _ _ _ => ih

theorem of_ok {k : Option ErrorKind} (hok : ∀ a s', x s = .ok a s' → ∃ t', y t = .ok a t' ∧ R s' t')
    (hback : ∀ a t', y t = .ok a t' → ∃ s', x s = .ok a s')
    (hx : ∀ e s', x s = .error e s' → e.kind = k) (hy : ∀ e t', y t = .error e t' → e.kind = k) :
    Agree R (x s) (y t) := by
  cases hxs : x s with
  | ok a s' =>
    obtain ⟨t', hyt, h⟩ := hok a s' hxs
    rw [hyt]
    exact .ok a h
  | error e s' =>
    cases hyt : y t with
    | ok a t' =>
      obtain ⟨s'', h⟩ := hback a t' hyt
      cases hxs.symm.trans h
    | error f t' => exact .error ((hx e s' hxs).trans (hy f t' hyt).symm)

end Agree

end Qirc
