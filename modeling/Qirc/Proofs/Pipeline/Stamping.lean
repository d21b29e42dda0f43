import Mathlib
import Qirc.Pipeline.Basic
import Qirc.Proofs.IR.Tables
import Qirc.Proofs.Step

/-!
# Stamping the entry point

An entry that is set takes the place of the first one of its key, or the last place. So whatever
was set under the same keys before is gone, and a module that is stamped again bears the last stamp
only.
-/

namespace Qirc

open List IR

namespace IR

section Put

variable {α : Type} {key : α → String} {a b : α} {as bs l l' : List α}

def ofKey (key : α → String) (k : String) (l : List α) : List α := l.filter (fun x => key x == k)

theorem put_ofKey : ofKey key (key a) (put key a l) = a :: (ofKey key (key a) l).tail := by
  unfold ofKey
  induction l with
  | nil => simp [put]
  | cons x l ih => by_cases h : key x = key a <;> simp [put, h, ih]

theorem filter_put {p : α → Bool} (hp : ∀ x, key x = key a → p x = false) :
    (put key a l).filter p = l.filter p := by
  induction l with
  | nil => simp [put, hp a rfl]
  | cons x l ih => by_cases h : key x = key a <;> simp [put, h, filter_cons, ih, hp]

theorem put_put (h : key a = key b) : put key b (put key a l) = put key b l := by
  induction l with
  | nil => simp [put, h]
  | cons x l ih => by_cases hx : key x = key b <;> simp [put, h, hx, ih]

theorem map_put : (put key a l).map key =
    if key a ∈ l.map key then l.map key else l.map key ++ [key a] := by
  induction l with
  | nil => rfl
  | cons x l ih =>
    by_cases h : key x = key a
    · simp [put, h]
    · simp only [put, beq_iff_eq, h, if_false, map_cons, ih, mem_cons, Ne.symm h, false_or]
      split <;> rfl

theorem put_nodup (h : (l.map key).Nodup) : ((put key a l).map key).Nodup := by
  rw [map_put]
  split
  · exact h
  · exact nodup_append.2 ⟨h, nodup_singleton _, by grind⟩

/-- Entries of two keys may be set in either order, if one of them does not get a new place. -/
theorem put_comm (h : key a ≠ key b) (hb : key b ∈ l.map key) :
    put key a (put key b l) = put key b (put key a l) := by
  induction l with
  | nil => cases hb
  | cons x l ih =>
    by_cases hxa : key x = key a
    · simp [put, hxa, h]
    by_cases hxb : key x = key b
    · simp [put, hxb, Ne.symm h]
    · have hb : key b ∈ l.map key := (mem_cons.1 hb).resolve_left (Ne.symm hxb)
      simp [put, hxa, hxb, ih hb]

/-- Entries are set one after the other. -/
def putAll (key : α → String) (as l : List α) : List α := as.foldl (fun l a => put key a l) l

/-- A list after entries were set: an entry that was set is the first of its key, and the others
of its key, like those of other keys, are as before. Where keys did not repeat they do not now, so
it is the only one of its key. -/
structure Sets (key : α → String) (as l l' : List α) : Prop where
  first : ∀ a ∈ as, ofKey key (key a) l' = a :: (ofKey key (key a) l).tail
  once : (l.map key).Nodup → (l'.map key).Nodup ∧ ∀ a ∈ as, ofKey key (key a) l' = [a]
  others : l'.filter (fun x => key x ∉ as.map key) = l.filter (fun x => key x ∉ as.map key)

theorem filter_putAll (as : List α) {p : α → Bool} (hp : ∀ a ∈ as, ∀ x, key x = key a → p x = false) :
    (putAll key as l).filter p = l.filter p := by
  induction as generalizing l with
  | nil => rfl
  | cons a as ih =>
    rw [forall_mem_cons] at hp
    exact (ih hp.2).trans (filter_put hp.1)

theorem putAll_ofKey (hnd : (as.map key).Nodup) :
    ∀ a ∈ as, ofKey key (key a) (putAll key as l) = a :: (ofKey key (key a) l).tail := by
  induction as generalizing l with
  | nil => exact forall_mem_nil _
  | cons a as ih =>
    rw [map_cons, nodup_cons] at hnd
    have hapart : ∀ c ∈ as, key c ≠ key a := fun c hc h => hnd.1 (h ▸ mem_map_of_mem hc)
    refine forall_mem_cons.2 ⟨?_, fun c hc => ?_⟩
    · refine Eq.trans (filter_putAll as fun c hc x hx => ?_) put_ofKey
      simp [hx, hapart c hc]
    · refine (ih hnd.2 c hc).trans ?_
      congr 2
      refine filter_put fun x hx => ?_
      simp [hx, (hapart c hc).symm]

theorem putAll_nodup (as : List α) (h : (l.map key).Nodup) : ((putAll key as l).map key).Nodup := by
  induction as generalizing l with
  | nil => exact h
  | cons a as ih => exact ih (put_nodup h)

theorem ofKey_tail (h : (l.map key).Nodup) (k : String) : (ofKey key k l).tail = [] := by
  have hle : (ofKey key k l).length ≤ 1 := by
    rw [ofKey, ← countP_eq_length_filter]
    have hcount := nodup_iff_count_le_one.1 h k
    rwa [count, countP_map] at hcount
  rw [← length_eq_zero_iff, length_tail]
  omega

theorem Sets.putAll (hnd : (as.map key).Nodup) : Sets key as l (putAll key as l) where
  first := putAll_ofKey hnd
  once h := ⟨putAll_nodup as h, fun a ha => by rw [putAll_ofKey hnd a ha, ofKey_tail h]⟩
  others := filter_putAll as fun a ha x hx => by simp [hx, mem_map_of_mem ha]

theorem putAll_put (hb : ∀ a ∈ as, key a ≠ key b) (h : key b ∈ l.map key) :
    putAll key as (put key b l) = put key b (putAll key as l) := by
  induction as generalizing l with
  | nil => rfl
  | cons a as ih =>
    rw [forall_mem_cons] at hb
    unfold putAll
    rw [foldl_cons, foldl_cons, put_comm hb.1 h]
    refine ih hb.2 ?_
    rw [map_put]
    split
    · exact h
    · exact mem_append_left _ h

/-- Entries of the same keys that are set again replace those that were set before. -/
theorem putAll_putAll (as bs : List α) (hkeys : bs.map key = as.map key) (hnd : (as.map key).Nodup) :
    putAll key bs (putAll key as l) = putAll key bs l := by
  induction as generalizing bs l with
  | nil =>
    cases map_eq_nil_iff.1 hkeys
    rfl
  | cons a as ih =>
    obtain ⟨b, bs, rfl, hab, hkeys⟩ := map_eq_cons_iff.1 hkeys
    rw [map_cons, nodup_cons] at hnd
    have hapart : ∀ c ∈ as, key c ≠ key b := fun c hc h => hnd.1 (hab ▸ h ▸ mem_map_of_mem hc)
    have hmem : key b ∈ (put key a l).map key := by
      have hself : a ∈ ofKey key (key a) (put key a l) := put_ofKey ▸ mem_cons_self
      exact hab ▸ mem_map_of_mem (mem_filter.1 hself).1
    calc putAll key bs (put key b (putAll key as (put key a l)))
        = putAll key bs (putAll key as (put key b (put key a l))) := by rw [putAll_put hapart hmem]
      _ = putAll key bs (put key b l) := by rw [ih bs hkeys hnd.2, put_put hab.symm]

end Put

theorem Function.setAttrs (f : Function) (as : List Attr) :
    as.foldl Function.setAttr f = { f with attrs := putAll Attr.key as f.attrs } := by
  induction as generalizing f with
  | nil => rfl
  | cons a as ih => exact ih _

end IR

/-- A module after its entry was stamped. -/
structure Stamped (m m' : Module) (f : FuncId) (qubits results : Int) : Prop where
  attrs : Sets Attr.key [⟨"entry_point", none⟩, ⟨"output_labeling_schema", none⟩,
    ⟨"qir_profiles", some "custom"⟩, ⟨"required_num_qubits", some (toString qubits.toNat)⟩,
    ⟨"required_num_results", some (toString results.toNat)⟩] (m.func f).attrs (m'.func f).attrs
  flags : Sets Flag.key [⟨1, "qir_major_version", .int .i32 1⟩, ⟨7, "qir_minor_version", .int .i32 0⟩,
    ⟨1, "dynamic_qubit_management", .bool false⟩, ⟨1, "dynamic_result_management", .bool false⟩]
    m.flags m'.flags
  rest : ∃ attrs flags,
    m' = { m with functionTable := m.functionTable.modify f ({ · with attrs }), flags }

namespace EntryPoint

theorem count_ok {what : String} {n : Int} {k : Nat} :
    count what n = .ok k ↔ (0 ≤ n ∧ n < 2 ^ 32) ∧ k = n.toNat := by
  unfold count Word.size32
  split <;> grind

def stamped (m : Module) (f : FuncId) (q r : Nat) : Module :=
  { m with
    functionTable :=
      m.functionTable.modify f fun x => { x with attrs := putAll Attr.key (attrs q r) x.attrs }
    flags := putAll Flag.key flags m.flags }

theorem attrs_nodup (q r : Nat) : ((attrs q r).map Attr.key).Nodup := by
  change ((attrs 0 0).map Attr.key).Nodup
  decide

theorem flags_nodup : (flags.map Flag.key).Nodup := by decide

end EntryPoint

open EntryPoint

variable {m m' : Module} {f : FuncId} {entry : String} {qubits results : Int}

theorem stampEntry_eq (hf : m.func? entry = some f) :
    stampEntry m entry qubits results =
      if (m.func f).isDeclaration then .error (.error (.entryFunction entry))
      else (do
        let q ← count "qubit count" qubits
        let r ← count "result count" results
        .ok (stamped m f q r)) := by
  simp only [stampEntry, hf, Function.setAttrs]
  rfl

theorem stampEntry_ok :
    stampEntry m entry qubits results = .ok m' ↔ ∃ f, m.func? entry = some f ∧
      (m.func f).isDeclaration = false ∧ (0 ≤ qubits ∧ qubits < 2 ^ 32) ∧
        (0 ≤ results ∧ results < 2 ^ 32) ∧ m' = stamped m f qubits.toNat results.toNat := by
  cases hf : m.func? entry with
  | none => simp [stampEntry, hf]
  | some f =>
    rw [stampEntry_eq hf]
    cases hd : (m.func f).isDeclaration with
    | true => simp [hd]
    | false =>
      simp only [Bool.false_eq_true, if_false, Step.except_bind_ok, count_ok]
      constructor
      · rintro ⟨_, ⟨hq, rfl⟩, _, ⟨hr, rfl⟩, h⟩
        exact ⟨f, rfl, hd, hq, hr, (Except.ok.inj h).symm⟩
      · rintro ⟨_, ⟨⟩, -, hq, hr, rfl⟩
        exact ⟨_, ⟨hq, rfl⟩, _, ⟨hr, rfl⟩, rfl⟩

theorem stamped_func (q r : Nat) :
    (stamped m f q r).func f = if f < m.functionTable.size then
      { m.func f with attrs := putAll Attr.key (attrs q r) (m.func f).attrs } else m.func f := by
  refine (getD_modify ..).trans ?_
  simp only [true_and]
  rfl

theorem stamped_spec (hf : (m.func f).isDeclaration = false) :
    Stamped m (stamped m f qubits.toNat results.toNat) f qubits results where
  attrs := by
    have hlt : f < m.functionTable.size := by
      apply Decidable.byContradiction
      intro h
      rw [Module.func_of_size_le m (Nat.le_of_not_lt h)] at hf
      cases hf
    rw [stamped_func, if_pos hlt]
    exact .putAll (attrs_nodup ..)
  flags := .putAll flags_nodup
  rest := by
    unfold stamped
    rw [modify_congr (d := default) m.functionTable f
      (g := ({ · with attrs := putAll Attr.key (attrs _ _) (m.func f).attrs })) rfl]
    exact ⟨_, _, rfl⟩

theorem stamped_stamped (q r q' r' : Nat) :
    stamped (stamped m f q r) f q' r' = stamped m f q' r' := by
  unfold stamped
  rw [modify_modify, putAll_putAll _ _ rfl flags_nodup]
  congr 2
  funext x
  exact congrArg ({ x with attrs := · })
    (putAll_putAll (attrs q r) (attrs q' r') rfl (attrs_nodup q r))

theorem stampEntry_stamped (hf : m.func? entry = some f) (q r : Nat) :
    stampEntry (stamped m f q r) entry qubits results = stampEntry m entry qubits results := by
  have hf' : (stamped m f q r).func? entry = some f := hf
  have hdecl : ((stamped m f q r).func f).isDeclaration = (m.func f).isDeclaration := by
    rw [stamped_func]
    split <;> rfl
  simp only [stampEntry_eq hf, stampEntry_eq hf', hdecl, stamped_stamped]

/-- A stage that only reads the module until it succeeds leaves it alone when it fails. -/
theorem stamp_error {p q : Pipeline} {e : Failure} (h : Pipeline.stamp p = .error e q) :
    q.module = p.module := by
  unfold Pipeline.stamp Pipeline.advance at h
  split at h
  · cases h
    rfl
  split at h
  · cases h
    rfl
  rw [Step.get_bind] at h
  generalize stampEntry (p.openStage .stamp).module _ _ _ = x at h
  cases x with
  | ok m => cases h
  | error f => cases f <;> cases h <;> rfl

/-- Stamping succeeds if there is such a definition and both counts fit; then it sets the attributes
and the flags and does nothing else, and whatever a module was stamped with before does not show.
The keys of a function's attributes do not repeat, whichever were set. -/
theorem stampEntry_last_wins (m : Module) (entry : String) (qubits results : Int) :
    ((∃ m', stampEntry m entry qubits results = .ok m') ↔
      (∃ f, m.func? entry = some f ∧ (m.func f).isDeclaration = false) ∧
        (0 ≤ qubits ∧ qubits < 2 ^ 32) ∧ 0 ≤ results ∧ results < 2 ^ 32) ∧
    (∀ m', stampEntry m entry qubits results = .ok m' → ∃ f, m.func? entry = some f ∧
      Stamped m m' f qubits results ∧
      ∀ qubits results, stampEntry m' entry qubits results = stampEntry m entry qubits results) ∧
    (∀ p e q, Pipeline.stamp p = .error e q → q.module = p.module) ∧
    ∀ (x : Function) a, (x.attrs.map Attr.key).Nodup →
      ((x.setAttr a).attrs.map Attr.key).Nodup := by
  refine ⟨⟨?_, ?_⟩, ?_, fun _ _ _ => stamp_error, fun _ _ => put_nodup⟩
  · rintro ⟨m', h⟩
    obtain ⟨f, hf, hd, hq, hr, -⟩ := stampEntry_ok.1 h
    exact ⟨⟨f, hf, hd⟩, hq, hr⟩
  · rintro ⟨⟨f, hf, hd⟩, hq, hr⟩
    exact ⟨_, stampEntry_ok.2 ⟨f, hf, hd, hq, hr, rfl⟩⟩
  · intro m' h
    obtain ⟨f, hf, hd, -, -, rfl⟩ := stampEntry_ok.1 h
    exact ⟨f, hf, stamped_spec hd, fun _ _ => stampEntry_stamped hf ..⟩

end Qirc
