import Qirc.Proofs.Emission.Simulation

/-!
# Lowered operations

Every entry of the lowering table emits instructions that realize what the operation asks of the
world and what it gives.
-/

namespace Qirc

open List Step IR Cursor

/-! ## Steadiness -/

namespace Cursor

variable {k : Nat}

theorem Steady.call (f : FuncId) (args : List Value) : Steady k (call f args) :=
  .emit fun _ => ⟨by simp [Instr.call], rfl⟩

theorem Steady.namedCall (f : FuncId) (args : List Value) (hint : String) :
    Steady k (namedCall f args hint) :=
  .emit fun _ => ⟨by simp [Instr.call], rfl⟩

theorem Steady.gate (name : String) (angles qubits : List Value) :
    Steady k (gate name angles qubits) :=
  .bind (.declare _ _ _) fun f => .bind (.call f _) fun _ => .pure _

theorem Steady.allocate : Steady k allocate := .bind (.declare _ _ _) fun f => .namedCall f _ _

theorem Steady.release (q : Value) : Steady k (release q) :=
  .bind (.declare _ _ _) fun f => .bind (.call f _) fun _ => .pure _

theorem Steady.measure (q : Value) : Steady k (measure q) :=
  .bind (.declare _ _ _) fun _ => .bind (.declare _ _ _) fun _ => .bind (.namedCall _ _ _) fun _ =>
    .bind (.call _ _) fun _ => .pure _

theorem Steady.read (r : Value) : Steady k (read r) := .bind (.declare _ _ _) fun f => .call f _

theorem Steady.get : Steady k (MonadState.get : Step Cursor Cursor) := by
  intro c a c' hr h
  obtain ⟨rfl, rfl⟩ := get_ok.1 h
  exact ⟨hr, .refl _⟩

theorem Steady.record (name : String) (v : Value) (tag : String) : Steady k (record name v tag) :=
  .ite (.bind (.throw _) fun _ => .bind .get fun _ => .bind (.declare _ _ _) fun _ =>
      .bind (.stringPtr _) fun _ => .bind (.call _ _) fun _ => .pure _)
    (.bind .get fun _ => .bind (.declare _ _ _) fun _ =>
      .bind (.stringPtr _) fun _ => .bind (.call _ _) fun _ => .pure _)

end Cursor

theorem Lowering.steady_measureRead {k : Nat} (q : Value) : Steady k (measureRead q) :=
  .bind (.measure q) .read

/-! ## Calls of the runtime -/

namespace Scene

variable {w : Scene} {j k : Nat} {c : Cursor} {regs : Registers} {α δ : Type}

variable {post : Cursor → Registers → α → δ → Prop}

theorem Realizes.throw {e : Failure} {y : Eval δ} : w.Realizes c regs (throw e) y post :=
  fun _ _ h => (throw_ok.1 h).elim

variable {name : String} {ret : Ty} {params : List Ty}

theorem realizes_declare {f : FuncId → Step Cursor α} {z : Eval δ} (hr : Ready k c)
    (hn : isRuntimeName name = true)
    (hf : ∀ f' c', Ready k c' → Grows c c' → Known c' name f' → w.Realizes c' regs (f f') z post) :
    w.Realizes c regs (declare name ret params >>= f) z post := by
  refine .silent hr fun f' c' h => ?_
  obtain ⟨m', rfl, hd⟩ := declare_ok hr h
  exact ⟨m', rfl, hd.toEntered, fun hr' hg => hf f' _ hr' hg ⟨hd.found, hn⟩⟩

variable {q v : Value} {a d : Datum} {qs : List Value} {ds : List Datum}

abbrev One (w : Scene) (c : Cursor) (regs : Registers) (v : Value) (d : Datum) : Prop :=
  w.Denotes c regs [v] [d]

section

variable (hm : w.module.Sound j) (hr : Ready k c)

include hm hr

theorem realizes_effect (hn : isRuntimeName name = true) (h : w.Denotes c regs qs ds) :
    w.Realizes c regs
      (declare name ret params >>= fun f => call f qs >>= fun _ => pure ())
      (Eval.invoke w.oracle name ds) (fun _ _ _ _ => True) := by
  apply realizes_declare hr hn
  intro f c' hr' hg hk u c'' hx hfit asked
  obtain ⟨v, c1, hcall, hpure⟩ := bind_ok.1 hx
  obtain ⟨-, rfl⟩ := pure_ok.1 hpure
  have h' := h.mono hg.within (.refl c regs)
  apply (realizes_invoke hm hr' hk rfl rfl rfl h' v c1 hcall hfit asked).mono
  rintro e fr ⟨regs', hfr, hagree, -⟩
  exact ⟨regs', hfr, hagree, trivial⟩

theorem realizes_gate (hn : isRuntimeName name = true) {angles : List Value}
    (h : w.Denotes c regs (angles ++ qs) ds) :
    w.Realizes c regs (gate name angles qs) (Eval.invoke w.oracle name ds) (fun _ _ _ _ => True) :=
  realizes_effect hm hr hn h

theorem realizes_release (h : w.One c regs q d) :
    w.Realizes c regs (release q) (Eval.invoke w.oracle Intrinsic.qubitRelease [d])
      (fun _ _ _ _ => True) :=
  realizes_effect hm hr (by decide) h

theorem realizes_allocate :
    w.Realizes c regs allocate (Eval.invoke w.oracle Intrinsic.qubitAllocate []) w.One := by
  apply realizes_declare hr (by decide)
  intro f c' hr' hg hk
  exact realizes_invoke hm hr' hk rfl rfl rfl .nil

theorem realizes_measure (h : w.One c regs q d) :
    w.Realizes c regs (measure q) (Lowering.performMeasure w.oracle d) w.One := by
  apply realizes_declare hr (by decide)
  intro convert c1 hr1 hg1 hk1
  apply realizes_declare hr1 (by decide)
  intro measure c2 hr2 hg2 hk2
  have h2 := (h.mono hg1.within (.refl c regs)).mono hg2.within (.refl c1 regs)
  apply Realizes.bind hr2 (.namedCall _ _ _) (fun _ => .bind (.call _ _) fun _ => .pure _)
    (realizes_invoke hm hr2 (hk1.mono hg2) rfl rfl rfl h2)
  intro r e c3 regs3 hr3 hg3 ha3 hr
  have h3 := h2.mono hg3.within ha3
  apply Realizes.bind hr3 (.call _ _) (fun _ => .pure _)
    (realizes_invoke hm hr3 (hk2.mono hg3) rfl rfl rfl (h3.cons hr))
  intro _ _ c4 regs4 _ hg4 ha4 _
  exact .pure (hr.mono hg4.within ha4)

theorem realizes_read (h : w.One c regs q d) :
    w.Realizes c regs (read q) (Lowering.performRead w.oracle d) w.One := by
  apply realizes_declare hr (by decide)
  intro f c' hr' hg hk
  exact realizes_invoke hm hr' hk rfl rfl rfl (h.mono hg.within (.refl c regs))

theorem realizes_measureRead (h : w.One c regs q d) :
    w.Realizes c regs (Lowering.measureRead q) (Lowering.performMeasureRead w.oracle d) w.One := by
  apply Realizes.bind hr (.measure q) .read (realizes_measure hm hr h)
  intro r e c' regs' hr' _ _ he
  exact realizes_read hm hr' he

end

theorem interned_denotes {m m' : Module} {text : String} {id : GlobalId} (tag : Nat)
    (hi : Interned k m m' (Text.utf8 text) id) (hw : m'.Within w.module) :
    w.One c regs (.string id tag) (textDatum text) := by
  obtain ⟨hlt, hbytes⟩ := hi.sound.texts hi.found
  refine ⟨by simp [Value.Old], ?_⟩
  simp [value, Module.eval, hw.global id hlt, hbytes, textDatum]

theorem realizes_record (hm : w.module.Sound j) (hr : Ready k c) {tag : String}
    (hn : isRuntimeName name = true) (h : w.One c regs v d) :
    w.Realizes c regs (record name v tag) (Eval.invoke w.oracle name [d, textDatum tag])
      (fun _ _ _ _ => True) := by
  unfold record
  split
  · exact fun _ _ hx => by
      obtain ⟨_, _, ht, -⟩ := bind_ok.1 hx
      exact (throw_ok.1 ht).elim
  · refine .silent hr fun _ c0 hx => ?_
    obtain ⟨rfl, rfl⟩ := get_ok.1 hx
    refine ⟨_, rfl, .refl hr.sound, fun hr0 hg0 => ?_⟩
    apply realizes_declare hr0 hn
    intro f c1 hr1 hg1 hk
    refine .silent hr1 fun label c2 hx => ?_
    obtain ⟨m', id, t, rfl, rfl, hi⟩ := stringPtr_ok hr1 hx
    refine ⟨m', rfl, hi.toEntered, fun hr2 hg2 => ?_⟩
    have h2 := (h.mono hg1.within (.refl _ regs)).mono hg2.within (.refl _ regs)
    intro u c'' hx hfit asked
    obtain ⟨v', c3, hcall, hpure⟩ := bind_ok.1 hx
    obtain ⟨-, rfl⟩ := pure_ok.1 hpure
    have hg3 := (Steady.call f _ _ v' _ hr2 hcall).2
    have htag : w.One ⟨m', c1.block⟩ regs (.string id t) (textDatum tag) :=
      interned_denotes t hi (hg3.within.trans hfit.within)
    apply (realizes_invoke hm hr2 (hk.mono hg2) rfl rfl rfl (h2.cons htag) v' c3 hcall hfit
      asked).mono
    rintro e fr ⟨regs', hfr, hagree, -⟩
    exact ⟨regs', hfr, hagree, trivial⟩

end Scene

/-! ## The table -/

namespace Lowering

def isPlain : Lowering → Bool
  | .gate name _ | .rotation name _ _ | .record name _ => isRuntimeName name
  | .logic op => (logic? op).isSome
  | .float op => (arithmetic? op).isSome
  | _ => true

theorem table_plain : ∀ e ∈ table, e.2.isPlain = true := by
  decide

theorem find?_plain {key : OpKey} {l : Lowering} (h : find? key = some l) : l.isPlain = true := by
  obtain ⟨e, he, rfl⟩ := Option.map_eq_some_iff.1 h
  exact table_plain e (mem_of_find?_eq_some he)

theorem logic?_computes {op : Opcode} {f : Datum → Datum → Datum} (h : logic? op = some f) :
    op.computes = true ∧ ∀ (x : Instr) (a b : Datum), x.op = op → x.compute [a, b] = f a b := by
  unfold logic? at h
  split at h <;> cases h <;> refine ⟨rfl, fun x a b hx => ?_⟩ <;> simp [Instr.compute, hx]

theorem arithmetic?_computes {op : Opcode} {f : Float → Float → Float}
    (h : arithmetic? op = some f) :
    op.computes = true ∧
      ∀ (x : Instr) (a b : Datum), x.op = op → x.compute [a, b] = Datum.arithmetic f a b := by
  unfold arithmetic? at h
  split at h <;> cases h <;> refine ⟨rfl, fun x a b hx => ?_⟩ <;> simp [Instr.compute, hx]

section Realization

open Scene

variable {w : Scene} {j k : Nat} {c : Cursor} {regs : Registers}

theorem realizes_then {α β : Type} {x : Step Cursor α} {y : Eval β}
    {post : Cursor → Registers → α → β → Prop} {vs : α → List Value} {es : β → List Datum}
    (hr : Ready k c) (hs : Steady k x) (h : w.Realizes c regs x y post)
    (hp : ∀ a b c' regs', Grows c c' → c.Agrees regs regs' → post c' regs' a b →
      w.Denotes c' regs' (vs a) (es b)) :
    w.Realizes c regs (x >>= fun a => pure (vs a)) (y >>= fun b => pure (es b)) w.Denotes :=
  .bind hr hs (fun _ => .pure _) h fun a b c' regs' _ hg ha hab => .pure (hp a b c' regs' hg ha hab)

theorem realizes_computed {build : Module → Instr} {d : Datum} (hr : Ready k c)
    (hop : ∀ m, (build m).op.computes = true)
    (hd : (build c.module).compute ((build c.module).operands.map (w.value regs)) = d) :
    w.Realizes c regs (emit build >>= fun v => pure [v]) (pure [d]) w.Denotes :=
  realizes_then hr (.emit fun m => Opcode.plain_of_computes (hop m)) (realizes_compute hr (hop _) hd)
    fun _ _ _ _ _ _ h => h

theorem value_bool (b : Bool) : w.value regs (.bool b) = .bool b := by
  cases b <;> rfl

theorem lower_realizes (hm : w.module.Sound j) (hr : Ready k c) {l : Lowering}
    (hl : l.isPlain = true) (tag : String) {args : List Value} {ds : List Datum}
    (h : w.Denotes c regs args ds) :
    w.Realizes c regs (l.lower tag args) (l.perform w.oracle tag ds) w.Denotes := by
  cases l with
  | gate name n =>
    exact realizes_then hr (.gate _ _ _) (realizes_gate hm hr hl h)
      fun _ _ _ _ hg ha _ => h.mono hg.within ha
  | rotation name n angles =>
    have hdata := h.data
    have hall : w.Denotes c regs (args.drop n ++ args.take n) (ds.drop n ++ ds.take n) := by
      apply h.part
      · intro u hu
        rcases mem_append.1 hu with hu | hu
        · exact mem_of_mem_drop hu
        · exact mem_of_mem_take hu
      · rw [map_append, map_drop, map_take, hdata]
    have hqs : w.Denotes c regs (args.take n) (ds.take n) :=
      h.part (fun _ => mem_of_mem_take) (by rw [map_take, hdata])
    exact realizes_then hr (.gate _ _ _) (realizes_gate hm hr hl hall)
      fun _ _ _ _ hg ha _ => hqs.mono hg.within ha
  | allocate => exact realizes_then hr .allocate (realizes_allocate hm hr) fun _ _ _ _ _ _ h => h
  | tryAllocate =>
    have htrue : w.One c regs (.bool true) (.bool true) :=
      ⟨by simp [Value.Old, Value.bool], congrArg (fun d => [d]) (value_bool true)⟩
    exact realizes_then hr .allocate (realizes_allocate hm hr)
      fun _ _ _ _ hg ha h => (htrue.mono hg.within ha).cons h
  | readFuture => exact .pure h
  | dropFuture => exact .pure .nil
  | release =>
    cases args with
    | nil => exact .throw
    | cons q _ =>
      obtain ⟨d, es, rfl, hq, -⟩ := h.head
      exact realizes_then hr (.release q) (realizes_release hm hr hq) fun _ _ _ _ _ _ _ => .nil
  | measure | measureLazily =>
    cases args with
    | nil => exact .throw
    | cons q _ =>
      obtain ⟨d, es, rfl, hq, -⟩ := h.head
      exact realizes_then hr (steady_measureRead q) (realizes_measureRead hm hr hq)
        fun _ _ _ _ hg ha h => (hq.mono hg.within ha).cons h
  | measureAway =>
    cases args with
    | nil => exact .throw
    | cons q _ =>
      obtain ⟨d, es, rfl, hq, -⟩ := h.head
      exact realizes_then hr (steady_measureRead q) (realizes_measureRead hm hr hq)
        fun _ _ _ _ _ _ h => h
  | measureRelease =>
    cases args with
    | nil => exact .throw
    | cons q _ =>
      obtain ⟨d, es, rfl, hq, -⟩ := h.head
      apply Realizes.bind hr (.measure q)
        (fun r => .bind (.release q) fun _ => .bind (.read r) fun _ => .pure _)
        (realizes_measure hm hr hq)
      intro r e c1 regs1 hr1 hg1 ha1 he
      apply Realizes.bind hr1 (.release q) (fun _ => .bind (.read r) fun _ => .pure _)
        (realizes_release hm hr1 (hq.mono hg1.within ha1))
      intro _ _ c2 regs2 hr2 hg2 ha2 _
      exact realizes_then hr2 (.read r) (realizes_read hm hr2 (he.mono hg2.within ha2))
        fun _ _ _ _ _ _ h => h
  | measureReset =>
    cases args with
    | nil => exact .throw
    | cons q _ =>
      obtain ⟨d, es, rfl, hq, -⟩ := h.head
      apply Realizes.bind hr (.measure q)
        (fun r => .bind (.gate _ _ _) fun _ => .bind (.read r) fun _ => .pure _)
        (realizes_measure hm hr hq)
      intro r e c1 regs1 hr1 hg1 ha1 he
      have hq1 := hq.mono hg1.within ha1
      apply Realizes.bind hr1 (.gate _ _ _) (fun _ => .bind (.read r) fun _ => .pure _)
        (realizes_gate hm hr1 (by decide) hq1)
      intro _ _ c2 regs2 hr2 hg2 ha2 _
      have hq2 := hq1.mono hg2.within ha2
      exact realizes_then hr2 (.read r) (realizes_read hm hr2 (he.mono hg2.within ha2))
        fun _ _ _ _ hg ha h => (hq2.mono hg.within ha).cons h
  | record name t =>
    cases args with
    | nil => exact .throw
    | cons v _ =>
      obtain ⟨d, es, rfl, hv, -⟩ := h.head
      exact realizes_then hr (.record _ v _) (realizes_record hm hr hl hv)
        fun _ _ _ _ _ _ _ => .nil
  | copyFuture =>
    cases args with
    | nil => exact .throw
    | cons v _ =>
      obtain ⟨d, es, rfl, hv, -⟩ := h.head
      exact .pure (hv.cons hv)
  | not =>
    cases args with
    | nil => exact .throw
    | cons x _ =>
      rw [← h.data]
      refine realizes_computed hr (fun _ => rfl) ?_
      simp [Instr.not, Instr.binary, Instr.compute, value_bool]
  | negate =>
    cases args with
    | nil => exact .throw
    | cons x _ =>
      rw [← h.data]
      exact realizes_computed hr (fun _ => rfl) rfl
  | equal =>
    match args with
    | [] | [_] => exact .throw
    | x :: y :: _ =>
      rw [← h.data]
      exact realizes_computed hr (fun _ => rfl) rfl
  | logic op =>
    match args with
    | [] | [_] => exact .throw
    | x :: y :: _ =>
      obtain ⟨f, hf⟩ := Option.isSome_iff_exists.1 hl
      obtain ⟨hop, hcomp⟩ := logic?_computes hf
      rw [← h.data]
      simp only [perform, map_cons, hf]
      exact realizes_computed hr (fun _ => hop) (hcomp _ _ _ rfl)
  | float op =>
    match args with
    | [] | [_] => exact .throw
    | x :: y :: _ =>
      obtain ⟨f, hf⟩ := Option.isSome_iff_exists.1 hl
      obtain ⟨hop, hcomp⟩ := arithmetic?_computes hf
      rw [← h.data]
      simp only [perform, map_cons, hf]
      exact realizes_computed hr (fun _ => hop) (hcomp _ _ _ rfl)

end Realization

end Lowering

theorem Operation.lower_ok {op : Operation} {sig : Signature} {args vs : List Value}
    {c c' : Cursor} (h : op.lower sig args c = .ok vs c') :
    ∃ l, Lowering.find? op.key = some l ∧ sig = l.sig ∧ l.lower op.tag args c = .ok vs c' := by
  unfold Operation.lower at h
  cases hl : Lowering.find? op.key with
  | none =>
    rw [hl] at h
    exact (throw_ok.1 h).elim
  | some l =>
    rw [hl] at h
    simp only [ite_ok, throw_ok, and_false, false_or, inContext_ok] at h
    exact ⟨l, rfl, Decidable.not_not.1 h.2.2.1, h.2.2.2⟩

end Qirc
