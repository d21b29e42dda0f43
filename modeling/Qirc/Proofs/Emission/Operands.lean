import Qirc.Proofs.Emission.Operations
import Qirc.Proofs.IR.Formed

/-!
# Operands of emitted instructions

A value serves at a cursor when it has its type and its definition lies on every way to the block
under the cursor. Steps that stay in their block write what the verifier wants, and the values they
give serve again.
-/

namespace Qirc

open List Step IR IR.Module

/-- The values that emission hands around in a function. -/
def IR.Value.isLocal (fn : FuncId) : Value → Bool
  | .param f _ => f == fn
  | .int _ _ | .float _ | .string _ _ | .instr _ => true
  | _ => false

theorem IR.Module.Within.typeOf {m m' : Module} {fn : Nat} {v : Value} (hw : m.Within m')
    (hf : fn < m.functionTable.size) (ho : v.Old m) (hl : v.isLocal fn = true) :
    m'.typeOf v = m.typeOf v := by
  cases v with
  | param f k =>
    obtain rfl : f = fn := by simpa [Value.isLocal] using hl
    simp [Module.typeOf, hw.funcProto f hf]
  | instr i => simp [Module.typeOf, hw.instr i (ho i rfl)]
  | int | float | string => rfl
  | null | undef | address | global | func | block | missing => cases hl

variable {m : Module} {fn : FuncId} {e : BlockId} {j k : Nat} {c c' c'' : Cursor} {v : Value} {t : Ty}

namespace Cursor

/-- A value of a type that may be read by what is written next. -/
structure Serves (m : Module) (fn : FuncId) (e : BlockId) (c : Cursor) (v : Value) (t : Ty) :
    Prop where
  given : m.operandDefect? fn v = none
  ty : m.typeOf v = t
  plain : ¬m.Idle v
  old : v.Old c.module
  isLocal : v.isLocal fn = true
  home : ∀ i h, v = .instr i → (m.instr i).parent = some h → Dominates m.successors e h c.block

structure Proper (m : Module) (fn : FuncId) (e : BlockId) (i : InstrId) (b : BlockId) : Prop where
  parent : (m.instr i).parent = some b
  plain : ∀ v ∈ (m.instr i).operands, ¬m.Idle v
  typed : (m.instr i).op ≠ .phi → m.instrDefect? fn (m.instr i) [] = .ok none
  reads : (m.instr i).op ≠ .phi → ∀ v ∈ (m.instr i).operands, m.Ready fn e b i v
  phi : (m.instr i).op = .phi → PhiOk m (m.instr i) (m.predecessors fn b)
  takes : (m.instr i).op = .phi → ∀ v u,
    (v, some u) ∈ (m.instr i).operands.zip (m.instr i).blocks → m.Carried fn e u v

/-- Everything written between two cursors is as the verifier wants it. -/
def Written (m : Module) (fn : FuncId) (e : BlockId) (c c' : Cursor) : Prop :=
  ∀ i : Nat, c.module.instrTable.size ≤ i → i < c'.module.instrTable.size → ∃ b, Proper m fn e i b

theorem Written.refl : Written m fn e c c :=
  fun _ hge hlt => absurd hlt (Nat.not_lt.2 hge)

theorem Written.trans (h : Written m fn e c c') (h' : Written m fn e c' c'') :
    Written m fn e c c'' := fun i hge hlt =>
  (Nat.lt_or_ge i c'.module.instrTable.size).elim (h i hge) fun hi => h' i hi hlt

/-! ## Values -/

theorem Serves.move (h : Serves m fn e c v t)
    (hle : c.module.instrTable.size ≤ c'.module.instrTable.size)
    (hd : Dominates m.successors e c.block c'.block) : Serves m fn e c' v t :=
  { h with
    old := fun i hi => Nat.lt_of_lt_of_le (h.old i hi) hle
    home := fun i b hi hb => (h.home i b hi hb).trans hd }

theorem Serves.stay (h : Serves m fn e c v t) (hs : Stays c c') : Serves m fn e c' v t :=
  h.move hs.within.instrs (hs.block ▸ Dominates.refl _)

theorem Serves.constant (hd : m.operandDefect? fn v = none) (hl : v.isLocal fn = true)
    (hv : ∀ i, v ≠ .instr i) : Serves m fn e c v (m.typeOf v) where
  given := hd
  ty := rfl
  plain := fun ⟨i, hi, _⟩ => hv i hi
  old i hi := absurd hi (hv i)
  isLocal := hl
  home i _ hi := absurd hi (hv i)

theorem serves_int (t : Ty) (n : Int64) : Serves m fn e c (.int t n) t :=
  .constant rfl rfl fun _ => by simp

theorem serves_float (x : Float) : Serves m fn e c (.float x) .double :=
  .constant rfl rfl fun _ => by simp

theorem Serves.operandType (h : Serves m fn e c v t) : m.operandType v = .ok t := by
  refine operandType_eq_ok.2 ⟨?_, h.ty⟩
  rintro rfl
  cases h.isLocal

theorem Serves.carried (h : Serves m fn e c v t) : m.Carried fn e c.block v := by
  refine .inr ⟨h.given, ?_⟩
  rintro i rfl
  obtain ⟨b, hb, -⟩ := operandDefect?_instr.1 h.given
  exact ⟨b, hb, h.home i b rfl hb⟩

theorem pair_sublist_of_rising {l : List Nat} (hl : l.Pairwise (· < ·)) {a b : Nat} (ha : a ∈ l)
    (hb : b ∈ l) (hab : a < b) : [a, b].Sublist l := by
  obtain h | h := pair_sublist_total ha hb (Nat.ne_of_lt hab)
  · exact h
  have hba : b < a := by simpa using hl.sublist h
  exact absurd hab (Nat.not_lt.2 (Nat.le_of_lt hba))

theorem Serves.ready (h : Serves m fn e c v t) (hm : m.Sound j) {i : Nat}
    (hi : (m.instr i).parent = some c.block) (hge : c.module.instrTable.size ≤ i) :
    m.Ready fn e c.block i v := by
  refine .inr ⟨h.given, ?_⟩
  rintro x rfl
  obtain ⟨b, hb, -⟩ := operandDefect?_instr.1 h.given
  refine ⟨b, hb, ?_⟩
  by_cases hbc : b = c.block
  · subst hbc
    exact .inl ⟨rfl, pair_sublist_of_rising (hm.rising _) ((hm.linked.instr _ x).2 hb)
      ((hm.linked.instr _ i).2 hi) (Nat.lt_of_lt_of_le (h.old x rfl) hge)⟩
  · exact .inr ⟨hbc, h.home x b rfl hb⟩

/-! ## One instruction -/

structure Site (k : Nat) (fn : FuncId) (c : Cursor) : Prop where
  ready : Ready k c
  parent : (c.module.block c.block).parent = some fn

theorem Site.func_lt (h : Site k fn c) : fn < c.module.functionTable.size := by
  obtain ⟨f, hf, hlt⟩ := h.ready.parent
  rw [h.parent] at hf
  cases hf
  exact Nat.lt_of_lt_of_le hlt h.ready.sound.count

theorem Site.grow (h : Site k fn c) (hg : Grows c c') (hr : Ready k c') : Site k fn c' :=
  ⟨hr, hg.parent.trans h.parent⟩

theorem Site.parent_in (h : Site k fn c) (hw : c.module.Within m) :
    (m.block c.block).parent = some fn := by
  rw [hw.parent _ h.ready.block]
  exact h.parent

theorem Serves.type_now (h : Serves m fn e c v t) (hs : Site k fn c) (hw : c.module.Within m) :
    c.module.typeOf v = t := by
  rw [← hw.typeOf hs.func_lt h.old h.isLocal, h.ty]

theorem proper_at {i : Nat} {x : Instr} (hm : m.Sound j)
    (hi : m.instr i = { x with parent := some c.block }) (hge : c.module.instrTable.size ≤ i)
    (hop : x.op ≠ .phi) (htyped : m.instrDefect? fn x [] = .ok none)
    (hops : ∀ v ∈ x.operands, ∃ t, Serves m fn e c v t) : Proper m fn e i c.block := by
  have hp : (m.instr i).parent = some c.block := by rw [hi]
  refine ⟨hp, fun v hv => ?_, fun _ => ?_, fun _ v hv => ?_, fun hphi => ?_, fun hphi => ?_⟩
  · rw [hi] at hv
    obtain ⟨t, ht⟩ := hops v hv
    exact ht.plain
  · rw [hi]
    exact htyped
  · rw [hi] at hv
    obtain ⟨t, ht⟩ := hops v hv
    exact ht.ready hm hp hge
  · rw [hi] at hphi
    exact absurd hphi hop
  · rw [hi] at hphi
    exact absurd hphi hop

theorem serves_instr {i : Nat} {x : Instr} (hi : m.instr i = { x with parent := some c.block })
    (hp : (m.block c.block).parent = some fn) (hterm : x.op.isTerminator = false)
    (hty : x.ty.isVoid = false) (hlt : i < c.module.instrTable.size) :
    Serves m fn e c (.instr i) x.ty := by
  refine ⟨operandDefect?_instr.2 ⟨c.block, by rw [hi], hp, by rw [hi]; exact hty⟩, ?_, ?_, ?_, rfl,
    ?_⟩
  · rw [typeOf, hi]
  · rintro ⟨i, ⟨⟩, hterm'⟩
    rw [hi] at hterm'
    rw [hterm] at hterm'
    cases hterm'
  · rintro i ⟨⟩
    exact hlt
  · rintro i b ⟨⟩ hb
    rw [hi] at hb
    cases hb
    exact Dominates.refl _

section Append

variable {x : Instr} (hm : m.Sound j) (hs : Site k fn c)
  (hw : (c.module.append c.block x).2.Within m)

include hw in
theorem appended_instr : m.instr c.module.instrTable.size = { x with parent := some c.block } := by
  rw [hw.instr _ (by simp), append_instr, if_pos rfl]

include hm hw in
theorem proper_append (hop : x.op ≠ .phi) (htyped : m.instrDefect? fn x [] = .ok none)
    (hops : ∀ v ∈ x.operands, ∃ t, Serves m fn e c v t) :
    Proper m fn e c.module.instrTable.size c.block :=
  proper_at hm (appended_instr hw) (Nat.le_refl _) hop htyped hops

include hs hw in
theorem serves_result (hterm : x.op.isTerminator = false) (hty : x.ty.isVoid = false) :
    Serves m fn e { c with module := (c.module.append c.block x).2 }
      (.instr c.module.instrTable.size) x.ty := by
  have hparent := hs.parent_in ((append_within c.module c.block x).trans hw)
  exact serves_instr (appended_instr hw) hparent hterm hty (by simp)

end Append

theorem written_append {x : Instr} (h : Proper m fn e c.module.instrTable.size c.block) :
    Written m fn e c { c with module := (c.module.append c.block x).2 } := by
  intro i hge hlt
  rw [append_instrs_size] at hlt
  obtain rfl : i = c.module.instrTable.size := by omega
  exact ⟨_, h⟩

/-! ## Steps in a block -/

/-- A step that stays in its block. Under the condition, all that it writes is as the verifier wants
it, and its answer is as stated. -/
def Yields {α : Type} (m : Module) (fn : FuncId) (e : BlockId) (k : Nat) (c : Cursor) (pre : Prop)
    (x : Step Cursor α) (post : Cursor → α → Prop) : Prop :=
  ∀ a c', x c = .ok a c' → Site k fn c' ∧ Stays c c' ∧
    (pre → c'.module.Within m → Written m fn e c c' ∧ post c' a)

/-- Values of the given types that may be read by what is written next. -/
abbrev ServeAll (m : Module) (fn : FuncId) (e : BlockId) (c : Cursor) (vs : List Value)
    (ts : List Ty) : Prop := Forall₂ (Serves m fn e c) vs ts

variable {vs : List Value} {ts : List Ty}

theorem ServeAll.stay (h : ServeAll m fn e c vs ts) (hs : Stays c c') : ServeAll m fn e c' vs ts :=
  h.imp fun _ _ hv => hv.stay hs

theorem ServeAll.serves (h : ServeAll m fn e c vs ts) (hv : v ∈ vs) : ∃ t, Serves m fn e c v t := by
  induction h with
  | nil => cases hv
  | cons hu _ ih =>
    obtain rfl | hv := mem_cons.1 hv
    · exact ⟨_, hu⟩
    · exact ih hv

theorem ServeAll.of_mem (h : ∀ v ∈ vs, Serves m fn e c v t) :
    ServeAll m fn e c vs (vs.map fun _ => t) := by
  induction vs with
  | nil => exact .nil
  | cons v vs ih => exact .cons (h v (by simp)) (ih fun u hu => h u (by simp [hu]))

theorem argumentDefect?_of_serveAll {callee : String} {n : Nat} (h : ServeAll m fn e c vs ts) :
    m.argumentDefect? callee n vs ts = .ok none := by
  induction h generalizing n with
  | nil => rfl
  | cons hv _ ih =>
    unfold argumentDefect?
    rw [hv.operandType]
    simpa [Bind.bind, Except.bind] using ih

theorem record_eq {name tag : String} {v : Value} {u : Unit} (h : record name v tag c = .ok u c') :
    record name v tag c = (do
      let f ← declare name .void [c.module.typeOf v, .bytes]
      let label ← stringPtr tag
      let _ ← call f [v, label]) c := by
  unfold record at h ⊢
  split
  · rename_i htag
    rw [if_pos htag] at h
    obtain ⟨_, _, hthrow, -⟩ := bind_ok.1 h
    exact (throw_ok.1 hthrow).elim
  · rfl

namespace Yields

variable {α β : Type} {pre : Prop}

variable {post : Cursor → α → Prop}

theorem throw (err : Failure) (post : Cursor → α → Prop) :
    Yields m fn e k c pre (throw err : Step Cursor α) post :=
  fun _ _ hx => (throw_ok.1 hx).elim

variable {x : Step Cursor α}

theorem weaken {pre' : Prop} {post' : Cursor → α → Prop} (h : Yields m fn e k c pre x post)
    (hpre : pre' → pre) (hpost : ∀ c' a, post c' a → post' c' a) :
    Yields m fn e k c pre' x post' := by
  intro a c' hx
  obtain ⟨hs, hst, hw⟩ := h a c' hx
  exact ⟨hs, hst, fun hp hm => (hw (hpre hp) hm).imp_right (hpost c' a)⟩

structure Callee (m : Module) (c : Cursor) (f : FuncId) (proto : Prototype) : Prop where
  lt : f < c.module.functionTable.size
  proto : (m.func f).proto = proto

theorem Callee.grow {f : FuncId} {proto : Prototype} (h : Callee m c f proto) (hs : Stays c c') :
    Callee m c' f proto :=
  ⟨Nat.lt_of_lt_of_le h.lt hs.within.funcs, h.proto⟩

variable (hm : m.Sound j) (hs : Site k fn c)

include hs

theorem pure {a : α} (h : pre → post c a) : Yields m fn e k c pre (pure a) post := by
  intro b c' hx
  obtain ⟨rfl, rfl⟩ := pure_ok.1 hx
  exact ⟨hs, .refl c, fun hpre _ => ⟨.refl, h hpre⟩⟩

theorem bind {f : α → Step Cursor β} {post' : Cursor → β → Prop} (hx : Yields m fn e k c pre x post)
    (hf : ∀ a c', Site k fn c' → Stays c c' → Yields m fn e k c' (pre ∧ post c' a) (f a) post') :
    Yields m fn e k c pre (x >>= f) post' := by
  intro b c'' h
  obtain ⟨a, c', hxc, hfc⟩ := bind_ok.1 h
  obtain ⟨hs1, hst1, hw1⟩ := hx a c' hxc
  obtain ⟨hs2, hst2, hw2⟩ := hf a c' hs1 hst1 b c'' hfc
  refine ⟨hs2, hst1.trans hs.ready hs1.ready hst2, fun hpre hm => ?_⟩
  obtain ⟨hwrite1, hpost1⟩ := hw1 hpre (hst2.within.trans hm)
  obtain ⟨hwrite2, hpost2⟩ := hw2 ⟨hpre, hpost1⟩ hm
  exact ⟨hwrite1.trans hwrite2, hpost2⟩

theorem silent (hx : ∀ a c', x c = .ok a c' → ∃ m', c' = { c with module := m' } ∧
      Entered k c.module m' ∧ (pre → m'.Within m → post c' a)) : Yields m fn e k c pre x post := by
  intro a c' h
  obtain ⟨m', rfl, he, hpost⟩ := hx a c' h
  have hst := he.stays (c := c)
  refine ⟨hs.grow hst.toGrows (he.ready hs.ready), hst, fun hp hw => ⟨fun i hge hlt => ?_,
    hpost hp hw⟩⟩
  rw [he.instrs] at hlt
  exact absurd hlt (Nat.not_lt.2 hge)

theorem declare (name : String) (ret : Ty) (params : List Ty) :
    Yields m fn e k c pre (declare name ret params) fun c' f => Callee m c' f ⟨ret, params⟩ := by
  refine silent hs fun f c' h => ?_
  obtain ⟨m', rfl, hd⟩ := declare_ok hs.ready h
  refine ⟨m', rfl, hd.toEntered, fun _ hw => ?_⟩
  obtain ⟨hlt, -⟩ := hd.sound.symbols name f hd.found
  exact ⟨hlt, (hw.funcProto f hlt).trans hd.proto⟩

include hm

theorem stringPtr (text : String) :
    Yields m fn e k c pre (stringPtr text) fun c' v => Serves m fn e c' v .bytes := by
  refine silent hs fun v c' h => ?_
  obtain ⟨m', id, tag, rfl, rfl, hi⟩ := stringPtr_ok hs.ready h
  refine ⟨m', rfl, hi.toEntered, fun _ hw => ?_⟩
  obtain ⟨hold, -⟩ := hi.sound.texts hi.found
  have hlt : id < m.globalTable.size := Nat.lt_of_lt_of_le hold hw.globals
  exact .constant (by simp [operandDefect?, hm.indexed.globals, hlt]) rfl fun _ => by simp

theorem emit {build : Module → Instr}
    (hop : (build c.module).op ≠ .phi) (hterm : (build c.module).op.isTerminator = false)
    (htyped : pre → c.module.Within m → m.instrDefect? fn (build c.module) [] = .ok none)
    (hops : pre → c.module.Within m → ∀ v ∈ (build c.module).operands, ∃ t, Serves m fn e c v t)
    {post : Cursor → Value → Prop}
    (hpost : pre → ∀ c', c.module.Within m → ((build c.module).ty.isVoid = false →
      Serves m fn e c' (.instr c.module.instrTable.size) (build c.module).ty) →
      post c' (.instr c.module.instrTable.size)) :
    Yields m fn e k c pre (emit build) post := by
  intro v c' h
  obtain ⟨rfl, rfl⟩ := emit_ok.1 h
  have hst := Stays.append hs.ready hop hterm
  refine ⟨hs.grow hst.toGrows (append_ready hs.ready), hst, fun hpre hw => ?_⟩
  have hw0 := hst.within.trans hw
  exact ⟨written_append (proper_append hm hw hop (htyped hpre hw0) (hops hpre hw0)),
    hpost hpre _ hw0 (serves_result hs hw hterm)⟩

variable {args : List Value}

theorem call (proto : Prototype) {build : Module → Instr}
    {f : FuncId} (hop : (build c.module).op = .call) (hcallee : (build c.module).callee = some f)
    (hargs : (build c.module).operands = args)
    (hty : (build c.module).ty = (c.module.func f).proto.ret)
    (hpre : pre → c.module.Within m → Callee m c f proto ∧ ServeAll m fn e c args proto.params) :
    Yields m fn e k c pre (Cursor.emit build) fun c' v =>
      proto.ret.isVoid = false → Serves m fn e c' v proto.ret := by
  have hret : pre → c.module.Within m → (build c.module).ty = proto.ret := by
    intro hp hw
    rw [hty, ← (hpre hp hw).1.proto, hw.funcProto f (hpre hp hw).1.lt]
  refine emit hm hs (by simp [hop]) (by simp [hop, Opcode.isTerminator]) (fun hp hw => ?_)
    (fun hp hw v hv => ?_) fun hp c' hw hserve hvoid => ?_
  · obtain ⟨⟨-, hproto⟩, hserve⟩ := hpre hp hw
    have hlen := hserve.length_eq
    simp only [instrDefect?, hop, callDefect?, hcallee, hargs, hm.owned, hproto, hlen,
      argumentDefect?_of_serveAll hserve, hret hp hw, Bind.bind, Except.bind]
    simp
  · rw [hargs] at hv
    exact (hpre hp hw).2.serves hv
  · rw [← hret hp hw] at hvoid ⊢
    exact hserve hvoid

variable {name : String} {params : List Ty}

theorem declared {hint : String} {ret : Ty} (hpre : pre → ServeAll m fn e c args params) :
    Yields m fn e k c pre (Cursor.declare name ret params >>= fun f => namedCall f args hint)
      fun c' v => ret.isVoid = false → Serves m fn e c' v ret := by
  refine bind hs (declare hs name ret params) fun f c1 hs1 hst1 => ?_
  exact call hm hs1 ⟨ret, params⟩ rfl rfl rfl rfl fun hp _ => ⟨hp.2, (hpre hp.1).stay hst1⟩

theorem effect (hpre : pre → ServeAll m fn e c args params) :
    Yields m fn e k c pre
      (Cursor.declare name .void params >>= fun f => Cursor.call f args >>= fun _ => Pure.pure ())
      fun _ _ => True := by
  refine bind hs (declare hs name .void params) fun f c1 hs1 hst1 => ?_
  exact bind hs1
    (call hm hs1 ⟨.void, params⟩ rfl rfl rfl rfl fun hp _ => ⟨hp.2, (hpre hp.1).stay hst1⟩)
    fun _ _ hs2 _ => pure hs2 fun _ => trivial

theorem gate (name : String) {angles qubits : List Value}
    (hpre : pre → (∀ v ∈ angles, Serves m fn e c v .double) ∧
      ∀ v ∈ qubits, Serves m fn e c v qubitTy) :
    Yields m fn e k c pre (gate name angles qubits) fun _ _ => True :=
  effect hm hs fun hp => rel_append (ServeAll.of_mem (hpre hp).1) (ServeAll.of_mem (hpre hp).2)

theorem allocate : Yields m fn e k c pre allocate fun c' v => Serves m fn e c' v qubitTy :=
  (declared hm hs fun _ => .nil).weaken id fun _ _ h => h rfl

theorem release {q : Value} (hpre : pre → Serves m fn e c q qubitTy) :
    Yields m fn e k c pre (release q) fun _ _ => True :=
  effect hm hs fun hp => .cons (hpre hp) .nil

theorem measure {q : Value} (hpre : pre → Serves m fn e c q qubitTy) :
    Yields m fn e k c pre (measure q) fun c' r => Serves m fn e c' r resultTy := by
  refine bind hs (declare hs Intrinsic.qubitToResult resultTy [qubitTy])
    fun convert c1 hs1 hst1 => ?_
  refine bind hs1 (declare hs1 Intrinsic.measure .void [qubitTy, resultTy])
    fun meas c2 hs2 hst2 => ?_
  refine bind hs2 (call hm hs2 ⟨resultTy, [qubitTy]⟩ rfl rfl rfl rfl fun hp _ => ?_)
    fun r c3 hs3 hst3 => ?_
  · exact ⟨hp.1.2.grow hst2, .cons (((hpre hp.1.1).stay hst1).stay hst2) .nil⟩
  refine bind hs3 (call hm hs3 ⟨.void, [qubitTy, resultTy]⟩ rfl rfl rfl rfl fun hp _ => ?_)
    fun _ c4 hs4 hst4 => pure hs4 fun hp => (hp.1.2 rfl).stay hst4
  exact ⟨hp.1.2.grow hst3, .cons ((((hpre hp.1.1.1).stay hst1).stay hst2).stay hst3)
    (.cons (hp.2 rfl) .nil)⟩

theorem read {r : Value} (hpre : pre → Serves m fn e c r resultTy) :
    Yields m fn e k c pre (read r) fun c' v => Serves m fn e c' v .i1 := by
  refine bind hs (declare hs Intrinsic.readResult .i1 [resultTy]) fun f c1 hs1 hst1 => ?_
  refine (call hm hs1 ⟨.i1, [resultTy]⟩ rfl rfl rfl rfl fun hp _ => ?_).weaken id
    fun _ _ h => h rfl
  exact ⟨hp.2, .cons ((hpre hp.1).stay hst1) .nil⟩

theorem record {tag : String} (hpre : pre → ∃ t, Serves m fn e c v t) :
    Yields m fn e k c pre (record name v tag) fun _ _ => True := by
  intro u c' h
  rw [record_eq h] at h
  revert u c'
  refine bind hs (declare hs name .void [c.module.typeOf v, .bytes]) fun f c1 hs1 hst1 => ?_
  refine bind hs1 (stringPtr hm hs1 tag) fun label c2 hs2 hst2 => ?_
  refine bind hs2 (call hm hs2 ⟨.void, [c.module.typeOf v, .bytes]⟩ rfl rfl rfl rfl fun hp hw => ?_)
    fun _ _ hs3 _ => pure hs3 fun _ => trivial
  obtain ⟨t, hv⟩ := hpre hp.1.1
  rw [hv.type_now hs ((hst1.within.trans hst2.within).trans hw)] at hp ⊢
  exact ⟨hp.1.2.grow hst2, .cons ((hv.stay hst1).stay hst2) (.cons hp.2 .nil)⟩

theorem binary {op : Opcode} {x y : Value}
    (hop : op ∈ [Opcode.xor, .and, .or, .fadd, .fsub, .fmul, .fdiv]) (hty : t.isVoid = false)
    (hpre : pre → Serves m fn e c x t ∧ Serves m fn e c y t) :
    Yields m fn e k c pre (Cursor.emit fun m => Instr.binary m op x y)
      fun c' v => Serves m fn e c' v t := by
  have hops : ∀ o ∈ [Opcode.xor, .and, .or, .fadd, .fsub, .fmul, .fdiv],
      o ≠ .phi ∧ o.isTerminator = false := by decide
  have htype : pre → c.module.Within m → c.module.typeOf x = t :=
    fun hp hw => (hpre hp).1.type_now hs hw
  refine emit hm hs (hops op hop).1 (hops op hop).2 (fun hp hw => ?_) (fun hp hw v hv => ?_)
    fun hp c' hw hserve => ?_
  · obtain ⟨hx, hy⟩ := hpre hp
    simp only [mem_cons, not_mem_nil, or_false] at hop
    obtain rfl | rfl | rfl | rfl | rfl | rfl | rfl := hop <;>
      simp [instrDefect?, Instr.binary, hx.operandType, hy.operandType, Bind.bind,
        Except.bind]
  · obtain rfl | rfl : v = x ∨ v = y := by simpa [Instr.binary] using hv
    · exact ⟨t, (hpre hp).1⟩
    · exact ⟨t, (hpre hp).2⟩
  · have h := hserve (by rw [Instr.binary, htype hp hw]; exact hty)
    rwa [Instr.binary, htype hp hw] at h

theorem single {x : Instr} (hop : x.op = .icmp ∨ x.op = .fneg)
    (htyped : pre → m.instrDefect? fn x [] = .ok none) (hty : x.ty.isVoid = false)
    (hpre : pre → ∀ v ∈ x.operands, ∃ t, Serves m fn e c v t) :
    Yields m fn e k c pre (Cursor.emit fun _ => x) fun c' v => Serves m fn e c' v x.ty := by
  refine emit hm hs ?_ ?_ (fun hp _ => htyped hp) (fun hp _ => hpre hp)
    fun _ _ _ hserve => hserve hty
  · rcases hop with h | h <;> simp [h]
  · rcases hop with h | h <;> simp [h, Opcode.isTerminator]

end Yields

/-! ## Values of value types -/

def Holds (m : Module) (fn : FuncId) (e : BlockId) (c : Cursor) (v : Value) (vt : ValueType) :
    Prop := ∃ t, vt.ty = .ok t ∧ Serves m fn e c v t

abbrev HoldAll (m : Module) (fn : FuncId) (e : BlockId) (c : Cursor) (vs : List Value)
    (vts : List ValueType) : Prop := Forall₂ (Holds m fn e c) vs vts

variable {vt : ValueType}

theorem Holds.serves (h : Holds m fn e c v vt) (ht : vt.ty = .ok t) : Serves m fn e c v t := by
  obtain ⟨u, hu, hv⟩ := h
  cases ht.symm.trans hu
  exact hv

variable {vts : List ValueType} (hle : c.module.instrTable.size ≤ c'.module.instrTable.size)
  (hd : Dominates m.successors e c.block c'.block)

include hle hd

theorem Holds.move (h : Holds m fn e c v vt) : Holds m fn e c' v vt := by
  obtain ⟨t, ht, hv⟩ := h
  exact ⟨t, ht, hv.move hle hd⟩

theorem HoldAll.move (h : HoldAll m fn e c vs vts) : HoldAll m fn e c' vs vts :=
  h.imp fun _ _ hv => hv.move hle hd

omit hle hd

theorem HoldAll.stay (h : HoldAll m fn e c vs vts) (hs : Stays c c') : HoldAll m fn e c' vs vts :=
  h.move hs.within.instrs (hs.block ▸ Dominates.refl _)

theorem HoldAll.serveAll (h : HoldAll m fn e c vs vts) (ht : vts.mapM ValueType.ty = .ok ts) :
    ServeAll m fn e c vs ts := by
  induction h generalizing ts with
  | nil =>
    cases ht
    exact .nil
  | cons hv _ ih =>
    rw [mapM_cons] at ht
    obtain ⟨t, hvt, ht⟩ := except_bind_ok.1 ht
    obtain ⟨rest, hrest, ht⟩ := except_bind_ok.1 ht
    cases ht
    exact .cons (hv.serves hvt) (ih hrest)

theorem HoldAll.of_replicate {n : Nat} (ht : vt.ty = .ok t)
    (h : HoldAll m fn e c vs (replicate n vt)) : ∀ v ∈ vs, Serves m fn e c v t := by
  intro v hv
  obtain ⟨i, hi, rfl⟩ := mem_iff_getElem.1 hv
  have hlen := h.length_eq
  have hat := h.get hi (hlen ▸ hi)
  rw [get_eq_getElem, get_eq_getElem, getElem_replicate] at hat
  exact hat.serves ht

end Cursor

namespace Lowering

open Cursor

theorem yields_measureRead {pre : Prop} {q : Value} (hm : m.Sound j) (hs : Site k fn c)
    (hpre : pre → Serves m fn e c q qubitTy) :
    Yields m fn e k c pre (measureRead q) fun c' v => Serves m fn e c' v .i1 :=
  .bind hs (.measure hm hs hpre) fun _ _ hs' _ => .read hm hs' fun hp => hp.2

variable {vs : List Value} {vt : ValueType} {vts : List ValueType}

theorem yields_output {pre : Prop} {x : Step Cursor Value} (hs : Site k fn c) (ht : vt.ty = .ok t)
    (hx : Yields m fn e k c pre x fun c' v => Serves m fn e c' v t) :
    Yields m fn e k c pre (x >>= fun v => pure [v]) fun c' vs => HoldAll m fn e c' vs [vt] :=
  .bind hs hx fun _ _ hs1 _ => .pure hs1 fun hp => .cons ⟨t, ht, hp.2⟩ .nil

theorem first_input (h : HoldAll m fn e c (v :: vs) (vt :: vts)) :
    Holds m fn e c v vt := (forall₂_cons.1 h).1

theorem second_input {w : Value} {wt : ValueType}
    (h : HoldAll m fn e c (v :: w :: vs) (vt :: wt :: vts)) : Holds m fn e c w wt :=
  first_input (forall₂_cons.1 h).2

/-- A lowered operation takes values of the types of its inputs and gives values of the types of its
outputs. -/
theorem lower_yields (hm : m.Sound j) (hs : Site k fn c) {l : Lowering} (hl : l.isPlain = true)
    (tag : String) (args : List Value) :
    Yields m fn e k c (HoldAll m fn e c args l.sig.inputs) (l.lower tag args)
      fun c' outs => HoldAll m fn e c' outs l.sig.outputs := by
  cases l with
  | gate name n =>
    refine .bind hs (.gate hm hs name fun hp => ⟨by simp, hp.of_replicate rfl⟩)
      fun _ c1 hs1 hst1 => ?_
    exact .pure hs1 fun hp => hp.1.stay hst1
  | rotation name n a =>
    have hlen : (qubits n).length = n := length_replicate
    have htake : HoldAll m fn e c args (sig (.rotation name n a)).inputs →
        HoldAll m fn e c (args.take n) (qubits n) := fun hp => by
      have h := forall₂_take_append args (qubits n) _ hp
      rwa [hlen] at h
    have hdrop : HoldAll m fn e c args (sig (.rotation name n a)).inputs →
        HoldAll m fn e c (args.drop n) (replicate a .float) := fun hp => by
      have h := forall₂_drop_append args (qubits n) _ hp
      rwa [hlen] at h
    refine .bind hs (.gate hm hs name fun hp => ⟨(hdrop hp).of_replicate rfl,
      (htake hp).of_replicate rfl⟩) fun _ c1 hs1 hst1 => ?_
    exact .pure hs1 fun hp => (htake hp.1).stay hst1
  | allocate =>
    exact yields_output hs rfl (.allocate hm hs)
  | tryAllocate =>
    exact .bind hs (.allocate hm hs) fun v c1 hs1 _ =>
      .pure hs1 fun hp => .cons ⟨_, rfl, serves_int _ _⟩ (.cons ⟨_, rfl, hp.2⟩ .nil)
  | readFuture =>
    refine .pure hs fun hp => ?_
    obtain ⟨x, xs, hx, hxs, rfl⟩ := forall₂_cons_right_iff.1 hp
    rw [forall₂_nil_right_iff.1 hxs]
    exact .cons ⟨_, rfl, hx.serves rfl⟩ .nil
  | dropFuture => exact .pure hs fun _ => .nil
  | release =>
    cases args with
    | nil => exact .throw _ _
    | cons q _ =>
      exact .bind hs (.release hm hs fun hp => (first_input hp).serves rfl) fun _ _ hs1 _ =>
        .pure hs1 fun _ => .nil
  | measure | measureLazily =>
    cases args with
    | nil => exact .throw _ _
    | cons q _ =>
      refine .bind hs (yields_measureRead hm hs fun hp => (first_input hp).serves rfl)
        fun _ _ hs1 hst1 => .pure hs1 fun hp => ?_
      exact .cons ⟨_, rfl, ((first_input hp.1).serves rfl).stay hst1⟩
        (.cons ⟨_, rfl, hp.2⟩ .nil)
  | measureAway =>
    cases args with
    | nil => exact .throw _ _
    | cons q _ =>
      exact yields_output hs rfl (yields_measureRead hm hs fun hp => (first_input hp).serves rfl)
  | measureRelease =>
    cases args with
    | nil => exact .throw _ _
    | cons q _ =>
      refine .bind hs (.measure hm hs fun hp => (first_input hp).serves rfl)
        fun r c1 hs1 hst1 => ?_
      refine .bind hs1 (.release hm hs1 fun hp => ((first_input hp.1).serves rfl).stay hst1)
        fun _ c2 hs2 hst2 => ?_
      exact yields_output hs2 rfl (.read hm hs2 fun hp => hp.1.2.stay hst2)
  | measureReset =>
    cases args with
    | nil => exact .throw _ _
    | cons q _ =>
      refine .bind hs (.measure hm hs fun hp => (first_input hp).serves rfl)
        fun r c1 hs1 hst1 => ?_
      refine .bind hs1 (.gate hm hs1 _ fun hp => ⟨by simp, fun v hv => ?_⟩)
        fun _ c2 hs2 hst2 => ?_
      · rw [mem_singleton.1 hv]
        exact ((first_input hp.1).serves rfl).stay hst1
      · refine .bind hs2 (.read hm hs2 fun hp => hp.1.2.stay hst2) fun _ _ hs3 hst3 =>
          .pure hs3 fun hp => ?_
        have hq : Serves m fn e c q qubitTy := (first_input hp.1.1.1).serves rfl
        exact .cons ⟨_, rfl, ((hq.stay hst1).stay hst2).stay hst3⟩
          (.cons ⟨_, rfl, hp.2⟩ .nil)
  | record name vt =>
    cases args with
    | nil => exact .throw _ _
    | cons v _ =>
      refine .bind hs (.record hm hs fun hp => ?_) fun _ _ hs1 _ => .pure hs1 fun _ => .nil
      obtain ⟨t, -, hv⟩ := first_input hp
      exact ⟨t, hv⟩
  | copyFuture =>
    cases args with
    | nil => exact .throw _ _
    | cons v _ =>
      exact .pure hs fun hp => .cons ⟨_, rfl, (first_input hp).serves rfl⟩
        (.cons ⟨_, rfl, (first_input hp).serves rfl⟩ .nil)
  | not =>
    cases args with
    | nil => exact .throw _ _
    | cons x _ =>
      exact yields_output hs rfl (.binary hm hs (by decide) rfl fun hp =>
        ⟨(first_input hp).serves rfl, serves_int _ _⟩)
  | negate =>
    cases args with
    | nil => exact .throw _ _
    | cons x _ =>
      refine yields_output hs rfl (.single hm hs (.inr rfl) (fun _ => rfl) rfl fun hp v hv => ?_)
      rw [mem_singleton.1 hv]
      exact ⟨_, (first_input hp).serves rfl⟩
  | equal =>
    match args with
    | [] | [_] => exact .throw _ _
    | x :: y :: rest =>
      have hx : HoldAll m fn e c (x :: y :: rest) (sig .equal).inputs →
          Serves m fn e c x .i1 ∧ Serves m fn e c y .i1 :=
        fun hp => ⟨(first_input hp).serves rfl, (second_input hp).serves rfl⟩
      refine yields_output hs rfl
        (.single hm hs (.inl rfl) (fun hp => ?_) rfl fun hp v hv => ?_)
      · simp [instrDefect?, Instr.icmp, (hx hp).1.operandType, (hx hp).2.operandType, bind,
          Except.bind]
      · obtain rfl | rfl : v = x ∨ v = y := by simpa [Instr.icmp] using hv
        · exact ⟨_, (hx hp).1⟩
        · exact ⟨_, (hx hp).2⟩
  | logic op | float op =>
    match args with
    | [] | [_] => exact .throw _ _
    | x :: y :: _ =>
      refine yields_output hs rfl (.binary hm hs ?_ rfl fun hp => ⟨(first_input hp).serves rfl,
        (second_input hp).serves rfl⟩)
      cases op <;> first | decide | cases hl

theorem lower_steady {key : OpKey} {l : Lowering} (hl : find? key = some l) (tag : String)
    (args : List Value) : Steady k (l.lower tag args) := by
  intro c a c' hr h
  obtain ⟨fn, hfn, -⟩ := hr.parent
  obtain ⟨hs, hst, -⟩ :=
    lower_yields (e := c.block) hr.sound ⟨hr, hfn⟩ (find?_plain hl) tag args a c' h
  exact ⟨hs.ready, hst⟩

end Lowering

end Qirc
