import Qirc.IR.Builder
import Qirc.Proofs.IR.Replacement

/-!
# Instructions as they are built

The passes rely on more than the verifier looks at: the type of every result is the one that the
instruction was built with. The part of this that they need is kept when operands give way to others
of their types.
-/

namespace Qirc.IR

open List

/-- An instruction as its building operation makes it, wherever it stands and whatever its name. -/
inductive Instr.Built (m : Module) : Instr → Prop
  | call (f : FuncId) (args : List Value) : Built m (.call m f args)
  | ret (v : Value) : Built m (.ret v)
  | retVoid : Built m .retVoid
  | br (target : Option BlockId) : Built m (.br target)
  | condBr (c : Value) (yes no : Option BlockId) : Built m (.condBr c yes no)
  | phi (ty : Ty) (incoming : List (Value × Option BlockId)) : Built m (.phi ty incoming)
  | cast {op : Opcode} (hop : op ∈ [.trunc, .zext, .sitofp]) (v : Value) (ty : Ty) :
      Built m (.cast op v ty)
  | binary {op : Opcode} (hop : op ∈ [.xor, .and, .or, .fadd, .fsub, .fmul, .fdiv])
      (x y : Value) : Built m (.binary m op x y)
  | fneg (x : Value) : Built m (.fneg x)
  | icmp (relation : String) (x y : Value) : Built m (.icmp relation x y)
  | select (c x y : Value) : Built m (.select m c x y)
  | alloca (ty : Ty) : Built m (.alloca ty)
  | load (p : Value) : Built m (.load m p)
  | store (v p : Value) : Built m (.store v p)
  | placed {x : Instr} (h : Built m x) (hint : String) (parent : Option BlockId) :
      Built m { x with hint := hint, parent := parent }

/-- How the type of an instruction follows from its operation and its operands. A negation and a
conversion from integers yield doubles. -/
def Instr.Fits (m : Module) (x : Instr) : Prop :=
  match x.op with
  | .ret | .br | .condBr | .store => x.ty = .void
  | .trunc | .zext => ∃ v, x.operands = [v]
  | .sitofp => ∃ v, x.operands = [v] ∧ x.ty = .double
  | .xor | .and | .or | .fadd | .fsub | .fmul | .fdiv =>
    ∃ v w, x.operands = [v, w] ∧ x.ty = m.typeOf v
  | .icmp => ∃ v w, x.operands = [v, w] ∧ x.ty = .i1
  | .fneg => ∃ v, x.operands = [v] ∧ x.ty = .double ∧ m.typeOf v = .double
  | .select => ∃ c v w, x.operands = [c, v, w] ∧ x.ty = m.typeOf v
  | .alloca => x.ty = .ptr x.elem
  | .load => ∃ p, x.operands = [p] ∧ x.ty = (m.typeOf p).elem
  | .call | .phi | .unknown _ => True

/-- A value of a known type. If it names an instruction, that has a result. -/
structure Value.Solid (m : Module) (v : Value) : Prop where
  given : m.typeOf v ≠ .missing
  result : ∀ j, v = .instr j →
    (m.instr j).ty.isVoid = false ∧ (m.instr j).op.isTerminator = false

theorem Value.Solid.ne_missing {m : Module} {v : Value} (h : v.Solid m) : v ≠ .missing := by
  rintro rfl
  exact h.given rfl

/-- An instruction of the type that it was built with, with operands of known types. -/
structure Instr.Sound (m : Module) (x : Instr) : Prop where
  fits : x.Fits m
  given : x.ty ≠ .missing
  solid : ∀ v ∈ x.operands, v.Solid m

variable {m m' : Module} {f g : FuncId} {x y : Instr} {v w : Value} {i j : InstrId}

/-- What is built has the type that it should, given that negations and conversions from integers
are used for doubles only. -/
theorem Instr.Built.fits (h : x.Built m) (hneg : x.op = .fneg → ∀ v ∈ x.operands, m.typeOf v = .double)
    (hconv : x.op = .sitofp → x.ty = .double) : x.Fits m := by
  induction h with
  | call | phi => trivial
  | ret | retVoid | br | condBr | alloca | store => rfl
  | cast hop v ty =>
    simp only [mem_cons, not_mem_nil, or_false] at hop
    obtain rfl | rfl | rfl := hop
    · exact ⟨v, rfl⟩
    · exact ⟨v, rfl⟩
    · exact ⟨v, rfl, hconv rfl⟩
  | binary hop v w =>
    simp only [mem_cons, not_mem_nil, or_false] at hop
    obtain rfl | rfl | rfl | rfl | rfl | rfl | rfl := hop <;> exact ⟨v, w, rfl, rfl⟩
  | fneg v => exact ⟨v, rfl, rfl, hneg rfl v (mem_singleton.2 rfl)⟩
  | icmp _ v w => exact ⟨v, w, rfl, rfl⟩
  | select c v w => exact ⟨c, v, w, rfl, rfl⟩
  | load p => exact ⟨p, rfl, rfl⟩
  | placed _ _ _ ih => exact ih hneg hconv

/-! ## What keeps the types -/

theorem Instr.Fits.map {r : Value → Value} (h : x.Fits m) (hop : y.op = x.op) (hty : y.ty = x.ty)
    (helem : y.elem = x.elem) (ho : y.operands = x.operands.map r)
    (hr : ∀ v ∈ x.operands, m'.typeOf (r v) = m.typeOf v) : y.Fits m' := by
  have hone : ∀ v, x.operands = [v] → y.operands = [r v] ∧ m'.typeOf (r v) = m.typeOf v := by
    intro v hv
    exact ⟨by rw [ho, hv]; rfl, hr v (by simp [hv])⟩
  have htwo : ∀ v w, x.operands = [v, w] →
      y.operands = [r v, r w] ∧ m'.typeOf (r v) = m.typeOf v := by
    intro v w hv
    exact ⟨by rw [ho, hv]; rfl, hr v (by simp [hv])⟩
  unfold Instr.Fits at h ⊢
  rw [hop, hty, helem]
  split at h
  · exact h
  · exact h
  · exact h
  · exact h
  · obtain ⟨v, hv⟩ := h
    exact ⟨_, (hone v hv).1⟩
  · obtain ⟨v, hv⟩ := h
    exact ⟨_, (hone v hv).1⟩
  · obtain ⟨v, hv, h⟩ := h
    exact ⟨_, (hone v hv).1, h⟩
  iterate 7
    · obtain ⟨v, w, hv, h⟩ := h
      exact ⟨_, _, (htwo v w hv).1, h.trans (htwo v w hv).2.symm⟩
  · obtain ⟨v, w, hv, h⟩ := h
    exact ⟨_, _, (htwo v w hv).1, h⟩
  · obtain ⟨v, hv, h, h'⟩ := h
    exact ⟨_, (hone v hv).1, h, (hone v hv).2.trans h'⟩
  · obtain ⟨c, v, w, hv, h⟩ := h
    refine ⟨r c, r v, r w, by rw [ho, hv]; rfl, h.trans (hr v (by simp [hv])).symm⟩
  · exact h
  · obtain ⟨p, hp, h⟩ := h
    exact ⟨_, (hone p hp).1, by rw [(hone p hp).2]; exact h⟩
  all_goals trivial

def Module.SameEnds (m m' : Module) : Prop :=
  ∀ i, (m'.instr i).op.isTerminator = (m.instr i).op.isTerminator

theorem Module.SameEnds.refl (m : Module) : m.SameEnds m := fun _ => rfl

theorem Module.SameEnds.trans {m'' : Module} (h : m.SameEnds m') (h' : m'.SameEnds m'') :
    m.SameEnds m'' := fun i => (h' i).trans (h i)

theorem Instr.Sound.br (h : x.Sound m) (hx : x.op = .condBr) (hy : y.op = .br) (hty : y.ty = x.ty)
    (ho : y.operands = []) : y.Sound m' where
  fits := by
    have hvoid := h.fits
    unfold Instr.Fits at hvoid ⊢
    rw [hx] at hvoid
    rw [hy, hty]
    exact hvoid
  given := by
    rw [hty]
    exact h.given
  solid v hv := by
    rw [ho] at hv
    cases hv

section Edits

variable (hm : Module.Edited g m m') (he : m.SameEnds m')

include hm he

theorem Value.Solid.edited (h : v.Solid m) : v.Solid m' where
  given := by
    rw [hm.typeOf]
    exact h.given
  result j hj := by
    rw [hm.ty, he]
    exact h.result j hj

section

variable (h : x.Sound m) (hop : y.op = x.op) (hty : y.ty = x.ty) (helem : y.elem = x.elem)

include h hop hty helem

theorem Instr.Sound.map {r : Value → Value} (ho : y.operands = x.operands.map r)
    (hr : ∀ v ∈ x.operands, m.typeOf (r v) = m.typeOf v ∧ (r v).Solid m) : y.Sound m' where
  fits := h.fits.map hop hty helem ho fun v hv => (hm.typeOf _).trans (hr v hv).1
  given := by
    rw [hty]
    exact h.given
  solid w hw := by
    rw [ho, mem_map] at hw
    obtain ⟨v, hv, rfl⟩ := hw
    exact (hr v hv).2.edited hm he

theorem Instr.Sound.congr (ho : y.operands = x.operands) : y.Sound m' :=
  h.map hm he hop hty helem (r := id) (by rw [ho, map_id]) fun v hv => ⟨rfl, h.solid v hv⟩

end

theorem Instr.Sound.edited (h : x.Sound m) : x.Sound m' := h.congr hm he rfl rfl rfl rfl

theorem Instr.Sound.phi (h : x.Sound m) (hy : y.op = .phi) (hty : y.ty = x.ty)
    (ho : ∀ v ∈ y.operands, v ∈ x.operands) : y.Sound m' where
  fits := by
    unfold Instr.Fits
    rw [hy]
    trivial
  given := by
    rw [hty]
    exact h.given
  solid v hv := (h.solid v (ho v hv)).edited hm he

end Edits

theorem Value.Solid.swap (hv : v.Solid m) (w : Value) (hw : w.Solid m) :
    (Module.swap i v w).Solid m := by
  unfold Module.swap
  split
  · exact hv
  · exact hw

namespace Module

/-- The instructions of a function have the types that they were built with. -/
def Typed (m : Module) (f : FuncId) : Prop := ∀ i ∈ m.body f, (m.instr i).Sound m

theorem Typed.not_idle (h : m.Typed f) (hi : i ∈ m.body f) (hv : v ∈ (m.instr i).operands) :
    ¬m.Idle v := by
  rintro ⟨j, rfl, hj⟩
  rw [(((h i hi).solid _ hv).result j rfl).2] at hj
  cases hj

theorem SameEnds.supplant : m.SameEnds (m.supplant f i v) := fun j => by rw [supplant_op]

theorem Typed.thinned {e : BlockId} {stays : InstrId → Bool} {σ : Value → Value} (h : m.Typed f)
    (ht : Thinned stays σ g f m m') (he : m.SameEnds m') (hfill : Fills stays σ f e m)
    (hsolid : ∀ v, v.Solid m → (σ v).Solid m) : m'.Typed f := by
  intro i hi
  obtain ⟨b, hb, hi⟩ := mem_flatMap.1 hi
  rw [ht.blocks] at hb
  obtain ⟨hi, -, hsame⟩ := ht.same hb hi
  have hsound := h i (mem_flatMap.2 ⟨b, hb, hi⟩)
  rw [hsame]
  exact hsound.map ht.edited he rfl rfl rfl rfl fun v hv =>
    ⟨(hfill.types v).1, hsolid v (hsound.solid v hv)⟩

end Module

end Qirc.IR
