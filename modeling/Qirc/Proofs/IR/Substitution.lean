import Qirc.Proofs.IR.Typing

/-!
# Substitutions

Three of the passes do nothing but take instructions off after a value took their place. What holds
after one substitution holds after any number of them: the function stays well-formed and typed, and
its blocks and branches are as before.
-/

namespace Qirc.IR.Module

open List

/-- A value that can take the place of an instruction in a block of a function. -/
structure StandsIn (m : Module) (f : FuncId) (e c : BlockId) (i : InstrId) (v : Value) : Prop where
  ty : m.typeOf v = (m.instr i).ty
  solid : v.Solid m
  ready : Reached m.successors e c → m.Ready f e c i v

/-- A module after instructions of a function were taken off in steps, with values in their places. -/
inductive Substituted (f : FuncId) (e : BlockId) (m : Module) : Module → Prop
  | refl : Substituted f e m m
  | step {m' m'' : Module} {stays : InstrId → Bool} {σ : Value → Value} (h : Substituted f e m m')
      (ht : Thinned stays σ f f m' m'') (hfill : Fills stays σ f e m')
      (hsolid : ∀ v, v.Solid m' → (σ v).Solid m') (hops : ∀ i, (m''.instr i).op = (m'.instr i).op) :
      Substituted f e m m''

variable {m m' m'' : Module} {f g : FuncId} {e b c : BlockId} {i j : InstrId} {v : Value}
  {stays : InstrId → Bool} {σ : Value → Value}

theorem Substituted.trans (h : Substituted f e m m') (h' : Substituted f e m' m'') :
    Substituted f e m m'' := by
  induction h' with
  | refl => exact h
  | step _ ht hfill hsolid hops ih => exact ih.step ht hfill hsolid hops

theorem Substituted.supplant (h : Substituted f e m m') (hl : m'.Linked)
    (hc : c ∈ (m'.func f).blocks) (hi : i ∈ (m'.block c).instrs)
    (hop : (m'.instr i).op.isTerminator = false) (hv : StandsIn m' f e c i v) :
    Substituted f e m (m'.supplant f i v) :=
  h.step (.supplant hl hc hi hop) (.supplant hl hi hop hv.ty hv.solid.ne_missing hv.ready)
    hv.solid.swap fun _ => supplant_op

theorem Substituted.drop {gone : List InstrId} (h : Substituted f e m m') (hl : m'.Linked)
    (hgone : Unneeded m' f gone) (hends : ∀ i ∈ gone, (m'.instr i).op.isTerminator = false) :
    Substituted f e m (gone.foldl Module.erase m') :=
  have hm := Erased.of_nodup hl hgone.nodup hgone.inside
  h.step (hm.thinned hends) (.id hgone.reads) (fun _ hv => hv) hm.op

/-- A well-formed definition whose instructions are typed. -/
structure Regular (m : Module) (f : FuncId) (e : BlockId) : Prop where
  linked : m.Linked
  formed : m.Formed f e
  typed : m.Typed f

namespace Regular

variable (hr : m.Regular f e)

include hr

theorem ops_solid (hi : i ∈ m.body f) (hv : v ∈ (m.instr i).operands) : v.Solid m :=
  (hr.typed i hi).solid v hv

theorem unread (hty : (m.instr i).ty.isVoid = true) (hj : j ∈ m.body f) :
    .instr i ∉ (m.instr j).operands := by
  intro h
  rw [((hr.ops_solid hj h).result i rfl).1] at hty
  cases hty

theorem thinned (ht : Thinned stays σ g f m m') (he : m.SameEnds m') (hfill : Fills stays σ f e m)
    (hsolid : ∀ v, v.Solid m → (σ v).Solid m) : m'.Regular f e where
  linked := ht.linked
  formed := ht.formed hr.linked he hfill hr.formed
  typed := hr.typed.thinned ht he hfill hsolid

theorem other (hm : Edited g m m') (hl' : m'.Linked) (hne : f ≠ g) (he : m.SameEnds m') :
    m'.Regular f e :=
  hr.thinned (.other hm hl' hne) he (.id fun _ _ _ _ _ => rfl) fun _ hv => hv

end Regular

structure Unbent (f : FuncId) (m m' : Module) : Prop where
  edited : Edited f m m'
  blocks : (m'.func f).blocks = (m.func f).blocks
  successors : ∀ b ∈ (m.func f).blocks, m'.successors b = m.successors b
  ops : ∀ i, (m'.instr i).op = (m.instr i).op
  body : ∀ i ∈ m'.body f, i ∈ m.body f

theorem Unbent.refl (f : FuncId) (m : Module) : Unbent f m m :=
  ⟨Edited.refl f m, rfl, fun _ _ => rfl, fun _ => rfl, fun _ h => h⟩

theorem Unbent.ends (h : Unbent f m m') : m.SameEnds m' := fun i => by rw [h.ops]

theorem Unbent.trans (h : Unbent f m m') (h' : Unbent f m' m'') : Unbent f m m'' where
  edited := h.edited.trans h'.edited
  blocks := h'.blocks.trans h.blocks
  successors b hb := by rw [h'.successors b (by rwa [h.blocks]), h.successors b hb]
  ops i := (h'.ops i).trans (h.ops i)
  body i hi := h.body i (h'.body i hi)

theorem Thinned.unbent (ht : Thinned stays σ f f m m') (hf : m.Enclosed f e)
    (hops : ∀ i, (m'.instr i).op = (m.instr i).op) : Unbent f m m' where
  edited := ht.edited
  blocks := ht.blocks
  successors _ := ht.successors hf
  ops := hops
  body i hi := by
    obtain ⟨b, hb, hi⟩ := mem_flatMap.1 hi
    rw [ht.blocks] at hb
    exact mem_flatMap.2 ⟨b, hb, (ht.same hb hi).1⟩

theorem Substituted.tag (h : Substituted f e m m') (hr : m'.Regular f e) (n : Nat) :
    Substituted f e m { m' with tags := n } := by
  have ht : Thinned (fun _ => true) id f f m' { m' with tags := n } := by
    refine ⟨⟨⟨rfl, rfl, fun _ => rfl⟩, fun _ => rfl, fun _ => rfl, fun _ => rfl, fun _ _ => rfl,
      fun _ _ _ _ => rfl, fun _ _ _ _ _ _ => rfl⟩, ?_, rfl, fun _ _ => (filter_true _).symm,
      fun i _ _ => by rw [map_id]; rfl, fun _ _ => (nomatch ·)⟩
    exact ⟨hr.linked.block, hr.linked.instr, hr.linked.blocks, hr.linked.instrs⟩
  exact h.step ht (.id fun _ _ _ _ _ => rfl) (fun _ hv => hv) fun _ => rfl

theorem Substituted.keeps (h : Substituted f e m m') (hr : m.Regular f e) :
    m'.Regular f e ∧ Unbent f m m' := by
  induction h with
  | refl => exact ⟨hr, .refl f m⟩
  | step _ ht hfill hsolid hops ih =>
    have hu := ht.unbent ih.1.formed.toEnclosed hops
    exact ⟨ih.1.thinned ht hu.ends hfill hsolid, ih.2.trans hu⟩

end Qirc.IR.Module
