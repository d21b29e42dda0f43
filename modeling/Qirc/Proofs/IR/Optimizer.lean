import Mathlib
import Qirc.IR.Optimizer
import Qirc.Proofs.IR.Branches.Rounds
import Qirc.Proofs.IR.Branches.Typed
import Qirc.Proofs.IR.Folding
import Qirc.Proofs.IR.Promotion

/-!
# The optimizer keeps modules accepted

Every pass keeps the definition it works on well-formed and typed, and leaves the other ones alone.
Folding alone asks for more: that all blocks can be reached. The rules for branches see to that, so
the order of the passes matters.
-/

namespace Qirc.IR

open List Step

namespace Module

variable {m m' : Module} {f g : FuncId} {e b c : BlockId} {i : InstrId} {v : Value}

/-! ## Definitions that an edit is not about -/

theorem Edited.other_body (hm : Edited g m m') (hne : f ≠ g) : m'.body f = m.body f := by
  unfold body
  rw [hm.otherBlocks f hne]
  exact flatMap_congr fun b hb => by rw [hm.otherBlock f b hne hb]

/-- A regular definition, all of whose blocks can be reached where that is asked for. -/
def Tidy (m : Module) (f : FuncId) (reached : Bool) : Prop :=
  ∃ e, m.Regular f e ∧ (reached = true → m.AllReached f e)

theorem Tidy.other {r : Bool} (hm : Edited g m m') (he : m.SameEnds m') (hl' : m'.Linked)
    (hne : f ≠ g) (h : m.Tidy f r) : m'.Tidy f r := by
  obtain ⟨e, hr, hall⟩ := h
  have ht := Thinned.other hm hl' hne
  refine ⟨e, hr.other hm hl' hne he, fun h b hb => ?_⟩
  rw [ht.blocks] at hb
  exact (ht.walk hr.formed.toEnclosed).2 (hall h b hb)

theorem Tidy.not_declaration {r : Bool} (h : m.Tidy f r) : (m.func f).isDeclaration = false := by
  obtain ⟨e, hr, -⟩ := h
  unfold Function.isDeclaration
  rw [isEmpty_eq_false_iff]
  exact ne_nil_of_mem hr.formed.entry_mem

end Module

open Module

namespace Pass

/-- What a pass makes of a definition, given whether all blocks can be reached before: whether they
can afterwards, or nothing where the pass cannot be relied on. -/
def reaches : Pass → Bool → Option Bool
  | .mem2reg, r => some r
  | .simplifycfg, _ => some true
  | .instcombine, true => some true
  | .instcombine, false => none
  | .dce, r => some r

theorem reaches_mono {p : Pass} {r r' : Bool} (h : p.reaches r = some r') :
    r = true → r' = true := by
  rintro rfl
  cases p <;> cases h <;> rfl

variable {m m' : Module} {f g : FuncId} {r r' : Bool}

theorem run_spec {p : Pass} (hr : p.reaches r = some r') (h : m.Tidy f r) :
    ∃ changed m', p.run f m = .ok changed m' ∧ m'.Tidy f r' ∧ Edited f m m' ∧ m.SameEnds m' ∧
      m'.Linked := by
  have hdecl := h.not_declaration
  obtain ⟨e, hreg, hall⟩ := h
  have hsub : ∀ {m'}, Substituted f e m m' → r' = r →
      m'.Tidy f r' ∧ Edited f m m' ∧ m.SameEnds m' ∧ m'.Linked := by
    rintro m' hs rfl
    obtain ⟨hreg', hu⟩ := hs.keeps hreg
    exact ⟨⟨e, hreg', fun hr => (hall hr).unbent hreg hu⟩, hu.edited, hu.ends, hreg'.linked⟩
  cases p with
  | mem2reg =>
    obtain ⟨changed, m', hrun, hs⟩ := promote_spec hreg
    exact ⟨changed, m', hrun, hsub hs (Option.some.inj hr).symm⟩
  | simplifycfg =>
    obtain ⟨changed, m', hrun, hrw, hall'⟩ := simplifyBranches_spec hreg.linked hreg.formed
    obtain ⟨hl', hf', hm⟩ := hrw.keeps hreg.linked hreg.formed
    obtain ⟨hends, htyped⟩ := hrw.typed hreg.linked hreg.formed
    refine ⟨changed, m', ?_, ⟨e, ⟨hl', hf', htyped hreg.typed⟩, fun _ => hall'⟩, hm, hends, hl'⟩
    change (if (m.func f).isDeclaration then .ok false m else simplifyBranches f m) = _
    rw [if_neg (by simp [hdecl])]
    exact hrun
  | instcombine =>
    cases r with
    | false => cases hr
    | true =>
      obtain ⟨changed, m', hrun, hs⟩ := foldInstrs_spec hreg (hall rfl)
      exact ⟨changed, m', hrun, hsub hs (Option.some.inj hr).symm⟩
  | dce =>
    exact ⟨_, _, rfl, hsub (removeDead_substituted hreg) (Option.some.inj hr).symm⟩

end Pass

namespace Module

/-- A linked module that owns its functions and whose definitions are tidy. -/
structure Proper (m : Module) (reached : Bool) : Prop where
  linked : m.Linked
  owned : ∀ f ∈ m.functions, (m.func f).owned = true
  tidy : ∀ f ∈ m.definitions, m.Tidy f reached

variable {m m' : Module} {f : FuncId} {r r' : Bool}

theorem Edited.definitions (hm : Edited f m m') (h : m.Tidy f r) (h' : m'.Tidy f r') :
    m'.definitions = m.definitions := by
  unfold Module.definitions
  rw [hm.functions]
  refine filter_congr fun g _ => ?_
  by_cases hg : g = f
  · rw [hg, h.not_declaration, h'.not_declaration]
  unfold Function.isDeclaration
  rw [hm.otherBlocks g hg]

theorem Proper.edited (hp : m.Proper r) (hm : Edited f m m') (he : m.SameEnds m') (hl' : m'.Linked)
    (hf : f ∈ m.definitions) (h' : m'.Tidy f r) : m'.Proper r where
  linked := hl'
  owned g hg := by
    rw [hm.functions] at hg
    rw [hm.owned]
    exact hp.owned g hg
  tidy g hg := by
    rw [hm.definitions (hp.tidy f hf) h'] at hg
    by_cases hgf : g = f
    · rw [hgf]
      exact h'
    · exact (hp.tidy g hg).other hm he hl' hgf

theorem Tidy.weaken (h : m.Tidy f r') (hr : r = true → r' = true) : m.Tidy f r :=
  let ⟨e, hreg, hall⟩ := h
  ⟨e, hreg, fun h => hall (hr h)⟩

theorem Proper.accepted (hp : m.Proper true) : m.verify = .ok [] := by
  refine verify_eq_nil.2 fun f hf => functionReport_eq_nil.2 ⟨hp.owned f hf, ?_⟩
  cases hd : (m.func f).isDeclaration with
  | true => exact .inl rfl
  | false =>
    have hdef : f ∈ m.definitions := mem_filter.2 ⟨hf, by simp [hd]⟩
    obtain ⟨e, hr, hall⟩ := hp.tidy f hdef
    exact .inr (hr.formed.accepted hr.linked (hall rfl) fun _ hi _ hv => hr.typed.not_idle hi hv)

end Module

namespace Optimization

variable {r r' : Bool}

variable {p : Pass} {s : Optimization}

/-- A pass over definitions leaves those it has been at as it leaves one: what it makes of one stays
as long as only other definitions are edited. -/
theorem runOn_spec (hr : p.reaches r = some r') {q : Module → FuncId → Prop}
    (hq : ∀ m f changed m', m.Tidy f r → p.run f m = .ok changed m' → q m' f)
    (hstay : ∀ m m' f g, Edited g m m' → f ≠ g → q m f → q m' f) {fs done : List FuncId}
    (hp : s.module.Proper r) (hfs : ∀ f ∈ fs, f ∈ s.module.definitions)
    (hdone : ∀ f ∈ done, s.module.Tidy f r' ∧ q s.module f) :
    ∃ s', runOn p fs s = .ok () s' ∧ s'.module.Proper r ∧
      s'.module.definitions = s.module.definitions ∧
      ∀ f ∈ done ++ fs, s'.module.Tidy f r' ∧ q s'.module f := by
  induction fs generalizing s done with
  | nil => exact ⟨s, rfl, hp, rfl, by simpa using hdone⟩
  | cons f fs ih =>
    rw [forall_mem_cons] at hfs
    have hf := hp.tidy f hfs.1
    obtain ⟨changed, m', hrun, htidy, hm, he, hl'⟩ := Pass.run_spec hr hf
    have hp' := hp.edited hm he hl' hfs.1 (htidy.weaken (Pass.reaches_mono hr))
    have hdefs := hm.definitions hf htidy
    have hdone' : ∀ g ∈ done ++ [f], m'.Tidy g r' ∧ q m' g := by
      intro g hg
      by_cases hgf : g = f
      · rw [hgf]
        exact ⟨htidy, hq _ f changed m' hf hrun⟩
      · have hg := (mem_append.1 hg).resolve_right fun h => hgf (mem_singleton.1 h)
        exact ⟨(hdone g hg).1.other hm he hl' hgf, hstay _ m' g f hm hgf (hdone g hg).2⟩
    have hgo : ∀ t : Optimization, t.module = m' →
        ∃ s', runOn p fs t = .ok () s' ∧ s'.module.Proper r ∧
          s'.module.definitions = s.module.definitions ∧
          ∀ g ∈ done ++ f :: fs, s'.module.Tidy g r' ∧ q s'.module g := by
      rintro t rfl
      obtain ⟨s', hrest, hs', hsame, hall⟩ := ih hp' (by rw [hdefs]; exact hfs.2) hdone'
      exact ⟨s', hrest, hs', hsame.trans hdefs, fun g hg => hall g (by simpa using hg)⟩
    have hzoom : onModule (p.run f) s = .ok changed { s with module := m' } :=
      zoom_ok.2 ⟨m', hrun, rfl⟩
    cases changed with
    | false =>
      obtain ⟨s', hrest, h⟩ := hgo { s with module := m' } rfl
      exact ⟨s', bind_ok.2 ⟨_, _, hzoom, hrest⟩, h⟩
    | true =>
      obtain ⟨s', hrest, h⟩ := hgo { s with module := m', changes := s.changes ++ [p] } rfl
      exact ⟨s', bind_ok.2 ⟨_, _, hzoom, bind_ok.2 ⟨_, _, rfl, hrest⟩⟩, h⟩

def reachesAll : List String → Bool → Option Bool
  | [], r => some r
  | name :: rest, r => do
    let p ← Pass.ofName? name
    let r ← p.reaches r
    reachesAll rest r

variable {names : List String} {s' s'' : Optimization}

theorem runPasses_cons {name : String} (hname : Pass.ofName? name = some p)
    (hrun : runOn p s.module.definitions s = .ok () s') (hrest : runPasses names s' = .ok () s'') :
    runPasses (name :: names) s = .ok () s'' := by
  unfold runPasses
  rw [hname]
  exact bind_ok.2 ⟨s, s, rfl, bind_ok.2 ⟨_, _, hrun, hrest⟩⟩

theorem runPasses_spec (hr : reachesAll names r = some r') (hp : s.module.Proper r) :
    ∃ s', runPasses names s = .ok () s' ∧ s'.module.Proper r' := by
  induction names generalizing s r with
  | nil =>
    cases hr
    exact ⟨s, rfl, hp⟩
  | cons name names ih =>
    simp only [reachesAll, Option.bind_eq_bind, Option.bind_eq_some_iff] at hr
    obtain ⟨p, hname, r₁, hr₁, hr⟩ := hr
    obtain ⟨s₁, hrun, hp₁, hdefs, htidy⟩ := runOn_spec hr₁ (q := fun _ _ => True)
      (fun _ _ _ _ _ _ => trivial) (fun _ _ _ _ _ _ _ => trivial) hp (fun _ h => h)
      (forall_mem_nil _)
    have hp₁ : s₁.module.Proper r₁ :=
      ⟨hp₁.linked, hp₁.owned, fun f hf => (htidy f (by simpa [hdefs] using hf)).1⟩
    obtain ⟨s', hrest, hp'⟩ := ih hr hp₁
    exact ⟨s', runPasses_cons hname hrun hrest, hp'⟩

theorem runPasses_append {rest : List String} (h : runPasses names s = .ok () s')
    (h' : runPasses rest s' = .ok () s'') : runPasses (names ++ rest) s = .ok () s'' := by
  induction names generalizing s with
  | nil =>
    cases h
    exact h'
  | cons name names ih =>
    unfold runPasses at h
    cases hname : Pass.ofName? name with
    | none =>
      rw [hname] at h
      exact (throw_ok.1 h).elim
    | some p =>
      rw [hname] at h
      obtain ⟨_, _, hget, hgo⟩ := bind_ok.1 h
      cases hget
      obtain ⟨⟨⟩, s₁, hrun, hrest⟩ := bind_ok.1 hgo
      exact runPasses_cons hname hrun (ih hrest)

theorem dead_other {m m' : Module} {f g : FuncId} (hm : Edited g m m') (hne : f ≠ g) :
    m'.dead f = m.dead f := by
  have hinstr : ∀ i ∈ m.body f, m'.instr i = m.instr i := by
    intro i hi
    obtain ⟨b, hb, hib⟩ := mem_flatMap.1 hi
    exact hm.otherInstr f b i hne hb hib
  unfold dead
  rw [hm.other_body hne]
  have hread : (m.body f).flatMap (fun i => (m'.instr i).operands) =
      (m.body f).flatMap (fun i => (m.instr i).operands) :=
    flatMap_congr fun i hi => by rw [hinstr i hi]
  rw [hread]
  exact filter_congr fun i hi => by rw [hinstr i hi]

theorem runPasses_settled (hr : reachesAll names r = some true) (hp : s.module.Proper r) :
    ∃ s', runPasses (names ++ ["dce"]) s = .ok () s' ∧ s'.module.Proper true ∧
      ∀ f ∈ s'.module.definitions, s'.module.dead f = [] := by
  obtain ⟨s₁, hrun₁, hp₁⟩ := runPasses_spec hr hp
  obtain ⟨s', hrun, hp', hdefs, hall⟩ := runOn_spec
    (show Pass.dce.reaches true = some true from rfl) (q := fun m f => m.dead f = [])
    (fun m f changed m' ⟨e, hreg, _⟩ hrun => by
      cases hrun
      exact removeDead_settled hreg.linked)
    (fun m m' f g hm hne h => (dead_other hm hne).trans h) hp₁ (fun _ h => h)
    (forall_mem_nil _)
  refine ⟨s', runPasses_append hrun₁ (runPasses_cons rfl hrun rfl), hp', fun f hf => ?_⟩
  exact (hall f (by simpa [hdefs] using hf)).2

end Optimization

/-! ## Modules as they are built -/

namespace Module

/-- A module as the passes expect it: accepted by the verifier, every instruction as its building
operation makes it, negations of doubles only, and phis that name every block once. Modules are linked
by the way they are built and edited. -/
structure WellBuilt (m : Module) : Prop where
  linked : m.Linked
  accepted : m.verify = .ok []
  built : ∀ f ∈ m.definitions, ∀ i ∈ m.body f, (m.instr i).Built m
  negations : ∀ f ∈ m.definitions, ∀ i ∈ m.body f, (m.instr i).op = .fneg →
    ∀ v ∈ (m.instr i).operands, m.typeOf v = .double
  distinct : ∀ f ∈ m.definitions, ∀ i ∈ m.body f, (m.instr i).op = .phi →
    (m.instr i).blocks.Nodup

variable {m : Module} {f : FuncId}

theorem WellBuilt.defects (h : m.WellBuilt) (hf : f ∈ m.definitions) :
    m.functionDefects f = .ok [] := by
  obtain ⟨e, he⟩ := exists_entry hf
  exact functionDefects_of_report (verify_eq_nil.1 h.accepted f (mem_filter.1 hf).1)
    (mem_of_head? he)

theorem WellBuilt.typed (h : m.WellBuilt) (hf : f ∈ m.definitions)
    (hconv : ∀ i ∈ m.body f, (m.instr i).op = .sitofp → (m.instr i).ty = .double)
    (hgiven : ∀ i ∈ m.body f, (m.instr i).ty ≠ .missing ∧
      ∀ v ∈ (m.instr i).operands, m.typeOf v ≠ .missing) : m.Typed f := by
  have hfits : ∀ i ∈ m.body f, (m.instr i).Fits m := fun i hi =>
    (h.built f hf i hi).fits (h.negations f hf i hi) (hconv i hi)
  have hcheck := (functionDefects_eq_nil.1 (h.defects hf)).2.2
  refine fun i hi => ⟨hfits i hi, (hgiven i hi).1, fun v hv => ⟨(hgiven i hi).2 v hv, ?_⟩⟩
  rintro j rfl
  obtain ⟨b, hb, hib⟩ := mem_flatMap.1 hi
  obtain ⟨n, hn⟩ := getElem?_of_mem hv
  have hdef := (operandDefects_eq_nil.1
    ((checkInstr_eq_nil.1 (hcheck b hb i hib)).1 n _ hn)).1
  obtain ⟨d, hp, hd, hvoid⟩ := operandDefect?_instr.1 hdef
  have hj := hfits j (h.linked.mem_body.2 ⟨d, hp, (h.linked.block f d).2 hd⟩)
  refine ⟨hvoid, ?_⟩
  -- A branch or a return is of type void, and the verifier lets no operand name one.
  unfold Instr.Fits at hj
  cases hop : (m.instr j).op <;> first | rfl | skip
  all_goals
    rw [hop] at hj
    rw [hj] at hvoid
    cases hvoid

/-- Where also conversions from integers are to doubles and all types are given, a module that is
well built is proper. -/
theorem WellBuilt.proper (h : m.WellBuilt)
    (hconv : ∀ f ∈ m.definitions, ∀ i ∈ m.body f, (m.instr i).op = .sitofp →
      (m.instr i).ty = .double)
    (hgiven : ∀ f ∈ m.definitions, ∀ i ∈ m.body f, (m.instr i).ty ≠ .missing ∧
      ∀ v ∈ (m.instr i).operands, m.typeOf v ≠ .missing) : m.Proper false where
  linked := h.linked
  owned f hf := (functionReport_eq_nil.1 (verify_eq_nil.1 h.accepted f hf)).1
  tidy f hf := by
    obtain ⟨e, he⟩ := exists_entry hf
    exact ⟨e, ⟨h.linked, .of_accepted h.linked he (h.defects hf) (h.distinct f hf),
      h.typed hf (hconv f hf) (hgiven f hf)⟩, by simp⟩

end Module

/-- The passes of a compilation succeed on every well-built module of given types whose conversions
from integers are to doubles. What they leave is accepted, and nothing in it is dead. -/
theorem Optimization.run_sequence_accepted {m : Module} (h : m.WellBuilt)
    (hconv : ∀ f ∈ m.definitions, ∀ i ∈ m.body f, (m.instr i).op = .sitofp →
      (m.instr i).ty = .double)
    (hgiven : ∀ f ∈ m.definitions, ∀ i ∈ m.body f, (m.instr i).ty ≠ .missing ∧
      ∀ v ∈ (m.instr i).operands, m.typeOf v ≠ .missing) :
    ∃ s, Optimization.run Pass.sequence { module := m } = .ok () s ∧
      s.module.verify = .ok [] ∧ ∀ f ∈ s.module.definitions, s.module.dead f = [] := by
  have hreach : reachesAll Pass.sequence.dropLast false = some true := by decide
  obtain ⟨s, hrun, hp, hdead⟩ :=
    runPasses_settled (s := { module := m }) hreach (h.proper hconv hgiven)
  refine ⟨s, bind_ok.2 ⟨⟨⟩, s, hrun, bind_ok.2 ⟨s, s, rfl, ?_⟩⟩, hp.accepted, hdead⟩
  refine ofExcept_ok.2 ⟨?_, rfl⟩
  unfold accept
  rw [hp.accepted]
  rfl

/-- A definition with a slot, a loop and a block that cannot be reached. -/
def slotAndLoop : Module :=
  .single ⟨.i64, [.i1]⟩ ["entry", "again", "test", "end", "lost"]
    [(0, .alloca .i64), (0, .store (.int .i64 7) (.instr 0)),
      (0, { op := .load, ty := .i64, operands := [.instr 0] }),
      (0, .condBr (.param 0 0) (some 1) (some 2)), (1, .br (some 2)),
      (2, .phi .i64 [(.instr 2, some 0), (.int .i64 1, some 1)]),
      (2, .icmp "eq" (.instr 5) (.int .i64 7)), (2, .condBr (.instr 6) (some 1) (some 3)),
      (3, .ret (.instr 5)), (4, .br (some 3))]

theorem slotAndLoop_wellBuilt : slotAndLoop.WellBuilt := by
  have hdefs : slotAndLoop.definitions = [0] := rfl
  have hbody : slotAndLoop.body 0 = [0, 1, 2, 3, 4, 5, 6, 7, 8, 9] := rfl
  refine ⟨.single (by decide), by cbv, ?_, ?_, ?_⟩ <;>
    rw [hdefs, forall_mem_singleton, hbody]
  · simp only [forall_mem_cons]
    refine ⟨.placed (.alloca _) _ _, .placed (.store _ _) _ _, ?_, .placed (.condBr _ _ _) _ _,
      .placed (.br _) _ _, .placed (.phi _ [(.instr 2, some 0), (.int .i64 1, some 1)]) _ _,
      .placed (.icmp _ _ _) _ _, .placed (.condBr _ _ _) _ _, .placed (.ret _) _ _,
      .placed (.br _) _ _, forall_mem_nil _⟩
    exact Instr.Built.placed (x := .load slotAndLoop (.instr 0)) (.load _) "" (some 0)
  · decide
  · decide

/-- The passes succeed on it. -/
theorem run_sequence_accepted_slotAndLoop :
    ∃ s, Optimization.run Pass.sequence { module := slotAndLoop } = .ok () s ∧
      s.module.verify = .ok [] ∧ ∀ f ∈ s.module.definitions, s.module.dead f = [] :=
  Optimization.run_sequence_accepted slotAndLoop_wellBuilt (by decide) (by decide)

/-! ## Conversions that the passes do not expect -/

def conversion (op : Opcode) (ty ret : Ty) (last : Instr) : Module :=
  .single ⟨ret, []⟩ ["entry"] [(0, .cast op (.int .i64 5) ty), (0, last)]

theorem conversion_wellBuilt {op : Opcode} {ty ret : Ty} {last : Instr}
    (hop : op ∈ [.trunc, .zext, .sitofp]) (hlast : last.op = .ret)
    (hbuilt : last.Built (conversion op ty ret last))
    (hok : (conversion op ty ret last).verify = .ok []) :
    (conversion op ty ret last).WellBuilt := by
  have hdefs : (conversion op ty ret last).definitions = [0] := rfl
  have hbody : (conversion op ty ret last).body 0 = [0, 1] := rfl
  have hfirst : ((conversion op ty ret last).instr 0).op = op := rfl
  have hsecond : ((conversion op ty ret last).instr 1).op = .ret := hlast
  refine ⟨.single (by simp), hok, ?_, ?_, ?_⟩ <;>
    rw [hdefs, forall_mem_singleton, hbody] <;> simp only [forall_mem_cons, hfirst, hsecond]
  · exact ⟨.placed (.cast hop _ _) _ _, .placed hbuilt _ _, forall_mem_nil _⟩
  · refine ⟨?_, by simp⟩
    rintro rfl
    simp at hop
  · refine ⟨?_, by simp⟩
    rintro rfl
    simp at hop

def returnsInteger : Module := conversion .sitofp .i32 .i32 (.ret (.instr 0))

def returnsFloat : Module := returnsInteger.supplant 0 0 (.float (Float.ofInt (5 : Int64).toInt))

def truncatesToNothing : Module := conversion .trunc .missing .void .retVoid

theorem runPasses_returnsInteger :
    ∃ s, Optimization.runPasses Pass.sequence { module := returnsInteger } = .ok () s ∧
      s.module = returnsFloat := by
  have hbefore : Optimization.runPasses ["mem2reg", "simplifycfg"] { module := returnsInteger } =
      .ok () { module := returnsInteger } := by cbv
  have hfold : Optimization.runPasses ["instcombine"] { module := returnsInteger } =
      .ok () ⟨returnsFloat, [.instcombine]⟩ := rfl
  -- what follows does not depend on the number
  have hafter (x : Float) : let m := returnsInteger.supplant 0 0 (.float x)
      Optimization.runPasses ["dce", "simplifycfg", "instcombine", "dce"] ⟨m, [.instcombine]⟩ =
        .ok () ⟨m, [.instcombine]⟩ := by cbv
  exact ⟨_, Optimization.runPasses_append hbefore (Optimization.runPasses_append hfold (hafter _)),
    rfl⟩

/-- Without these two conditions the passes fail on well-built modules: a folded conversion is a
double whatever its type was, and a truncation to no type cannot be folded. -/
theorem Optimization.run_sequence_fails_on_conversions :
    (returnsInteger.WellBuilt ∧
      (∃ s, runPasses Pass.sequence { module := returnsInteger } = .ok () s ∧
        s.module.verify = .ok [⟨"f", [.instr "entry" (.retType .i32)]⟩]) ∧
      ∀ s, Optimization.run Pass.sequence { module := returnsInteger } ≠ .ok () s) ∧
    (truncatesToNothing.WellBuilt ∧
      ∀ s, Optimization.run Pass.sequence { module := truncatesToNothing } ≠ .ok () s) := by
  obtain ⟨s, hrun, hm⟩ := runPasses_returnsInteger
  have hreport : s.module.verify = .ok [⟨"f", [.instr "entry" (.retType .i32)]⟩] := by
    rw [hm]
    rfl
  refine ⟨⟨conversion_wellBuilt (by decide) rfl (.ret _) (by cbv), ⟨s, hrun, hreport⟩, ?_⟩,
    conversion_wellBuilt (by decide) rfl .retVoid (by cbv), ?_⟩
  · intro s' h
    obtain ⟨_, s₁, hrun', h⟩ := bind_ok.1 h
    cases hrun.symm.trans hrun'
    obtain ⟨_, _, hget, h⟩ := bind_ok.1 h
    cases hget
    have haccept := (ofExcept_ok.1 h).1
    unfold accept at haccept
    rw [hreport] at haccept
    cases htext : s.module.text <;> simp [htext, bind, Except.bind] at haccept
  · intro s' h
    obtain ⟨_, s₁, hrun', -⟩ := bind_ok.1 h
    have habort : failure? (runPasses Pass.sequence { module := truncatesToNothing }) =
        some (.abort none) := by cbv
    rw [hrun'] at habort
    cases habort

end Qirc.IR
