import Qirc.Proofs.IR.FoldingLaws

/-!
# Folding keeps integers

Every replacement that folding makes in an accepted function puts a value in the place of an
instruction that is the same integer, wherever the instruction was run and in every run. The argument
for one replacement uses those for the replacements before it; for a phi it goes along the run.
-/

namespace Qirc.IR

open List Step

def Ty.narrower : Ty → Ty → Bool
  | .int u, .int w => u < w
  | _, _ => false

def Ty.fitsWord : Ty → Bool
  | .int w => 0 < w && w ≤ 64
  | _ => true

def Value.integral : Value → Bool
  | .int t _ => t.isInt 0
  | _ => true

theorem Ty.narrower_eq_true {s t : Ty} (h : s.narrower t = true) :
    ∃ u w, s = .int u ∧ t = .int w ∧ u < w := by
  unfold narrower at h
  split at h
  · exact ⟨_, _, rfl, rfl, of_decide_eq_true h⟩
  · cases h

theorem Ty.fitsWord_int {w : Nat} (h : (Ty.int w).fitsWord = true) : 0 < w ∧ w ≤ 64 := by
  rwa [fitsWord, Bool.and_eq_true, decide_eq_true_iff, decide_eq_true_iff] at h

theorem Value.integral_int {t : Ty} {n : Int64} (h : (Value.int t n).integral = true) :
    ∃ w, t = .int w := by
  cases t with
  | int w => exact ⟨w, rfl⟩
  | _ => cases h

namespace Module

/-- The functions whose integers folding keeps: accepted, of instructions as they are built, with
types that are given, conversions that do what they say, and integers of one to sixty-four bits. -/
structure Combinable (m : Module) (f : FuncId) : Prop where
  linked : m.Linked
  accepted : m.functionReport f = .ok []
  built : ∀ i ∈ m.body f, (m.instr i).Built m
  given : ∀ i ∈ m.body f, (m.instr i).ty ≠ .missing ∧
    ∀ v ∈ (m.instr i).operands, m.typeOf v ≠ .missing
  narrower : ∀ i ∈ m.body f, (m.instr i).op = .trunc → ∀ v ∈ (m.instr i).operands,
    (m.instr i).ty.narrower (m.typeOf v) = true
  wider : ∀ i ∈ m.body f, (m.instr i).op = .zext → ∀ v ∈ (m.instr i).operands,
    (m.typeOf v).narrower (m.instr i).ty = true
  bits : m.Bits f
  constants : m.AllOperands f fun v => v.integral = true
  widths : ∀ i ∈ m.body f, (m.instr i).ty.fitsWord = true ∧
    ∀ v ∈ (m.instr i).operands, (m.typeOf v).fitsWord = true

/-- A value that was there before an instruction and is the same integer wherever that was run. -/
structure Echoes (m : Module) (f : FuncId) (e : BlockId) (i : InstrId) (v : Value) : Prop where
  early : ∀ x b, v = .instr x → (m.instr i).parent = some b → Reached m.served e b →
    x = i ∨ m.Before e x i
  value : ∀ args fr, m.ArgsFit f args → m.Visits f args fr → m.Settled e i fr →
    (fr.regs i).SameInteger (m.eval args fr.regs v)

variable {m m' : Module} {f : FuncId} {e b c : BlockId} {i j x : InstrId} {v w : Value}
  {args : List Datum} {fr : Frame} {σ : Value → Value}

namespace Combinable

variable (hc : m.Combinable f)

include hc

theorem admitted (he : m.entry? f = some e) : m.Admitted f e :=
  .of_accepted hc.linked he (functionDefects_of_report hc.accepted (mem_of_head? he))

theorem asBuilt (i : InstrId) (hi : i ∈ m.body f) : (m.instr i).AsBuilt m :=
  (hc.built i hi).asBuilt

theorem integers : m.AllOperands f fun v => ∀ t n, v = .int t n → ∃ w, t = .int w := by
  rintro i hi v hv t n rfl
  exact Value.integral_int (hc.constants i hi _ hv)

theorem operand_width {n : Nat} (hi : i ∈ m.body f) (hv : v ∈ (m.instr i).operands)
    (hn : m.typeOf v = .int n) : 0 < n ∧ n ≤ 64 :=
  Ty.fitsWord_int (hn ▸ (hc.widths i hi).2 v hv)

theorem placed (he : m.entry? f = some e) (h : m.Visits f args fr) : m.Placed e fr :=
  h.placed hc.linked (hc.admitted he) hc.asBuilt

theorem computed (he : m.entry? f = some e) (h : m.Visits f args fr) (hj : m.Settled e j fr)
    (hop : (m.instr j).op.computes = true) : m.Computed args fr.regs j :=
  h.computed hc.linked (hc.admitted he) hc.asBuilt hj hop

theorem unary (hi : i ∈ m.body f) (hop : (m.instr i).op ∈ [.trunc, .zext, .sitofp, .fneg]) :
    ∃ p, (m.instr i).operands = [p] := by
  have hbuilt := hc.asBuilt i hi
  unfold Instr.AsBuilt at hbuilt
  simp only [mem_cons, not_mem_nil, or_false] at hop
  obtain hop | hop | hop | hop := hop <;> rw [hop] at hbuilt <;> exact hbuilt

section

variable (he : m.entry? f = some e) (hargs : m.ArgsFit f args) (h : m.Visits f args fr)

include he hargs h

theorem fits (j : InstrId) : (fr.regs j).Fits (m.instr j).ty := by
  refine h.fits hc.linked (hc.admitted he) hc.asBuilt hargs hc.integers ?_ j
  rintro i hi (hop | hop)
  · obtain ⟨v, hv⟩ := hc.unary hi (by simp [hop])
    obtain ⟨u, -, hu, -⟩ := Ty.narrower_eq_true (hc.narrower i hi hop v (by simp [hv]))
    exact ⟨u, hu⟩
  · obtain ⟨v, hv⟩ := hc.unary hi (by simp [hop])
    obtain ⟨-, u, -, hu, -⟩ := Ty.narrower_eq_true (hc.wider i hi hop v (by simp [hv]))
    exact ⟨u, hu⟩

theorem operand_fits (hi : i ∈ m.body f) (hv : v ∈ (m.instr i).operands) :
    (m.eval args fr.regs v).Fits (m.typeOf v) :=
  eval_fits (hc.fits he hargs h) hargs (operands_of_accepted hc.accepted i hi v hv)
    (hc.integers i hi v hv)

end

theorem operand_not_terminator (hi : i ∈ m.body f) (hj : .instr j ∈ (m.instr i).operands) :
    (m.instr j).op.isTerminator = false := by
  obtain ⟨d, hd, hdf, hvoid⟩ :=
    operandDefect?_instr.1 (operands_of_accepted hc.accepted i hi _ hj)
  have hbuilt := hc.asBuilt j (hc.linked.mem_body.2 ⟨d, hd, (hc.linked.block f d).2 hdf⟩)
  unfold Instr.AsBuilt at hbuilt
  cases hop : (m.instr j).op <;> first | rfl | skip
  all_goals
    rw [hop] at hbuilt
    rw [hbuilt] at hvoid
    cases hvoid

theorem phi_entry (he : m.entry? f = some e) (hi : i ∈ m.phis e) : (m.instr i).operands = [] := by
  have ha := hc.admitted he
  have h := ha.phis e ha.entry_mem i (mem_of_mem_phis hi) (op_of_mem_phis hi)
  rw [ha.predecessors_entry] at h
  exact eq_nil_of_length_eq_zero (h.length.trans h.count)

end Combinable

/-! ## Values that echo instructions -/

theorem Before.reached (h : m.Before e j i) (hi : (m.instr i).parent = some b)
    (hb : Reached m.served e b) : ∃ d, (m.instr j).parent = some d ∧ Reached m.served e d := by
  obtain ⟨d, b', hd, hb', horder⟩ := h
  cases hi.symm.trans hb'
  obtain ⟨rfl, -⟩ | ⟨-, hdom⟩ := horder
  · exact ⟨d, hd, hb⟩
  · exact ⟨d, hd, hdom.reached hb⟩

theorem Settled.parent (hl : m.Linked) (hp : m.Placed e fr) (hj : m.Settled e j fr) :
    ∃ b, (m.instr j).parent = some b ∧ Reached m.served e b := by
  obtain ⟨b, hjb, hb⟩ := hj.block hl hp
  exact ⟨b, (hl.instr b j).1 hjb, hb⟩

namespace Echoes

variable (hl : m.Linked)

theorem refl (i : InstrId) : Echoes m f e i (.instr i) where
  early _ _ hx _ _ := .inl (Value.instr.inj hx).symm
  value _ _ _ _ _ := .refl _

include hl

theorem settled (hp : m.Placed e fr) (h : Echoes m f e j v) (hj : m.Settled e j fr)
    (hx : v = .instr x) : m.Settled e x fr := by
  obtain ⟨b, hb, hr⟩ := hj.parent hl hp
  obtain rfl | hxj := h.early x b hx hb hr
  · exact hj
  · exact hj.before hl hp hxj

theorem before (h : Echoes m f e j v) (hx : v = .instr x) (hji : m.Before e j i)
    (hb : (m.instr i).parent = some b) (hr : Reached m.served e b) : m.Before e x i := by
  obtain ⟨d, hd, hrd⟩ := hji.reached hb hr
  obtain rfl | hxj := h.early x d hx hd hrd
  · exact hji
  · exact hxj.trans hl hji hb hr

theorem trans (hplaced : ∀ args fr, m.Visits f args fr → m.Placed e fr)
    (hj : Echoes m f e j (.instr i)) (hi : Echoes m f e i v) : Echoes m f e j v where
  early x b hx hb hr := by
    obtain rfl | hij := hj.early i b rfl hb hr
    · exact hi.early x b hx hb hr
    exact .inr (hi.before hl hx hij hb hr)
  value args fr hargs hv hs :=
    (hj.value args fr hargs hv hs).trans
      (hi.value args fr hargs hv (hj.settled hl (hplaced args fr hv) hs rfl))

end Echoes

/-! ## A function under folding -/

structure Fair (m : Module) (f : FuncId) (m' : Module) (v : Value) : Prop where
  bit : fitsBit v = true
  given : m.typeOf v ≠ .missing
  own : ∀ g k, v = .param g k → g = f
  inside : ∀ j, v = .instr j → j ∈ m'.body f

/-- A module after some replacements, with the values that now stand for the operands of before. -/
structure Image (m : Module) (f : FuncId) (e : BlockId) (σ : Value → Value) (m' : Module) :
    Prop where
  linked : m'.Linked
  edited : Edited f m m'
  body : ∀ i ∈ m'.body f, i ∈ m.body f
  op : ∀ i, (m'.instr i).op = (m.instr i).op
  relation : ∀ i, (m'.instr i).relation = (m.instr i).relation
  operands : ∀ i ∈ m'.body f, (m'.instr i).operands = (m.instr i).operands.map σ
  fixed : ∀ v, (∀ j, v ≠ .instr j) → σ v = v
  echoes : ∀ j, Echoes m f e j (σ (.instr j))
  fair : m'.AllOperands f (Fair m f m')

theorem Image.refl (hc : m.Combinable f) : Image m f e id m where
  linked := hc.linked
  edited := .refl f m
  body _ hi := hi
  op _ := rfl
  relation _ := rfl
  operands _ _ := (map_id _).symm
  fixed _ _ := rfl
  echoes j := .refl j
  fair i hi v hv := by
    have hdef := operands_of_accepted hc.accepted i hi v hv
    refine ⟨hc.bits i hi v hv, (hc.given i hi).2 v hv, ?_, ?_⟩
    · rintro g k rfl
      simpa [operandDefect?] using hdef
    rintro j rfl
    obtain ⟨d, hd, hf, -⟩ := operandDefect?_instr.1 hdef
    exact hc.linked.mem_body.2 ⟨d, hd, (hc.linked.block f d).2 hf⟩

theorem Image.supplant (hc : m.Combinable f) (he : m.entry? f = some e) (hI : Image m f e σ m')
    (hi : i ∈ m'.body f) (hself : v ≠ .instr i) (hv : Echoes m f e i v) (hfair : Fair m f m' v) :
    Image m f e (swap i v ∘ σ) (m'.supplant f i v) where
  linked := hI.linked.supplant
  edited := hI.edited.trans (.supplant hI.linked hi)
  body j hj := hI.body j ((supplant_body hI.linked).1 hj).1
  op j := supplant_op.trans (hI.op j)
  relation j := by
    rw [supplant_instr]
    exact hI.relation j
  operands j hj := by
    have hj := ((supplant_body hI.linked).1 hj).1
    rw [supplant_instr]
    rw [if_pos hj, hI.operands j hj, map_map]
  fixed w hw := by
    rw [Function.comp_apply, hI.fixed w hw]
    exact if_neg (hw i)
  echoes j := by
    rw [Function.comp_apply, swap]
    split
    · rename_i hj
      exact (hj ▸ hI.echoes j).trans hc.linked (fun _ _ => hc.placed he) hv
    · exact hI.echoes j
  fair j hj w hw := by
    have hstay : ∀ {w : Value}, w ≠ .instr i → Fair m f m' w → Fair m f (m'.supplant f i v) w := by
      intro w hne h
      refine ⟨h.bit, h.given, h.own, fun k hk => (supplant_body hI.linked).2 ⟨h.inside k hk, ?_⟩⟩
      rintro rfl
      exact hne hk
    obtain ⟨hj, -⟩ := (supplant_body hI.linked).1 hj
    rw [supplant_instr] at hw
    simp only [if_pos hj, mem_map] at hw
    obtain ⟨u, hu, rfl⟩ := hw
    unfold swap
    split
    · exact hstay hself hfair
    rename_i hne
    exact hstay hne (hI.fair j hj u hu)

namespace Image

section Operands

variable (hc : m.Combinable f) (he : m.entry? f = some e) (hI : Image m f e σ m')

include hI

theorem eval_eq (args : List Datum) (regs : Registers) : m'.eval args regs = m.eval args regs :=
  funext fun v => eval_congr hI.edited.global v fun _ _ => rfl

theorem fair_of_operand (hi : i ∈ m'.body f) (hw : w ∈ (m.instr i).operands) : Fair m f m' (σ w) :=
  hI.fair i hi _ (by rw [hI.operands i hi]; exact mem_map_of_mem hw)

theorem value (hargs : m.ArgsFit f args) (hv : m.Visits f args fr)
    (hw : ∀ j, w = .instr j → m.Settled e j fr) :
    (m.eval args fr.regs w).SameInteger (m.eval args fr.regs (σ w)) := by
  cases w with
  | instr j => exact (hI.echoes j).value args fr hargs hv (hw j rfl)
  | _ =>
    rw [hI.fixed _ (by simp)]
    exact .refl _

include hc

section

variable (hi : i ∈ m'.body f)

include hi

theorem mem_blocks (hb : (m.instr i).parent = some b) : b ∈ (m.func f).blocks := by
  obtain ⟨d, hd, hdf⟩ := hc.linked.mem_body.1 (hI.body i hi)
  cases hb.symm.trans hd
  exact hdf

theorem binary (hop : (m.instr i).op ∈ [.xor, .and, .or, .fadd, .fsub, .fmul, .fdiv, .icmp]) :
    ∃ p q, (m.instr i).operands = [p, q] ∧ (m'.instr i).operands = [σ p, σ q] := by
  have hbuilt := hc.asBuilt i (hI.body i hi)
  unfold Instr.AsBuilt at hbuilt
  have hex : ∃ p q, (m.instr i).operands = [p, q] := by
    simp only [mem_cons, not_mem_nil, or_false] at hop
    obtain hop | hop | hop | hop | hop | hop | hop | hop := hop <;> rw [hop] at hbuilt <;>
      exact ⟨_, _, hbuilt.choose_spec.choose_spec.1⟩
  obtain ⟨p, q, hpq⟩ := hex
  exact ⟨p, q, hpq, by rw [hI.operands i hi, hpq]; rfl⟩

theorem unary (hop : (m.instr i).op ∈ [.trunc, .zext, .sitofp, .fneg]) :
    ∃ p, (m.instr i).operands = [p] ∧ (m'.instr i).operands = [σ p] := by
  obtain ⟨p, hp⟩ := hc.unary (hI.body i hi) hop
  exact ⟨p, hp, by rw [hI.operands i hi, hp]; rfl⟩

theorem ternary (hop : (m.instr i).op = .select) :
    ∃ b p q, (m.instr i).operands = [b, p, q] ∧ (m'.instr i).operands = [σ b, σ p, σ q] := by
  have hbuilt := hc.asBuilt i (hI.body i hi)
  unfold Instr.AsBuilt at hbuilt
  rw [hop] at hbuilt
  obtain ⟨b, p, q, hops, -⟩ := hbuilt
  exact ⟨b, p, q, hops, by rw [hI.operands i hi, hops]; rfl⟩

end

include he

theorem prior (hi : i ∈ m'.body f) (hop : (m.instr i).op ≠ .phi) (hb : (m.instr i).parent = some b)
    (hr : Reached m.served e b) (hw : w ∈ (m.instr i).operands) : m.Prior e (σ w) i := by
  intro x hx
  cases w with
  | instr j =>
    have hji := (hc.admitted he).before hc.linked (hI.mem_blocks hc hi hb)
      ((hc.linked.instr b i).2 hb) hop hw
    exact (hI.echoes j).before hc.linked hx hji hb hr
  | _ =>
    rw [hI.fixed _ (by simp)] at hx
    cases hx

variable (hargs : m.ArgsFit f args) (hv : m.Visits f args fr) (hs : m.Settled e i fr)
  (hi : i ∈ m'.body f)

include hargs hv hs hi

variable (hop : (m.instr i).op ≠ .phi) (hw : w ∈ (m.instr i).operands)

include hop hw

theorem operand_value : (m.eval args fr.regs w).SameInteger (m.eval args fr.regs (σ w)) := by
  refine hI.value hargs hv fun j hj => ?_
  subst hj
  have hp := hc.placed he hv
  obtain ⟨b, hb, -⟩ := hs.parent hc.linked hp
  exact hs.before hc.linked hp ((hc.admitted he).before hc.linked (hI.mem_blocks hc hi hb)
    ((hc.linked.instr b i).2 hb) hop hw)

theorem tame : m'.Tame args fr.regs (σ w) := by
  have hfair := hI.fair_of_operand hi hw
  refine ⟨hfair.bit, fun u n hn => ?_, fun j p s l rest hj hopj hopsj => ?_⟩
  · rw [hI.edited.typeOf]
    cases hx : σ w with
    | int t k =>
      rw [hx] at hn
      cases hn
      rfl
    | param g k =>
      rw [hx] at hn
      obtain rfl := hfair.own g k hx
      rw [hargs k u n hn]
      rfl
    | instr j =>
      rw [hx] at hn
      exact congrArg Ty.bits (hc.fits he hargs hv j u n hn)
    | _ =>
      rw [hx] at hn
      cases hn
  · have hjin := hfair.inside j hj
    have hp := hc.placed he hv
    obtain ⟨b, hb, hr⟩ := hs.parent hc.linked hp
    have hsj := hs.before hc.linked hp (hI.prior hc he hi hop hb hr hw j hj)
    rw [hI.op] at hopj
    obtain ⟨p', q', hpq, hpq'⟩ := hI.binary hc hjin (by simp [hopj])
    rw [hpq'] at hopsj
    simp only [cons.injEq] at hopsj
    obtain ⟨rfl, hq', -⟩ := hopsj
    have hvalue := fun {u} hu => hI.operand_value (w := u) hc he hargs hv hsj hjin (by simp [hopj]) hu
    refine ⟨hq' ▸ (hI.fair_of_operand hjin (by simp [hpq])).bit, m.eval args fr.regs p',
      m.eval args fr.regs q', ?_, ?_, ?_⟩
    · have hcomputed := (hc.computed he hv hsj (by rw [hopj]; rfl)).eq
      unfold Instr.compute at hcomputed
      rw [hopj, hpq] at hcomputed
      exact hcomputed
    · rw [hI.eval_eq]
      exact hvalue (by simp [hpq])
    · rw [hI.eval_eq, ← hq']
      exact hvalue (by simp [hpq])

end Operands

/-! ## What instructions fold to -/

section Folded

variable (hc : m.Combinable f) (he : m.entry? f = some e) (hI : Image m f e σ m')
  (hi : i ∈ m'.body f)

include hI hi

theorem fair_of_arises (hv : m'.Arises i v) : Fair m f m' v := by
  cases hv with
  | operand hv => exact hI.fair i hi v hv
  | literal hinstr hparam hbit hgiven =>
    rw [hI.edited.typeOf] at hgiven
    exact ⟨hbit, hgiven, fun g k h => absurd h (hparam g k), fun j h => absurd h (hinstr j)⟩
  | inner hj _ hv => exact hI.fair _ ((hI.fair i hi _ hj).inside _ rfl) v hv

include hc

theorem foldable : m'.Foldable i (m'.Arises i) := by
  have hgiven : ∀ u ∈ (m'.instr i).operands, m'.typeOf u ≠ .missing := by
    intro u hu
    rw [hI.edited.typeOf]
    exact (hI.fair i hi u hu).given
  have hty : (m'.instr i).ty ≠ .missing := by
    rw [hI.edited.ty]
    exact (hc.given i (hI.body i hi)).1
  have hlogic : ∀ {u}, u ∈ (m'.instr i).operands → m'.LogicOperand (m'.Arises i) u := by
    intro u hu
    refine ⟨.operand hu, hgiven u hu, .int (hgiven u hu), ?_⟩
    rintro j rfl hop
    obtain ⟨p, q, -, hpq⟩ := hI.binary hc ((hI.fair i hi _ hu).inside j rfl)
      (by simp [← hI.op j, hop])
    exact ⟨_, _, hpq, .inner hu (by simp [hop]) (by simp [hpq])⟩
  unfold Foldable
  cases hop : (m.instr i).op <;> simp only [hI.op, hop]
  case phi =>
    intro v hv
    have hops : .missing ∉ (m'.instr i).operands := fun h => hgiven _ h rfl
    obtain ⟨hne, hmem, -⟩ := phiValue?_spec hops hv
    exact .operand (hmem.resolve_left hne)
  case select =>
    obtain ⟨b, p, q, -, hops⟩ := hI.ternary hc hi hop
    exact ⟨_, _, _, hops, .operand (by simp [hops]), .operand (by simp [hops])⟩
  case xor | and | or =>
    obtain ⟨p, q, -, hops⟩ := hI.binary hc hi (by simp [hop])
    exact ⟨_, _, hops, hlogic (by simp [hops]), hlogic (by simp [hops])⟩
  case icmp =>
    obtain ⟨p, q, -, hops⟩ := hI.binary hc hi (by simp [hop])
    exact ⟨_, _, hops, hgiven _ (by simp [hops]), .bool⟩
  case fadd | fsub | fmul | fdiv =>
    obtain ⟨p, q, -, hops⟩ := hI.binary hc hi (by simp [hop])
    exact ⟨_, _, hops, fun _ => .double⟩
  case fneg =>
    obtain ⟨p, -, hops⟩ := hI.unary hc hi (by simp [hop])
    refine ⟨_, hops, .double, fun j hj hopj => ?_⟩
    have hmem : .instr j ∈ (m'.instr i).operands := by simp [hops, hj]
    obtain ⟨q, -, hopsj⟩ := hI.unary hc ((hI.fair i hi _ hmem).inside j rfl) (by simp [hopj])
    exact ⟨_, hopsj, .inner hmem (by simp [hI.op, hopj]) (by simp [hopsj])⟩
  case zext =>
    obtain ⟨p, hops', hops⟩ := hI.unary hc hi (by simp [hop])
    refine ⟨_, hops, hgiven _ (by simp [hops]), fun t k _ => .literal (by simp) (by simp) ?_ hty⟩
    -- The result has more bits than the operand, which has one at least.
    obtain ⟨w, u, hw, hu, hlt⟩ :=
      Ty.narrower_eq_true (hc.wider i (hI.body i hi) hop p (by simp [hops']))
    have hpos := (hc.operand_width (hI.body i hi) (v := p) (by simp [hops']) hw).1
    have hne : u ≠ 1 := by omega
    simp [fitsBit, hI.edited.ty, hu, Ty.isInt, hne]
  case trunc =>
    obtain ⟨p, -, hops⟩ := hI.unary hc hi (by simp [hop])
    exact ⟨_, hops, hty, .int hty⟩
  case sitofp =>
    obtain ⟨p, -, hops⟩ := hI.unary hc hi (by simp [hop])
    exact ⟨_, hops, .double⟩

include he

theorem prior_of_arises (hop : (m.instr i).op ≠ .phi) (hv : m'.Arises i v)
    (hb : (m.instr i).parent = some b) (hr : Reached m.served e b) : m.Prior e v i := by
  have hops := hI.operands i hi
  cases hv with
  | operand hv =>
    rw [hops] at hv
    obtain ⟨w, hw, rfl⟩ := mem_map.1 hv
    exact hI.prior hc he hi hop hb hr hw
  | literal hinstr => exact fun x hx => absurd hx (hinstr x)
  | @inner j v hj hopj hv =>
    have hjin := (hI.fair i hi _ hj).inside j rfl
    rw [hops] at hj
    obtain ⟨w, hw, hwj⟩ := mem_map.1 hj
    have hji := hI.prior hc he hi hop hb hr hw j hwj
    obtain ⟨d, hd, hrd⟩ := hji.reached hb hr
    rw [hI.operands j hjin] at hv
    obtain ⟨p, hp, rfl⟩ := mem_map.1 hv
    rw [hI.op] at hopj
    intro x hx
    exact (hI.prior hc he hjin hopj hd hrd hp x hx).trans hc.linked hji hb hr

theorem echo (hop : (m.instr i).op.computes = true) (hv : m'.Arises i v)
    (hvalue : ∀ args fr, m.ArgsFit f args → m.Visits f args fr → m.Settled e i fr →
      (∀ w ∈ (m.instr i).operands,
        (m.eval args fr.regs w).SameInteger (m.eval args fr.regs (σ w))) →
      ((m.instr i).compute ((m.instr i).operands.map (m.eval args fr.regs))).SameInteger
        (m.eval args fr.regs v)) : Echoes m f e i v := by
  have hne : (m.instr i).op ≠ .phi := by
    intro hphi
    rw [hphi] at hop
    cases hop
  refine ⟨fun x b hx hb hr => .inr (hI.prior_of_arises hc he hi hne hv hb hr x hx), ?_⟩
  intro args fr hargs hvisit hs
  rw [(hc.computed he hvisit hs hop).eq]
  exact hvalue args fr hargs hvisit hs fun w => hI.operand_value hc he hargs hvisit hs hi hne

theorem echo_logic (hop : (m.instr i).op = .xor ∨ (m.instr i).op = .and ∨ (m.instr i).op = .or)
    (hv : m'.folded? i = .ok (some v)) (harises : m'.Arises i v) : Echoes m f e i v := by
  have hne : (m.instr i).op ≠ .phi := by
    intro h
    simp [h] at hop
  obtain ⟨p, q, hpq, hpq'⟩ := hI.binary hc hi (by obtain h | h | h := hop <;> simp [h])
  have hfold : m'.foldLogic (m.instr i).op (σ p) (σ q) = .ok (some v) := by
    obtain h | h | h := hop <;> simpa only [folded?, hI.op, h, hpq'] using hv
  refine hI.echo hc he hi (by obtain h | h | h := hop <;> rw [h] <;> rfl) harises
    fun args fr hargs hvisit hs hvalue => ?_
  have htame := fun {w} (hw : w ∈ (m.instr i).operands) =>
    hI.tame hc he hargs hvisit hs hi hne hw
  have hcompute : (m.instr i).compute ((m.instr i).operands.map (m.eval args fr.regs)) =
      Datum.bitwise (m.instr i).op.onBits (m.eval args fr.regs p) (m.eval args fr.regs q) := by
    unfold Instr.compute
    obtain h | h | h := hop <;> rw [h, hpq] <;> rfl
  rw [hcompute, ← hI.eval_eq]
  refine logic_folded hop (htame (by simp [hpq])) (htame (by simp [hpq])) ?_ ?_ hfold
  · rw [hI.eval_eq]
    exact hvalue p (by simp [hpq])
  · rw [hI.eval_eq]
    exact hvalue q (by simp [hpq])

theorem echo_icmp (hop : (m.instr i).op = .icmp) (hv : m'.folded? i = .ok (some v))
    (harises : m'.Arises i v) : Echoes m f e i v := by
  obtain ⟨p, q, hpq, hpq'⟩ := hI.binary hc hi (by simp [hop])
  refine hI.echo hc he hi (by rw [hop]; rfl) harises fun args fr hargs hvisit _ hvalue => ?_
  have hp := hvalue p (by simp [hpq])
  have hq := hvalue q (by simp [hpq])
  unfold Instr.compute
  rw [hop, hpq]
  simp only [folded?, hI.op, hop, hpq'] at hv
  split at hv
  · rename_i t k u l ht hu
    rw [ht] at hp
    rw [hu] at hq
    obtain ⟨r, hr, rfl⟩ := Option.map_eq_some_iff.1 (Except.ok.inj (widthOf_bind hv))
    rw [hI.relation] at hr
    refine compare_constants (fun w n hn => ?_) hp hq hr
    have hfits := hc.operand_fits he hargs hvisit (hI.body i hi) (v := p) (by simp [hpq]) w n hn
    exact (hc.operand_width (hI.body i hi) (by simp [hpq]) hfits).1
  · cases hv

theorem echo_cast (hop : (m.instr i).op = .trunc ∨ (m.instr i).op = .zext)
    (hv : m'.folded? i = .ok (some v)) (harises : m'.Arises i v) : Echoes m f e i v := by
  obtain ⟨p, hp, hp'⟩ := hI.unary hc hi (by obtain h | h := hop <;> simp [h])
  refine hI.echo hc he hi (by obtain h | h := hop <;> rw [h] <;> rfl) harises
    fun args fr hargs hvisit _ hvalue => ?_
  have hvalue := hvalue p (by simp [hp])
  have hfits := hc.operand_fits he hargs hvisit (hI.body i hi) (v := p) (by simp [hp])
  unfold Instr.compute
  obtain hop | hop := hop
  · rw [hop, hp]
    simp only [folded?, hI.op, hop, hp', hI.edited.ty] at hv
    split at hv
    · rename_i t k ht
      cases widthOf_bind hv
      obtain ⟨u, w, hu, hw, hlt⟩ :=
        Ty.narrower_eq_true (hc.narrower i (hI.body i hi) hop p (by simp [hp]))
      refine narrowed_constant (fun w' n hn => ?_) (ht ▸ hvalue)
      cases hw.symm.trans (hfits w' n hn)
      rw [hu]
      exact Nat.le_of_lt hlt
    · cases hv
  · rw [hop, hp]
    simp only [folded?, hI.op, hop, hp', hI.edited.ty] at hv
    split at hv
    · rename_i t k ht
      cases widthOf_bind hv
      obtain ⟨w, u, hw, hu, hlt⟩ :=
        Ty.narrower_eq_true (hc.wider i (hI.body i hi) hop p (by simp [hp]))
      refine widened_constant (fun w' n hn => ?_) ?_ (ht ▸ hvalue)
      · cases hw.symm.trans (hfits w' n hn)
        rw [hu]
        exact ⟨(hc.operand_width (hI.body i hi) (by simp [hp]) hw).1, hlt⟩
      · exact (Ty.fitsWord_int (hu ▸ (hc.widths i (hI.body i hi)).1)).2
    · cases hv

theorem echo_select (hop : (m.instr i).op = .select) (hv : m'.folded? i = .ok (some v))
    (harises : m'.Arises i v) : Echoes m f e i v := by
  obtain ⟨c, p, q, hops, hops'⟩ := hI.ternary hc hi hop
  refine hI.echo hc he hi (by rw [hop]; rfl) harises fun args fr hargs hvisit hs hvalue => ?_
  have hp := hvalue p (by simp [hops])
  have hq := hvalue q (by simp [hops])
  have hcond := hvalue c (by simp [hops])
  have hcompute : (m.instr i).compute ((m.instr i).operands.map (m.eval args fr.regs)) =
      if (m.eval args fr.regs c).isTrue then m.eval args fr.regs p else m.eval args fr.regs q := by
    unfold Instr.compute
    rw [hop, hops]
    rfl
  rw [hcompute]
  simp only [folded?, hI.op, hop, hops'] at hv
  cases hconst : σ c with
  | int t k =>
    rw [hconst] at hv hcond
    simp only [Except.ok.injEq, Option.some.injEq] at hv
    -- The condition is an integer of one bit, so it is the constant.
    obtain ⟨w, n, hn⟩ := (hc.computed he hvisit hs (by rw [hop]; rfl)).decided hop
    rw [hops] at hn
    have hn : m.eval args fr.regs c = .int w n := Option.some.inj hn
    obtain ⟨b, hib, hb⟩ := hs.block hc.linked (hc.placed he hvisit)
    have hint := ((hc.admitted he).select_types ((hc.admitted he).mem_of_reached hb) hib hop hops).1
    rw [hc.operand_fits he hargs hvisit (hI.body i hi) (v := c) (by simp [hops]) w n hn] at hint
    cases isInt_one hint
    have hbit := (hI.fair_of_operand hi (w := c) (by simp [hops])).bit
    rw [hconst] at hbit
    rw [isTrue_constant hbit hcond hn, ← hv]
    split
    · exact hp
    · exact hq
  | _ =>
    rw [hconst] at hv
    have hv : (if (σ p).same (σ q) then some (σ p) else none) = some v := Except.ok.inj hv
    split at hv
    · rename_i hsame
      cases hv
      split
      · exact hp
      · exact hq.trans (sameInteger_of_near (Value.near_of_same hsame).symm)
    · cases hv

theorem echo_double (hop : (m.instr i).op ∈ [.fadd, .fsub, .fmul, .fdiv, .fneg, .sitofp])
    (harises : m'.Arises i v) : Echoes m f e i v := by
  refine hI.echo hc he hi ?_ harises fun args fr _ _ _ _ w n hn => ?_
  · simp only [mem_cons, not_mem_nil, or_false] at hop
    obtain h | h | h | h | h | h := hop <;> rw [h] <;> rfl
  unfold Instr.compute at hn
  simp only [mem_cons, not_mem_nil, or_false] at hop
  obtain h | h | h | h | h | h := hop
  iterate 4
    · obtain ⟨p, q, hpq, -⟩ := hI.binary hc hi (by simp [h])
      rw [h, hpq] at hn
      exact (Datum.arithmetic_ne_int hn).elim
  · obtain ⟨p, hp, -⟩ := hI.unary hc hi (by simp [h])
    rw [h, hp] at hn
    exact (Datum.negate_ne_int hn).elim
  · obtain ⟨p, hp, -⟩ := hI.unary hc hi (by simp [h])
    rw [h, hp] at hn
    exact (Datum.toDouble_ne_int hn).elim

end Folded

/-! ## Phis -/

section Phi

variable (hc : m.Combinable f) (he : m.entry? f = some e) (hI : Image m f e σ m')

include hc he hI

/-- What stands for the value that a phi takes from a block was there before the end of the block. -/
theorem past_of_incoming (hi : i ∈ m.phis c) (hu : Reached m.served e b) (hcu : c ∈ m.served b) :
    ∃ w ∈ (m.instr i).operands, m.incoming? i b = some w ∧
      (∀ j, w = .instr j → m.Past e j b) ∧ ∀ y, σ w = .instr y → m.Past e y b := by
  have ha := hc.admitted he
  obtain ⟨w, hw⟩ := served_incoming hcu hi
  have hcb := ha.closed (ha.mem_of_reached hu) (served_successors hcu)
  have hpast : ∀ j, w = .instr j → m.Past e j b := fun j hj => ha.past hcb hi (hj ▸ hw)
  refine ⟨w, (of_mem_zip (incoming?_mem hw)).1, hw, hpast, fun y hy => ?_⟩
  cases w with
  | instr j =>
    have hj := hpast j rfl
    obtain ⟨d, hd, hdom⟩ := hj
    obtain rfl | hyj := (hI.echoes j).early y d hy hd (hdom.reached hu)
    · exact hpast y rfl
    · exact hyj.past (hpast j rfl)
  | _ =>
    rw [hI.fixed _ (by simp)] at hy
    cases hy

/-- The value that a phi folds to was there before the block of the phi. The first way to the block
does not come from the phi, so it brings that value. -/
theorem phi_prior (hi : i ∈ m.phis c) (hrc : Reached m.served e c) (hce : c ≠ e)
    (hnear : ∀ w ∈ (m.instr i).operands, σ w = .instr i ∨ (σ w).Near v) (hx : v = .instr x) :
    ∃ h, (m.instr x).parent = some h ∧ h ≠ c ∧ Dominates m.served e h c := by
  have hparent := (hc.linked.instr c i).1 (mem_of_mem_phis hi)
  have hfirst : ∀ u, Walk m.served (· ≠ c) e u → c ∈ m.served u → m.Past e x u := by
    intro u hu hcu
    obtain ⟨w, hw, -, -, hpast⟩ :=
      hI.past_of_incoming hc he hi (hu.mono fun _ _ => trivial) hcu
    obtain hself | hnear := hnear w hw
    · obtain ⟨d, hd, hdom⟩ := hpast i hself
      cases hparent.symm.trans hd
      exact absurd hu hdom
    · subst hx
      exact hpast x hnear.eq_instr
  obtain ⟨d, rfl, -, rfl | ⟨u, hu, hcu⟩⟩ := hrc.hit (· = c) rfl
  · exact absurd rfl hce
  obtain ⟨h, hh, -⟩ := hfirst u (hu.mono fun _ hx => hx.2) hcu
  have hdom : ∀ u, Walk m.served (· ≠ d) e u → d ∈ m.served u → Dominates m.served e h u := by
    intro u hu hcu
    obtain ⟨h', hh', hdom⟩ := hfirst u hu hcu
    cases hh.symm.trans hh'
    exact hdom
  exact ⟨h, hh, Dominates.ne_of_pred hrc hce hdom, Dominates.of_preds hce hdom⟩

/-- A phi is the value that it folds to, at every visit of its block and as long as it is in use. -/
theorem phi_value (hop : (m.instr i).op = .phi)
    (hnear : ∀ w ∈ (m.instr i).operands, σ w = .instr i ∨ (σ w).Near v)
    (hprior : ∀ c, i ∈ m.phis c → Reached m.served e c → ∀ x, v = .instr x →
      ∃ h, (m.instr x).parent = some h ∧ h ≠ c ∧ Dominates m.served e h c)
    (hargs : m.ArgsFit f args) (hv : m.Visits f args fr) (hs : m.Settled e i fr) :
    (fr.regs i).SameInteger (m.eval args fr.regs v) := by
  have hl := hc.linked
  have ha := hc.admitted he
  have hterm : (m.instr i).op.isTerminator = false := by
    rw [hop]
    rfl
  refine (hv.induct hl ha hc.asBuilt (P := fun fr => m.Settled e i fr →
    (fr.regs i).SameInteger (m.eval args fr.regs v)) ?_ ?_).2 hs
  · rintro - w n ⟨⟩
  intro fr next hv hp ih hturn hs
  obtain ⟨c, hic, hrc⟩ := hs.block hl (hturn.placed hp)
  have hi : i ∈ m.phis c := (ha.mem_phis (ha.mem_of_reached hrc)).2 ⟨hic, hop⟩
  have hbefore : m.Prior e v i := by
    intro x hx
    obtain ⟨h, hh, hne, hdom⟩ := hprior c hi hrc x hx
    exact ⟨h, c, hh, (hl.instr c i).1 hic, .inr ⟨hne, hdom⟩⟩
  -- The phi is run only where control enters its block.
  have hother : ∀ {j rest regs'}, fr.rest = j :: rest → (∀ k, k ≠ j → regs' k = fr.regs k) →
      m.Settled e i ⟨fr.block, rest, regs'⟩ →
      (regs' i).SameInteger (m.eval args regs' v) := by
    intro j rest regs' hr hregs hs
    have hne : i ≠ j := by
      rintro rfl
      exact ha.op_of_mem_code (ha.mem_of_reached hp.reached) (hp.ahead.subset (by simp [hr])) hop
    obtain ⟨hs', hreg, heval⟩ := hs.of_step args hl hp hr hregs hne
    rw [hreg, heval v hbefore]
    exact ih hs'
  have hset : ∀ (j : InstrId) (d : Datum) k, k ≠ j → fr.regs.set j d k = fr.regs k :=
    fun j d k hk => if_neg hk
  cases hturn with
  | @compute j rest hr => exact hother hr (hset j _) hs
  | @answer j rest d hr => exact hother hr (hset j d) hs
  | store hr => exact hother hr (fun _ _ => rfl) hs
  | @enter t rest c' hr ht hc' =>
    by_cases hmem : i ∈ m.phis c'
    · obtain rfl : c = c' := hl.block_unique hic (mem_of_mem_phis hmem)
      obtain ⟨w, hw, hin, hpastw, hpast⟩ := hI.past_of_incoming hc he hi hp.reached hc'
      have hsettled : ∀ {j}, (m.instr j).op.isTerminator = false → m.Past e j fr.block →
          m.Settled e j fr := fun hj h =>
            ha.settled_of_past hp hr ht (ne_of_terminator ht hj) h
      have hvalue : (m.eval args fr.regs w).SameInteger (m.eval args fr.regs (σ w)) :=
        hI.value hargs hv fun j hj => hsettled
          (hc.operand_not_terminator (hl.mem_body_of_mem (ha.mem_of_reached hrc) hic) (hj ▸ hw))
          (hpastw j hj)
      -- Entering the block leaves the value as it is.
      have hkeep : m.eval args (m.enterRegs args fr.regs fr.block c) v =
          m.eval args fr.regs v := by
        refine eval_congr (fun _ => rfl) v fun x hx => if_neg fun hphi => ?_
        obtain ⟨h, hh, hne, -⟩ := hprior c hi hrc x hx
        cases hh.symm.trans ((hl.instr c x).1 (mem_of_mem_phis hphi))
        exact hne rfl
      have hreg : m.enterRegs args fr.regs fr.block c i = m.eval args fr.regs w := by
        unfold enterRegs
        rw [if_pos hi, hin]
        rfl
      change (m.enterRegs args fr.regs fr.block c i).SameInteger
        (m.eval args (m.enterRegs args fr.regs fr.block c) v)
      rw [hkeep, hreg]
      obtain hself | hnear := hnear w hw
      · rw [hself] at hvalue
        exact hvalue.trans (ih (hsettled hterm (hpast i hself)))
      · exact hvalue.trans (sameInteger_of_near hnear)
    · obtain ⟨hs', hreg, heval⟩ := hs.of_enter hl ha hp hr ht hc'
        (ne_of_terminator ht hterm) hmem
      change (m.enterRegs args fr.regs fr.block c' i).SameInteger
        (m.eval args (m.enterRegs args fr.regs fr.block c') v)
      rw [hreg, heval v hbefore]
      exact ih hs'

theorem echo_phi (hi : i ∈ m'.body f) (hop : (m.instr i).op = .phi)
    (hv : m'.folded? i = .ok (some v)) : Echoes m f e i v := by
  have ha := hc.admitted he
  have hops : ∀ u ∈ (m'.instr i).operands, u ≠ .missing := by
    rintro u hu rfl
    exact (hI.fair i hi _ hu).given rfl
  simp only [folded?, hI.op, hop, Except.ok.injEq] at hv
  have hnear : ∀ w ∈ (m.instr i).operands, σ w = .instr i ∨ (σ w).Near v := by
    intro w hw
    have hmem : σ w ∈ (m'.instr i).operands := by
      rw [hI.operands i hi]
      exact mem_map_of_mem hw
    by_cases hself : σ w = .instr i
    · exact .inl hself
    · exact .inr ((phiValue?_near hops hv).2 _ hmem hself)
  have hprior : ∀ c, i ∈ m.phis c → Reached m.served e c → ∀ x, v = .instr x →
      ∃ h, (m.instr x).parent = some h ∧ h ≠ c ∧ Dominates m.served e h c := by
    intro c hic hrc x hx
    refine hI.phi_prior hc he hic hrc ?_ hnear hx
    rintro rfl
    rw [hI.operands i hi, hc.phi_entry he hic] at hv
    cases hv
  refine ⟨fun x b hx hb hr => ?_, fun args fr hargs hvisit hs =>
    hI.phi_value hc he hop hnear hprior hargs hvisit hs⟩
  have hib := (hc.linked.instr b i).2 hb
  obtain ⟨h, hh, hne, hdom⟩ :=
    hprior b ((ha.mem_phis (ha.mem_of_reached hr)).2 ⟨hib, hop⟩) hr x hx
  exact .inr ⟨h, b, hh, hb, .inr ⟨hne, hdom⟩⟩

end Phi

theorem echoes_folded (hc : m.Combinable f) (he : m.entry? f = some e) (hI : Image m f e σ m')
    (hi : i ∈ m'.body f) (hv : m'.folded? i = .ok (some v)) : Echoes m f e i v := by
  have harises : m'.Arises i v := by
    obtain ⟨o, ho, harises⟩ := (hI.foldable hc hi).yields
    cases ho.symm.trans hv
    exact harises v rfl
  cases hop : (m.instr i).op with
  | phi => exact hI.echo_phi hc he hi hop hv
  | select => exact hI.echo_select hc he hi hop hv harises
  | xor | and | or => exact hI.echo_logic hc he hi (by simp [hop]) hv harises
  | icmp => exact hI.echo_icmp hc he hi hop hv harises
  | trunc | zext => exact hI.echo_cast hc he hi (by simp [hop]) hv harises
  | fadd | fsub | fmul | fdiv | fneg | sitofp =>
    exact hI.echo_double hc he hi (by simp [hop]) harises
  | _ =>
    simp only [folded?, hI.op, hop] at hv
    cases hv

end Image

/-! ## The pass -/

theorem Combinable.unfailing (hc : m.Combinable f) (he : m.entry? f = some e) :
    Unfailing f (fun m' => ∃ σ, Image m f e σ m') where
  linked := fun _ ⟨_, hI⟩ => hI.linked
  folded := by
    rintro m' i ⟨σ, hI⟩ hi
    obtain ⟨o, ho, -⟩ := (hI.foldable hc hi).yields
    exact ⟨o, ho⟩
  step := by
    rintro m' i v ⟨σ, hI⟩ hi hv - hself
    obtain ⟨o, ho, harises⟩ := (hI.foldable hc hi).yields
    cases ho.symm.trans hv
    exact ⟨_, hI.supplant hc he hi hself (hI.echoes_folded hc he hi hv)
      (hI.fair_of_arises hi (harises v rfl))⟩

theorem foldInstrs_of_no_body (h : m.body f = []) : foldInstrs f m = .ok false m := by
  refine bind_ok.2 ⟨m, m, rfl, ?_⟩
  refine bind_ok.2 ⟨m, m, rfl, ?_⟩
  rw [h]
  rfl

/-- Folding comes to an end, and in every run of the function an instruction that gave way to a value
is the same integer, at every place that no way leads to without the instruction. -/
theorem foldInstrs_preserves_integers (hc : m.Combinable f) :
    ∃ changed m' log, foldInstrs f m = .ok changed m' ∧ Folds f m log m' ∧
      ∀ r ∈ log, ∀ e, m.entry? f = some e → ∀ args fr, m.ArgsFit f args → m.Visits f args fr →
        m.Settled e r.instr fr →
        (fr.regs r.instr).SameInteger (m.eval args fr.regs r.value) := by
  cases he : m.entry? f with
  | none =>
    have hbody : m.body f = [] := by
      have hnone : (m.func f).blocks = [] := head?_eq_none_iff.1 he
      simp [body, hnone]
    exact ⟨false, m, [], foldInstrs_of_no_body hbody, .done m, by simp⟩
  | some e =>
    have hI := hc.unfailing he
    obtain ⟨changed, m', hrun, -⟩ := hI.foldInstrs ⟨id, .refl hc⟩
    obtain ⟨log, hlog⟩ := foldInstrs_folds hc.linked hrun
    refine ⟨changed, m', log, hrun, hlog, ?_⟩
    refine Folds.forall (I := fun m' => ∃ σ, Image m f e σ m') hI.step ?_ hlog ⟨id, .refl hc⟩
    rintro m' i v ⟨σ, hI⟩ hi hv e' ⟨⟩ args fr hargs hvisit hs
    exact (hI.echoes_folded hc he hi hv).value args fr hargs hvisit hs

end Module

/-- A loop that carries a truth value around and negates it twice. -/
def negatedLoop : Module :=
  .single ⟨.i64, [.i1]⟩ ["entry", "loop", "end"]
    [(0, .br (some 1)), (1, .phi .i1 [(.param 0 0, some 0), (.instr 1, some 1)]),
      (1, { op := .xor, ty := .i1, operands := [.instr 1, .bool true] }),
      (1, { op := .xor, ty := .i1, operands := [.instr 2, .bool true] }),
      (1, .icmp "slt" (.int .i8 200) (.int .i8 (-1))), (1, .condBr (.instr 3) (some 1) (some 2)),
      (2, .cast .zext (.instr 4) .i64), (2, .ret (.instr 6))]

theorem negatedLoop_combinable : negatedLoop.Combinable 0 := by
  have hbody : negatedLoop.body 0 = [0, 1, 2, 3, 4, 5, 6, 7] := rfl
  refine ⟨.single (by decide), by cbv, ?_, ?_, ?_, ?_, ?_, ?_, ?_⟩ <;>
    simp only [Module.Bits, Module.AllOperands, hbody]
  · simp only [forall_mem_cons]
    refine ⟨.placed (.br _) _ _, .placed (.phi _ [(.param 0 0, some 0), (.instr 1, some 1)]) _ _,
      ?_, ?_, .placed (.icmp _ _ _) _ _, .placed (.condBr _ _ _) _ _,
      .placed (.cast (by decide) _ _) _ _, .placed (.ret _) _ _, forall_mem_nil _⟩
    · exact Instr.Built.placed (x := .binary negatedLoop .xor (.instr 1) (.bool true))
        (.binary (by decide) _ _) "" (some 1)
    · exact Instr.Built.placed (x := .binary negatedLoop .xor (.instr 2) (.bool true))
        (.binary (by decide) _ _) "" (some 1)
  all_goals decide

/-- Folding keeps the integers of the loop. -/
theorem foldInstrs_preserves_integers_negatedLoop :
    ∃ changed m' log, Module.foldInstrs 0 negatedLoop = .ok changed m' ∧
      Module.Folds 0 negatedLoop log m' ∧
      ∀ r ∈ log, ∀ e, negatedLoop.entry? 0 = some e → ∀ args fr, negatedLoop.ArgsFit 0 args →
        negatedLoop.Visits 0 args fr → negatedLoop.Settled e r.instr fr →
        (fr.regs r.instr).SameInteger (negatedLoop.eval args fr.regs r.value) :=
  Module.foldInstrs_preserves_integers negatedLoop_combinable

/-- A definition that compares a value whose type was never given. -/
def comparesNothing : Module :=
  .single ⟨.i1, [.missing]⟩ ["entry"]
    [(0, { op := .xor, ty := .missing, operands := [.param 0 0, .param 0 0] }),
      (0, .icmp "eq" (.instr 0) (.instr 0)), (0, .ret (.instr 1))]

/-- Without given types folding may fail: all else is as asked for here, and the width of the constant
that the first instruction folds to is not known. -/
theorem foldInstrs_fails_without_types :
    comparesNothing.verify = .ok [] ∧
      (∀ i ∈ comparesNothing.body 0, (comparesNothing.instr i).Built comparesNothing) ∧
      comparesNothing.Bits 0 ∧ comparesNothing.AllOperands 0 (fun v => v.integral = true) ∧
      (∀ i ∈ comparesNothing.body 0, (comparesNothing.instr i).ty.fitsWord = true ∧
        ∀ v ∈ (comparesNothing.instr i).operands, (comparesNothing.typeOf v).fitsWord = true) ∧
      ∀ changed m', Module.foldInstrs 0 comparesNothing ≠ .ok changed m' := by
  have hbody : comparesNothing.body 0 = [0, 1, 2] := rfl
  refine ⟨by cbv, ?_, ?_, ?_, ?_, ?_⟩
  · simp only [hbody, forall_mem_cons]
    refine ⟨?_, .placed (.icmp _ _ _) _ _, .placed (.ret _) _ _, forall_mem_nil _⟩
    exact Instr.Built.placed (x := .binary comparesNothing .xor (.param 0 0) (.param 0 0))
      (.binary (by decide) _ _) "" (some 0)
  · simp only [Module.Bits, Module.AllOperands, hbody]
    decide
  · simp only [Module.AllOperands, hbody]
    decide
  · rw [hbody]
    decide
  · intro changed m' h
    have hfail : failure? (Module.foldInstrs 0 comparesNothing) = some (.abort none) := by cbv
    rw [h] at hfail
    cases hfail

end Qirc.IR
