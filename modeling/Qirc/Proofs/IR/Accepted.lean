import Mathlib.Data.List.Perm.Subperm
import Qirc.IR.Verifier
import Qirc.Proofs.IR.Links
import Qirc.Proofs.IR.Paths

/-!
# What the verifier accepts

The checks of the verifier one by one, each as a property of the function: the findings of a check
are empty exactly when the property holds. Positions in a block are compared by order on its list,
dominance by walks.
-/

namespace Qirc.IR

open List

theorem findingIf_eq_nil {α : Type} {bad : Bool} {finding : α} :
    findingIf bad finding = [] ↔ bad = false := by
  cases bad <;> simp [findingIf]

theorem mapM_flatten_eq_nil {α β : Type} {check : α → Except Failure (List β)} {xs : List α} :
    (do let found ← xs.mapM check; .ok found.flatten) = Except.ok [] ↔
      ∀ x ∈ xs, check x = .ok [] := by
  induction xs with
  | nil => simp [pure, bind, Except.pure, Except.bind]
  | cons x xs ih =>
    rw [mapM_cons, forall_mem_cons, ← ih]
    cases hx : check x with
    | error e => simp [bind, Except.bind]
    | ok first =>
      cases hxs : xs.mapM check with
      | error e => simp [bind, Except.bind]
      | ok rest => simp [bind, pure, Except.bind, Except.pure]

variable {i j : InstrId} {l : List InstrId}

theorem pair_sublist_cons {a : InstrId} :
    [i, j].Sublist (a :: l) ↔ (i = a ∧ j ∈ l) ∨ [i, j].Sublist l := by
  constructor
  · intro h
    cases h with
    | cons _ h => exact .inr h
    | cons_cons _ h => exact .inl ⟨rfl, singleton_sublist.1 h⟩
  · rintro (⟨rfl, h⟩ | h)
    · exact (singleton_sublist.2 h).cons_cons i
    · exact h.cons a

theorem pair_sublist_append {l' : List InstrId} :
    [i, j].Sublist (l ++ l') ↔ [i, j].Sublist l ∨ (i ∈ l ∧ j ∈ l') ∨ [i, j].Sublist l' := by
  induction l with
  | nil => simp
  | cons a l ih =>
    rw [cons_append, pair_sublist_cons, pair_sublist_cons, ih, mem_append, mem_cons]
    constructor
    · rintro (⟨rfl, hj | hj⟩ | h | ⟨hi, hj⟩ | h)
      · exact .inl (.inl ⟨rfl, hj⟩)
      · exact .inr (.inl ⟨.inl rfl, hj⟩)
      · exact .inl (.inr h)
      · exact .inr (.inl ⟨.inr hi, hj⟩)
      · exact .inr (.inr h)
    · rintro ((⟨rfl, hj⟩ | h) | ⟨rfl | hi, hj⟩ | h)
      · exact .inl ⟨rfl, .inl hj⟩
      · exact .inr (.inl h)
      · exact .inl ⟨rfl, .inr hj⟩
      · exact .inr (.inr (.inl ⟨hi, hj⟩))
      · exact .inr (.inr (.inr h))

theorem pair_sublist_total (hi : i ∈ l) (hj : j ∈ l) (hne : i ≠ j) :
    [i, j].Sublist l ∨ [j, i].Sublist l := by
  induction l with
  | nil => cases hi
  | cons a l ih =>
    rw [pair_sublist_cons, pair_sublist_cons]
    obtain rfl | hi := mem_cons.1 hi
    · exact .inl (.inl ⟨rfl, (mem_cons.1 hj).resolve_left (Ne.symm hne)⟩)
    obtain rfl | hj := mem_cons.1 hj
    · exact .inr (.inl ⟨rfl, ‹i ∈ l›⟩)
    · exact (ih ‹i ∈ l› hj).imp .inr .inr

theorem pair_sublist_trans (hnd : l.Nodup) {k : InstrId} (h : [i, j].Sublist l)
    (h' : [j, k].Sublist l) : [i, k].Sublist l := by
  induction l with
  | nil => cases h
  | cons a l ih =>
    obtain ⟨hal, hl⟩ := nodup_cons.1 hnd
    rw [pair_sublist_cons] at h h' ⊢
    have hj : j ∈ l := h.elim (·.2) fun h => h.subset (by simp)
    obtain ⟨rfl, -⟩ | h' := h'
    · exact absurd hj hal
    obtain ⟨rfl, -⟩ | h := h
    · exact .inl ⟨rfl, h'.subset (by simp)⟩
    · exact .inr (ih hl h h')

theorem pair_sublist_erase {k : InstrId} (h : [i, j].Sublist l) (hi : i ≠ k) (hj : j ≠ k) :
    [i, j].Sublist (l.erase k) := by
  have h' := h.erase k
  rwa [erase_of_not_mem (by simp [hi.symm, hj.symm])] at h'

theorem findIdx_lt_iff (hnd : l.Nodup) (hi : i ∈ l) (hj : j ∈ l) :
    (l.findIdx? (· == i)).getD 0 < (l.findIdx? (· == j)).getD 0 ↔ [i, j].Sublist l := by
  induction l with
  | nil => cases hi
  | cons a l ih =>
    obtain ⟨hal, hl⟩ := nodup_cons.1 hnd
    have hfound : ∀ k ∈ l, ∃ n, l.findIdx? (· == k) = some n := by
      intro k hk
      apply Option.ne_none_iff_exists'.1
      intro hnone
      have hk' := findIdx?_eq_none_iff.1 hnone k hk
      simp at hk'
    rw [findIdx?_cons, findIdx?_cons]
    by_cases hia : a = i
    · subst hia
      by_cases hja : a = j
      · subst hja
        simp [hal]
      have hjl : j ∈ l := (mem_cons.1 hj).resolve_left (Ne.symm hja)
      obtain ⟨n, hn⟩ := hfound j hjl
      simp [hja, hn, hjl]
    · have hil : i ∈ l := (mem_cons.1 hi).resolve_left (Ne.symm hia)
      obtain ⟨n, hn⟩ := hfound i hil
      rw [pair_sublist_cons, or_iff_right fun h => hia h.1.symm]
      by_cases hja : a = j
      · subst hja
        have hno : ¬[i, a].Sublist l := fun h => hal (h.subset (by simp))
        simp [hno]
      · have hjl : j ∈ l := (mem_cons.1 hj).resolve_left (Ne.symm hja)
        obtain ⟨k, hk⟩ := hfound j hjl
        rw [← ih hl hil hjl]
        simp [hia, hja, hn, hk]

namespace Module

variable {m : Module} {f : FuncId} {e b c d : BlockId} {i j : InstrId}

theorem precedes_iff (hnd : (m.block b).instrs.Nodup) (hi : i ∈ (m.block b).instrs)
    (hj : j ∈ (m.block b).instrs) :
    m.precedes b i j = true ↔ [i, j].Sublist (m.block b).instrs := by
  unfold precedes
  rw [← findIdx_lt_iff hnd hi hj]
  simp

/-! ## Modules and functions -/

theorem verify_eq_nil : m.verify = .ok [] ↔ ∀ f ∈ m.functions, m.functionReport f = .ok [] :=
  mapM_flatten_eq_nil

theorem functionReport_eq_nil :
    m.functionReport f = .ok [] ↔
      (m.func f).owned = true ∧
        ((m.func f).isDeclaration = true ∨ m.functionDefects f = .ok []) := by
  unfold functionReport
  cases ho : (m.func f).owned with
  | false => simp [ho]
  | true =>
    cases hd : (m.func f).isDeclaration with
    | true => simp [ho, hd]
    | false =>
      cases hf : m.functionDefects f with
      | error => simp [ho, hd, bind, Except.bind]
      | ok ds => cases ds <;> simp [ho, hd, bind, Except.bind]

theorem functionDefects_eq_nil :
    m.functionDefects f = .ok [] ↔
      m.shapeDefects f = [] ∧ m.branchDefects f = [] ∧
        ∀ b ∈ (m.func f).blocks, ∀ i ∈ (m.block b).instrs,
          m.checkInstr f (m.dominatorTable f) b i = .ok [] := by
  unfold functionDefects
  split
  · rename_i hs
    split
    · rename_i hb
      rw [mapM_flatten_eq_nil]
      simp only [hs, hb, true_and]
      refine forall_congr' fun b => imp_congr_right fun _ => ?_
      exact mapM_flatten_eq_nil
    · rename_i hb
      exact ⟨fun h => (hb (Except.ok.inj h)).elim, fun h => (hb h.2.1).elim⟩
  · rename_i hs
    exact ⟨fun h => (hs (Except.ok.inj h)).elim, fun h => (hs h.1).elim⟩

theorem functionDefects_of_report (hok : m.functionReport f = .ok [])
    (hb : b ∈ (m.func f).blocks) : m.functionDefects f = .ok [] := by
  refine (functionReport_eq_nil.1 hok).2.resolve_left fun hdecl => ?_
  rw [isEmpty_iff.1 hdecl] at hb
  cases hb

theorem exists_entry (hf : f ∈ m.definitions) : ∃ e, m.entry? f = some e := by
  have hdef := (mem_filter.1 hf).2
  rw [Bool.not_eq_true', Function.isDeclaration, isEmpty_eq_false_iff] at hdef
  exact ⟨_, head?_eq_some_head hdef⟩

/-! ## Shape -/

theorem instrShape_eq_nil {l : List InstrId} {late : Bool} :
    m.instrShape b l late = [] ↔
      (∀ i ∈ l, (m.instr i).parent = some b) ∧
      (∀ i j, [i, j].Sublist l → (m.instr i).op.isTerminator = false) ∧
      (∀ i j, [i, j].Sublist l → (m.instr j).op = .phi → (m.instr i).op = .phi) ∧
      (late = true → ∀ i ∈ l, (m.instr i).op ≠ .phi) := by
  induction l generalizing late with
  | nil => simp [instrShape]
  | cons a l ih =>
    simp only [instrShape, append_eq_nil_iff, findingIf_eq_nil, ih, pair_sublist_cons,
      List.forall_mem_cons, Bool.and_eq_false_iff, Bool.not_eq_false', List.isEmpty_iff,
      bne_eq_false_iff_eq, Bool.or_eq_true, bne_iff_ne, beq_eq_false_iff_ne]
    constructor
    · rintro ⟨⟨⟨hp, ht⟩, hphi⟩, hps, hts, hphis, hlate⟩
      refine ⟨⟨hp, hps⟩, ?_, ?_, ?_⟩
      · rintro i j (⟨rfl, hj⟩ | h)
        · obtain ht | rfl := ht
          · exact ht
          · cases hj
        · exact hts i j h
      · rintro i j (⟨rfl, hj⟩ | h) hjp
        · apply Decidable.byContradiction
          intro hi
          exact hlate (.inr hi) j hj hjp
        · exact hphis i j h hjp
      · intro hl
        exact ⟨hphi.resolve_right (by simp [hl]), hlate (.inl hl)⟩
    · rintro ⟨⟨hp, hps⟩, hts, hphis, hlate⟩
      refine ⟨⟨⟨hp, ?_⟩, ?_⟩, hps, fun i j h => hts i j (.inr h),
        fun i j h => hphis i j (.inr h), ?_⟩
      · cases l with
        | nil => exact .inr rfl
        | cons x l => exact .inl (hts a x (.inl ⟨rfl, by simp⟩))
      · cases late with
        | true => exact .inl (hlate rfl).1
        | false => exact .inr rfl
      · rintro (hl | ha) j hj hjp
        · exact (hlate hl).2 j hj hjp
        · exact ha (hphis a j (.inl ⟨rfl, hj⟩) hjp)

theorem shapeDefects_eq_nil :
    m.shapeDefects f = [] ↔
      ∀ b ∈ (m.func f).blocks,
        (m.block b).parent = some f ∧ (∃ t, m.terminator? b = some t) ∧
          m.instrShape b (m.block b).instrs false = [] := by
  unfold shapeDefects
  rw [flatMap_eq_nil_iff]
  refine forall_congr' fun b => imp_congr_right fun _ => ?_
  simp [blockShape, append_eq_nil_iff, findingIf_eq_nil, bne_eq_false_iff_eq,
    Option.isNone_eq_false_iff, Option.isSome_iff_exists]

/-! ## Branches -/

theorem branchDefects_eq_nil (he : m.entry? f = some e) :
    m.branchDefects f = [] ↔
      (∀ b ∈ (m.func f).blocks, ∀ t ∈ m.targets b,
        ∃ c, t = some c ∧ (m.block c).parent = some f) ∧
      ∀ b ∈ (m.func f).blocks, some e ∉ m.targets b := by
  have he' : (m.func f).blocks.head? = some e := he
  unfold branchDefects
  rw [append_eq_nil_iff, flatMap_eq_nil_iff, findingIf_eq_nil, he']
  refine and_congr ?_ ?_
  · refine forall_congr' fun b => imp_congr_right fun _ => ?_
    rw [map_eq_nil_iff, filter_eq_nil_iff]
    refine forall_congr' fun t => imp_congr_right fun _ => ?_
    cases t with
    | none => simp [isTargetIn]
    | some c => simp [isTargetIn]
  · simp [predecessors, filter_eq_nil_iff]

/-! ## Dominators -/

theorem dominatorTable_eq (m : Module) (f : FuncId) :
    m.dominatorTable f = (m.func f).blocks.map fun b => (b, m.dominators f b) := by
  simp [dominatorTable, dominators, filter_map, Function.comp_def]

section

variable (he : m.entry? f = some e)
  (hclosed : ∀ b ∈ (m.func f).blocks, ∀ c ∈ m.successors b, c ∈ (m.func f).blocks)

include he hclosed

theorem mem_reachWithout : b ∈ m.reachWithout f d ↔ Walk m.successors (· ≠ d) e b := by
  unfold reachWithout
  rw [he, mem_reach]
  simp only [Option.toList_some, mem_singleton, exists_eq_left]
  have hin : ∀ x, Walk m.successors (· ≠ d) e x → x ∈ (m.func f).blocks :=
    fun x hx => hx.carry (mem_of_head? he) fun y z _ hy hz _ => hclosed y hy z hz
  constructor
  · exact fun h => h.mono fun x hx => by simpa using (mem_filter.1 hx).2
  · exact fun h => h.within fun x hx => mem_filter.2 ⟨hin x hx, by simpa using hx.ok_end⟩

theorem mem_dominators : d ∈ m.dominators f b ↔
    d ∈ (m.func f).blocks ∧ Dominates m.successors e d b := by
  unfold dominators Dominates
  rw [mem_filter, ← mem_reachWithout he hclosed]
  simp

theorem dominatorTable_has : DominatorTable.has (m.dominatorTable f) d (some b) = true ↔
      b ∈ (m.func f).blocks ∧ d ∈ (m.func f).blocks ∧ Dominates m.successors e d b := by
  rw [← mem_dominators he hclosed, dominatorTable_eq]
  unfold DominatorTable.has
  generalize (m.func f).blocks = l
  induction l with
  | nil => simp
  | cons a l ih =>
    by_cases ha : a = b
    · simp [ha]
    · simpa [ha, Ne.symm ha] using ih

end

/-! ## Operands -/

theorem operandDefect?_instr :
    m.operandDefect? f (.instr j) = none ↔
      ∃ h, (m.instr j).parent = some h ∧ (m.block h).parent = some f ∧
        (m.instr j).ty.isVoid = false := by
  unfold operandDefect?
  cases hp : (m.instr j).parent with
  | none => simp [hp]
  | some h => by_cases hf : (m.block h).parent = some f <;> simp [hp, hf]

variable {m' : Module} {g : FuncId} {v : Value}

theorem Edited.operandDefect? (hm : Edited g m m') (hv : m.operandDefect? f v = none)
    (hstay : ∀ j h, v = .instr j → (m.instr j).parent = some h → (m.block h).parent = some f → ∃
      h', (m'.instr j).parent = some h' ∧ (m'.block h').parent = some f) :
    m'.operandDefect? f v = none := by
  cases v with
  | instr j =>
    obtain ⟨h, hp, hh, hty⟩ := operandDefect?_instr.1 hv
    obtain ⟨h', hp', hh'⟩ := hstay j h rfl hp hh
    exact operandDefect?_instr.2 ⟨h', hp', hh', by rw [hm.ty]; exact hty⟩
  | param | int | float | null | undef | address | block | missing => exact hv
  | global k | string k =>
    simp only [operandDefect?, hm.globals, hm.global] at hv ⊢
    exact hv
  | func k =>
    simp only [operandDefect?, hm.owned] at hv ⊢
    split at hv
    · rename_i ho
      rw [if_pos ho]
    · cases hv

variable {doms : DominatorTable} {k : Nat} {vs : List Value}

theorem operandsDefects_eq_nil :
    m.operandsDefects f doms b i k vs = .ok [] ↔
      ∀ n v, vs[n]? = some v → m.operandDefects f doms b i (k + n) v = .ok [] := by
  induction vs generalizing k with
  | nil => simp [operandsDefects]
  | cons v vs ih =>
    have hall : (∀ n w, (v :: vs)[n]? = some w → m.operandDefects f doms b i (k + n) w = .ok []) ↔
        m.operandDefects f doms b i k v = .ok [] ∧
          ∀ n w, vs[n]? = some w → m.operandDefects f doms b i (k + 1 + n) w = .ok [] := by
      constructor
      · intro h
        refine ⟨h 0 v rfl, fun n w hw => ?_⟩
        rw [Nat.add_assoc, Nat.add_comm 1 n]
        exact h (n + 1) w hw
      · rintro ⟨h0, h⟩ n w hw
        cases n with
        | zero =>
          cases hw
          exact h0
        | succ n =>
          rw [Nat.add_comm n 1, ← Nat.add_assoc]
          exact h n w hw
    rw [hall, ← ih]
    simp only [operandsDefects]
    cases hv : m.operandDefects f doms b i k v with
    | error => simp [bind, Except.bind]
    | ok first =>
      cases hvs : m.operandsDefects f doms b i (k + 1) vs with
      | error => simp [bind, Except.bind]
      | ok more => simp [bind, Except.bind]

theorem operandDefects_eq_nil :
    m.operandDefects f doms b i k v = .ok [] ↔
      m.operandDefect? f v = none ∧ ∀ j h, v = .instr j → (m.instr j).parent = some h →
        if (m.instr i).op = .phi then
          ∃ use, (m.instr i).blocks[k]? = some use ∧ doms.has h use = true
        else if h = b then m.precedes b j i = true
        else doms.has h (some b) = true := by
  unfold operandDefects
  cases hv : m.operandDefect? f v with
  | some d => simp
  | none =>
    cases v with
    | instr j =>
      obtain ⟨h, hp, -⟩ := operandDefect?_instr.1 hv
      have hall : ∀ p : InstrId → BlockId → Prop,
          (∀ j' h', Value.instr j = .instr j' → (m.instr j').parent = some h' → p j' h') ↔
            p j h := by
        intro p
        constructor
        · exact fun hall => hall j h rfl hp
        rintro hj j' h' ⟨⟩ hp'
        cases hp.symm.trans hp'
        exact hj
      rw [hall]
      simp only [hp, Option.getD_some, true_and]
      split
      · split
        · rename_i hnone
          simp [hnone]
        · rename_i huse
          simp [huse, findingIf_eq_nil]
      · split <;> simp [findingIf_eq_nil]
    | _ => simp

theorem checkInstr_eq_nil :
    m.checkInstr f doms b i = .ok [] ↔
      (∀ n v, (m.instr i).operands[n]? = some v → m.operandDefects f doms b i n v = .ok []) ∧
        m.instrDefect? f (m.instr i) (m.predecessors f b) = .ok none := by
  have hops : m.operandsDefects f doms b i 0 (m.instr i).operands = .ok [] ↔ _ :=
    operandsDefects_eq_nil
  simp only [Nat.zero_add] at hops
  rw [← hops]
  unfold checkInstr
  cases ho : m.operandsDefects f doms b i 0 (m.instr i).operands with
  | error => simp [bind, Except.bind]
  | ok operands =>
    cases hd : m.instrDefect? f (m.instr i) (m.predecessors f b) with
    | error => simp [bind, Except.bind]
    | ok own => cases own <;> simp [bind, Except.bind]

/-! ## Instructions -/

theorem operandType_eq_ok {t : Ty} : m.operandType v = .ok t ↔ v ≠ .missing ∧ m.typeOf v = t := by
  cases v <;> simp [operandType]

/-- An operand as the rules for instructions see it: they look at its type only. -/
structure SeenAs (m m' : Module) (v v' : Value) : Prop where
  operand : m'.operandType v' = m.operandType v
  shaped : m'.shapedType v' = m.shapedType v

theorem SeenAs.of_type {v' : Value} (ht : m'.typeOf v' = m.typeOf v)
    (hv : v = .missing ↔ v' = .missing) : SeenAs m m' v v' := by
  constructor
  · by_cases h : v = .missing
    · rw [hv.1 h, h]
      rfl
    · rw [operandType_eq_ok.2 ⟨h, rfl⟩, operandType_eq_ok]
      exact ⟨fun h' => h (hv.2 h'), ht⟩
  · unfold shapedType
    rw [ht]

section Congruence

variable {m' : Module} {g : Value → Value}

theorem argumentDefect?_congr {callee callee' : String} {k : Nat} {vs : List Value} {ts : List Ty}
    (hg : ∀ v ∈ vs, SeenAs m m' v (g v)) (hok : m.argumentDefect? callee k vs ts = .ok none) :
    m'.argumentDefect? callee' k (vs.map g) ts = .ok none := by
  induction vs generalizing k ts with
  | nil => simp [argumentDefect?]
  | cons v vs ih =>
    cases ts with
    | nil => simp [argumentDefect?]
    | cons t ts =>
      rw [forall_mem_cons] at hg
      simp only [argumentDefect?, map_cons, hg.1.operand] at hok ⊢
      cases hv : m.operandType v with
      | error => simp [hv, bind, Except.bind] at hok
      | ok got =>
        simp only [hv, bind, Except.bind] at hok ⊢
        split at hok
        · rename_i ht
          rw [if_pos ht]
          exact ih hg.2 hok
        · cases hok

theorem callDefect?_congr {x x' : Instr} (hm : Edited f m m') (hc : x'.callee = x.callee)
    (ht : x'.ty = x.ty) (ho : x'.operands = x.operands.map g)
    (hg : ∀ v ∈ x.operands, SeenAs m m' v (g v)) (hok : m.callDefect? x = .ok none) :
    m'.callDefect? x' = .ok none := by
  unfold callDefect? at hok ⊢
  rw [hc, ho, ht]
  cases hcall : x.callee with
  | none => simp [hcall] at hok
  | some c =>
    simp only [hcall, hm.owned, hm.proto, length_map] at hok ⊢
    split at hok
    · cases hok
    rename_i howned
    rw [if_neg howned]
    split at hok
    · cases hok
    rename_i hlen
    rw [if_neg hlen]
    cases ha : m.argumentDefect? (m.func c).name 0 x.operands (m.func c).proto.params with
    | error => simp [ha, bind, Except.bind] at hok
    | ok d =>
      cases d with
      | some d => simp [ha, bind, Except.bind] at hok
      | none =>
        rw [argumentDefect?_congr hg ha]
        simp only [ha, bind, Except.bind] at hok ⊢
        split at hok
        · rename_i hret
          rw [if_pos hret]
        · cases hok

theorem retDefect?_congr {ret : Ty} {vs : List Value} (hg : ∀ v ∈ vs, SeenAs m m' v (g v))
    (hok : m.retDefect? ret vs = .ok none) : m'.retDefect? ret (vs.map g) = .ok none := by
  unfold retDefect? at hok ⊢
  split at hok
  · rename_i hv
    rw [if_pos hv]
    simpa using hok
  · rename_i hv
    rw [if_neg hv]
    match vs, hg, hok with
    | [v], hg, hok =>
      simp only [map_cons, map_nil, (hg v (by simp)).operand]
      exact hok

/-- What is right about an instruction other than a phi stays right when its operands are seen as
before. -/
theorem sameTypes_congr (d : InstrDefect) (hg : ∀ v ∈ vs, SeenAs m m' v (g v))
    (hok : (match vs with
      | [a, b] => do
        let s ← m.operandType a
        let t ← m.operandType b
        Except.ok (if s = t then none else some d)
      | _ => .ok (some d)) = .ok none) :
    (match vs.map g with
      | [a, b] => do
        let s ← m'.operandType a
        let t ← m'.operandType b
        Except.ok (if s = t then none else some d)
      | _ => .ok (some d)) = .ok none := by
  rcases vs with _ | ⟨a, _ | ⟨b, _ | ⟨c, vs⟩⟩⟩
  case cons.cons.nil =>
    simp only [map_cons, map_nil, (hg a (by simp)).operand, (hg b (by simp)).operand]
    exact hok
  all_goals exact hok

theorem instrDefect?_congr {x y : Instr} {preds preds' : List BlockId} (hm : Edited f m m')
    (hop : y.op = x.op) (hphi : x.op ≠ .phi) (hc : y.callee = x.callee) (ht : y.ty = x.ty)
    (hb : y.blocks.length = x.blocks.length) (ho : y.operands = x.operands.map g)
    (hg : ∀ v ∈ x.operands, SeenAs m m' v (g v)) {h : FuncId}
    (hok : m.instrDefect? h x preds = .ok none) : m'.instrDefect? h y preds' = .ok none := by
  unfold instrDefect? at hok ⊢
  rw [hop, ho, hb, hm.proto]
  cases hx : x.op
  case phi => exact absurd hx hphi
  case call =>
    rw [hx] at hok
    exact callDefect?_congr hm hc ht ho hg hok
  case ret =>
    rw [hx] at hok
    exact retDefect?_congr hg hok
  case br =>
    rw [hx] at hok
    exact hok
  case condBr =>
    rw [hx] at hok
    rcases hvs : x.operands with _ | ⟨v, _ | ⟨a, vs⟩⟩ <;> rw [hvs] at hok hg
    · cases hok
    · simp only [map_cons, map_nil, (hg v (by simp)).operand]
      exact hok
    · cases hok
  case select =>
    rw [hx] at hok
    rcases hvs : x.operands with _ | ⟨c, _ | ⟨a, _ | ⟨b, _ | ⟨d, vs⟩⟩⟩⟩ <;> rw [hvs] at hok hg
    case cons.cons.cons.nil =>
      simp only [map_cons, map_nil, (hg a (by simp)).operand,
        (hg b (by simp)).operand, (hg c (by simp)).operand]
      exact hok
    all_goals cases hok
  case load =>
    rw [hx] at hok
    rcases hvs : x.operands with _ | ⟨p, _ | ⟨a, vs⟩⟩ <;> rw [hvs] at hok hg
    · cases hok
    · simp only [map_cons, map_nil, (hg p (by simp)).shaped]
      exact hok
    · cases hok
  case store =>
    rw [hx] at hok
    rcases hvs : x.operands with _ | ⟨v, _ | ⟨p, _ | ⟨a, vs⟩⟩⟩ <;> rw [hvs] at hok hg
    case cons.cons.nil =>
      simp only [map_cons, map_nil, (hg v (by simp)).operand,
        (hg p (by simp)).shaped]
      exact hok
    all_goals cases hok
  case xor | and | or | icmp | fadd | fsub | fmul | fdiv =>
    rw [hx] at hok
    exact sameTypes_congr _ hg hok
  all_goals rfl

theorem Edited.instrDefect? {x : Instr} {preds preds' : List BlockId} (hm : Edited f m m')
    (hphi : x.op ≠ .phi) {bs : List (Option BlockId)} (hb : bs.length = x.blocks.length)
    {p : Option BlockId} {h : FuncId} (hok : m.instrDefect? h x preds = .ok none) :
    m'.instrDefect? h { x with blocks := bs, parent := p } preds' = .ok none :=
  instrDefect?_congr (x := x) (y := { x with blocks := bs, parent := p }) hm rfl hphi rfl rfl hb
    (map_id _).symm (fun v _ => .of_type (hm.typeOf v) Iff.rfl) hok

end Congruence

/-! ## Phis -/

/-- What the verifier asks of a phi: it has as many values as blocks and as there are predecessors. -/
structure PhiFits (m : Module) (x : Instr) (preds : List BlockId) : Prop where
  length : x.operands.length = x.blocks.length
  count : x.blocks.length = preds.length
  blocks : ∀ b ∈ x.blocks, b ∈ preds.map some
  types : ∀ v ∈ x.operands, m.operandType v = .ok x.ty

/-- A phi takes one value of its type from each of the predecessors. -/
structure PhiOk (m : Module) (x : Instr) (preds : List BlockId) : Prop where
  length : x.operands.length = x.blocks.length
  blocks : x.blocks.Perm (preds.map some)
  types : ∀ v ∈ x.operands, m.operandType v = .ok x.ty

theorem Edited.operandType (hm : Edited g m m') (v : Value) : m'.operandType v = m.operandType v :=
  (SeenAs.of_type (hm.typeOf v) Iff.rfl).operand

variable {x : Instr} {preds : List BlockId}

theorem PhiOk.edited (h : PhiOk m x preds) (hm : Edited g m m') : PhiOk m' x preds :=
  ⟨h.length, h.blocks, fun v hv => by rw [hm.operandType]; exact h.types v hv⟩

theorem PhiOk.entry (h : PhiOk m x preds) (hb : b ∈ preds) :
    ∃ v, (v, some b) ∈ x.operands.zip x.blocks := by
  obtain ⟨n, hn⟩ := getElem?_of_mem (h.blocks.mem_iff.2 (mem_map_of_mem hb))
  have hlt : n < x.operands.length := by
    rw [h.length]
    exact (List.getElem?_eq_some_iff.1 hn).1
  exact ⟨_, mem_of_getElem? (getElem?_zip_eq_some.2
    ⟨getElem?_eq_getElem hlt, hn⟩)⟩

theorem incomingDefect?_eq_none {ty : Ty} {bs : List (Option BlockId)}
    (hlen : vs.length = bs.length) :
    m.incomingDefect? ty preds vs bs = .ok none ↔
      (∀ b ∈ bs, b ∈ preds.map some) ∧ ∀ v ∈ vs, m.operandType v = .ok ty := by
  induction vs generalizing bs with
  | nil =>
    cases bs with
    | nil => simp [incomingDefect?]
    | cons b bs => cases hlen
  | cons v vs ih =>
    cases bs with
    | nil => cases hlen
    | cons b bs =>
      cases b with
      | none => simp [incomingDefect?]
      | some b =>
        rw [forall_mem_cons, forall_mem_cons]
        simp only [incomingDefect?]
        by_cases hb : b ∈ preds
        · cases hv : m.operandType v with
          | error => simp [hb, bind, Except.bind]
          | ok got =>
            by_cases ht : got = ty
            · simp [hb, ht, bind, Except.bind, ih (Nat.succ.inj hlen)]
            · simp [hb, ht, bind, Except.bind]
        · simp [hb]

theorem instrDefect?_phi (hop : x.op = .phi) :
    m.instrDefect? f x preds = .ok none ↔ PhiFits m x preds := by
  unfold instrDefect? phiDefect?
  rw [hop]
  by_cases hlen : x.operands.length = x.blocks.length
  · by_cases hcount : x.blocks.length = preds.length
    · simp only [hlen, hcount, ne_eq, not_true_eq_false, if_false, incomingDefect?_eq_none hlen]
      exact ⟨fun h => ⟨hlen, hcount, h.1, h.2⟩, fun h => ⟨h.blocks, h.types⟩⟩
    · simp only [hlen, hcount, ne_eq, not_true_eq_false, not_false_eq_true, if_false, if_true]
      exact ⟨(nomatch ·), fun h => absurd h.count hcount⟩
  · simp only [hlen, ne_eq, not_false_eq_true, if_true]
    exact ⟨(nomatch ·), fun h => absurd h.length hlen⟩

theorem PhiFits.use (h : PhiFits m x preds) {n : Nat} (hn : x.operands[n]? = some v) :
    ∃ u ∈ preds, x.blocks[n]? = some (some u) := by
  have hlt : n < x.blocks.length := by
    rw [← h.length]
    exact (List.getElem?_eq_some_iff.1 hn).1
  have huse := getElem?_eq_getElem hlt
  obtain ⟨u, hu, hub⟩ := mem_map.1 (h.blocks _ (mem_of_getElem? huse))
  exact ⟨u, hu, by rw [huse, hub]⟩

theorem PhiFits.source (h : PhiFits m x preds) (hv : (v, some b) ∈ x.operands.zip x.blocks) :
    b ∈ preds := by
  obtain ⟨b', hb, ⟨⟩⟩ := mem_map.1 (h.blocks _ (of_mem_zip hv).2)
  exact hb

theorem PhiFits.ok (h : PhiFits m x preds) (hnd : x.blocks.Nodup) : PhiOk m x preds :=
  ⟨h.length, (subperm_of_subset hnd h.blocks).perm_of_length_le (by simp [h.count]), h.types⟩

theorem PhiOk.fits (h : PhiOk m x preds) : PhiFits m x preds :=
  ⟨h.length, by rw [h.blocks.length_eq, length_map], fun _ hb => h.blocks.mem_iff.1 hb, h.types⟩

end Module

end Qirc.IR
