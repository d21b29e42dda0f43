import Qirc.Proofs.IR.Branches.Operands
import Qirc.Proofs.IR.Scopes

/-!
# The places of a run

A run starts at the entry with arguments of their types and goes on with whatever the world answers
of the type that was asked for. At all its places what the registers hold is of the type of the
instruction, and a computed result is what its instruction computes from the values that its operands
have now.
-/

namespace Qirc.IR

open List

def Datum.Fits (d : Datum) (t : Ty) : Prop := ∀ w n, d = .int w n → t = .int w

namespace Datum

variable {a b : Datum} {w : Nat} {n : BitVec w}

theorem bitwise_int {op : (w : Nat) → BitVec w → BitVec w → BitVec w}
    (h : bitwise op a b = .int w n) : ∃ x y, a = .int w x ∧ b = .int w y ∧ n = op w x y := by
  unfold bitwise at h
  split at h
  · split at h
    · rename_i hw
      subst hw
      cases h
      exact ⟨_, _, rfl, rfl, rfl⟩
    · cases h
  · cases h

theorem compare_int {relation : String} (h : compare relation a b = .int w n) :
    ∃ u x y t, a = .int u x ∧ b = .int u y ∧ holds relation x y = some t ∧
      Datum.int w n = bool t := by
  unfold compare at h
  split at h
  · split at h
    · rename_i hw
      subst hw
      rename_i y x
      cases ht : holds relation x (y.cast rfl) with
      | none =>
        rw [ht] at h
        cases h
      | some t =>
        rw [ht] at h
        exact ⟨_, _, _, t, rfl, rfl, ht, h.symm⟩
    · cases h
  · cases h

theorem resize_int {bits : Nat} (h : resize bits a = .int w n) :
    ∃ u x, a = .int u x ∧ Datum.int w n = .int bits (x.setWidth bits) := by
  cases a with
  | int u x => exact ⟨u, x, rfl, h.symm⟩
  | _ => cases h

theorem arithmetic_ne_int {op : Float → Float → Float} : arithmetic op a b ≠ .int w n := by
  unfold arithmetic
  split <;> exact fun h => nomatch h

theorem negate_ne_int : negate a ≠ .int w n := by
  unfold negate
  split <;> exact fun h => nomatch h

theorem toDouble_ne_int : toDouble a ≠ .int w n := by
  unfold toDouble
  split <;> exact fun h => nomatch h

end Datum

def Request.Accepts (m : Module) : Request → Datum → Prop
  | .call f _, d => d.Fits (m.func f).proto.ret
  | .load _ t, d => d.Fits t
  | .alloca t, d => d.Fits (.ptr t)
  | .store _ _, _ => True

/-- The operands and the type that an instruction was built with. -/
def Instr.AsBuilt (m : Module) (x : Instr) : Prop :=
  match x.op with
  | .ret | .br | .condBr => x.ty = .void
  | .trunc | .zext | .sitofp | .fneg => ∃ v, x.operands = [v]
  | .xor | .and | .or | .fadd | .fsub | .fmul | .fdiv =>
    ∃ v w, x.operands = [v, w] ∧ x.ty = m.typeOf v
  | .icmp => ∃ v w, x.operands = [v, w] ∧ x.ty = .i1
  | .select => ∃ c v w, x.operands = [c, v, w] ∧ x.ty = m.typeOf v
  | .alloca => x.ty = .ptr x.elem
  | .call => ∀ g, x.callee = some g → x.ty = (m.func g).proto.ret
  | _ => True

theorem Instr.Built.asBuilt {m : Module} {x : Instr} (h : x.Built m) : x.AsBuilt m := by
  induction h with
  | call g args =>
    rintro g' ⟨⟩
    rfl
  | ret | retVoid | br | condBr => rfl
  | phi | load | store => trivial
  | cast hop v ty =>
    simp only [mem_cons, not_mem_nil, or_false] at hop
    obtain rfl | rfl | rfl := hop <;> exact ⟨v, rfl⟩
  | binary hop v w =>
    simp only [mem_cons, not_mem_nil, or_false] at hop
    obtain rfl | rfl | rfl | rfl | rfl | rfl | rfl := hop <;> exact ⟨v, w, rfl, rfl⟩
  | fneg v => exact ⟨v, rfl⟩
  | icmp _ v w => exact ⟨v, w, rfl, rfl⟩
  | select c v w => exact ⟨c, v, w, rfl, rfl⟩
  | alloca => rfl
  | placed _ _ _ ih => exact ih

namespace Module

section Definitions

variable (m : Module) (f : FuncId) (args : List Datum)

def ArgsFit : Prop := ∀ k, (args.getD k .undefined).Fits (m.typeOf (.param f k))

/-- Control can go on: along an edge that is served, and behind a selection that was made by an
integer. -/
structure Passes (fr next : Frame) : Prop where
  served : ∀ i rest, fr.rest = i :: rest → (m.instr i).op.isTerminator = true →
    next.block ∈ m.served fr.block
  decided : ∀ i rest, fr.rest = i :: rest → (m.instr i).op = .select →
    ∃ w n, ((m.instr i).operands.map (m.eval args fr.regs)).head? = some (.int w n)

inductive Visits : Frame → Prop
  | start {fr : Frame} (h : m.start? f = some fr) : Visits fr
  | silent {fr next : Frame} (h : Visits fr) (hact : m.act args fr = .silent next)
      (hpass : m.Passes args fr next) : Visits next
  | ask {fr : Frame} {r : Request} {next : Datum → Frame} {d : Datum} (h : Visits fr)
      (hact : m.act args fr = .ask r next) (hd : r.Accepts m d) : Visits (next d)

inductive Turn (fr : Frame) : Frame → Prop
  | compute {i : InstrId} {rest : List InstrId} (hr : fr.rest = i :: rest)
      (hop : (m.instr i).op.computes = true)
      (hdecided : (m.instr i).op = .select →
        ∃ w n, ((m.instr i).operands.map (m.eval args fr.regs)).head? = some (.int w n)) :
      Turn fr ⟨fr.block, rest,
        fr.regs.set i ((m.instr i).compute ((m.instr i).operands.map (m.eval args fr.regs)))⟩
  | answer {i : InstrId} {rest : List InstrId} {d : Datum} (hr : fr.rest = i :: rest)
      (hop : (m.instr i).op = .call ∨ (m.instr i).op = .load ∨ (m.instr i).op = .alloca)
      (hd : d.Fits (m.instr i).ty) : Turn fr ⟨fr.block, rest, fr.regs.set i d⟩
  | store {i : InstrId} {rest : List InstrId} (hr : fr.rest = i :: rest)
      (hop : (m.instr i).op = .store) : Turn fr ⟨fr.block, rest, fr.regs⟩
  | enter {t : InstrId} {rest : List InstrId} {c : BlockId} (hr : fr.rest = t :: rest)
      (ht : (m.instr t).op.isTerminator = true) (hc : c ∈ m.served fr.block) :
      Turn fr (m.enter args fr.regs fr.block c)

end Definitions

variable {m : Module} {f : FuncId} {e b c : BlockId} {i j : InstrId} {fr next : Frame}
  {rest : List InstrId} {args : List Datum} {regs : Registers} {v : Value}

/-! ## Steps -/

theorem Turn.of_silent (hact : m.act args fr = .silent next) (hpass : m.Passes args fr next) :
    m.Turn args fr next := by
  cases hr : fr.rest with
  | nil => simp [act, hr] at hact
  | cons i rest =>
    have hjump : ∀ {o : Option BlockId}, (m.instr i).op.isTerminator = true →
        m.jump args fr o = .silent next → m.Turn args fr next := by
      intro o ht hjump
      cases o with
      | none => cases hjump
      | some c =>
        cases hjump
        exact .enter hr ht (hpass.served i rest hr ht)
    by_cases hop : (m.instr i).op.computes = true
    · rw [act_compute hr hop] at hact
      cases hact
      exact .compute hr hop (hpass.decided i rest hr)
    · unfold Opcode.computes at hop
      split at hop
      case h_1 h => rw [act_ret hr h] at hact; cases hact
      case h_2 h => rw [act_br hr h] at hact; exact hjump (by rw [h]; rfl) hact
      case h_3 h => rw [act_condBr hr h] at hact; exact hjump (by rw [h]; rfl) hact
      case h_4 h => simp [act, hr, h] at hact
      case h_5 h =>
        cases hc : (m.instr i).callee <;> simp [act, hr, h, hc] at hact
      case h_6 h => simp [act, hr, h] at hact
      case h_7 h => simp [act, hr, h] at hact
      case h_8 h => simp [act, hr, h] at hact
      case h_9 => exact absurd rfl hop

theorem Turn.of_ask {r : Request} {ask : Datum → Frame} {d : Datum}
    (hbuilt : ∀ i rest, fr.rest = i :: rest → (m.instr i).AsBuilt m)
    (hact : m.act args fr = .ask r ask) (hd : r.Accepts m d) : m.Turn args fr (ask d) := by
  cases hr : fr.rest with
  | nil => simp [act, hr] at hact
  | cons i rest =>
    have hbuilt := hbuilt i rest hr
    unfold Instr.AsBuilt at hbuilt
    have hjump : ∀ {o : Option BlockId}, m.jump args fr o ≠ .ask r ask := by
      intro o h
      cases o <;> cases h
    cases hop : (m.instr i).op with
    | ret => rw [act_ret hr hop] at hact; cases hact
    | br => exact absurd (act_br hr hop ▸ hact) hjump
    | condBr => exact absurd (act_condBr hr hop ▸ hact) hjump
    | phi => simp [act, hr, hop] at hact
    | call =>
      rw [hop] at hbuilt
      cases hc : (m.instr i).callee with
      | none => simp [act, hr, hop, hc] at hact
      | some g =>
        rw [act_call hr hop hc] at hact
        cases hact
        refine .answer hr (.inl hop) ?_
        rw [hbuilt g hc]
        exact hd
    | load =>
      simp only [act, hr, hop, Action.ask.injEq] at hact
      obtain ⟨rfl, rfl⟩ := hact
      exact .answer hr (.inr (.inl hop)) hd
    | alloca =>
      rw [hop] at hbuilt
      simp only [act, hr, hop, Action.ask.injEq] at hact
      obtain ⟨rfl, rfl⟩ := hact
      refine .answer hr (.inr (.inr hop)) ?_
      rw [hbuilt]
      exact hd
    | store =>
      simp only [act, hr, hop, Action.ask.injEq] at hact
      obtain ⟨rfl, rfl⟩ := hact
      exact .store hr hop
    | _ =>
      rw [act_compute hr (by rw [hop]; rfl)] at hact
      cases hact

theorem Turn.placed (hp : m.Placed e fr) (h : m.Turn args fr next) : m.Placed e next := by
  cases h with
  | compute hr => exact hp.step hr
  | answer hr => exact hp.step hr
  | store hr => exact hp.step hr
  | enter _ _ hc => exact hp.enter hc

theorem Settled.block (hl : m.Linked) (hp : m.Placed e fr) (hj : m.Settled e j fr) :
    ∃ b, j ∈ (m.block b).instrs ∧ Reached m.served e b := by
  obtain ⟨b, hb, ⟨rfl, -⟩ | ⟨-, hd⟩⟩ := hj
  · exact ⟨_, (hl.instr _ _).2 hb, hp.reached⟩
  · exact ⟨b, (hl.instr _ _).2 hb, hd.reached hp.reached⟩

theorem Prior.eval_set (hl : m.Linked) (hv : m.Prior e v j) (d : Datum) :
    m.eval args (regs.set j d) v = m.eval args regs v := by
  refine eval_congr (fun _ => rfl) v fun k hk => if_neg ?_
  rintro rfl
  exact Before.irrefl hl (hv k hk)

section Runs

variable (hl : m.Linked) (ha : m.Admitted f e) (hbuilt : ∀ i ∈ m.body f, (m.instr i).AsBuilt m)

include hl ha

theorem Admitted.prior (hb : b ∈ (m.func f).blocks) (hi : i ∈ (m.block b).instrs)
    (hop : (m.instr i).op ≠ .phi) (hv : v ∈ (m.instr i).operands) : m.Prior e v i :=
  fun _ hk => ha.before hl hb hi hop (hk ▸ hv)

include hbuilt

theorem Visits.induct {P : Frame → Prop} (hstart : P ⟨e, m.code e, .empty⟩)
    (hturn : ∀ fr next, m.Visits f args fr → m.Placed e fr → P fr → m.Turn args fr next → P next)
    (h : m.Visits f args fr) : m.Placed e fr ∧ P fr := by
  induction h with
  | start h =>
    unfold start? at h
    rw [ha.entry] at h
    cases h
    exact ⟨.start m e _, hstart⟩
  | silent h hact hpass ih =>
    have hstep := Turn.of_silent hact hpass
    exact ⟨hstep.placed ih.1, hturn _ _ h ih.1 ih.2 hstep⟩
  | ask h hact hd ih =>
    have hstep := Turn.of_ask (fun i rest hr => hbuilt i (hl.mem_body_of_mem
      (ha.mem_of_reached ih.1.reached)
      (mem_of_ahead ih.1.ahead hr))) hact hd
    exact ⟨hstep.placed ih.1, hturn _ _ h ih.1 ih.2 hstep⟩

theorem Visits.placed (h : m.Visits f args fr) : m.Placed e fr :=
  (h.induct hl ha hbuilt (P := fun _ => True) trivial fun _ _ _ _ _ _ => trivial).1

/-! ## What was computed -/

/-- The registers hold what an instruction computes from what they hold. -/
structure Computed (m : Module) (args : List Datum) (regs : Registers) (j : InstrId) : Prop where
  eq : regs j = (m.instr j).compute ((m.instr j).operands.map (m.eval args regs))
  decided : (m.instr j).op = .select →
    ∃ w n, ((m.instr j).operands.map (m.eval args regs)).head? = some (.int w n)

omit hl ha hbuilt in
theorem Computed.congr {regs' : Registers} (h : m.Computed args regs j) (hj : regs' j = regs j)
    (hops : ∀ v ∈ (m.instr j).operands, m.eval args regs' v = m.eval args regs v) :
    m.Computed args regs' j := by
  have hmap := map_congr_left hops
  exact ⟨by rw [hj, hmap]; exact h.eq, by rw [hmap]; exact h.decided⟩

theorem Visits.computed (h : m.Visits f args fr) (hj : m.Settled e j fr)
    (hop : (m.instr j).op.computes = true) : m.Computed args fr.regs j := by
  refine (h.induct hl ha hbuilt (P := fun fr => ∀ j, m.Settled e j fr →
    (m.instr j).op.computes = true → m.Computed args fr.regs j) ?_ ?_).2 j hj hop
  · intro j hj hop
    -- Only the phis of the entry have been run.
    obtain ⟨b', hb', ⟨rfl, hahead⟩ | ⟨hne, hd⟩⟩ := hj
    · have hphi := op_of_mem_phis ((mem_phis_or_code ((hl.instr _ j).2 hb')).resolve_right hahead)
      rw [hphi] at hop
      cases hop
    · exact absurd hd.eq_entry hne
  · intro fr next _ hp ih hturn j hj hop
    obtain ⟨hphi, hterm⟩ := Opcode.plain_of_computes hop
    have hprior : ∀ v ∈ (m.instr j).operands, m.Prior e v j := by
      obtain ⟨b, hjb, hb⟩ := hj.block hl (hturn.placed hp)
      exact fun v hv => ha.prior hl (ha.mem_of_reached hb) hjb hphi hv
    -- A step that runs another instruction changes neither the result nor the operands.
    have hother : ∀ {i rest regs'}, fr.rest = i :: rest → (∀ k, k ≠ i → regs' k = fr.regs k) →
        m.Settled e j ⟨fr.block, rest, regs'⟩ → j ≠ i → m.Computed args regs' j := by
      intro i rest regs' hr hregs hj hne
      obtain ⟨hj', hreg, heval⟩ := hj.of_step args hl hp hr hregs hne
      exact (ih j hj' hop).congr hreg fun v hv => heval v (hprior v hv)
    have hset : ∀ (i : InstrId) (d : Datum) k, k ≠ i → fr.regs.set i d k = fr.regs k :=
      fun i d k hk => if_neg hk
    cases hturn with
    | @compute i rest hr hopi hdecided =>
      by_cases hji : j = i
      · subst hji
        have hops : ∀ d, (m.instr j).operands.map (m.eval args (fr.regs.set j d)) =
            (m.instr j).operands.map (m.eval args fr.regs) :=
          fun d => map_congr_left fun v hv => (hprior v hv).eval_set hl d
        constructor
        · rw [hops]
          exact if_pos rfl
        · rw [hops]
          exact hdecided
      · exact hother hr (hset i _) hj hji
    | @answer i rest d hr hopi hd =>
      refine hother hr (hset i d) hj ?_
      rintro rfl
      obtain h | h | h := hopi <;> (rw [h] at hop; cases hop)
    | @store i rest hr hopi =>
      refine hother hr (fun _ _ => rfl) hj ?_
      rintro rfl
      rw [hopi] at hop
      cases hop
    | @enter t rest c hr ht hc =>
      obtain ⟨hj', hreg, heval⟩ := hj.of_enter hl ha hp hr ht hc
        (ne_of_terminator ht hterm) fun hmem => hphi (op_of_mem_phis hmem)
      exact (ih j hj' hop).congr hreg fun v hv => heval v (hprior v hv)

end Runs

/-! ## Types of what is in the registers -/

theorem eval_fits (hregs : ∀ j, (regs j).Fits (m.instr j).ty) (hargs : m.ArgsFit f args)
    (hv : m.operandDefect? f v = none) (hconst : ∀ t n, v = .int t n → ∃ w, t = .int w) :
    (m.eval args regs v).Fits (m.typeOf v) := by
  intro w n h
  cases v with
  | int t k =>
    obtain ⟨u, rfl⟩ := hconst t k rfl
    cases h
    rfl
  | param g k =>
    simp only [operandDefect?, beq_iff_eq, ite_eq_left_iff, reduceCtorEq, imp_false, not_not] at hv
    subst hv
    exact hargs k w n h
  | instr j => exact hregs j w n h
  | _ => cases h

namespace Admitted

variable (ha : m.Admitted f e)

include ha

variable (hb : b ∈ (m.func f).blocks) (hi : i ∈ (m.block b).instrs)

include hb hi

theorem phi_types (hop : (m.instr i).op = .phi) (hv : v ∈ (m.instr i).operands) :
    m.typeOf v = (m.instr i).ty := by
  exact (operandType_eq_ok.1 ((ha.phis b hb i hi hop).types v hv)).2

theorem select_types {x y z : Value}
    (hop : (m.instr i).op = .select) (hops : (m.instr i).operands = [x, y, z]) :
    (m.typeOf x).isInt 1 = true ∧ m.typeOf z = m.typeOf y := by
  have htype : ∀ v ∈ [x, y, z], m.operandType v = .ok (m.typeOf v) := by
    intro v hv
    refine operandType_eq_ok.2 ⟨?_, rfl⟩
    rintro rfl
    cases ha.given b hb i hi _ (hops ▸ hv)
  have h := ha.typed b hb i hi (by simp [hop])
  unfold instrDefect? at h
  rw [hop, hops] at h
  simp only [htype x (by simp), htype y (by simp), htype z (by simp), bind, Except.bind] at h
  split at h
  · cases h
  rename_i hx
  split at h
  · rename_i hyz
    exact ⟨by simpa using hx, hyz.symm⟩
  · cases h

end Admitted

theorem compute_fits {x : Instr} (hx : x.AsBuilt m)
    (hops : ∀ v ∈ x.operands, (m.eval args regs v).Fits (m.typeOf v))
    (hcast : x.op = .trunc ∨ x.op = .zext → ∃ w, x.ty = .int w)
    (hselect : x.op = .select → ∀ c y z, x.operands = [c, y, z] → m.typeOf z = m.typeOf y) :
    (x.compute (x.operands.map (m.eval args regs))).Fits x.ty := by
  intro w n h
  unfold Instr.AsBuilt at hx
  unfold Instr.compute at h
  cases hop : x.op with
  | xor | and | or =>
    rw [hop] at hx h
    obtain ⟨y, z, hyz, hty⟩ := hx
    rw [hyz] at h hops
    obtain ⟨p, q, hp, -⟩ := Datum.bitwise_int h
    rw [hty]
    exact hops y (by simp) w p hp
  | icmp =>
    rw [hop] at hx h
    obtain ⟨y, z, hyz, hty⟩ := hx
    rw [hyz] at h
    obtain ⟨_, _, _, _, -, -, -, hbool⟩ := Datum.compare_int h
    cases hbool
    exact hty
  | trunc | zext =>
    rw [hop] at hx h
    obtain ⟨y, hy⟩ := hx
    rw [hy] at h
    obtain ⟨_, _, -, hint⟩ := Datum.resize_int h
    obtain ⟨u, hu⟩ := hcast (by simp [hop])
    rw [hu] at hint ⊢
    cases hint
    rfl
  | select =>
    rw [hop] at hx h
    obtain ⟨c, y, z, hyz, hty⟩ := hx
    rw [hyz] at h hops
    change (if (m.eval args regs c).isTrue then m.eval args regs y else m.eval args regs z) = _ at h
    rw [hty]
    split at h
    · exact hops y (by simp) w n h
    rw [← hselect hop c y z hyz]
    exact hops z (by simp) w n h
  | fadd | fsub | fmul | fdiv =>
    rw [hop] at hx h
    obtain ⟨y, z, hyz, -⟩ := hx
    rw [hyz] at h
    exact (Datum.arithmetic_ne_int h).elim
  | fneg =>
    rw [hop] at hx h
    obtain ⟨y, hy⟩ := hx
    rw [hy] at h
    exact (Datum.negate_ne_int h).elim
  | sitofp =>
    rw [hop] at hx h
    obtain ⟨y, hy⟩ := hx
    rw [hy] at h
    exact (Datum.toDouble_ne_int h).elim
  | _ =>
    rw [hop] at h
    cases h

theorem Visits.fits (hl : m.Linked) (ha : m.Admitted f e)
    (hbuilt : ∀ i ∈ m.body f, (m.instr i).AsBuilt m) (hargs : m.ArgsFit f args)
    (hconst : m.AllOperands f fun v => ∀ t n, v = .int t n → ∃ w, t = .int w)
    (hcast : ∀ i ∈ m.body f, (m.instr i).op = .trunc ∨ (m.instr i).op = .zext →
      ∃ w, (m.instr i).ty = .int w)
    (h : m.Visits f args fr) (j : InstrId) : (fr.regs j).Fits (m.instr j).ty := by
  refine (h.induct hl ha hbuilt (P := fun fr => ∀ j, (fr.regs j).Fits (m.instr j).ty) ?_ ?_).2 j
  · rintro j w n ⟨⟩
  intro fr next _ hp ih hturn j
  have hset : ∀ {i d}, d.Fits (m.instr i).ty → (fr.regs.set i d j).Fits (m.instr j).ty := by
    intro i d hd
    unfold Registers.set
    split
    · rename_i hji
      exact hji ▸ hd
    · exact ih j
  have hb := ha.mem_of_reached hp.reached
  cases hturn with
  | @compute i rest hr hop hdecided =>
    have hi := mem_of_ahead hp.ahead hr
    have hbody := hl.mem_body_of_mem hb hi
    exact hset (compute_fits (hbuilt i hbody)
      (fun v hv => eval_fits ih hargs (ha.given _ hb i hi v hv) (hconst i hbody v hv))
      (hcast i hbody) fun hop c y z hops => (ha.select_types hb hi hop hops).2)
  | answer hr hop hd => exact hset hd
  | store hr => exact ih j
  | @enter t rest c hr ht hc =>
    change (m.enterRegs args fr.regs fr.block c j).Fits _
    unfold enterRegs
    split
    · rename_i hj
      have hcb := ha.closed hb (served_successors hc)
      obtain ⟨v, hv⟩ := served_incoming hc hj
      have hmem := (of_mem_zip (incoming?_mem hv)).1
      have hjc := mem_of_mem_phis hj
      rw [hv, ← ha.phi_types hcb hjc (op_of_mem_phis hj) hmem]
      exact eval_fits ih hargs (ha.given c hcb j hjc v hmem)
        (hconst j (hl.mem_body_of_mem hcb hjc) v hmem)
    · exact ih j

end Module

end Qirc.IR
