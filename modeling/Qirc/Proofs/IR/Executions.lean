import Mathlib
import Qirc.IR.Builder
import Qirc.Proofs.IR.Scopes
import Qirc.Proofs.Step

/-!
# Executions of accepted functions

An execution keeps account of what it has computed: an instruction when it was run, a phi when its
block was entered along an edge that it has a value for. At every place of an execution of an accepted
function this account holds all that is read next. The verifier does not look for phis in the entry
nor for repeated entries of phis, so both have to be asked for.
-/

namespace Qirc.IR.Module

open List

section Definitions

variable (m : Module) (f : FuncId) (args : List Datum)

def ran (fr next : Frame) : List InstrId :=
  match fr.rest with
  | [] => []
  | i :: _ =>
    if (m.instr i).op.isTerminator then
      i :: (m.phis next.block).filter (fun x => (m.incoming? x fr.block).isSome)
    else [i]

/-- The places an execution comes to, with the instructions it has computed. -/
inductive Execution : List InstrId → Frame → Prop
  | start {fr : Frame} (h : m.start? f = some fr) : Execution [] fr
  | silent {done : List InstrId} {fr next : Frame} (h : Execution done fr)
      (hact : m.act args fr = .silent next) : Execution (m.ran fr next ++ done) next
  | ask {done : List InstrId} {fr : Frame} {r : Request} {next : Datum → Frame}
      (h : Execution done fr) (hact : m.act args fr = .ask r next) (d : Datum) :
      Execution (m.ran fr (next d) ++ done) (next d)

/-- Control comes to the terminator of a block, whatever is answered on the way. -/
inductive Arrives (b : BlockId) : Frame → Prop
  | here {fr : Frame} {t : InstrId} (hb : fr.block = b) (hr : fr.rest = [t])
      (ht : m.terminator? b = some t) : Arrives b fr
  | silent {fr next : Frame} {i : InstrId} {rest : List InstrId} (hr : fr.rest = i :: rest)
      (hop : (m.instr i).op.isTerminator = false) (hact : m.act args fr = .silent next)
      (h : Arrives b next) : Arrives b fr
  | ask {fr : Frame} {r : Request} {next : Datum → Frame} {i : InstrId} {rest : List InstrId}
      (hr : fr.rest = i :: rest) (hop : (m.instr i).op.isTerminator = false)
      (hact : m.act args fr = .ask r next) (h : ∀ d, Arrives b (next d)) : Arrives b fr

/-- The entries that a phi has for the edge from a block. -/
def entriesFrom (x : InstrId) (b : BlockId) : List (Value × Option BlockId) :=
  ((m.instr x).operands.zip (m.instr x).blocks).filter (fun entry => entry.2 == some b)

/-- The terminator of a block returns, or it leads to a block of the function whose phis have one
entry for the edge taken, with a value that has been computed. -/
inductive Leaves (done : List InstrId) (fr : Frame) (t : InstrId) : Prop
  | ret (v : Option Datum) (hact : m.act args fr = .ret v)
  | enter {c : BlockId} (hc : c ∈ (m.func f).blocks)
      (hact : m.act args fr = .silent (m.enter args fr.regs fr.block c))
      (hphis : ∀ x ∈ (m.block c).instrs, (m.instr x).op = .phi →
        ∃ v, m.entriesFrom x fr.block = [(v, some fr.block)] ∧ ∀ j, v = .instr j → j ∈ t :: done)

/-- The arguments of a call are as many as its callee declares, of the types it declares. -/
def Hands (fr : Frame) (i : InstrId) : Prop :=
  ∃ g ds next, (m.instr i).callee = some g ∧ m.act args fr = .ask (.call g ds) next ∧
    ds.length = (m.func g).proto.params.length ∧
    (m.instr i).operands.map m.typeOf = (m.func g).proto.params

/-- What is to be seen at a place of an execution that has computed some instructions. -/
structure Orderly (done : List InstrId) (fr : Frame) : Prop where
  inside : fr.block ∈ (m.func f).blocks
  arrives : m.Arrives args fr.block fr
  reads : ∀ i rest, fr.rest = i :: rest → ∀ j, .instr j ∈ (m.instr i).operands → j ∈ done
  leaves : ∀ t, m.terminator? fr.block = some t → fr.rest = [t] → m.Leaves f args done fr t
  calls : ∀ i rest, fr.rest = i :: rest → (m.instr i).op = .call → m.Hands args fr i

/-- A place with everything computed that stands in front of it. -/
structure Known (e : BlockId) (done : List InstrId) (fr : Frame) : Prop where
  placed : m.Placed e fr
  more : fr.rest ≠ []
  known : ∀ j, m.Settled e j fr → j ∈ done

end Definitions

variable {m : Module} {f : FuncId} {e b c : BlockId} {i j t x : InstrId} {args : List Datum}
  {fr next : Frame} {rest done : List InstrId} {regs : Registers} {v : Value}

/-! ## Entries of phis -/

theorem filter_eq_singleton {l : List (Value × Option BlockId)} {s : Option BlockId}
    (hnd : (l.map (·.2)).Nodup) (hv : (v, s) ∈ l) : l.filter (fun entry => entry.2 == s) = [(v, s)] := by
  induction l with
  | nil => cases hv
  | cons a l ih =>
    rw [map_cons, nodup_cons] at hnd
    obtain rfl | hv := mem_cons.1 hv
    · have hno : l.filter (fun entry => entry.2 == s) = [] := by
        rw [filter_eq_nil_iff]
        intro a ha has
        exact hnd.1 (mem_map.2 ⟨a, ha, by simpa using has⟩)
      rw [filter_cons_of_pos (by simp), hno]
    · have ha : a.2 ≠ s := fun has => hnd.1 (mem_map.2 ⟨_, hv, has.symm⟩)
      rw [filter_cons_of_neg (by simpa using ha), ih hnd.2 hv]

theorem PhiOk.entriesFrom (h : PhiOk m (m.instr x) (m.predecessors f c))
    (hnd : (m.instr x).blocks.Nodup) (hb : b ∈ m.predecessors f c) :
    ∃ v, m.entriesFrom x b = [(v, some b)] := by
  obtain ⟨v, hv⟩ := h.entry hb
  refine ⟨v, filter_eq_singleton ?_ hv⟩
  rw [map_snd_zip (Nat.le_of_eq h.length.symm)]
  exact hnd

theorem mem_of_entriesFrom (h : m.entriesFrom x b = [(v, some b)]) :
    (v, some b) ∈ (m.instr x).operands.zip (m.instr x).blocks := by
  have hmem : (v, some b) ∈ m.entriesFrom x b := by simp [h]
  exact (mem_filter.1 hmem).1

theorem incoming?_of_entriesFrom (h : m.entriesFrom x b = [(v, some b)]) :
    m.incoming? x b = some v := by
  unfold incoming?
  rw [← head?_filter]
  change ((m.entriesFrom x b).head?).map _ = _
  rw [h]
  rfl

/-! ## Calls -/

theorem argumentDefect?_eq_none {callee : String} {k : Nat} {vs : List Value} {ts : List Ty}
    (hlen : vs.length = ts.length) (h : m.argumentDefect? callee k vs ts = .ok none) :
    vs.map m.typeOf = ts := by
  induction vs generalizing k ts with
  | nil => exact (length_eq_zero_iff.1 hlen.symm).symm
  | cons v vs ih =>
    cases ts with
    | nil => cases hlen
    | cons ty ts =>
      obtain ⟨got, hgot, h⟩ := Step.except_bind_ok.1 h
      split at h
      · rename_i hty
        rw [map_cons, (operandType_eq_ok.1 hgot).2, hty, ih (Nat.succ.inj hlen) h]
      · cases h

theorem callDefect?_eq_none {x : Instr} (h : m.callDefect? x = .ok none) :
    ∃ g, x.callee = some g ∧ x.operands.map m.typeOf = (m.func g).proto.params := by
  unfold callDefect? at h
  split at h
  · cases h
  rename_i g hg
  refine ⟨g, hg, ?_⟩
  dsimp only at h
  split at h
  · cases h
  split at h
  · cases h
  rename_i hlen
  obtain ⟨d, hd, h⟩ := Step.except_bind_ok.1 h
  cases d with
  | some d => cases h
  | none => exact argumentDefect?_eq_none (Decidable.not_not.1 hlen) hd

theorem Enclosed.hands (hf : m.Enclosed f e) (hb : b ∈ (m.func f).blocks) (hi : i ∈ (m.block b).instrs)
    (hr : fr.rest = i :: rest) (hop : (m.instr i).op = .call) : m.Hands args fr i := by
  have htyped := hf.typed b hb i hi (by simp [hop])
  unfold instrDefect? at htyped
  rw [hop] at htyped
  obtain ⟨g, hg, hparams⟩ := callDefect?_eq_none htyped
  refine ⟨g, _, _, hg, act_call hr hop hg, ?_, hparams⟩
  rw [← hparams, length_map, length_map]

/-! ## Steps -/

/-- What the next instruction does when it is neither a phi nor a terminator: it is run, silently or
after an answer, and the instructions behind it come next. -/
inductive Passed (m : Module) (args : List Datum) (fr : Frame) (rest : List InstrId) : Prop
  | silent (regs : Registers) (hact : m.act args fr = .silent ⟨fr.block, rest, regs⟩)
  | ask (r : Request) (regs : Datum → Registers)
      (hact : m.act args fr = .ask r (fun d => ⟨fr.block, rest, regs d⟩))

theorem Enclosed.passed (hf : m.Enclosed f e) (hb : b ∈ (m.func f).blocks) (hi : i ∈ (m.block b).instrs)
    (hr : fr.rest = i :: rest) (hop : (m.instr i).op.isTerminator = false)
    (hphi : (m.instr i).op ≠ .phi) : m.Passed args fr rest := by
  cases hopi : (m.instr i).op with
  | ret | br | condBr =>
    rw [hopi] at hop
    cases hop
  | phi => exact absurd hopi hphi
  | call =>
    have htyped := hf.typed b hb i hi hphi
    unfold instrDefect? at htyped
    rw [hopi] at htyped
    obtain ⟨g, hg, -⟩ := callDefect?_eq_none htyped
    exact .ask _ _ (act_call hr hopi hg)
  | load =>
    exact .ask (.load (((m.instr i).operands.map (m.eval args fr.regs)).headD .undefined)
      (m.instr i).ty) (fr.regs.set i) (by simp [act, hr, hopi])
  | store =>
    exact .ask (.store (((m.instr i).operands.map (m.eval args fr.regs)).headD .undefined)
      (((m.instr i).operands.map (m.eval args fr.regs)).getD 1 .undefined)) (fun _ => fr.regs)
      (by simp [act, hr, hopi])
  | alloca =>
    exact .ask (.alloca (m.instr i).elem) (fr.regs.set i) (by simp [act, hr, hopi])
  | _ => exact .silent _ (act_compute hr (by simp [hopi, Opcode.computes]))

/-! ## Accepted definitions -/

/-- Acceptance together with what the verifier does not ask for: the phis of the function name each of
their blocks once, and there is none in the entry. -/
structure Strict (m : Module) (f : FuncId) (e : BlockId) : Prop where
  linked : m.Linked
  admitted : m.Admitted f e
  distinct : ∀ i ∈ m.body f, (m.instr i).op = .phi → (m.instr i).blocks.Nodup
  plain : m.phis e = []

theorem Known.stands (hk : m.Known e done fr) : m.Stands e fr where
  reached := hk.placed.reached.along fun _ _ _ h => served_successors h
  ahead := hk.placed.ahead
  more := hk.more

namespace Strict

variable (hg : m.Strict f e)

include hg

theorem entriesFrom (hb : b ∈ (m.func f).blocks) (hc : c ∈ m.successors b)
    (hx : x ∈ (m.block c).instrs) (hop : (m.instr x).op = .phi) :
    ∃ v, m.entriesFrom x b = [(v, some b)] := by
  have hcf := hg.admitted.closed hb hc
  have hnd := hg.distinct x (hg.linked.mem_body_of_mem hcf hx) hop
  exact ((hg.admitted.phis c hcf x hx hop).ok hnd).entriesFrom hnd
    (mem_predecessors.2 ⟨hb, mem_successors.1 hc⟩)

theorem served (hb : b ∈ (m.func f).blocks) (hc : c ∈ m.successors b) : c ∈ m.served b := by
  refine mem_filter.2 ⟨hc, all_eq_true.2 fun x hx => ?_⟩
  obtain ⟨v, hv⟩ := hg.entriesFrom hb hc (mem_of_mem_phis hx) (op_of_mem_phis hx)
  rw [incoming?_of_entriesFrom hv]
  rfl

theorem known_start (regs : Registers) : m.Known e [] ⟨e, m.code e, regs⟩ where
  placed := .start m e regs
  more := (hg.admitted.stands .entry regs).more
  known := by
    rintro j ⟨h, hh, ⟨rfl, hj⟩ | ⟨hne, hd⟩⟩
    · obtain hphi | hcode := mem_phis_or_code ((hg.linked.instr h j).2 hh)
      · rw [hg.plain] at hphi
        exact hphi
      · exact absurd hcode hj
    · exact absurd hd.eq_entry hne

theorem known_step (hk : m.Known e done fr) (hr : fr.rest = i :: rest) (hrest : rest ≠ [])
    (hop : (m.instr i).op.isTerminator = false) (regs : Registers) :
    m.Known e (m.ran fr ⟨fr.block, rest, regs⟩ ++ done) ⟨fr.block, rest, regs⟩ where
  placed := hk.placed.step hr
  more := hrest
  known j hj := by
    have hran : m.ran fr ⟨fr.block, rest, regs⟩ = [i] := by simp [ran, hr, hop]
    rw [hran, singleton_append, mem_cons]
    by_cases hji : j = i
    · exact .inl hji
    have hkeep : ∀ k, k ≠ i → fr.regs k = fr.regs k := fun _ _ => rfl
    exact .inr (hk.known j (hj.of_step [] hg.linked hk.placed hr hkeep hji).1)

theorem known_enter (hk : m.Known e done fr) (hr : fr.rest = [t])
    (ht : (m.instr t).op.isTerminator = true) (hc : c ∈ m.successors fr.block) :
    m.Known e (m.ran fr (m.enter args fr.regs fr.block c) ++ done)
      (m.enter args fr.regs fr.block c) := by
  have hb := hg.admitted.mem_of_reached hk.placed.reached
  have hserved := hg.served hb hc
  refine ⟨hk.placed.enter hserved, ?_, fun j hj => ?_⟩
  · exact (hg.admitted.stands (hk.stands.reached.onward hc) _).more
  have hran : m.ran fr (m.enter args fr.regs fr.block c) =
      t :: (m.phis c).filter (fun x => (m.incoming? x fr.block).isSome) := by
    simp [ran, hr, ht, enter]
  rw [hran, cons_append, mem_cons, mem_append, mem_filter]
  by_cases hjt : j = t
  · exact .inl hjt
  by_cases hphi : j ∈ m.phis c
  · obtain ⟨v, hv⟩ := served_incoming hserved hphi
    exact .inr (.inl ⟨hphi, by simp [hv]⟩)
  · exact .inr (.inr (hk.known j
      (hj.of_enter hg.linked hg.admitted hk.placed hr ht hserved hjt hphi).1))

theorem known (h : m.Execution f args done fr) : m.Known e done fr := by
  induction h with
  | start h =>
    simp only [start?, hg.admitted.entry, Option.map_some, Option.some.injEq] at h
    exact h ▸ hg.known_start _
  | @silent done fr next _ hact ih =>
    cases ih.stands.next hg.admitted.toEnclosed args with
    | ret hr _ hop =>
      rw [act_ret hr hop] at hact
      cases hact
    | branch hr ht hop hc hchoice =>
      rw [act_branch hr hop, hchoice] at hact
      cases hact
      exact hg.known_enter ih hr (terminator?_eq_some.1 ht).2 hc
    | plain hr hi hop hphi hs =>
      have hb := hg.admitted.mem_of_reached ih.placed.reached
      obtain ⟨regs, hact'⟩ | ⟨r, regs, hact'⟩ := hg.admitted.passed hb hi hr hop hphi
      · cases hact.symm.trans hact'
        exact hg.known_step ih hr (hs fr.regs).more hop regs
      · cases hact.symm.trans hact'
  | @ask done fr r next _ hact d ih =>
    cases ih.stands.next hg.admitted.toEnclosed args with
    | ret hr _ hop =>
      rw [act_ret hr hop] at hact
      cases hact
    | branch hr ht hop hc hchoice =>
      rw [act_branch hr hop, hchoice] at hact
      cases hact
    | plain hr hi hop hphi hs =>
      have hb := hg.admitted.mem_of_reached ih.placed.reached
      obtain ⟨regs, hact'⟩ | ⟨r, regs, hact'⟩ := hg.admitted.passed hb hi hr hop hphi
      · cases hact.symm.trans hact'
      cases hact.symm.trans hact'
      exact hg.known_step ih hr (hs fr.regs).more hop (regs d)

/-! ## What is to be seen at a place -/

theorem arrives (hs : m.Stands e fr) : m.Arrives args fr.block fr := by
  obtain ⟨b, rest, regs⟩ := fr
  induction rest generalizing regs with
  | nil => exact absurd rfl hs.more
  | cons i rest ih =>
    have hb := hg.admitted.toEnclosed.mem_of_reached hs.reached
    cases hs.next hg.admitted.toEnclosed args with
    | ret hr ht _ => exact .here rfl hr ht
    | branch hr ht _ _ _ => exact .here rfl hr ht
    | plain hr hi hop hphi hs =>
      cases hr
      have hpassed : m.Passed args ⟨b, i :: rest, regs⟩ rest := hg.admitted.passed hb hi rfl hop hphi
      obtain ⟨regs', hact⟩ | ⟨r, regs', hact⟩ := hpassed
      · exact .silent rfl hop hact (ih regs' (hs regs'))
      · exact .ask rfl hop hact fun d => ih (regs' d) (hs (regs' d))

theorem leaves (hk : m.Known e done fr) (ht : m.terminator? fr.block = some t)
    (hr : fr.rest = [t]) : m.Leaves f args done fr t := by
  have hb := hg.admitted.mem_of_reached hk.placed.reached
  have hterm := (terminator?_eq_some.1 ht).2
  cases hk.stands.next hg.admitted.toEnclosed args with
  | ret hr _ hop => exact .ret _ (act_ret hr hop)
  | @branch t' c hr' ht' hop hc hchoice =>
    refine .enter (hg.admitted.closed hb hc) ?_ fun x hx hphi => ?_
    · rw [act_branch hr' hop, hchoice]
      rfl
    obtain ⟨v, hv⟩ := hg.entriesFrom hb hc hx hphi
    refine ⟨v, hv, fun j hj => ?_⟩
    obtain ⟨h, hh, hd⟩ := hg.admitted.takes c (hg.admitted.closed hb hc) x hx hphi j fr.block
      (hj ▸ mem_of_entriesFrom hv)
    rw [mem_cons]
    by_cases hjt : j = t
    · exact .inl hjt
    exact .inr (hk.known j (hg.admitted.settled_of_past hk.placed hr hterm hjt
      ⟨h, hh, dominates_served hd⟩))
  | plain hr' _ hop _ _ =>
    cases hr.symm.trans hr'
    rw [hterm] at hop
    cases hop

theorem orderly (h : m.Execution f args done fr) : m.Orderly f args done fr := by
  have hk := hg.known h
  have hb := hg.admitted.mem_of_reached hk.placed.reached
  have hmem : ∀ i rest, fr.rest = i :: rest → i ∈ m.code fr.block :=
    fun i rest hr => hk.placed.ahead.subset (by simp [hr])
  refine ⟨hb, hg.arrives hk.stands, fun i rest hr j hj => ?_,
    fun t ht hr => hg.leaves hk ht hr, fun i rest hr hop => ?_⟩
  · have hi := (code_suffix m fr.block).subset (hmem i rest hr)
    have hphi := hg.admitted.op_of_mem_code hb (hmem i rest hr)
    exact hk.known j ((hg.admitted.before hg.linked hb hi hphi hj).settled hg.linked hk.placed hr)
  · exact hg.admitted.hands hb ((code_suffix m fr.block).subset (hmem i rest hr)) hr hop

end Strict

/-- In every execution of a definition of an accepted module whose phis name each block once and do
not stand in the entry, what is read has been computed, each phi has one entry for the edge taken,
control comes to the end of its block and from there to a block of the function, and calls pass what
their callees declare. -/
theorem verify_sound (hl : m.Linked) (hok : m.verify = .ok []) (hf : f ∈ m.definitions)
    (hdistinct : ∀ i ∈ m.body f, (m.instr i).op = .phi → (m.instr i).blocks.Nodup)
    (hplain : ∀ e, m.entry? f = some e → m.phis e = [])
    (h : m.Execution f args done fr) : m.Orderly f args done fr := by
  obtain ⟨e, he⟩ := exists_entry hf
  have hreport := verify_eq_nil.1 hok f (mem_filter.1 hf).1
  have hdefects := functionDefects_of_report hreport (mem_of_head? he)
  exact Strict.orderly ⟨hl, .of_accepted hl he hdefects, hdistinct, hplain e he⟩ h

/-- A loop that calls its function until the answer is another one than seven. -/
def callInLoop : Module :=
  .single ⟨.i64, [.i64]⟩ ["entry", "loop", "end"]
    [(0, .br (some 1)), (1, .phi .i64 [(.param 0 0, some 0), (.instr 2, some 1)]),
      (1, { op := .call, ty := .i64, operands := [.instr 1], callee := some 0 }),
      (1, .icmp "eq" (.instr 2) (.int .i64 7)), (1, .condBr (.instr 3) (some 1) (some 2)),
      (2, .ret (.instr 1))]

/-- The execution that is answered seven comes to the call a second time, where the phi has been
computed from the first answer. -/
theorem verify_sound_callInLoop :
    ∃ fr, callInLoop.Execution 0 [.int 64 5] [4, 1, 3, 2, 0, 1] fr ∧ fr.rest = [2, 3, 4] ∧
      fr.regs 1 = .int 64 7 ∧ callInLoop.Orderly 0 [.int 64 5] [4, 1, 3, 2, 0, 1] fr := by
  have h0 : callInLoop.Execution 0 [.int 64 5] [] _ := .start rfl
  have h1 := h0.silent rfl
  have h2 := h1.ask rfl (.int 64 7)
  have h3 := h2.silent rfl
  have h4 := h3.silent rfl
  exact ⟨_, h4, rfl, rfl, verify_sound (.single (by decide)) (by cbv) (by decide) (by decide)
    (by rintro e ⟨⟩; rfl) h4⟩

/-- A phi that names one of the two blocks in front of it twice. -/
def repeatedSource : Module :=
  .single ⟨.i64, [.i1]⟩ ["entry", "left", "right", "join"]
    [(0, .condBr (.param 0 0) (some 1) (some 2)), (1, .br (some 3)), (2, .br (some 3)),
      (3, .phi .i64 [(.int .i64 1, some 1), (.int .i64 2, some 1)]), (3, .ret (.instr 3))]

/-- A phi of the entry, which is read and has no value to take. -/
def phiInEntry : Module :=
  .single ⟨.i64, []⟩ ["entry"] [(0, .phi .i64 []), (0, .ret (.instr 0))]

/-- The verifier accepts both. In the first an edge has no entry; in the second an operand is read
that was never computed. -/
theorem verify_accepts_missing_entries :
    (repeatedSource.verify = .ok [] ∧ ∃ done fr, repeatedSource.Execution 0 [.bool false] done fr ∧
      repeatedSource.terminator? fr.block = some 2 ∧ fr.rest = [2] ∧
      repeatedSource.act [.bool false] fr =
        .silent (repeatedSource.enter [.bool false] fr.regs fr.block 3) ∧
      repeatedSource.phis 3 = [3] ∧ repeatedSource.entriesFrom 3 fr.block = []) ∧
    (phiInEntry.verify = .ok [] ∧ ∃ fr, phiInEntry.Execution 0 [] [] fr ∧ fr.rest = [1] ∧
      .instr 0 ∈ (phiInEntry.instr 1).operands) := by
  have h0 : repeatedSource.Execution 0 [.bool false] [] _ := .start rfl
  have h1 := h0.silent rfl
  exact ⟨⟨by cbv, _, _, h1, rfl, rfl, rfl, rfl, rfl⟩,
    ⟨by cbv, _, .start rfl, rfl, by decide⟩⟩

end Qirc.IR.Module
