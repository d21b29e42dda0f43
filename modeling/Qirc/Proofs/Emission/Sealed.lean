import Qirc.Proofs.Emission.Functions
import Qirc.Proofs.Emission.Layout

/-!
# What is written for regions

The values kept for the nodes of a region serve wherever the region is continued. What is written
for a node reads such values, so that the verifier finds nothing in an emitted function.
-/

namespace Qirc.Emission

open List Step IR Qirc.Graph Cursor IR.Module

variable {m : Module} {fn : FuncId} {e : BlockId} {j k : Nat} {g : Graph}
  {fs : List (NodeId × FuncId)} {region : RegionEmitter} {id r : NodeId} {n : Node} {s t : State}

/-- A finished module with the function that is looked at. -/
structure Ground (m : Module) (fn : FuncId) (e : BlockId) (j : Nat) (g : Graph)
    (fs : List (NodeId × FuncId)) : Prop where
  sound : m.Sound j
  closed : ∀ b ∈ (m.func fn).blocks, ∀ d ∈ m.successors b, d ∈ (m.func fn).blocks
  entry : e ∈ (m.func fn).blocks
  proto : ∀ x ∈ fs, prototype (signatureOf g x.1) = .ok (m.func x.2).proto

structure Standing (k : Nat) (fn : FuncId) (e : BlockId) (fs : List (NodeId × FuncId)) (s : State) :
    Prop where
  site : Site k fn s.cursor
  opened : Open s.cursor
  entry : e < s.cursor.module.blockTable.size
  functions : s.functions = fs
  known : ∀ x ∈ fs, x.2 < s.cursor.module.functionTable.size

/-- The values kept for the nodes of a region serve, with the types of their ports. -/
def Kept (m : Module) (fn : FuncId) (e : BlockId) (g : Graph) (r : NodeId) (s : State) : Prop :=
  ∀ p n v, g.node? p.node = some n → n.parent = some r → portValue s.values p = some v →
    ∃ vt, typeAt? n.sig.outputs p.index = some vt ∧ Holds m fn e s.cursor v vt

/-- What is written for a region is as the verifier wants it, and so are the values it gives. -/
def Sealed (m : Module) (fn : FuncId) (e : BlockId) (k : Nat) (g : Graph)
    (fs : List (NodeId × FuncId)) (region : RegionEmitter) : Prop :=
  ∀ id n args s outs t, region id args s = .ok outs t → g.node? id = some n →
    Standing k fn e fs s → Fresh g id s →
    Fits s.cursor t.cursor m → Apart m fn s.cursor t.cursor →
    HoldAll m fn e s.cursor args n.sig.inputs →
    Written m fn e s.cursor t.cursor ∧ HoldAll m fn e t.cursor outs n.sig.outputs

/-! ## Moving on -/

theorem Ground.dominates (hg : Ground m fn e j g fs) (hs : Standing k fn e fs s) {c' : Cursor}
    (hgrow : Grows s.cursor c') (hlt : c'.block < c'.module.blockTable.size)
    (hapart : Apart m fn s.cursor c') : Dominates m.successors e s.cursor.block c'.block := by
  obtain hm | hm := hgrow.moved
  · rw [hm]
    exact Dominates.refl _
  · exact hapart.dominates hg.closed hg.entry hs.entry hm hlt

theorem Standing.grow (hs : Standing k fn e fs s) {inside : NodeId → Prop}
    (hadv : Advances k inside s t) (ho : Open t.cursor) : Standing k fn e fs t where
  site := hs.site.grow hadv.grows hadv.ready
  opened := ho
  entry := Nat.lt_of_lt_of_le hs.entry hadv.grows.within.blocks
  functions := hadv.functions.trans hs.functions
  known x hx := Nat.lt_of_lt_of_le (hs.known x hx) hadv.grows.within.funcs

theorem Kept.move {u : State} (h : Kept m fn e g r s)
    (hle : s.cursor.module.instrTable.size ≤ u.cursor.module.instrTable.size)
    (hd : Dominates m.successors e s.cursor.block u.cursor.block)
    (hv : ∀ p n, g.node? p.node = some n → n.parent = some r →
      portValue u.values p = portValue s.values p) : Kept m fn e g r u := by
  intro p n v hn hp hval
  rw [hv p n hn hp] at hval
  obtain ⟨vt, hvt, hh⟩ := h p n v hn hp hval
  exact ⟨vt, hvt, hh.move hle hd⟩

theorem Kept.keep {outs : List Value} (h : Kept m fn e g r s) (hn : g.node? id = some n)
    (houts : HoldAll m fn e s.cursor outs n.sig.outputs) (ht : t.cursor = s.cursor)
    (hv : t.values = keep id outs s.values) : Kept m fn e g r t := by
  intro p np v hnp hpp hval
  rw [ht]
  rw [hv] at hval
  obtain ⟨i, rfl, hi⟩ | hold := portValue_keepFrom_at id 0 outs s.values p hval
  · rw [hn] at hnp
    cases hnp
    obtain ⟨hlt, rfl⟩ := List.getElem?_eq_some_iff.1 hi
    have hlt' : i < n.sig.outputs.length := houts.length_eq ▸ hlt
    refine ⟨n.sig.outputs[i], ?_, houts.get hlt hlt'⟩
    simp only [typeAt?, Nat.zero_add]
    exact getElem?_eq_getElem hlt'
  · exact h p np v hnp hpp hold

/-! ## Inputs -/

theorem inputs_hold (ha : g.Arena) (hkept : Kept m fn e g r s) (hn : g.node? id = some n)
    (hp : n.parent = some r) (hports : n.kind.hasPorts = true) {vs : List Value}
    (h : g.inputValues s.values id = some vs) : HoldAll m fn e s.cursor vs n.sig.inputs := by
  simp only [Graph.inputValues, hn, Option.bind_some] at h
  have hall := mapM_eq_some.1 h
  have hcount : n.inputCount = n.sig.inputs.length := by rw [ha.inputs id n hn, if_pos hports]
  have hlen : vs.length = n.sig.inputs.length := by
    rw [← hall.length_eq, length_range, hcount]
  refine forall₂_iff_get.2 ⟨hlen, fun i h1 h2 => ?_⟩
  have hi := hall.get (by rw [hall.length_eq]; exact h1) h1
  rw [get_eq_getElem, getElem_range] at hi
  obtain ⟨src, hsrc, hval⟩ := Option.bind_eq_some_iff.1 hi
  obtain ⟨sn, tn, he⟩ := ha.edge _ (source?_edge hsrc)
  have htn := he.target
  rw [hn] at htn
  cases htn
  obtain ⟨vt, hvt, hh⟩ := hkept src sn _ he.source (he.siblings.trans hp) hval
  have htype := he.type
  rw [hvt] at htype
  simp only [typeAt?] at htype
  rw [Int.toNat_natCast,
    getElem?_eq_getElem h2] at htype
  cases htype
  exact hh

/-! ## Nodes without control flow -/

theorem constant_seals (hg : Ground m fn e j g fs) (hs : Site k fn s.cursor) {c : Payload}
    {v : Value} (h : constant c s = .ok v t) (hw : t.cursor.module.Within m) :
    Written m fn e s.cursor t.cursor ∧ HoldAll m fn e t.cursor [v] [c.type] := by
  unfold constant at h
  cases hty : c.type with
  | bool | int =>
    rw [hty] at h
    obtain ⟨rfl, rfl⟩ := pure_ok.1 h
    exact ⟨.refl, .cons ⟨_, rfl, serves_int _ _⟩ .nil⟩
  | float =>
    rw [hty] at h
    obtain ⟨rfl, rfl⟩ := pure_ok.1 h
    exact ⟨.refl, .cons ⟨_, rfl, serves_float _⟩ .nil⟩
  | string =>
    rw [hty] at h
    obtain ⟨c', hc, rfl⟩ := onCursor_ok.1 h
    obtain ⟨-, -, hyield⟩ := Yields.stringPtr hg.sound hs c.text v c' hc
    obtain ⟨hwrite, hv⟩ := hyield trivial hw
    exact ⟨hwrite, .cons ⟨_, rfl, hv⟩ .nil⟩
  | _ =>
    rw [hty] at h
    exact (throw_ok.1 h).elim

variable {sig : Signature} {args : List Value} {c : Cursor}

theorem op_seals (hg : Ground m fn e j g fs) (hs : Site k fn s.cursor) {op : Operation}
    {outs : List Value} (h : op.lower sig args s.cursor = .ok outs c) (hw : c.module.Within m)
    (hargs : HoldAll m fn e s.cursor args sig.inputs) :
    Written m fn e s.cursor c ∧ HoldAll m fn e c outs sig.outputs := by
  obtain ⟨l, hfind, rfl, hlow⟩ := Operation.lower_ok h
  obtain ⟨-, -, hyield⟩ :=
    Lowering.lower_yields hg.sound hs (Lowering.find?_plain hfind) op.tag args outs c hlow
  exact hyield hargs hw

theorem ty_not_void {vt : ValueType} {t : Ty} (h : vt.ty = .ok t) : t.isVoid = false := by
  unfold ValueType.ty at h
  split at h <;> cases h <;> rfl

theorem call_seals (hg : Ground m fn e j g fs) (hs : Standing k fn e fs s) {x : NodeId × FuncId}
    (hx : x ∈ fs) {v : Value} (hsig : signatureOf g x.1 = sig)
    (h : Cursor.call x.2 args s.cursor = .ok v c) (hw : c.module.Within m)
    (hargs : HoldAll m fn e s.cursor args sig.inputs) :
    Written m fn e s.cursor c ∧
      HoldAll m fn e c (if sig.outputs.length = 1 then [v] else []) sig.outputs := by
  obtain ⟨hparams, hret⟩ := prototype_types (hsig ▸ hg.proto x hx)
  have hcall : Yields m fn e k s.cursor True (Cursor.call x.2 args) _ :=
    Yields.call hg.sound hs.site (m.func x.2).proto rfl rfl rfl rfl fun _ _ =>
      ⟨⟨hs.known x hx, rfl⟩, hargs.serveAll hparams⟩
  obtain ⟨-, -, hyield⟩ := hcall v c h
  obtain ⟨hwrite, hv⟩ := hyield trivial hw
  refine ⟨hwrite, ?_⟩
  obtain ⟨hout, -⟩ | ⟨vt, hout, hvt⟩ := hret
  · rw [hout]
    exact .nil
  · rw [hout]
    exact .cons ⟨_, hvt, hv (ty_not_void hvt)⟩ .nil

/-! ## Conditionals -/

theorem phi_proper {c1 c2 : Cursor} {x : BlockId} {i : Nat} {v w : Value} {ty : Ty}
    (hi : m.instr i = { Instr.phi ty [(v, some c1.block), (w, some c2.block)] with
      parent := some x })
    (hperm : [c1.block, c2.block].Perm (m.predecessors fn x)) (hv : Serves m fn e c1 v ty)
    (hw : Serves m fn e c2 w ty) : Proper m fn e i x := by
  have hops : (m.instr i).operands = [v, w] := by rw [hi]; rfl
  have hblocks : (m.instr i).blocks = [some c1.block, some c2.block] := by rw [hi]; rfl
  have hop : (m.instr i).op = .phi := by rw [hi]; rfl
  have hty : (m.instr i).ty = ty := by rw [hi]; rfl
  refine ⟨by rw [hi], ?_, absurd hop, absurd hop, fun _ => ?_, fun _ => ?_⟩
  · rw [hops]
    rintro u hu
    obtain rfl | rfl : u = v ∨ u = w := by simpa using hu
    · exact hv.plain
    · exact hw.plain
  · refine ⟨by rw [hops, hblocks]; rfl, by rw [hblocks]; exact hperm.map some, ?_⟩
    rw [hops, hty]
    rintro u hu
    obtain rfl | rfl : u = v ∨ u = w := by simpa using hu
    · exact hv.operandType
    · exact hw.operandType
  · rw [hops, hblocks]
    intro u y hu
    obtain ⟨rfl, rfl⟩ | ⟨rfl, rfl⟩ : (u = v ∧ y = c1.block) ∨ (u = w ∧ y = c2.block) := by
      simpa using hu
    · exact hv.carried
    · exact hw.carried

section Cases

variable {predicate : Value} {no yes : NodeId} {args vs ws : List Value} {ids : List InstrId}
  {b : Nat} {f s1 t1 s2 t2 s3 : State} {others vts : List ValueType}
  (h : Split k g region id vts predicate args no yes vs ws ids b s f s1 t1 s2 t2 s3)

include h

theorem fork_site (hs : Site k fn s.cursor) {u : State}
    (hw : f.cursor.module.Within u.cursor.module) (hu : u.cursor.module.Sound k) {x : Nat}
    (hge : b ≤ x) (hlt : x < b + 3) : Site k fn (u.moveTo x).cursor := by
  have hlt' : x < f.cursor.module.blockTable.size := by rw [h.sizes.1]; exact hlt
  have hparent : (u.cursor.module.block x).parent = some fn := by
    rw [hw.parent x hlt', h.fork.parent x hge hlt]
    exact hs.parent
  obtain ⟨f', hf', hk⟩ := hs.ready.parent
  rw [hs.parent] at hf'
  cases hf'
  exact ⟨⟨hu, Nat.lt_of_lt_of_le hlt' hw.blocks, fn, hparent, hk⟩, hparent⟩

theorem Standing.enter_no (hs : Standing k fn e fs s) : Standing k fn e fs (f.moveTo b) where
  site := fork_site h hs.site (.refl _) h.inNo.start.sound (Nat.le_refl b) (by omega)
  opened := h.open_no
  entry := Nat.lt_of_lt_of_le hs.entry h.fork.within.blocks
  functions := h.fork.functions.trans hs.functions
  known x hx := Nat.lt_of_lt_of_le (hs.known x hx) h.fork.within.funcs

theorem Standing.enter_yes (hs : Standing k fn e fs s) :
    Standing k fn e fs (t1.moveTo (b + 1)) where
  site := fork_site h hs.site h.throughNo.grows.within h.inYes.start.sound (Nat.le_succ b) (by omega)
  opened := h.open_yes
  entry := Nat.lt_of_lt_of_le (hs.enter_no h).entry h.throughNo.grows.within.blocks
  functions := h.throughNo.functions.trans (hs.enter_no h).functions
  known x hx := Nat.lt_of_lt_of_le ((hs.enter_no h).known x hx) h.throughNo.grows.within.funcs

variable (hg : Ground m fn e j g fs) (hs : Standing k fn e fs s)
  (hf : Fits s.cursor s3.cursor m) (hapart : Apart m fn s.cursor s3.cursor)

include hg hs hapart in
theorem fork_dominates {x : Nat} (hge : b ≤ x) (hlt : x < s3.cursor.module.blockTable.size) :
    Dominates m.successors e s.cursor.block x :=
  hapart.dominates hg.closed hg.entry hs.entry (h.size ▸ hge) hlt

include hg hf in
theorem branches_proper (hpred : Holds m fn e s.cursor predicate .bool) :
    Proper m fn e s.cursor.module.instrTable.size s.cursor.block ∧
      Proper m fn e s1.cursor.module.instrTable.size s1.cursor.block ∧
      Proper m fn e s2.cursor.module.instrTable.size s2.cursor.block := by
  have hserve : Serves m fn e s.cursor predicate .i1 := hpred.serves rfl
  refine ⟨proper_at hg.sound (h.opening hf).2 (Nat.le_refl _) (by simp [Instr.condBr]) ?_ ?_,
    proper_at hg.sound (h.leaving_no hf).2 (Nat.le_refl _) (by simp [Instr.br]) rfl
      (by simp [Instr.br]),
    proper_at hg.sound (h.leaving_yes hf).2 (Nat.le_refl _) (by simp [Instr.br]) rfl
      (by simp [Instr.br])⟩
  · simp [instrDefect?, Instr.condBr, hserve.operandType, Bind.bind, Except.bind, Ty.i1,
      Ty.isInt]
  intro v hv
  obtain rfl : v = predicate := by simpa [Instr.condBr] using hv
  exact ⟨_, hserve⟩

variable (hneat : Neat k m region)

include hg hs hf hapart hneat in
theorem merge_predecessors :
    [s1.cursor.block, s2.cursor.block].Perm (m.predecessors fn (b + 2)) := by
  have hw2 : s2.cursor.module.Within m := (h.within_yes hf).within
  have hw1 : s1.cursor.module.Within m := (h.within_no hf).within
  have hin1 : s1.cursor.block ∈ (m.func fn).blocks := (hg.sound.linked.block fn _).2
    (((hs.enter_no h).site.grow h.inNo.grows h.inNo.ready).parent_in hw1)
  have hin2 : s2.cursor.block ∈ (m.func fn).blocks := (hg.sound.linked.block fn _).2
    (((hs.enter_yes h).site.grow h.inYes.grows h.inYes.ready).parent_in hw2)
  refine (perm_ext_iff_of_nodup (by simp [h.ends_ne])
    (hg.sound.linked.predecessors_nodup _)).2 fun p => ?_
  have hsource := fun hp => h.merge_sources hf hs.opened (h.laid_no hneat hf)
    (h.laid_yes hneat hf) hapart (p := p) hp
  rw [mem_predecessors]
  constructor
  · intro hp
    have hp' : p = s1.cursor.block ∨ p = s2.cursor.block := by simpa using hp
    have hmem : p ∈ (m.func fn).blocks := by rcases hp' with rfl | rfl <;> assumption
    exact ⟨hmem, (hsource hmem).2 hp'⟩
  · rintro ⟨hmem, htarget⟩
    simpa using (hsource hmem).1 htarget

include hg hs hf hapart hneat in
/-- The phis of a conditional are as the verifier wants them, and give values of the types of its
outputs. -/
theorem phis_seal (hvs : HoldAll m fn e s1.cursor vs vts) (hws : HoldAll m fn e s2.cursor ws vts) :
    Written m fn e t2.cursor s3.cursor ∧
      HoldAll m fn e s3.cursor (ids.map Value.instr) vts := by
  have hw : f.cursor.module.Within t2.cursor.module :=
    h.throughNo.grows.within.trans h.throughYes.grows.within
  have hsite : Site k fn (t2.moveTo (b + 2)).cursor :=
    fork_site h hs.site hw h.leaveYes.ready.sound (Nat.le_add_right b 2) (by omega)
  have hparent := hsite.parent_in (h.merged.within.trans hf.within)
  obtain ⟨-, hlen, hcount, hat⟩ := mergeCases_spec hsite.ready hvs.length_eq hws.length_eq h.phis
  have hperm := merge_predecessors h hg hs hf hapart hneat
  -- The phi at a position reads the values that the cases give there.
  have hphi : ∀ n (hn : n < vts.length),
      (ids.map Value.instr)[n]? = some (.instr (t2.cursor.module.instrTable.size + n)) ∧
      ∃ ty v w, (vts.get ⟨n, hn⟩).ty = .ok ty ∧ Serves m fn e s1.cursor v ty ∧
        Serves m fn e s2.cursor w ty ∧ m.instr (t2.cursor.module.instrTable.size + n) =
          { Instr.phi ty [(v, some s1.cursor.block), (w, some s2.cursor.block)] with
            parent := some (b + 2) } := by
    intro n hn
    have hn1 : n < vs.length := hvs.length_eq ▸ hn
    have hn2 : n < ws.length := hws.length_eq ▸ hn
    obtain ⟨hget, ty, hty, hinstr⟩ := hat n _ _ _ (List.getElem?_eq_getElem hn)
      (List.getElem?_eq_getElem hn1) (List.getElem?_eq_getElem hn2)
    refine ⟨hget, ty, _, _, hty, (hvs.get hn1 hn).serves hty, (hws.get hn2 hn).serves hty, ?_⟩
    have hlt : t2.cursor.module.instrTable.size + n < s3.cursor.module.instrTable.size :=
      Nat.lt_of_lt_of_eq (Nat.add_lt_add_left hn _) hcount.symm
    rw [hf.within.instr _ hlt]
    exact hinstr
  constructor
  · intro i hge hlt
    have hi : i - t2.cursor.module.instrTable.size < vts.length :=
      Nat.sub_lt_left_of_lt_add hge (Nat.lt_of_lt_of_eq hlt hcount)
    obtain ⟨-, ty, v, w, -, hv, hw, hinstr⟩ := hphi _ hi
    rw [Nat.add_sub_cancel' hge] at hinstr
    exact ⟨_, phi_proper hinstr hperm hv hw⟩
  · refine forall₂_iff_get.2 ⟨hlen, fun n h1 h2 => ?_⟩
    obtain ⟨hget, ty, v, w, hty, -, -, hinstr⟩ := hphi n h2
    have hv : (ids.map Value.instr).get ⟨n, h1⟩ = .instr (t2.cursor.module.instrTable.size + n) :=
      Option.some.inj ((List.getElem?_eq_getElem h1).symm.trans hget)
    have hlt : t2.cursor.module.instrTable.size + n < s3.cursor.module.instrTable.size :=
      Nat.lt_of_lt_of_eq (Nat.add_lt_add_left h2 _) hcount.symm
    rw [hv]
    rw [← h.merge_block] at hinstr hparent
    exact ⟨ty, hty, serves_instr hinstr hparent rfl (ty_not_void hty) hlt⟩

include hg hs hf hapart hneat in
theorem conditional_seals (hsealed : Sealed m fn e k g fs region) {a b' : Node}
    (hna : g.node? no = some a) (hsa : a.sig = ⟨others, vts⟩) (hnb : g.node? yes = some b')
    (hsb : b'.sig = ⟨others, vts⟩) (hfresh : Fresh g id s)
    (hpred : Holds m fn e s.cursor predicate .bool) (hargs : HoldAll m fn e s.cursor args others) :
    Written m fn e s.cursor s3.cursor ∧
      HoldAll m fn e s3.cursor (ids.map Value.instr) vts := by
  have hlno := h.laid_no hneat hf
  have hlyes := h.laid_yes hneat hf
  obtain ⟨hz, hz1, hz2, hz3⟩ := h.sizes
  obtain ⟨hopen, hendNo, hendYes⟩ := branches_proper h hg hf hpred
  have hle := h.fork.within.instrs
  have hltNo : b < s3.cursor.module.blockTable.size := by omega
  have hltYes : b + 1 < s3.cursor.module.blockTable.size := by omega
  obtain ⟨hwno, hvs⟩ := hsealed no a args _ vs s1 h.runNo hna (hs.enter_no h) (h.fresh_no hfresh)
    (h.within_no hf) (h.apart_no hf hs.opened hlno hlyes hapart)
    (hsa ▸ hargs.move hle (fork_dominates h hg hs hapart (Nat.le_refl b) hltNo))
  obtain ⟨hwyes, hws⟩ := hsealed yes b' args _ ws s2 h.runYes hnb (hs.enter_yes h)
    (h.fresh_yes hfresh) (h.within_yes hf) (h.apart_yes hf hs.opened hlno hlyes hapart)
    (hsb ▸ hargs.move (Nat.le_trans hle h.throughNo.grows.within.instrs)
      (fork_dominates h hg hs hapart (Nat.le_succ b) hltYes))
  rw [hsa] at hvs
  rw [hsb] at hws
  obtain ⟨hwphis, hout⟩ := phis_seal h hg hs hf hapart hneat hvs hws
  have hfork : Written m fn e s.cursor (f.moveTo b).cursor := by
    intro i hge hlt
    have hlt' : i < s.cursor.module.instrTable.size + 1 := h.fork.count ▸ hlt
    obtain rfl : i = s.cursor.module.instrTable.size := by omega
    exact ⟨_, hopen⟩
  have hleave : Written m fn e s1.cursor (t1.moveTo (b + 1)).cursor := by
    rw [h.leftNo]
    exact written_append hendNo
  have hleave' : Written m fn e s2.cursor t2.cursor := by
    rw [h.leftYes]
    exact written_append hendYes
  exact ⟨hfork.trans (hwno.trans (hleave.trans (hwyes.trans (hleave'.trans hwphis)))), hout⟩

end Cases

/-! ## Nodes and regions -/

section Nodes

variable (ha : g.Arena) (hck : g.check = .ok ()) (hg : Ground m fn e j g fs)
  (ho : Orderly k g region) (hneat : Neat k m region) (hsealed : Sealed m fn e k g fs region)

include ha hck hg ho hneat hsealed

theorem node_seals (hs : Standing k fn e fs s) (hfresh : Fresh g id s) (hn : g.node? id = some n)
    (hp : n.parent = some r) (hkept : Kept m fn e g r s) (h : NodeEmitted g region id n s t)
    (hf : Fits s.cursor t.cursor m) (hapart : Apart m fn s.cursor t.cursor) :
    ∃ outs kept, t.values = keep id outs kept ∧
      (∀ p, ¬g.Under id p.node → portValue kept p = portValue s.values p) ∧
      Written m fn e s.cursor t.cursor ∧ HoldAll m fn e t.cursor outs n.sig.outputs := by
  have hr := hs.site.ready
  cases h with
  | const hk hv =>
    have hseals := constant_seals hg hs.site hv hf.within
    rw [← ((lawful_of_check ha hck).const _ _ hn hk).1] at hseals
    exact ⟨_, _, rfl, (constant_advances hr hv).1.values, hseals⟩
  | op hk hargs hl =>
    have hin := inputs_hold ha hkept hn hp (by rw [hk]; rfl) hargs
    exact ⟨_, s.values, rfl, fun _ _ => rfl, op_seals hg hs.site hl hf.within hin⟩
  | @call x args v c hk hfind hargs hcall =>
    have hin := inputs_hold ha hkept hn hp (by rw [hk]; rfl) hargs
    obtain ⟨hmem, -, fn, hfn, hsig⟩ := callee_emitted ha hck hn hk (hs.functions ▸ hfind)
    have hsig' : signatureOf g x.1 = n.sig := by simp [signatureOf, hfn, hsig]
    refine ⟨if n.sig.outputs.length = 1 then [v] else [], s.values, ?_, fun _ _ => rfl,
      call_seals hg hs hmem hsig' hcall hf.within hin⟩
    split <;> rfl
  | dfg hk hargs hreg =>
    have hin := inputs_hold ha hkept hn hp (by rw [hk]; rfl) hargs
    have hseals := hsealed _ _ _ _ _ _ hreg hn hs hfresh hf hapart hin
    exact ⟨_, _, rfl, fun p hp => (ho _ _ _ _ _ hr hreg).values p hp, hseals⟩
  | @conditional predicate args vs ws phis no yes b s1 s2 s3 hk hargs hch hcases =>
    have hin := inputs_hold ha hkept hn hp (by rw [hk]; rfl) hargs
    obtain ⟨ids, f, t1, t2, rfl, hsplit⟩ := split_of_emitted ha ho hr hn hch hcases
    obtain ⟨others, no', yes', a, b', hins, hch', hna, hsa, hnb, hsb⟩ :=
      (lawful_of_check ha hck).conditional _ _ hn hk
    rw [hch] at hch'
    cases hch'
    rw [hins] at hin
    obtain ⟨hpred, hrest⟩ := forall₂_cons.1 hin
    have hseals :=
      conditional_seals hsplit hg hs hf hapart hneat hsealed hna hsa hnb hsb hfresh hpred hrest
    exact ⟨_, s3.values, rfl, hsplit.values, hseals⟩

theorem nodes_seal {ids : List NodeId} (hnodup : ids.Nodup)
    (hch : ∀ c ∈ ids, ∃ n, g.node? c = some n ∧ n.parent = some r)
    (hs : Standing k fn e fs s) (hfresh : ∀ c ∈ ids, Fresh g c s) (hkept : Kept m fn e g r s)
    (h : ids.forM (node g region) s = .ok ⟨⟩ t) (hf : Fits s.cursor t.cursor m)
    (hapart : Apart m fn s.cursor t.cursor) :
    Written m fn e s.cursor t.cursor ∧ Kept m fn e g r t := by
  induction ids generalizing s with
  | nil =>
    obtain rfl := forM_nil_ok.1 h
    exact ⟨.refl, hkept⟩
  | cons c ids ih =>
    obtain ⟨s1, hnode, hrest⟩ := forM_cons_ok.1 h
    obtain ⟨n, hn, hemit⟩ := node_emitted hnode
    obtain ⟨n', hn', hp⟩ := hch c (by simp)
    cases hn.symm.trans hn'
    have hadv := node_advances ha ho hs.site.ready hn hemit
    have hadv' : Advances k (fun _ => True) s1 t :=
      nodes_advance ha ho (fun _ _ _ _ => trivial) hadv.ready hrest
    have hfit := hf.first hadv.grows hadv.ready hadv'.grows hadv'.ready.sound
    have hfit' := hf.second hadv.grows
    have hlaid := node_laid ha ho hneat hs.site.ready hn hemit hfit hs.opened
    have hlaid' := nodes_laid ha ho hneat hadv.ready hrest hfit' hlaid.opened
    have hapart1 := hapart.first hlaid' hadv'.grows
    obtain ⟨outs, kept, hvalues, hkept', hwrite, houts⟩ := node_seals ha hck hg ho hneat hsealed hs
      (hfresh c (by simp)) hn hp hkept hemit hfit hapart1
    have hbefore : Kept m fn e g r { s1 with values := kept } :=
      hkept.move hadv.grows.within.instrs
        (hg.dominates hs hadv.grows hadv.ready.block hapart1)
        fun p np hnp hpp => hkept' p (not_under_sibling ha hn hp hnp hpp)
    obtain ⟨hwrite', hdone⟩ := ih (nodup_cons.1 hnodup).2 (fun d hd => hch d (by simp [hd]))
      (hs.grow hadv hlaid.opened) (fresh_behind ha hnodup hch hfresh hadv)
      (hbefore.keep hn houts rfl hvalues) hrest hfit' (hapart.second hlaid hadv.grows)
    exact ⟨hwrite.trans hwrite', hdone⟩

theorem regionWith_sealed : Sealed m fn e k g fs (regionWith g region) := by
  intro id n args s outs t h hn hs hfresh hf hapart hargs
  obtain ⟨n', first, last, order, ids, hemit⟩ := regionWith_ok ha h
  cases hn.symm.trans hemit.node
  obtain ⟨first', last', rest', i, o, hbound⟩ :=
    (lawful_of_check ha hck).region _ _ hn hemit.isRegion
  obtain ⟨rest, hch⟩ := hemit.children
  cases hch.symm.trans hbound.children
  obtain ⟨nl, hnl, hpl⟩ := hemit.child last (by simp)
  cases hnl.symm.trans hbound.last
  have hempty : Kept m fn e g id s := by
    intro p np v hnp hpp hv
    rw [hfresh p (.child hnp hpp)] at hv
    cases hv
  have hstart : Kept m fn e g id { s with values := keep first args s.values } :=
    hempty.keep hbound.first (hbound.firstSig ▸ hargs) rfl rfl
  obtain ⟨hwrite, hkept⟩ := nodes_seal (s := { s with values := keep first args s.values }) ha hck hg
    ho hneat hsealed hemit.nodup (fun c hc => hemit.child c (by simp [hc]))
    ⟨hs.site, hs.opened, hs.entry, hs.functions, hs.known⟩
    (fresh_inside ha hfresh hemit.child args) hstart hemit.run hf hapart
  refine ⟨hwrite, ?_⟩
  rw [← hbound.lastSig]
  exact inputs_hold ha hkept hnl hpl (by rw [hbound.lastKind]; rfl) hemit.outs

end Nodes

theorem region_sealed (ha : g.Arena) (hck : g.check = .ok ()) (hg : Ground m fn e j g fs)
    (depth : Nat) : Sealed m fn e k g fs (Emission.region g depth) := by
  induction depth with
  | zero =>
    intro id n args s outs t h
    exact (throw_ok.1 h).elim
  | succ depth ih =>
    exact regionWith_sealed ha hck hg (region_advances ha depth) (region_laid ha depth) ih

end Qirc.Emission
