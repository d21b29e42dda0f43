import Mathlib.Data.List.Forall2
import Qirc.Proofs.Emission.Regions
import Qirc.Proofs.Graph.Lawful

/-!
# Emitted regions do what they mean

A region is evaluated with the data of its own ports; emission keeps values for the ports of all
regions at once. The two agree on the ports of the region at hand. Each kind of node is followed on
its own, and a conditional through the case that its predicate selects.
-/

namespace Qirc.Emission

open List Step IR Qirc.Graph Cursor IR.Module Scene

/-- The functions of a graph, called from a scene, do what a call evaluates to. -/
structure Callable (w : Scene) (g : Graph) (fs : List (NodeId × FuncId)) (call : Evaluator) :
    Prop where
  start : ∀ e ∈ fs, ∃ fr, w.module.start? e.2 = some fr
  single : ∀ e ∈ fs, ∀ n, g.node? e.1 = some n → n.sig.outputs.length ≤ 1
  deep : ¬w.callers.length < w.bound →
    ∀ e ∈ fs, ∀ ds asked, call e.1 ds asked = .error .tooDeep asked
  enter : w.callers.length < w.bound → ∀ e ∈ fs, ∀ n, g.node? e.1 = some n →
    ∀ ds, ds.length = n.sig.inputs.length → ∀ fr, w.module.start? e.2 = some fr →
    ∀ caller asked, Follows { w with args := ds, callers := caller :: w.callers } fr asked
      (call e.1 ds asked) fun outs fr' =>
        w.module.act ds fr' = .ret outs.head? ∧ outs.length = n.sig.outputs.length

/-- The data that a region is evaluated with are those of the values kept for its nodes. -/
structure EnvMatches (w : Scene) (g : Graph) (r : NodeId) (s : State) (regs : Registers)
    (env : List (Port × Datum)) : Prop where
  data : ∀ p n, g.node? p.node = some n → n.parent = some r →
    portValue env p = (portValue s.values p).map (w.value regs)
  old : ∀ p n v, g.node? p.node = some n → n.parent = some r →
    portValue s.values p = some v → v.Old s.cursor.module

def Gives (w : Scene) (s t : State) (regs : Registers) (vs : List Value) (asked : List Effect)
    (r : EStateM.Result Halt (List Effect) (List Datum)) : Prop :=
  w.Follows (w.place s.cursor regs) asked r fun es fr =>
    ∃ regs', fr = w.place t.cursor regs' ∧ s.cursor.Agrees regs regs' ∧
      w.Denotes t.cursor regs' vs es

def Fresh (g : Graph) (id : NodeId) (s : State) : Prop :=
  ∀ p, g.Under id p.node → portValue s.values p = none

def Faithful (w : Scene) (k : Nat) (g : Graph) (fs : List (NodeId × FuncId))
    (region : RegionEmitter) (eval : Evaluator) : Prop :=
  ∀ id args s outs t, region id args s = .ok outs t → Ready k s.cursor →
    s.functions = fs → Fresh g id s → Fits s.cursor t.cursor w.module →
    ∀ regs ds, w.Denotes s.cursor regs args ds →
    ∀ asked, Gives w s t regs outs asked (eval id ds asked)

variable {w : Scene} {j k : Nat} {g : Graph} {fs : List (NodeId × FuncId)} {call eval : Evaluator}
  {region : RegionEmitter} {r id : NodeId} {s t : State} {n : Node} {regs : Registers}
  {env : List (Port × Datum)} {asked : List Effect}

/-! ## Inputs -/

variable {α β : Type} {f : α → Option β} {xs : List α} {ys : List β}

theorem mapM_eq_some : xs.mapM f = some ys ↔ Forall₂ (fun x y => f x = some y) xs ys := by
  induction xs generalizing ys with
  | nil => simp [eq_comm]
  | cons x xs ih => cases ys <;> simp [mapM_cons, Option.bind_eq_some_iff, ih]

variable {vs : List Value}

theorem inputValues_denote (ha : g.Arena) (he : EnvMatches w g r s regs env)
    (hn : g.node? id = some n) (hp : n.parent = some r) (h : g.inputValues s.values id = some vs) :
    ∃ ds, g.inputValues env id = some ds ∧ w.Denotes s.cursor regs vs ds ∧
      ds.length = n.inputCount := by
  simp only [Graph.inputValues, hn, Option.bind_some] at h ⊢
  have hsrc : ∀ i : Nat, ∀ v, (g.source? ⟨id, i⟩).bind (portValue s.values) = some v →
      (g.source? ⟨id, i⟩).bind (portValue env) = some (w.value regs v) ∧ v.Old s.cursor.module := by
    intro i v hv
    obtain ⟨src, hsrc, hval⟩ := Option.bind_eq_some_iff.1 hv
    obtain ⟨sn, hsn, hpar⟩ := source?_sibling ha hn hsrc
    rw [hp] at hpar
    refine ⟨?_, he.old src sn v hsn hpar hval⟩
    rw [hsrc, Option.bind_some, he.data src sn hsn hpar, hval]
    rfl
  have hall := mapM_eq_some.1 h
  refine ⟨_, mapM_eq_some.2 (forall₂_map_right_iff.2 (hall.imp fun i v hv => (hsrc i v hv).1)),
    ⟨?_, rfl⟩, ?_⟩
  · intro v hv
    obtain ⟨i, hi, rfl⟩ := mem_iff_getElem.1 hv
    exact (hsrc _ _ (hall.get (hall.length_eq ▸ hi) hi)).2
  · rw [length_map, ← hall.length_eq, length_range]

/-! ## Nodes without control flow -/

theorem constant_gives (regs : Registers) (hr : Ready k s.cursor) {c : Payload} {v : Value}
    (h : constant c s = .ok v t) (hf : Fits s.cursor t.cursor w.module) :
    ∃ d, c.datum? = some d ∧ w.place s.cursor regs = w.place t.cursor regs ∧
      w.Denotes t.cursor regs [v] [d] := by
  unfold constant at h
  unfold Payload.datum?
  cases hty : c.type with
  | bool =>
    rw [hty] at h
    obtain ⟨rfl, rfl⟩ := pure_ok.1 h
    exact ⟨_, rfl, rfl, by simp [Value.Old, Value.bool], by simp [Lowering.value_bool]⟩
  | int | float =>
    rw [hty] at h
    obtain ⟨rfl, rfl⟩ := pure_ok.1 h
    exact ⟨_, rfl, rfl, by simp [Value.Old], rfl⟩
  | string =>
    rw [hty] at h
    obtain ⟨c', hc, rfl⟩ := onCursor_ok.1 h
    obtain ⟨m', g', tag, rfl, rfl, hi⟩ := stringPtr_ok hr hc
    exact ⟨_, rfl, by simp [Scene.place, hi.blocks], Scene.interned_denotes tag hi hf.within⟩
  | _ =>
    rw [hty] at h
    exact (throw_ok.1 h).elim

variable {args : List Value} {c : Cursor} {ds : List Datum}

theorem op_gives (hm : w.module.Sound j) (hr : Ready k s.cursor) {op : Operation}
    {sig : Signature} (h : op.lower sig args s.cursor = .ok vs c)
    (hf : Fits s.cursor c w.module) (hd : w.Denotes s.cursor regs args ds)
    (ht : t.cursor = c) : Gives w s t regs vs asked (op.perform w.oracle ds asked) := by
  obtain ⟨l, hfind, -, hlow⟩ := Operation.lower_ok h
  unfold Operation.perform
  rw [hfind]
  have hreal := Lowering.lower_realizes hm hr (Lowering.find?_plain hfind) op.tag hd
  unfold Gives
  rw [ht]
  exact hreal vs c hlow hf asked

theorem call_gives (hc : Callable w g fs call) (hr : Cursor.Ready k s.cursor) {e : NodeId × FuncId}
    (he : e ∈ fs) (hn : g.node? e.1 = some n) {v : Value}
    (h : Cursor.call e.2 args s.cursor = .ok v c) (hf : Cursor.Fits s.cursor c w.module)
    (hd : w.Denotes s.cursor regs args ds) (hlen : ds.length = n.sig.inputs.length)
    (ht : t.cursor = c) :
    Gives w s t regs (if n.sig.outputs.length = 1 then [v] else []) asked (call e.1 ds asked) := by
  obtain ⟨rfl, rfl⟩ := Cursor.emit_ok.1 h
  obtain ⟨hrest, hinstr⟩ := place_append regs hr.block hf
  have hds : (w.module.instr s.cursor.module.instrTable.size).operands.map
      (w.module.eval w.args (w.place s.cursor regs).regs) = ds := by
    rw [hinstr]
    exact hd.data
  have hact : w.module.act w.args (w.place s.cursor regs) = .ask (.call e.2 ds)
      (fun d => w.place t.cursor (regs.set s.cursor.module.instrTable.size d)) := by
    rw [act_call hrest (by rw [hinstr]; rfl) (by rw [hinstr]; rfl), hds, ht]
    rfl
  obtain ⟨fr, hstart⟩ := hc.start e he
  by_cases hb : w.callers.length < w.bound
  · apply (Follows.call hact hstart hb
      (hc.enter hb e he n hn ds hlen fr hstart _ asked)).mono
    rintro outs fr' ⟨rfl, houts⟩
    refine ⟨_, rfl, .set regs _, ?_⟩
    have hone := hc.single e he n hn
    match outs, houts with
    | [], houts =>
      rw [if_neg (by rw [← houts]; simp)]
      exact .nil
    | [d], houts =>
      have hlen1 : n.sig.outputs.length = 1 := houts.symm
      rw [if_pos hlen1]
      exact .result d (by rw [ht]; simp)
    | _ :: _ :: _, houts =>
      rw [← houts] at hone
      simp at hone
  · rw [hc.deep hb e he ds asked]
    have hdeep : w.step (w.config (w.place s.cursor regs) asked) = _ :=
      step_tooDeep hact hstart hb
    exact ⟨rfl, .halt hdeep⟩

/-! ## Conditionals -/

section

variable (hf : Fits c c w.module) (he : (c.module.block c.block).instrs = [])

include hf he

theorem unwritten : w.module.phis c.block = [] ∧ w.module.code c.block = (w.place c regs).rest := by
  obtain ⟨more, hi, hp⟩ := hf.rest
  unfold phis code
  simp only [Scene.place, he, length_nil, drop_zero, hi]
  cases more with
  | nil => exact ⟨rfl, rfl⟩
  | cons i more => simp [hp i (by simp)]

theorem enter_place (source : BlockId) :
    w.module.enter w.args regs source c.block = w.place c regs := by
  obtain ⟨hphis, hcode⟩ : _ ∧ _ = (w.place c regs).rest := unwritten hf he
  have hregs : w.module.enterRegs w.args regs source c.block = regs := by
    funext i
    simp [enterRegs, hphis]
  rw [enter, hcode, hregs]
  rfl

end

theorem takeWhile_append_phis {m : Module} {ids more : List InstrId}
    (hids : ∀ i ∈ ids, (m.instr i).op = .phi) (hmore : ∀ i ∈ more, (m.instr i).op ≠ .phi) :
    (ids ++ more).takeWhile (fun i => (m.instr i).op == .phi) = ids ∧
      (ids ++ more).dropWhile (fun i => (m.instr i).op == .phi) = more := by
  induction ids with
  | nil =>
    cases more with
    | nil => exact ⟨rfl, rfl⟩
    | cons i more => simp [hmore i (by simp)]
  | cons i ids ih =>
    obtain ⟨h1, h2⟩ := ih fun j hj => hids j (by simp [hj])
    simp [hids i (by simp), h1, h2]

/-- A block that starts with phis, as it stands in the finished module. -/
structure Joins (w : Scene) (b : BlockId) (ids : List InstrId) (c : Cursor) : Prop where
  block : c.block = b
  written : (c.module.block b).instrs = ids
  phi : ∀ i ∈ ids, (w.module.instr i).op = .phi
  rest : ∃ more, (w.module.block b).instrs = ids ++ more ∧ ∀ i ∈ more, (w.module.instr i).op ≠ .phi
  count : ∀ i ∈ ids, i < c.module.instrTable.size

theorem join_gives {c' : Cursor} {b : BlockId} {ids : List InstrId} {es : List Datum}
    (hr : Ready k c) (hj : Joins w b ids c')
    (hf : Fits c { c with module := (c.module.append c.block (Instr.br (some b))).2 }
      w.module) (hin : ids.map (fun i => w.module.incoming? i c.block) = vs.map some)
    (hnew : ∀ i ∈ ids, c.module.instrTable.size ≤ i) (hd : w.Denotes c regs vs es) :
    ∃ regs', Leads w.step (w.config (w.place c regs) asked) (w.config (w.place c' regs') asked) ∧
      c.Agrees regs regs' ∧ w.Denotes c' regs' (ids.map Value.instr) es := by
  obtain ⟨hrest, hinstr⟩ := Scene.place_append regs hr.block hf
  have hact : w.module.act w.args (w.place c regs) =
      .silent (w.module.enter w.args regs c.block b) := by
    rw [act_br hrest (by rw [hinstr]; rfl), hinstr]
    rfl
  obtain ⟨more, hi, hp⟩ := hj.rest
  have hparts := takeWhile_append_phis hj.phi hp
  have hphis : w.module.phis b = ids := by
    rw [phis, hi]
    exact hparts.1
  have hcode : w.module.code b = more := by
    rw [code, hi]
    exact hparts.2
  have hplace : w.module.enter w.args regs c.block b =
      w.place c' (w.module.enterRegs w.args regs c.block b) := by
    simp [enter, Scene.place, hcode, hj.block, hi, hj.written]
  rw [hplace] at hact
  refine ⟨_, Leads.single (step_silent hact), ?_, ?_, ?_⟩
  · intro i hlt
    have hni : i ∉ ids := fun hmem => Nat.lt_irrefl i (Nat.lt_of_lt_of_le hlt (hnew i hmem))
    simp [enterRegs, hphis, hni]
  · intro v hv j hvj
    obtain ⟨i, hmem, rfl⟩ := mem_map.mp hv
    cases hvj
    exact hj.count _ hmem
  · have hval : ∀ i ∈ ids, w.module.enterRegs w.args regs c.block b i =
        ((w.module.incoming? i c.block).map (w.value regs)).getD .undefined := by
      intro i hmem
      simp only [enterRegs, hphis, hmem, if_true]
      rfl
    calc (ids.map Value.instr).map (w.value (w.module.enterRegs w.args regs c.block b))
        = ids.map (fun i => ((w.module.incoming? i c.block).map (w.value regs)).getD .undefined) := by
          rw [map_map]
          exact map_congr_left hval
      _ = (ids.map (fun i => w.module.incoming? i c.block)).map
            (fun o => (o.map (w.value regs)).getD .undefined) := by rw [map_map]; rfl
      _ = vs.map (w.value regs) := by rw [hin, map_map]; rfl
      _ = es := hd.data

section Cases

variable {ts : List ValueType} {predicate : Value} {no yes : NodeId} {args vs ws : List Value}
  {ids : List InstrId} {b : Nat} {f s1 t1 s2 t2 s3 : State}
  (h : Split k g region id ts predicate args no yes vs ws ids b s f s1 t1 s2 t2 s3)

include h in
theorem split_joins (hf : Fits s.cursor s3.cursor w.module) : Joins w (b + 2) ids s3.cursor := by
  have hinstr : ∀ i ∈ ids, w.module.instr i = s3.cursor.module.instr i :=
    fun i hi => hf.within.instr i (h.merged.fresh i hi).2
  refine ⟨h.merge_block, h.merge_instrs, ?_, ?_, fun i hi => (h.merged.fresh i hi).2⟩
  · intro i hi
    rw [hinstr i hi]
    exact h.merged.phi i hi
  · obtain ⟨more, hi, hp⟩ := hf.rest
    rw [h.merge_block, h.merge_instrs] at hi
    exact ⟨more, hi, hp⟩

include h in
theorem fork_leads (hf : Fits s.cursor s3.cursor w.module) {c : Cursor}
    (hc : c.block = if (w.value regs predicate).isTrue then b + 1 else b)
    (hfit : Fits c c w.module) (hempty : (c.module.block c.block).instrs = []) :
    Leads w.step (w.config (w.place s.cursor regs) asked) (w.config (w.place c regs) asked) := by
  obtain ⟨hblock, hinstr⟩ := h.opening hf
  have hrest : (w.place s.cursor regs).rest = s.cursor.module.instrTable.size :: [] := by
    simp [Scene.place, hblock]
  have hact : w.module.act w.args (w.place s.cursor regs) = .silent (w.place c regs) := by
    rw [act_condBr hrest (by rw [hinstr]; rfl), hinstr, ← enter_place hfit hempty
      s.cursor.block, hc]
    change w.module.jump _ _ (if (w.value regs predicate).isTrue then _ else _) = _
    split <;> rfl
  exact .single (step_silent hact)

theorem case_gives (hfaith : Faithful w k g fs region eval) {case : NodeId} {u v x : State}
    (hcase : region case args u = .ok vs v) (hin : Advances k (g.Under case) u v)
    (hleave : Advances k (g.Under case) v x) (hleft : x = v.append (Instr.br (some (b + 2))))
    (hfs : u.functions = fs) (hfresh : Fresh g case u) (hfit : Fits u.cursor x.cursor w.module)
    (hj : Joins w (b + 2) ids s3.cursor)
    (hread : ids.map (fun i => w.module.incoming? i v.cursor.block) = vs.map some)
    (hnew : ∀ i ∈ ids, v.cursor.module.instrTable.size ≤ i) {ds : List Datum}
    (hd : w.Denotes u.cursor regs args ds) :
    Gives w u s3 regs (ids.map Value.instr) asked (eval case ds asked) := by
  have hfit1 := hfit.first hin.grows hin.ready hleave.grows hleave.ready.sound
  have hfit2 := hfit.second hin.grows
  have hbody := hfaith case args u vs v hcase hin.start hfs hfresh hfit1 regs ds hd asked
  apply Follows.extend hbody
  rintro es fr asked' ⟨regs', rfl, hagree, hden⟩
  subst hleft
  obtain ⟨regs'', hl, hagree', hden'⟩ := join_gives hin.ready hj hfit2 hread hnew hden
  exact ⟨_, hl, regs'', rfl, hagree.trans hin.grows.within hagree', hden'⟩

include h in
theorem Split.fresh_no (hfresh : Fresh g id s) : Fresh g no (f.moveTo b) := by
  exact fun p hp => h.fork.values ▸ hfresh p (h.below _ (.inl hp))

include h in
theorem Split.fresh_yes (hfresh : Fresh g id s) : Fresh g yes (t1.moveTo (b + 1)) := by
  intro p hp
  have hval : portValue t1.values p = portValue f.values p :=
    h.throughNo.values p (h.disjoint p.node hp)
  exact hval.trans (h.fork.values ▸ hfresh p (h.below _ (.inr hp)))

include h in
theorem conditional_gives (hfaith : Faithful w k g fs region eval) (hfs : s.functions = fs)
    (hfresh : Fresh g id s) (hf : Fits s.cursor s3.cursor w.module) {d : Datum} {ds : List Datum}
    (hp : w.value regs predicate = d) (hd : w.Denotes s.cursor regs args ds) :
    Gives w s s3 regs (ids.map Value.instr) asked
      (eval (if d.isTrue then yes else no) ds asked) := by
  subst hp
  have hj := split_joins h hf
  have hfitNo := h.fits_no hf
  have hfitYes := h.fits_yes hf
  have hincoming : ∀ source, ids.map (fun i => w.module.incoming? i source) =
      ids.map (fun i => s3.cursor.module.incoming? i source) := by
    intro source
    apply map_congr_left
    intro i hi
    simp [incoming?, hf.within.instr i (h.merged.fresh i hi).2]
  have hff := h.fork.functions
  have hw := h.fork.within
  have hw1 : f.cursor.module.Within t1.cursor.module := h.throughNo.grows.within
  have hnew : ∀ i ∈ ids, t2.cursor.module.instrTable.size ≤ i := fun i hi => (h.merged.fresh i hi).1
  have hagree := Agrees.refl s.cursor regs
  split
  · rename_i htrue
    have hstart := hfitYes.first (.refl _) h.inYes.start h.throughYes.grows h.leaveYes.ready.sound
    have hread : ids.map (fun i => w.module.incoming? i s2.cursor.block) = ws.map some := by
      rw [hincoming, h.merged.fromYes h.ends_ne]
    apply Follows.lead (fork_leads h hf (if_pos htrue).symm hstart
      (h.still_empty (b + 1) (by omega) (by omega)))
    apply (case_gives hfaith h.runYes h.inYes h.leaveYes h.leftYes
      (h.throughNo.functions.trans (hff.trans hfs)) (h.fresh_yes hfresh) hfitYes hj hread
      (fun i hi => Nat.le_trans h.leaveYes.grows.within.instrs (hnew i hi))
      (hd.mono (hw.trans hw1) hagree)).mono
    rintro es fr ⟨regs', rfl, ha, hden⟩
    exact ⟨regs', rfl, hagree.trans (hw.trans hw1) ha, hden⟩
  · rename_i hfalse
    have hstart := hfitNo.first (.refl _) h.inNo.start h.throughNo.grows h.leaveNo.ready.sound
    have hread : ids.map (fun i => w.module.incoming? i s1.cursor.block) = vs.map some := by
      rw [hincoming, h.merged.fromNo]
    have hlater : s1.cursor.module.Within t2.cursor.module :=
      h.leaveNo.grows.within.trans h.throughYes.grows.within
    apply Follows.lead (fork_leads h hf (if_neg hfalse).symm hstart (h.fork.fresh b (Nat.le_refl b)))
    apply (case_gives hfaith h.runNo h.inNo h.leaveNo h.leftNo (hff.trans hfs) (h.fresh_no hfresh)
      hfitNo hj hread (fun i hi => Nat.le_trans hlater.instrs (hnew i hi)) (hd.mono hw hagree)).mono
    rintro es fr ⟨regs', rfl, ha, hden⟩
    exact ⟨regs', rfl, hagree.trans hw ha, hden⟩

end Cases

/-! ## Nodes and regions -/

theorem fresh_behind (ha : g.Arena) {c : NodeId} {ids : List NodeId} (hnodup : (c :: ids).Nodup)
    (hch : ∀ d ∈ c :: ids, ∃ n, g.node? d = some n ∧ n.parent = some r)
    (hfresh : ∀ d ∈ c :: ids, Fresh g d s) (hadv : Advances k (fun x => x = c ∨ g.Under c x) s t) :
    ∀ d ∈ ids, Fresh g d t := by
  intro d hd p hpd
  obtain ⟨n, hn, hp⟩ := hch c (by simp)
  obtain ⟨nd, hnd, hpd'⟩ := hch d (by simp [hd])
  have hne : c ≠ d := fun hcd => (nodup_cons.1 hnodup).1 (hcd ▸ hd)
  rw [hadv.values p, hfresh d (by simp [hd]) p hpd]
  rintro (hpc | hpc)
  · exact not_under_sibling ha hnd hpd' hn hp (hpc ▸ hpd)
  · exact under_siblings_disjoint ha hne hn hp hnd hpd' hpc hpd

theorem fresh_inside (ha : g.Arena) (hfresh : Fresh g id s) {first last : NodeId}
    {ids : List NodeId}
    (hch : ∀ c ∈ first :: last :: ids, ∃ n, g.node? c = some n ∧ n.parent = some id)
    (args : List Value) : ∀ c ∈ ids, Fresh g c { s with values := keep first args s.values } := by
  intro c hc p hp
  obtain ⟨nf, hnf, hpf⟩ := hch first (by simp)
  obtain ⟨nc, hnc, hpc⟩ := hch c (by simp [hc])
  have hne : p.node ≠ first := fun he => not_under_sibling ha hnc hpc hnf hpf (he ▸ hp)
  exact (portValue_keep_ne first args s.values hne).trans
    (hfresh p ((Under.child hnc hpc).trans hp))

/-- The function that a call node calls has the signature of the node. -/
theorem callee_emitted (ha : g.Arena) (hck : g.check = .ok ()) (hn : g.node? id = some n)
    (hk : n.kind = .call) {e : NodeId × FuncId}
    (he : fs.find? (fun e => some e.1 == n.body.callee) = some e) :
    e ∈ fs ∧ n.body.callee = some e.1 ∧ ∃ fn, g.node? e.1 = some fn ∧ fn.sig = n.sig := by
  obtain ⟨callee, fn, hcallee, hfn, -, hsig⟩ := (lawful_of_check ha hck).call _ _ hn hk
  have hname : some e.1 = n.body.callee := by simpa using find?_some he
  rw [hcallee] at hname
  cases hname
  exact ⟨mem_of_find?_eq_some he, hcallee, fn, hfn, hsig⟩

theorem EnvMatches.mono {u : State} {regs' : Registers} (he : EnvMatches w g r s regs env)
    (hw : s.cursor.module.Within u.cursor.module) (hagree : s.cursor.Agrees regs regs')
    (hv : ∀ p n, g.node? p.node = some n → n.parent = some r →
      portValue u.values p = portValue s.values p) : EnvMatches w g r u regs' env where
  data p n hn hp := by
    rw [he.data p n hn hp, hv p n hn hp]
    cases hval : portValue s.values p with
    | none => rfl
    | some v =>
      simp only [Option.map_some, Option.some.injEq]
      exact (value_agrees (he.old p n v hn hp hval) hagree).symm
  old p n v hn hp hval i hi := by
    rw [hv p n hn hp] at hval
    exact Nat.lt_of_lt_of_le (he.old p n v hn hp hval i hi) hw.instrs

theorem EnvMatches.keep {es : List Datum} (he : EnvMatches w g r s regs env)
    (hd : w.Denotes s.cursor regs vs es) (ht : t.cursor = s.cursor)
    (hv : t.values = keep id vs s.values) : EnvMatches w g r t regs (keep id es env) where
  data p n hn hp := by
    rw [hv, ← hd.data]
    exact portValue_keepFrom_map _ id 0 vs _ _ p (he.data p n hn hp)
  old p n v hn hp hval := by
    rw [ht]
    rw [hv] at hval
    rcases portValue_keepFrom_at id 0 vs _ p hval with ⟨i, -, hi⟩ | hold
    · exact hd.old v (mem_of_getElem? hi)
    · exact he.old p n v hn hp hold

section Nodes

variable (ha : g.Arena) (hck : g.check = .ok ()) (hm : w.module.Sound j)
  (ho : Orderly k g region) (hfaith : Faithful w k g fs region eval) (hc : Callable w g fs call)
include ha hck hm ho hfaith hc

section

variable (hr : Ready k s.cursor) (hfs : s.functions = fs) (hfresh : Fresh g id s)
  (hn : g.node? id = some n)

include hr hfs hfresh hn

variable (hp : n.parent = some r) (h : NodeEmitted g region id n s t)
  (hf : Fits s.cursor t.cursor w.module) (he : EnvMatches w g r s regs env)

include hp h hf he

theorem node_gives : ∃ vs kept, t.values = keep id vs kept ∧
      (∀ p, ¬g.Under id p.node → portValue kept p = portValue s.values p) ∧
      Gives w s t regs vs asked
        (evalBody w.oracle call eval id n (g.inputValues env id) asked) := by
  cases h with
  | const hk hv =>
    obtain ⟨d, hd, hplace, hden⟩ := constant_gives regs hr hv hf
    refine ⟨_, _, rfl, (constant_advances hr hv).1.values, ?_⟩
    unfold evalBody
    rw [hk, hd]
    exact ⟨_, .refl _, regs, hplace, .refl _ _, hden⟩
  | op hk hargs hl =>
    obtain ⟨ds, hds, hden, -⟩ := inputValues_denote ha he hn hp hargs
    refine ⟨_, s.values, rfl, fun _ _ => rfl, ?_⟩
    unfold evalBody
    rw [hk, hds]
    exact op_gives hm hr hl hf hden rfl
  | @call e args v c hk hfind hargs hcall =>
    obtain ⟨ds, hds, hden, hlen⟩ := inputValues_denote ha he hn hp hargs
    obtain ⟨hmem, hcallee, fn, hfn, hsig⟩ := callee_emitted ha hck hn hk (hfs ▸ hfind)
    have hin : ds.length = fn.sig.inputs.length := by
      rw [hlen, ha.inputs id n hn, hk, hsig]
      rfl
    refine ⟨if n.sig.outputs.length = 1 then [v] else [], s.values, ?_, fun _ _ => rfl, ?_⟩
    · split <;> rfl
    unfold evalBody
    rw [hk, hds, hcallee, ← hsig]
    exact call_gives hc hr hmem hfn hcall hf hden hin rfl
  | dfg hk hargs hreg =>
    obtain ⟨ds, hds, hden, -⟩ := inputValues_denote ha he hn hp hargs
    refine ⟨_, _, rfl, fun p hp => (ho _ _ _ _ _ hr hreg).values p hp, ?_⟩
    unfold evalBody
    rw [hk, hds]
    exact hfaith _ _ _ _ _ hreg hr hfs hfresh hf regs ds hden asked
  | @conditional predicate args vs ws phis no yes b s1 s2 s3 hk hargs hch hcases =>
    obtain ⟨ids, f, t1, t2, rfl, hs⟩ := split_of_emitted ha ho hr hn hch hcases
    obtain ⟨ds, hds, hden, -⟩ := inputValues_denote ha he hn hp hargs
    obtain ⟨d, es, rfl, hpred, hrest⟩ := hden.head
    refine ⟨_, s3.values, rfl, hs.values, ?_⟩
    have hd : w.value regs predicate = d := by simpa using hpred.data
    have hsel : n.children[if d.isTrue then 1 else 0]? = some (if d.isTrue then yes else no) := by
      rw [hch]
      cases d.isTrue <;> rfl
    unfold evalBody
    rw [hk, hds]
    simp only [Eval.ofOption_some_bind, hsel]
    exact conditional_gives hs hfaith hfs hfresh hf hd hrest

theorem node_follows :
    w.Follows (w.place s.cursor regs) asked (evalNode g w.oracle call eval env id asked)
      fun env' fr => ∃ regs', fr = w.place t.cursor regs' ∧ s.cursor.Agrees regs regs' ∧
        EnvMatches w g r t regs' env' := by
  obtain ⟨vs, kept, hv, hkept, hgives⟩ := node_gives ha hck hm ho hfaith hc hr hfs hfresh hn hp h hf he
  unfold evalNode
  rw [hn]
  apply Follows.bind hgives
  rintro es fr asked' ⟨regs', rfl, hagree, hden⟩
  refine Follows.pure ⟨regs', rfl, hagree, ?_⟩
  have hw := (node_advances ha ho hr hn h).grows.within
  have hbefore : EnvMatches w g r { t with values := kept } regs' env := by
    refine he.mono hw hagree fun p np hnp hpp => ?_
    exact hkept p (not_under_sibling ha hn hp hnp hpp)
  exact hbefore.keep hden rfl hv

end

theorem nodes_follow {ids : List NodeId} (hnodup : ids.Nodup)
    (hch : ∀ c ∈ ids, ∃ n, g.node? c = some n ∧ n.parent = some r)
    (hr : Ready k s.cursor) (hfs : s.functions = fs) (hfresh : ∀ c ∈ ids, Fresh g c s)
    (h : ids.forM (node g region) s = .ok ⟨⟩ t) (hf : Fits s.cursor t.cursor w.module)
    (he : EnvMatches w g r s regs env) :
    w.Follows (w.place s.cursor regs) asked (ids.foldlM (evalNode g w.oracle call eval) env asked)
      fun env' fr => ∃ regs', fr = w.place t.cursor regs' ∧ s.cursor.Agrees regs regs' ∧
        EnvMatches w g r t regs' env' := by
  induction ids generalizing s regs env asked with
  | nil =>
    obtain rfl := forM_nil_ok.1 h
    exact Follows.pure ⟨regs, rfl, .refl _ _, he⟩
  | cons c ids ih =>
    obtain ⟨s1, hnode, hrest⟩ := forM_cons_ok.1 h
    obtain ⟨n, hn, hemit⟩ := node_emitted hnode
    obtain ⟨n', hn', hp⟩ := hch c (by simp)
    cases hn.symm.trans hn'
    have hadv := node_advances ha ho hr hn hemit
    have hadv' : Advances k (fun _ => True) s1 t :=
      nodes_advance ha ho (fun _ _ _ _ => trivial) hadv.ready hrest
    apply Follows.bind (node_follows ha hck hm ho hfaith hc hr hfs (hfresh c (by simp)) hn hp
      hemit (hf.first hadv.grows hadv.ready hadv'.grows hadv'.ready.sound) he)
    rintro env' fr asked' ⟨regs', rfl, hagree, he'⟩
    apply (ih (nodup_cons.1 hnodup).2 (fun d hd => hch d (by simp [hd])) hadv.ready
      (hadv.functions.trans hfs) (fresh_behind ha hnodup hch hfresh hadv) hrest
      (hf.second hadv.grows) he').mono
    rintro env'' fr ⟨regs'', rfl, hagree', he''⟩
    exact ⟨regs'', rfl, hagree.trans hadv.grows.within hagree', he''⟩

theorem regionWith_faithful :
    Faithful w k g fs (regionWith g region) (evalRegionWith g w.oracle call eval) := by
  intro id args s outs t h hr hfs hfresh hf regs ds hd asked
  obtain ⟨n, first, last, order, ids, hemit⟩ := regionWith_ok ha h
  obtain rfl := hemit.between
  have hempty : EnvMatches w g id s regs [] := by
    have hnone : ∀ p np, g.node? p.node = some np → np.parent = some id →
        portValue s.values p = none := fun p np hnp hpp => hfresh p (.child hnp hpp)
    refine ⟨fun p np hnp hpp => ?_, fun p np v hnp hpp hv => ?_⟩
    · rw [hnone p np hnp hpp]
      rfl
    · rw [hnone p np hnp hpp] at hv
      cases hv
  have hstart : EnvMatches w g id { s with values := keep first args s.values } regs
      (keep first ds []) := hempty.keep hd rfl rfl
  unfold Gives evalRegionWith
  rw [hemit.boundary, hemit.sorted]
  apply Follows.bind (nodes_follow (s := { s with values := keep first args s.values })
    ha hck hm ho hfaith hc hemit.nodup (fun c hc => hemit.child c (by simp [hc])) hr hfs
    (fresh_inside ha hfresh hemit.child args) hemit.run hf hstart)
  rintro env fr asked' ⟨regs', rfl, hagree, he⟩
  obtain ⟨nl, hnl, hpl⟩ := hemit.child last (by simp)
  obtain ⟨es, hes, hden, -⟩ := inputValues_denote ha he hnl hpl hemit.outs
  rw [hes]
  exact Follows.pure ⟨regs', rfl, hagree, hden⟩

end Nodes

theorem region_faithful (ha : g.Arena) (hck : g.check = .ok ()) (hm : w.module.Sound j)
    (hc : Callable w g fs call) (depth : Nat) :
    Faithful w k g fs (Emission.region g depth) (evalRegion g w.oracle call depth) := by
  induction depth with
  | zero =>
    intro id args s outs t h
    exact (throw_ok.1 h).elim
  | succ depth ih => exact regionWith_faithful ha hck hm (region_advances ha depth) ih hc

end Qirc.Emission
