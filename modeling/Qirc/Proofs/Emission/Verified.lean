import Qirc.Proofs.Emission.Sealed

/-!
# Emitted modules are accepted

A body starts in an empty block of its own and ends in a return. Its blocks are the ones that were
finished on the way and the one it ends in, and all of them can be reached. So the verifier finds
nothing in a body, and nothing in the module.
-/

namespace Qirc.Emission

open List IR Qirc.Graph Cursor IR.Module

variable {m : Module} {f : FuncId} {j k : Nat} {g : Graph} {fs : List (NodeId × FuncId)}
  {id : NodeId} {n : Node} {s t : State} {vs : List Value}

theorem forall₂_of_mapM_ok {α β : Type} {h : α → Except Failure β} {xs : List α} {ys : List β}
    (hm : xs.mapM h = .ok ys) : Forall₂ (fun x y => h x = .ok y) xs ys := by
  induction xs generalizing ys with
  | nil =>
    cases hm
    exact .nil
  | cons x xs ih =>
    rw [mapM_cons] at hm
    obtain ⟨y, hy, hm⟩ := Step.except_bind_ok.1 hm
    obtain ⟨rest, hrest, hm⟩ := Step.except_bind_ok.1 hm
    cases hm
    exact .cons hy (ih hrest)

variable {sig : Signature} {e : BlockId} {c : Cursor}

theorem params_hold (hproto : prototype sig = .ok (m.func f).proto) :
    HoldAll m f e c ((range sig.inputs.length).map (Value.param f)) sig.inputs := by
  have htypes := forall₂_of_mapM_ok (prototype_types hproto).1
  refine forall₂_iff_get.2 ⟨by simp, fun i h1 h2 => ?_⟩
  have hlt : i < (m.func f).proto.params.length := htypes.length_eq ▸ h2
  refine ⟨_, htypes.get h2 hlt, ?_⟩
  have hty : m.typeOf (.param f i) = (m.func f).proto.params.get ⟨i, hlt⟩ := by
    simp [typeOf, getD_eq_getElem?_getD, getElem?_eq_getElem hlt]
  rw [← hty, get_eq_getElem, getElem_map, getElem_range]
  exact .constant (by simp [operandDefect?]) (by simp [Value.isLocal]) fun _ => by simp

theorem returning_typed (hproto : prototype sig = .ok (m.func f).proto)
    (hvs : HoldAll m f e c vs sig.outputs) :
    m.instrDefect? f (returning vs) [] = .ok none ∧
      ∀ v ∈ (returning vs).operands, ∃ ty, Serves m f e c v ty := by
  obtain ⟨hout, hret⟩ | ⟨vt, hout, hret⟩ := (prototype_types hproto).2
  · rw [hout] at hvs
    cases hvs
    refine ⟨?_, fun v hv => by simp [returning, Instr.retVoid] at hv⟩
    simp [instrDefect?, returning, Instr.retVoid, retDefect?, hret, Ty.isVoid]
  · rw [hout] at hvs
    obtain ⟨v, rest, hv, hrest, rfl⟩ := forall₂_cons_right_iff.1 hvs
    cases hrest
    have hserve := hv.serves hret
    refine ⟨?_, fun u hu => ?_⟩
    · simp [instrDefect?, returning, Instr.ret, retDefect?, ty_not_void hret,
        hserve.operandType, Bind.bind, Except.bind]
    · obtain rfl : u = v := by simpa [returning, Instr.ret] using hu
      exact ⟨_, hserve⟩

/-! ## The blocks of a body -/

namespace Spans

variable (h : Spans g fs id f m k s t vs) (ha : g.Arena)

include h

theorem opened : Open s.cursor := by
  unfold Open
  rw [h.empty]
  exact .nil _

variable {x : Nat}

theorem block_cases (hm : m.Sound j) (hx : x ∈ (m.func f).blocks) :
    x = t.cursor.block ∨ Finished s.cursor t.cursor x := by
  obtain ⟨hge, hlt⟩ := h.extent x ((hm.linked.block f x).1 hx)
  by_cases hne : x = t.cursor.block
  · exact .inl hne
  refine .inr ⟨?_, hlt, hne⟩
  rw [h.last]
  exact (Nat.eq_or_lt_of_le hge).imp_left Eq.symm

include ha

theorem advances : Advances k (g.Under id) s t := region_advances ha _ _ _ _ _ _ h.start h.region

theorem leaves : Grows t.cursor (t.append (returning vs)).cursor :=
  .append (h.advances ha).ready (returning_ne_phi vs)

theorem within : Fits s.cursor t.cursor m :=
  h.fits.first (h.advances ha).grows (h.advances ha).ready (h.leaves ha) h.finish.sound

theorem old_within : s.cursor.module.Within m :=
  (h.advances ha).grows.within.trans (h.within ha).within

theorem site : Site k f s.cursor := by
  refine ⟨h.start, ?_⟩
  rw [← (h.old_within ha).parent _ h.start.block]
  exact h.parent

theorem laid : Laid m s.cursor t.cursor :=
  region_laid ha _ _ _ _ _ _ h.start h.region (h.within ha) h.opened

theorem ending :
    (m.Shaped t.cursor.block ∧ m.targets t.cursor.block = []) ∧
      m.instr t.cursor.module.instrTable.size =
        { returning vs with parent := some t.cursor.block } := by
  have hr := (h.advances ha).ready
  have hinstr : m.instr t.cursor.module.instrTable.size =
      { returning vs with parent := some t.cursor.block } := appended_instr h.fits.within
  have hblock : (m.block t.cursor.block).instrs =
      (t.cursor.module.block t.cursor.block).instrs ++ [t.cursor.module.instrTable.size] := by
    rw [h.kept _ hr.block]
    exact append_current hr.block _
  have hop : (returning vs).op.isTerminator = true := by cases vs <;> rfl
  obtain ⟨hshape, htargets⟩ := (h.laid ha).opened.close hr (h.within ha).within hblock hinstr hop
  refine ⟨⟨hshape, htargets.trans ?_⟩, hinstr⟩
  cases vs <;> rfl

variable (hm : m.Sound j)

include hm

theorem mem_blocks (hge : s.cursor.module.blockTable.size ≤ x)
    (hlt : x < t.cursor.module.blockTable.size) : x ∈ (m.func f).blocks := by
  rw [hm.linked.block, (h.within ha).within.parent x hlt, (h.advances ha).grows.added x hge hlt]
  exact (h.site ha).parent

theorem shaped (hx : x ∈ (m.func f).blocks) : m.Shaped x := by
  obtain rfl | hx := h.block_cases hm hx
  · exact (h.ending ha).1.1
  · exact (h.laid ha).shaped x hx

theorem targets (hx : x ∈ (m.func f).blocks) {target : Option BlockId} (ht : target ∈ m.targets x) :
    ∃ y : Nat, target = some y ∧ y ∈ (m.func f).blocks ∧
      s.cursor.module.blockTable.size ≤ y := by
  obtain rfl | hx := h.block_cases hm hx
  · rw [(h.ending ha).1.2] at ht
    cases ht
  · obtain ⟨y, rfl, hge, hlt⟩ := (h.laid ha).targets x hx target ht
    exact ⟨y, rfl, h.mem_blocks ha hm hge hlt, hge⟩

theorem apart : Apart m f s.cursor t.cursor := by
  intro p hp hnot y hy
  obtain rfl | hfin := h.block_cases hm hp
  · rw [(h.ending ha).1.2] at hy
    cases hy
  · exact absurd hfin hnot

theorem reached (hx : x ∈ (m.func f).blocks) : Reached m.successors s.cursor.block x := by
  obtain ⟨hge, hlt⟩ := h.extent x ((hm.linked.block f x).1 hx)
  refine (h.laid ha).reached _ Reached.entry x ?_ hlt
  rw [h.last]
  exact (Nat.eq_or_lt_of_le hge).imp_left Eq.symm

theorem written_on_way {b : BlockId} {i : Nat} (hb : b ∈ (m.func f).blocks)
    (hi : i ∈ (m.block b).instrs) : s.cursor.module.instrTable.size ≤ i ∧
      i < (t.append (returning vs)).cursor.module.instrTable.size := by
  obtain ⟨hge, hlt⟩ := h.extent b ((hm.linked.block f b).1 hb)
  constructor
  · apply Nat.le_of_not_lt
    intro hold
    have hparent := (hm.linked.instr b i).1 hi
    rw [(h.old_within ha).instr i hold] at hparent
    have hmem := (h.start.sound.linked.instr b i).2 hparent
    obtain hb | hb := Nat.eq_or_lt_of_le hge
    · rw [← hb, h.empty] at hmem
      cases hmem
    have hsize : s.cursor.module.blockTable.size ≤ b := h.last ▸ hb
    rw [s.cursor.module.block_of_size_le hsize] at hmem
    cases hmem
  · rw [h.kept b hlt] at hi
    exact h.finish.sound.listed b i hi

/-! ## Acceptance of a body -/

variable (hck : g.check = .ok ()) (hn : g.node? id = some n)
  (hproto : prototype (signatureOf g id) = .ok (m.func f).proto)
  (hprotos : ∀ x ∈ fs, prototype (signatureOf g x.1) = .ok (m.func x.2).proto)

include hck hn hproto hprotos

theorem proper {b : BlockId} {i : InstrId} (hb : b ∈ (m.func f).blocks)
    (hi : i ∈ (m.block b).instrs) : Proper m f s.cursor.block i b := by
  have hg : Ground m f s.cursor.block j g fs := by
    refine ⟨hm, fun x hx d hd => ?_, (hm.linked.block f _).2 h.parent, hprotos⟩
    obtain ⟨y, hy, hmem, -⟩ := h.targets ha hm hx (mem_successors.1 hd)
    cases hy
    exact hmem
  have hs : Standing k f s.cursor.block fs s :=
    ⟨h.site ha, h.opened, h.start.block, h.functions, h.known⟩
  have hsig : signatureOf g id = n.sig := by simp [signatureOf, hn]
  have hargs := params_hold (e := s.cursor.block) (c := s.cursor) hproto
  rw [hsig] at hargs hproto
  have hregion := h.region
  rw [hsig] at hregion
  obtain ⟨hwrite, houts⟩ := region_sealed ha hck hg _ id n _ s vs t hregion hn hs h.fresh
    (h.within ha) (h.apart ha hm) hargs
  obtain ⟨htyped, hserve⟩ := returning_typed hproto houts
  have hret : Written m f s.cursor.block t.cursor (t.append (returning vs)).cursor :=
    written_append (proper_append hm h.fits.within (returning_ne_phi vs) htyped hserve)
  obtain ⟨hge, hlt⟩ := h.written_on_way ha hm hb hi
  obtain ⟨b', hp⟩ := (hwrite.trans hret) i hge hlt
  have hparent := (hm.linked.instr b i).1 hi
  rw [hp.parent] at hparent
  cases hparent
  exact hp

theorem formed : m.Formed f s.cursor.block where
  entry := h.head
  ended b hb := (h.shaped ha hm hb).ended
  inner b hb := (h.shaped ha hm hb).inner
  phisFirst b hb := (h.shaped ha hm hb).phisFirst
  targets b hb target ht := by
    obtain ⟨y, rfl, hmem, -⟩ := h.targets ha hm hb ht
    exact ⟨y, hmem, rfl⟩
  start b hb ht := by
    obtain ⟨y, hy, -, hge⟩ := h.targets ha hm hb ht
    cases hy
    exact absurd h.start.block (Nat.not_lt.2 hge)
  typed b hb i hi := (h.proper ha hm hck hn hproto hprotos hb hi).typed
  phis b hb i hi := (h.proper ha hm hck hn hproto hprotos hb hi).phi
  reads b hb _ i hi := (h.proper ha hm hck hn hproto hprotos hb hi).reads
  takes b hb i hi hop v u hu _ := (h.proper ha hm hck hn hproto hprotos hb hi).takes hop v u hu

theorem accepted : m.functionDefects f = .ok [] := by
  refine (h.formed ha hm hck hn hproto hprotos).accepted hm.linked
    (fun b hb => h.reached ha hm hb) fun i hi => ?_
  obtain ⟨b, hib, hb⟩ := hm.linked.mem_body.1 hi
  exact (h.proper ha hm hck hn hproto hprotos hb ((hm.linked.instr b i).2 hib)).plain

end Spans

/-- The verifier finds nothing in an emitted module. -/
theorem emit_verifies (ha : g.Arena) (hck : g.check = .ok ()) {plain : Bool}
    {name triple layout : String} {e : Emitted}
    (h : g.emit plain { name, triple, layout } = .ok e) : e.module.verify = .ok [] := by
  obtain ⟨ids, base, t, hids, hnodup, htop, hd, hbodies, rfl⟩ := emit_rounds ha h
  obtain ⟨-, hem⟩ := filled_all ha hd hnodup htop hbodies
  refine verify_eq_nil.2 fun f _ =>
    functionReport_eq_nil.2 ⟨hem.sound.owned f, ?_⟩
  rcases Nat.lt_or_ge f ids.length with hlt | hge
  · have hf : ids[f]? = some ids[f] := getElem?_eq_getElem hlt
    obtain ⟨k, s, u, vs, hspans⟩ := (hem.filled f _ hf).spans
    obtain ⟨n, hn, -, -⟩ := htop _ (getElem_mem hlt)
    exact .inr (hspans.accepted ha hem.sound hck hn (hem.proto f _ hf)
      fun x hx => hem.proto x.2 x.1 (hem.entries x hx))
  · exact .inl (by simp [Function.isDeclaration, hem.sound.bare f hge])

/-- A conditional with a value: its cases give what they take, or true. -/
def valueOfCases : Graph :=
  { nodes := #[
      { Node.fresh (NodeBody.ofKind .module ⟨[], []⟩) .none with children := [1] },
      { Node.fresh { NodeBody.ofKind .funcDefn ⟨[.bool], []⟩ with name := "main" } (some 0) with
        children := [2, 3, 4, 12] },
      plainNode .input ⟨[], [.bool]⟩ 1 [],
      plainNode .output ⟨[], []⟩ 1 [],
      plainNode .conditional ⟨[.bool, .bool], [.bool]⟩ 1 [5, 8],
      plainNode .case ⟨[.bool], [.bool]⟩ 4 [6, 7],
      plainNode .input ⟨[], [.bool]⟩ 5 [],
      plainNode .output ⟨[.bool], []⟩ 5 [],
      plainNode .case ⟨[.bool], [.bool]⟩ 4 [9, 10, 11],
      plainNode .input ⟨[], [.bool]⟩ 8 [],
      plainNode .output ⟨[.bool], []⟩ 8 [],
      Node.fresh { NodeBody.ofKind .const ⟨[], [.bool]⟩ with
        const := { Payload.zero .bool with bool := true } } (some 8),
      Node.fresh { NodeBody.ofKind .op ⟨[.bool], []⟩ with
        op := ⟨⟨"tket2.result", "result_bool"⟩, "chosen", ""⟩ } (some 1)]
    edges := [⟨⟨2, 0⟩, ⟨4, 0⟩⟩, ⟨⟨2, 0⟩, ⟨4, 1⟩⟩, ⟨⟨6, 0⟩, ⟨7, 0⟩⟩, ⟨⟨11, 0⟩, ⟨10, 0⟩⟩,
      ⟨⟨4, 0⟩, ⟨12, 0⟩⟩] }

theorem emit_verifies_valueOfCases :
    ∃ e, valueOfCases.emit true { name := "sample" } = .ok e ∧ e.module.verify = .ok [] := by
  have hcheck : valueOfCases.check = .ok () := check_ok_iff.mpr rfl
  have hok : (valueOfCases.emit true { name := "sample" }).isOk = true := by decide +kernel
  cases he : valueOfCases.emit true { name := "sample" } with
  | error err =>
    rw [he] at hok
    cases hok
  | ok e => exact ⟨e, rfl, emit_verifies (arena_of_isArena (by decide +kernel)) hcheck he⟩

end Qirc.Emission
