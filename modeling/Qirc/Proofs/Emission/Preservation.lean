import Qirc.Proofs.Emission.Functions

/-!
# Emission preserves meaning

A function of an emitted module asks the world the same questions in the same order as the function
of the graph it stands for, and returns what that gives. The proof goes by the calls that are still
allowed.
-/

namespace Qirc.Emission

open List IR Qirc.Graph

variable {g : Graph} {plain : Bool} {fs : List (NodeId × FuncId)} {ids : List NodeId} {m : Module}
  {w : Scene} {id : NodeId} {n : Node}

/-- Evaluates calls of functions, as deep as it is allowed to. -/
def callEvaluator (g : Graph) (o : Oracle) : Nat → Evaluator
  | 0 => fun _ _ => throw .tooDeep
  | bound + 1 => evalFunction g o bound

theorem evalFunction_eq (o : Oracle) (bound : Nat) :
    evalFunction g o bound = evalRegion g o (callEvaluator g o bound) (g.nodes.size + 1) := by
  cases bound <;> rfl

theorem params_denote {f : FuncId} {count : Nat} {c : Cursor} {regs : Registers}
    (h : w.args.length = count) : w.Denotes c regs ((range count).map (Value.param f)) w.args := by
  constructor
  · intro v hv i hi
    obtain ⟨k, -, rfl⟩ := mem_map.1 hv
    cases hi
  · subst h
    rw [map_map]
    apply ext_getElem
    · simp
    intro i h1 h2
    simp [Scene.value, Module.eval, h2]

theorem filled_follows (ha : g.Arena) (hck : g.check = .ok ()) {j : Nat} (hm : w.module.Sound j)
    {call : Evaluator} (hc : Callable w g fs call) {f : FuncId} (hfill : Filled g fs id f w.module)
    (hn : g.node? id = some n) (hargs : w.args.length = n.sig.inputs.length) {fr : Frame}
    (hstart : w.module.start? f = some fr) (asked : List Effect) :
    w.Follows fr asked (evalRegion g w.oracle call (g.nodes.size + 1) id w.args asked)
      fun outs fr' => w.module.act w.args fr' = .ret outs.head? ∧
        outs.length = n.sig.outputs.length := by
  obtain ⟨k, s, t, vs, hs⟩ := hfill.spans
  have hreg := hs.region
  have hlen := hs.length
  have hsig : signatureOf g id = n.sig := by simp [signatureOf, hn]
  rw [hsig] at hreg hlen
  have hin := region_advances ha _ _ _ _ _ _ hs.start hreg
  have hret : Advances k (g.Under id) t (t.append (returning vs)) :=
    append_advances hin.ready (returning_ne_phi vs)
  have hself := hs.fits.first (.refl _) hs.start (hin.trans hret).grows hs.finish.sound
  have hfr : fr = w.place s.cursor Registers.empty := by
    obtain ⟨-, hcode⟩ : _ ∧ _ = (w.place s.cursor Registers.empty).rest := unwritten hself hs.empty
    simp only [Module.start?, Module.entry?, hs.head, Option.map_some, Option.some.injEq, hcode]
      at hstart
    exact hstart.symm
  have hfit1 := hs.fits.first hin.grows hin.ready hret.grows hs.finish.sound
  have hfit2 := hs.fits.second hin.grows
  subst hfr
  apply (region_faithful ha hck hm hc _ _ _ _ _ _ hreg hs.start hs.functions hs.fresh hfit1 _ _
    (params_denote hargs) asked).mono
  rintro outs fr' ⟨regs', rfl, -, hden⟩
  obtain ⟨hrest, hinstr⟩ := Scene.place_append regs' hin.ready.block hfit2
  have houts := hden.data
  constructor
  · rw [Module.act_ret hrest (by rw [hinstr]; cases vs <;> rfl), hinstr, ← houts]
    cases vs <;> rfl
  · rw [← houts, length_map, hlen]

theorem filled_start {f : FuncId} (h : Filled g fs id f m) : ∃ fr, m.start? f = some fr := by
  obtain ⟨_, s, _, _, hs⟩ := h.spans
  exact ⟨⟨s.cursor.block, m.code s.cursor.block, Registers.empty⟩, by
    simp [Module.start?, Module.entry?, hs.head]⟩

theorem emits_callable (ha : g.Arena) (hck : g.check = .ok ()) (he : Emits g plain fs ids m)
    {o : Oracle} {bound : Nat} (hm : w.module = m) (ho : w.oracle = o)
    (hb : w.callers.length + bound = w.bound) : Callable w g fs (callEvaluator g o bound) := by
  have hstart : ∀ e ∈ fs, ∃ fr, m.start? e.2 = some fr :=
    fun e hmem => filled_start (he.filled e.2 e.1 (he.entries e hmem))
  have hsingle : ∀ e ∈ fs, ∀ n, g.node? e.1 = some n → n.sig.outputs.length ≤ 1 := by
    intro e hmem n hn
    have := prototype_outputs (he.proto e.2 e.1 (he.entries e hmem))
    simpa [signatureOf, hn] using this
  induction bound generalizing w with
  | zero =>
    refine ⟨hm ▸ hstart, hsingle, fun _ _ _ _ _ => rfl, ?_⟩
    intro hlt
    omega
  | succ bound ih =>
    refine ⟨hm ▸ hstart, hsingle, ?_, ?_⟩
    · intro hlt
      omega
    intro hlt e hmem n hn ds hlen fr hfr caller asked
    have hc := ih (w := { w with args := ds, callers := caller :: w.callers }) hm ho (by
      simp only [length_cons]
      omega)
    subst hm ho
    rw [callEvaluator, evalFunction_eq]
    exact filled_follows (w := { w with args := ds, callers := caller :: w.callers }) ha hck
      he.sound hc (he.filled e.2 e.1 (he.entries e hmem)) hn hlen hfr asked

theorem mem_functions (ha : g.Arena) (hids : g.functions = .ok ids) (hn : g.node? id = some n)
    (hk : n.kind = .funcDefn) : id ∈ ids := by
  obtain ⟨top, htop, rfl⟩ := functions_ok hids
  obtain ⟨m, hh⟩ := ha.hangs_function hn hk
  have htop' := hh.holder
  rw [htop] at htop'
  cases htop'
  exact mem_filter.2 ⟨hh.listed, by simp [kind?_of_node hn, hk]⟩

/-- The code of a function does what the function is evaluated to. -/
theorem emit_preserves_meaning {name triple layout : String} {e : Emitted} (ha : g.Arena)
    (hck : g.check = .ok ()) (he : g.emit plain { name, triple, layout } = .ok e)
    (hn : g.node? id = some n) (hk : n.kind = .funcDefn) (args : List Datum)
    (hargs : args.length = n.sig.inputs.length) (bound : Nat) (o : Oracle) :
    ∃ f fr, e.module.func? (symbolName plain id n.name) = some f ∧ e.module.start? f = some fr ∧
      match g.evalFunction o bound id args [] with
      | .ok outs asked => ∃ v : Option Datum, outs = v.toList ∧
        Ends (e.module.step o bound) ⟨args, fr, [], []⟩ ⟨.returned v, asked⟩
      | .error .tooDeep asked => Ends (e.module.step o bound) ⟨args, fr, [], []⟩ ⟨.tooDeep, asked⟩
      | .error .stuck _ => False := by
  obtain ⟨fs, ids, hids, hem⟩ := emit_emits ha he
  obtain ⟨j, hj⟩ : ∃ j, ids[j]? = some id := mem_iff_getElem?.mp (mem_functions ha hids hn hk)
  have hfill := hem.filled j id hj
  have hname : g.nameOf id = n.name := by simp [nameOf, hn]
  obtain ⟨fr, hfr⟩ := filled_start hfill
  refine ⟨j, fr, hname ▸ hem.symbol j id hj, hfr, ?_⟩
  let w : Scene := ⟨e.module, o, bound, args, []⟩
  have hc : Callable w g fs (callEvaluator g o bound) :=
    emits_callable ha hck hem rfl rfl (Nat.zero_add bound)
  have hfollow := filled_follows ha hck hem.sound hc hfill hn hargs hfr []
  rw [evalFunction_eq]
  cases hres : evalRegion g o (callEvaluator g o bound) (g.nodes.size + 1) id args [] with
  | ok outs asked =>
    rw [hres] at hfollow
    obtain ⟨fr', hl, hret, hlen⟩ := hfollow
    have hone := prototype_outputs (hem.proto j id hj)
    rw [show signatureOf g id = n.sig by simp [signatureOf, hn], ← hlen] at hone
    refine ⟨outs.head?, ?_, hl.ends (.halt (Module.step_end hret))⟩
    match outs, hone with
    | [], _ => rfl
    | [_], _ => rfl
    | _ :: _ :: _, hone => simp at hone
  | error h asked =>
    rw [hres] at hfollow
    obtain ⟨rfl, hends⟩ := hfollow
    exact hends

/-- A function that calls another one in one case of a conditional; the other one records a value. -/
def callInCase : Graph :=
  let none : Signature := ⟨[], []⟩
  { nodes := #[
      { Node.fresh (NodeBody.ofKind .module none) .none with children := [1, 12] },
      { Node.fresh { NodeBody.ofKind .funcDefn ⟨[.bool], []⟩ with name := "main" } (some 0) with
        children := [2, 3, 4] },
      plainNode .input ⟨[], [.bool]⟩ 1 [],
      plainNode .output none 1 [],
      plainNode .conditional ⟨[.bool], []⟩ 1 [5, 8],
      plainNode .case none 4 [6, 7],
      plainNode .input none 5 [],
      plainNode .output none 5 [],
      plainNode .case none 4 [9, 10, 11],
      plainNode .input none 8 [],
      plainNode .output none 8 [],
      Node.fresh { NodeBody.ofKind .call none with callee := some 12 } (some 8),
      { Node.fresh { NodeBody.ofKind .funcDefn none with name := "ping" } (some 0) with
        children := [13, 14, 15, 16] },
      plainNode .input none 12 [],
      plainNode .output none 12 [],
      Node.fresh { NodeBody.ofKind .const ⟨[], [.bool]⟩ with
        const := { Payload.zero .bool with bool := true } } (some 12),
      Node.fresh { NodeBody.ofKind .op ⟨[.bool], []⟩ with
        op := ⟨⟨"tket2.result", "result_bool"⟩, "hit", ""⟩ } (some 12)]
    edges := [⟨⟨2, 0⟩, ⟨4, 0⟩⟩, ⟨⟨15, 0⟩, ⟨16, 0⟩⟩] }

theorem callInCase_evaluates : callInCase.evalFunction (fun _ _ => .undefined) 1 1 [.bool true] [] =
    .ok [] [.call Intrinsic.recordBool [.bool true, textDatum "hit"]] := by
  rfl

theorem emit_preserves_meaning_callInCase :
    ∃ e f fr, callInCase.emit false { name := "sample" } = .ok e ∧
      e.module.func? (symbolName false 1 "main") = some f ∧ e.module.start? f = some fr ∧
      Ends (e.module.step (fun _ _ => .undefined) 1) ⟨[.bool true], fr, [], []⟩
        ⟨.returned none, [.call Intrinsic.recordBool [.bool true, textDatum "hit"]]⟩ := by
  have hcheck : callInCase.check = .ok () := check_ok_iff.mpr rfl
  have hok : (callInCase.emit false { name := "sample" }).isOk = true := by decide +kernel
  cases he : callInCase.emit false { name := "sample" } with
  | error err =>
    rw [he] at hok
    cases hok
  | ok e =>
    obtain ⟨f, fr, hf, hfr, h⟩ := emit_preserves_meaning (arena_of_isArena (by decide +kernel))
      hcheck he (show callInCase.node? 1 = some _ from rfl) rfl [.bool true] rfl 1 (fun _ _ => .undefined)
    rw [callInCase_evaluates] at h
    obtain ⟨v, hv, hends⟩ := h
    cases v with
    | none => exact ⟨e, f, fr, rfl, hf, hfr, hends⟩
    | some d => cases hv

end Qirc.Emission
