import Qirc.Proofs.Graph.Order
import Qirc.Proofs.Graph.Splice
import Qirc.Proofs.Graph.Upkeep

/-!
# Where copying ends

Inlining makes one node for each node of the body, if the call is outside its callee or directly in
it. Deeper in its callee, the region that the copies are put in is copied itself: whatever the depth
allowed, there is one more copy to make.
-/

namespace Qirc.Graph

open List Step

variable {g h : Graph} {q c x : NodeId}

/-! ## Copies that contain themselves -/

instance : Bearing Keeps := ⟨.of_nodes, .trans⟩

theorem Under.keep (hk : Keeps g h) (hu : Under g c x) : Under h c x := by
  induction hu with
  | child hn hp =>
    obtain ⟨cs, hn'⟩ := hk _ _ hn
    exact .child hn' hp
  | deeper hn hp _ ih =>
    obtain ⟨cs, hn'⟩ := hk _ _ hn
    exact .deeper hn' hp ih

theorem copyTree_keeps {depth : Nat} : Upholds Keeps (copyTree depth q c) g :=
  .of_copyTree fun _ hm => adopt_keeps _ hm

/-- If all subtrees were copied, so was each of them, in an arena that kept what it had. -/
theorem copied_of_mem {depth : Nat} {cs : List NodeId} {made : List NodeMap} (ha : g.Arena)
    (hrun : cs.mapM (copyTree depth q) g = .ok made h) (hc : c ∈ cs) :
    ∃ made' g' h', g'.Arena ∧ Keeps g g' ∧ copyTree depth q c g' = .ok made' h' := by
  induction cs generalizing made g with
  | nil => cases hc
  | cons d cs ih =>
    obtain ⟨one, g', rest, hd, hrest, -⟩ := mapM_cons_ok.1 hrun
    obtain ⟨ha', hk⟩ := copyTree_keeps.ok ha hd
    cases hc with
    | head => exact ⟨one, g, g', ha, Bearing.of_nodes rfl, hd⟩
    | tail _ hc =>
      obtain ⟨_, _, _, ha'', hk', hrun'⟩ := ih ha' hrest hc
      exact ⟨_, _, _, ha'', hk.trans hk', hrun'⟩

theorem place_eq_ok {body : NodeBody} {id : NodeId} (hp : place q body g = .ok id h) :
    ∃ m, g.node? q = some m ∧ m.kind.mayHold body.kind = true ∧ id = g.nodes.size ∧
      h = g.adopt q body := by
  unfold place at hp
  split at hp
  · cases hp
  · rename_i hnone
    cases hp
    obtain ⟨m, hm, hmay⟩ := refusal?_eq_none.1 hnone
    exact ⟨m, hm, hmay, rfl, rfl⟩

/-- A subtree is not copied to its end into a region of its own. -/
theorem copyTree_endless (depth : Nat) (ha : g.Arena) (hq : q = c ∨ Under g c q)
    (made : NodeMap) : copyTree depth q c g ≠ .ok made h := by
  induction depth generalizing g q c made h with
  | zero => exact fun hrun => throw_ok.1 hrun
  | succ depth ih =>
    intro hrun
    rw [copyTree, get_bind] at hrun
    cases hn : g.slot? c with
    | none => exact throw_ok.1 (hn ▸ hrun)
    | some n =>
      simp only [hn] at hrun
      obtain ⟨fresh, g₁, hplace, hrun⟩ := bind_ok.1 hrun
      obtain ⟨below, g₂, hbelow, -⟩ := bind_ok.1 (get_bind (σ := Graph) _ _ ▸ hrun)
      obtain ⟨m, hm, hmay, rfl, rfl⟩ := place_eq_ok hplace
      have ha₁ := ha.adopt hm hmay
      have hk := adopt_keeps n.body hm
      have hfresh := adopt_node_new n.body hm
      -- one step down from `c` towards the new node, which is copied next
      obtain ⟨d, hd, hdown⟩ : ∃ d ∈ (g.adopt q n.body).children c,
          g.nodes.size = d ∨ Under (g.adopt q n.body) d g.nodes.size := by
        obtain rfl | hu := hq
        · refine ⟨g.nodes.size, ?_, .inl rfl⟩
          rw [children_of_node (adopt_node_parent n.body hm)]
          exact mem_append_right _ (mem_singleton.2 rfl)
        · obtain ⟨d, l, hl, hp, hdq⟩ := (hu.keep hk).first_child
          obtain ⟨r, hh⟩ := ha₁.hangs_of_parent hl hp
          exact ⟨d, children_of_node hh.holder ▸ hh.listed, .inr (.of_parent hfresh rfl hdq)⟩
      obtain ⟨made', g', h', ha', hk', hcopy⟩ := copied_of_mem ha₁ hbelow hd
      exact ih ha' (hdown.imp_right fun hu => hu.keep hk') made' hcopy

/-! ## One copy of each node -/

def SameSize (g h : Graph) : Prop := h.nodes.size = g.nodes.size

instance : Bearing SameSize := ⟨congrArg Array.size, fun hgh hhk => hhk.trans hgh⟩

/-- A call of a region with its boundary. -/
structure Callable (g : Graph) (call q fn input output : NodeId) (c f : Node) : Prop where
  arena : g.Arena
  node : g.node? call = some c
  kind : c.kind = .call
  parent : c.parent = some q
  callee : c.body.callee = some fn
  function : g.node? fn = some f
  region : f.kind.isRegion = true
  children : f.children = input :: output :: f.children.drop 2
  first : g.kind? input = some .input
  last : g.kind? output = some .output

namespace Callable

variable {call fn input output : NodeId} {k f : Node} (s : Callable g call q fn input output k f)

include s

theorem inlineCall_size {made : NodeMap} (hdef : f.kind = .funcDefn)
    (hcopy : copyTrees g.copyDepth q (f.children.drop 2) g = .ok made h) (hh : h.Arena) :
    ((inlineCall call).after g).nodes.size = h.nodes.size := by
  obtain ⟨r, hr⟩ := s.arena.hangs_of_parent s.node s.parent
  obtain ⟨i, hi⟩ : ∃ i, r.children.findIdx? (· == call) = some i := by
    rw [← Option.isSome_iff_exists, findIdx?_isSome, any_eq_true]
    exact ⟨call, hr.listed, by simp⟩
  have hcallee : k.body.callee.bind g.node? = some f := by simp [s.callee, s.function]
  have hparent : k.parent.bind g.node? = some r := by simp [s.parent, hr.holder]
  have hboundary : g.boundary fn = .ok (input, output) := by
    rw [boundary, s.function]
    dsimp only
    rw [s.children]
    simp [s.region, s.first, s.last]
  unfold inlineCall
  rw [after_get_bind]
  simp only [s.node, s.kind, hcallee, hdef, hparent, ne_eq, not_true_eq_false, if_false]
  simp only [s.callee, s.parent, Option.getD_some, hboundary]
  rw [after_bind_ok (ofExcept_ok.2 ⟨rfl, rfl⟩), after_bind_ok hcopy, after_get_bind]
  simp only [hi]
  refine (Upholds.bind (R := SameSize) (.modify fun ha => ?_) (fun _ _ _ => ?_) hh).2
  · exact ⟨ha.reorder (inserted_perm _ _ i), setChildren_size ..⟩
  · exact .bind upholds_rewireAll fun _ _ _ => .bind upholds_rewireOutputs fun _ _ _ =>
      .of_without fun _ _ _ _ _ => without_size

theorem below_body (hx : Under g fn x) (hi : x ≠ input) (ho : x ≠ output) :
    ∃ c ∈ f.children.drop 2, x = c ∨ Under g c x :=
  under_behind_boundary s.arena s.function s.children s.first s.last hx hi ho

theorem under_body {d : NodeId} (hd : d ∈ f.children.drop 2) (hx : x = d ∨ Under g d x) :
    Under g fn x ∧ x ∉ [fn, input, output] := by
  have hnodup := s.arena.nodup fn f s.function
  rw [s.children, nodup_cons, nodup_cons, mem_cons, not_or] at hnodup
  obtain ⟨l, hl⟩ := s.arena.child fn f d s.function (mem_of_mem_drop hd)
  have hu : Under g fn x := hl.under hx
  have hother : ∀ b ∈ f.children, b ∉ f.children.drop 2 → x ≠ b := by
    rintro b hb hnot rfl
    obtain ⟨m, hm⟩ := s.arena.child fn f x s.function hb
    obtain rfl | hx := hx
    · exact hnot hd
    · exact not_under_sibling s.arena hl.node hl.parent hm.node hm.parent hx
  simp only [mem_cons, not_mem_nil, or_false, not_or]
  refine ⟨hu, Nat.ne_of_gt (hu.lt s.arena), hother _ ?_ hnodup.1.2, hother _ ?_ hnodup.2.1⟩
  · rw [s.children]
    exact mem_cons_self
  · rw [s.children]
    exact mem_cons_of_mem _ mem_cons_self

theorem copies {depth : Nat} (hdef : f.kind = .funcDefn) (hdepth : g.nodes.size < depth)
    (hq : ¬Under g fn q) :
    ∃ made h, copyTrees depth q (f.children.drop 2) g = .ok made h ∧ h.Arena ∧
      (made.map (·.1)).Perm ((g.walk fn).filter (· ∉ [fn, input, output])) ∧
      made.map (·.2) = range' g.nodes.size made.length ∧
      h.nodes.size = g.nodes.size + made.length := by
  obtain ⟨r, hr⟩ := s.arena.hangs_of_parent s.node s.parent
  obtain ⟨made, tops, h, hrun, hg⟩ := copyTrees_ok (p := fn) hdepth s.arena
    ((s.arena.nodup fn f s.function).sublist (drop_sublist 2 _))
    fun c hc => copyable_of_call s.arena hr s.kind s.function hdef hq (mem_of_mem_drop hc)
  refine ⟨made, h, hrun, hg.arena, ?_, hg.numbered, hg.size⟩
  refine (perm_ext_iff_of_nodup hg.once ((walkFrom_nodup s.arena _ fn).filter _)).2 fun x => ?_
  rw [hg.keys, mem_filter, decide_eq_true_iff]
  constructor
  · rintro ⟨hn, c, hc, hx⟩
    exact ⟨(mem_walk_iff s.arena).2 ⟨hn, .inr (s.under_body hc hx).1⟩, (s.under_body hc hx).2⟩
  · rintro ⟨hx, hnot⟩
    obtain ⟨hn, hx⟩ := (mem_walk_iff s.arena).1 hx
    simp only [mem_cons, not_mem_nil, or_false, not_or] at hnot
    exact ⟨hn, s.below_body (hx.resolve_left hnot.1) hnot.2.1 hnot.2.2⟩

/-- Only functions are inlined. A call that is not deeper in its callee than in its body is replaced
by one new node for each node below the callee, its boundary apart, and copying them needs no more
levels than the arena has nodes. From a call that is deeper in its callee, copying never comes to an
end. -/
theorem inlineCall_copies_once :
    (f.kind ≠ .funcDefn → ∃ e, inlineCall call g = .error e g) ∧
    (f.kind = .funcDefn → ¬Under g fn q →
      (∀ depth, g.nodes.size < depth → ∃ made h,
        copyTrees depth q (f.children.drop 2) g = .ok made h ∧
        (made.map (·.1)).Perm ((g.walk fn).filter (· ∉ [fn, input, output])) ∧
        made.map (·.2) = range' g.nodes.size made.length) ∧
      ((inlineCall call).after g).nodes.size =
        g.nodes.size + ((g.walk fn).filter (· ∉ [fn, input, output])).length) ∧
    (Under g fn q → ∀ depth made h, copyTrees depth q (f.children.drop 2) g ≠ .ok made h) := by
  refine ⟨fun hdef => ?_, fun hdef hq => ⟨fun depth hdepth => ?_, ?_⟩,
    fun hq depth made h hrun => ?_⟩
  · have hcallee : k.body.callee.bind g.node? = some f := by simp [s.callee, s.function]
    unfold inlineCall
    rw [get_bind]
    simp only [s.node, s.kind, hcallee, hdef, ne_eq, not_true_eq_false, not_false_eq_true, if_false,
      if_true]
    exact ⟨_, rfl⟩
  · obtain ⟨made, h, hrun, -, hperm, hfresh, -⟩ := s.copies hdef hdepth hq
    exact ⟨made, h, hrun, hperm, hfresh⟩
  · obtain ⟨made, h, hrun, hh, hperm, -, hsize⟩ := s.copies hdef (lt_copyDepth g) hq
    rw [s.inlineCall_size hdef hrun hh, hsize, ← hperm.length_eq, length_map]
  · obtain ⟨r, hr⟩ := s.arena.hangs_of_parent s.node s.parent
    have hholds : ∀ {kind}, g.kind? q = some kind → kind.mayHold .call = true := by
      intro kind hkind
      rw [kind?_of_node hr.holder, Option.some.injEq] at hkind
      exact hkind ▸ s.kind ▸ hr.allowed
    obtain ⟨c, hc, hcq⟩ := s.below_body hq (fun he => Bool.noConfusion (hholds (he ▸ s.first)))
      fun he => Bool.noConfusion (hholds (he ▸ s.last))
    obtain ⟨_, _, hall, -⟩ := bind_ok.1 hrun
    obtain ⟨_, _, _, ha, hk, hcopy⟩ := copied_of_mem s.arena hall hc
    exact copyTree_endless depth ha (hcq.imp_right fun hu => hu.keep hk) _ hcopy

end Callable

/-- A function that calls itself in its body and in a region of its body. -/
def callsItself : Graph where
  nodes :=
    let call parent :=
      Node.fresh { NodeBody.ofKind .call ⟨[], []⟩ with callee := some 1 } (some parent)
    #[{ Node.fresh (NodeBody.ofKind .module ⟨[], []⟩) none with children := [1] },
      plainNode .funcDefn ⟨[], []⟩ 0 [2, 3, 4, 5], plainNode .input ⟨[], []⟩ 1 [],
      plainNode .output ⟨[], []⟩ 1 [], call 1, plainNode .dfg ⟨[], []⟩ 1 [6], call 5]
  edges := []

theorem inlineCall_copies_once_callsItself :
    ((inlineCall 4).after callsItself).nodes.size = 10 ∧
      ∀ depth made h, copyTrees depth 5 [4, 5] callsItself ≠ .ok made h := by
  have harena : callsItself.Arena := arena_of_isArena (by decide)
  have hbody : ∃ f, Callable callsItself 4 1 1 2 3 f callsItself.nodes[1] :=
    ⟨_, harena, rfl, rfl, rfl, rfl, rfl, rfl, rfl, rfl, rfl⟩
  have hregion : ∃ f, Callable callsItself 6 5 1 2 3 f callsItself.nodes[1] :=
    ⟨_, harena, rfl, rfl, rfl, rfl, rfl, rfl, rfl, rfl, rfl⟩
  obtain ⟨f, s⟩ := hbody
  obtain ⟨l, r⟩ := hregion
  refine ⟨?_, r.inlineCall_copies_once.2.2 (.child rfl rfl)⟩
  exact (s.inlineCall_copies_once.2.1 rfl fun hu => Nat.lt_irrefl _ (hu.lt harena)).2

end Qirc.Graph
