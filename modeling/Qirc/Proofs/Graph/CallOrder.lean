import Qirc.CallGraph
import Qirc.Proofs.Graph.Order
import Qirc.Proofs.Step

/-!
# The order of the calls

What a site of the call graph says of the graph, and what the batches are good for: functions that
no circle of calls leads to stand behind their callers, as many batches away as there are callers in
the longest chain above them.
-/

namespace Qirc

open List Step Graph Relation

/-- A chain of `k` steps ends at `x`. -/
inductive Above {α : Type} (r : α → α → Prop) : Nat → α → Prop
  | start (x : α) : Above r 0 x
  | step {k : Nat} {x y : α} : Above r k x → r x y → Above r (k + 1) y

/-- A circle leads to `x`. -/
def Behind {α : Type} (r : α → α → Prop) (x : α) : Prop := ∃ c, TransGen r c c ∧ ReflTransGen r c x

namespace Above

variable {α : Type} {r : α → α → Prop} {x y : α} {j k : Nat}

theorem pred (h : Above r (k + 1) x) : Above r k x := by
  induction k generalizing x with
  | zero => exact .start x
  | succ k ih =>
    cases h with
    | step h hr => exact .step (ih h) hr

theorem mono (h : Above r k x) (hjk : j ≤ k) : Above r j x := by
  induction hjk with
  | refl => exact h
  | step _ ih => exact ih h.pred

theorem trans (h : Above r k x) (hxy : TransGen r x y) : Above r (k + 1) y := by
  induction hxy with
  | single hr => exact .step h hr
  | tail _ hr ih => exact (Above.step ih hr).pred

theorem of_behind (h : Behind r x) (k : Nat) : Above r k x := by
  obtain ⟨c, hc, hcx⟩ := h
  have hcirc : Above r k c := by
    induction k with
    | zero => exact .start c
    | succ k ih => exact ih.trans hc
  induction hcx with
  | refl => exact hcirc
  | tail _ hr ih => exact (Above.step ih hr).pred

theorem isGreatest_iff : IsGreatest {m | Above r m x} k ↔ Above r k x ∧ ¬Above r (k + 1) x := by
  refine and_congr_right fun _ => ⟨fun h hk => absurd (h hk) (Nat.not_succ_le_self k), ?_⟩
  intro h m hm
  by_contra hlt
  exact h (Above.mono hm (Nat.not_le.1 hlt))

end Above

namespace Graph

variable {g : Graph}

section

variable (ha : g.Arena)

include ha

theorem Arena.mem_root_children {m : Node} (hm : g.node? root = some m) {c : NodeId} :
    c ∈ m.children ↔ g.kind? c = some .funcDefn := by
  constructor
  · intro hc
    obtain ⟨k, hh⟩ := ha.child root m c hm hc
    have hallowed := hh.allowed
    rw [(ha.root_node hm).1] at hallowed
    rw [kind?_of_node hh.node]
    simpa [NodeKind.mayHold] using hallowed
  · intro hc
    obtain ⟨n, hn, hk⟩ := node_of_kind? hc
    obtain ⟨m', hh⟩ := ha.hangs_function hn hk
    cases hm.symm.trans hh.holder
    exact hh.listed

theorem Arena.functions_eq {m : Node} (hm : g.node? root = some m) :
    g.functions = .ok m.children := by
  have halive : m.children.find? (fun id => !g.contains id) = none := by
    rw [find?_eq_none]
    intro c hc
    obtain ⟨k, hh⟩ := ha.child root m c hm hc
    simp [contains_iff.2 ⟨k, hh.node⟩]
  simp only [Graph.functions, hm, halive, Except.ok.injEq, filter_eq_self, beq_iff_eq]
  exact fun c => (ha.mem_root_children hm).1

theorem Arena.functions : ∃ fs, g.functions = .ok fs ∧ fs.Nodup ∧
    ∀ x, x ∈ fs ↔ g.kind? x = some .funcDefn := by
  obtain ⟨m, hm, -⟩ := ha.top
  exact ⟨m.children, ha.functions_eq hm, ha.nodup root m hm, fun _ => ha.mem_root_children hm⟩

theorem Arena.enclosing_go (depth : Nat) {x : NodeId} {n : Node} (hn : g.node? x = some n)
    (hfunc : n.kind ≠ .funcDefn) (hmod : n.kind ≠ .module) (hx : x ≤ depth) :
    ∃ f, enclosing.go g depth x = .ok (some f) ∧ g.kind? f = some .funcDefn ∧ Under g f x := by
  have hroot : x ≠ root := ha.ne_root hn hmod
  induction depth generalizing x n with
  | zero => exact absurd (Nat.le_zero.1 hx) hroot
  | succ depth ih =>
    obtain ⟨p, m, hh⟩ := ha.hangs x n hn hroot
    rw [enclosing.go, parent?_of_node hn, hh.parent]
    simp only [kind?_of_node hh.holder]
    by_cases hk : m.kind = .funcDefn
    · exact ⟨p, if_pos hk, by rw [kind?_of_node hh.holder, hk], .child hn hh.parent⟩
    have hm : m.kind ≠ .module := by
      intro hm
      have := hh.allowed
      rw [hm] at this
      exact hfunc (by simpa [NodeKind.mayHold] using this)
    obtain ⟨f, hf, hfk, hu⟩ := ih hh.holder hk hm
      (Nat.le_of_lt_succ (Nat.lt_of_lt_of_le hh.older hx)) (ha.ne_root hh.holder hm)
    exact ⟨f, (if_neg hk).trans hf, hfk, .deeper hn hh.parent hu⟩

theorem Arena.enclosing_ok {x : NodeId} (hx : g.kind? x = some .call) :
    ∃ f, g.enclosing x = .ok (some f) ∧ g.kind? f = some .funcDefn ∧ Under g f x := by
  obtain ⟨n, hn, hk⟩ := node_of_kind? hx
  exact ha.enclosing_go g.nodes.size hn (by rw [hk]; decide) (by rw [hk]; decide)
    (Nat.le_of_lt (node?_lt hn))

theorem mem_calls {x : NodeId} : x ∈ g.calls ↔ g.kind? x = some .call := by
  unfold calls
  rw [mem_filter, beq_iff_eq, and_iff_right_iff_imp]
  intro hx
  obtain ⟨n, hn, -⟩ := node_of_kind? hx
  exact mem_walk_root ha hn

theorem calls_nodup : g.calls.Nodup := (walkFrom_nodup ha _ _).filter _

end

/-- `c` is a call in the function `f` and names the function `t`. -/
structure CallFrom (g : Graph) (c f t : NodeId) : Prop where
  caller : g.kind? f = some .funcDefn
  callee : g.kind? t = some .funcDefn
  inside : Under g f c
  names : ∃ n, g.node? c = some n ∧ n.kind = .call ∧ n.body.callee = some t

theorem CallFrom.callee_unique {c f t f' t' : NodeId} (h : g.CallFrom c f t)
    (h' : g.CallFrom c f' t') : t = t' := by
  obtain ⟨n, hn, -, ht⟩ := h.names
  obtain ⟨n', hn', -, ht'⟩ := h'.names
  cases hn.symm.trans hn'
  exact Option.some.inj (ht.symm.trans ht')

/-- A kept call leads from `f` to `t`. -/
def Links (g : Graph) (keep : NodeId → Bool) (f t : NodeId) : Prop :=
  ∃ c, keep c = true ∧ g.CallFrom c f t

end Graph

/-- What cannot be ordered lies behind a circle of calls. In front stand the callers, and each
function is as many batches away as there are callers above it. -/
structure CallOrder.Sorts (t : CallOrder) (funcs : List NodeId) (r : NodeId → NodeId → Prop) :
    Prop where
  cyclic : t.isCyclic = true ↔ ∃ f, TransGen r f f
  nodup : t.order.Nodup
  order : ∀ f, f ∈ t.order ↔ f ∈ funcs ∧ ¬Behind r f
  cycles : ∀ f, f ∈ t.cycles ↔ f ∈ funcs ∧ Behind r f
  sublist : t.cycles.Sublist funcs
  callers : ∀ before f after, t.order = before ++ f :: after → ∀ c, r c f → c ∈ before
  flatten : t.batches.flatten = t.order
  depth : ∀ k f, (∃ b, t.batches[k]? = some b ∧ f ∈ b) ↔
    f ∈ funcs ∧ IsGreatest {m | Above r m f} k

namespace CallGraph

variable {cg : CallGraph} {i j : Nat} {f t : NodeId}

/-! ## Batches -/

/-- A call leads from `f` to `t`. -/
def Calls (cg : CallGraph) (f t : NodeId) : Prop :=
  ∃ s ∈ cg.calls, cg.funcs[s.caller]? = some f ∧ cg.funcs[s.callee]? = some t

/-- The functions are listed once, and every call leads from one of them to another. -/
structure Numbered (cg : CallGraph) : Prop where
  nodup : cg.funcs.Nodup
  named : ∀ s ∈ cg.calls, ∃ f t, cg.funcs[s.caller]? = some f ∧ cg.funcs[s.callee]? = some t

theorem hasEdge_iff : cg.hasEdge i j = true ↔ ∃ s ∈ cg.calls, s.caller = i ∧ s.callee = j := by
  simp [hasEdge]

theorem Numbered.index (hn : cg.Numbered) (hi : cg.funcs[i]? = some f) (hj : cg.funcs[j]? = some f) :
    i = j := by
  obtain ⟨hlt, -⟩ := List.getElem?_eq_some_iff.1 hi
  exact (getElem?_inj hlt hn.nodup).1 (hi.trans hj.symm)

theorem Numbered.calls_iff (hn : cg.Numbered) (hi : cg.funcs[i]? = some f)
    (hj : cg.funcs[j]? = some t) : cg.Calls f t ↔ cg.hasEdge i j = true := by
  rw [hasEdge_iff]
  refine exists_congr fun s => and_congr_right fun _ => ⟨fun h => ?_, fun h => ?_⟩
  · exact ⟨hn.index h.1 hi, hn.index h.2 hj⟩
  · exact ⟨h.1 ▸ hi, h.2 ▸ hj⟩

theorem isFree_iff {waiting : List Nat} :
    cg.isFree waiting j = true ↔ ∀ i ∈ waiting, cg.hasEdge i j = false := by
  simp [isFree]

/-- The batches and what is stuck hold what waited. A caller that waited stands before its callees,
and what is stuck has a caller that is stuck. -/
theorem batchesOf_spec (count : Nat) (waiting : List Nat) {batches : List (List Nat)}
    {stuck : List Nat} (h : cg.batchesOf count waiting = (batches, stuck))
    (hlen : waiting.length ≤ count) :
    (batches.flatten ++ stuck).Perm waiting ∧ stuck.Sublist waiting ∧
      (∀ j ∈ stuck, ∃ i ∈ stuck, cg.hasEdge i j = true) ∧
      ∀ before j after, batches.flatten = before ++ j :: after →
        ∀ i ∈ waiting, cg.hasEdge i j = true → i ∈ before := by
  induction count generalizing waiting batches stuck with
  | zero =>
    cases h
    cases length_eq_zero_iff.1 (Nat.le_zero.1 hlen)
    simp
  | succ count ih =>
    unfold batchesOf at h
    split at h
    · rename_i hnone
      cases h
      refine ⟨.refl _, .refl _, fun j hj => ?_, by simp⟩
      simpa [isFree] using filter_eq_nil_iff.1 hnone j hj
    rename_i hsome
    generalize hr : cg.batchesOf count (waiting.filter fun i => !cg.isFree waiting i) = r at h
    obtain ⟨rest, stuck'⟩ := r
    cases h
    obtain ⟨j, hj⟩ := exists_mem_of_ne_nil _ hsome
    have hdrop : (waiting.filter fun i => !cg.isFree waiting i).length < waiting.length :=
      length_filter_lt_length_iff_exists.2 ⟨j, mem_of_mem_filter hj, by simp [(mem_filter.1 hj).2]⟩
    obtain ⟨hperm, hsub, hstuck, hbefore⟩ := ih _ hr (by omega)
    simp only [flatten_cons, append_assoc]
    refine ⟨(hperm.append_left _).trans (filter_append_perm _ waiting),
      hsub.trans filter_sublist, hstuck, fun before j after hsplit i hi he => ?_⟩
    have hlater : ∀ as, rest.flatten = as ++ j :: after →
        i ∈ waiting.filter (cg.isFree waiting) ++ as := by
      intro as has
      by_cases hfree : cg.isFree waiting i = true
      · exact mem_append_left _ (mem_filter.2 ⟨hi, hfree⟩)
      · exact mem_append_right _ (hbefore as j after has i (mem_filter.2 ⟨hi, by simp [hfree]⟩) he)
    rcases append_eq_append_iff.1 hsplit with ⟨as, rfl, has⟩ | ⟨bs, hbs, hj⟩
    · exact hlater as has
    cases bs with
    | nil => simpa [hbs] using hlater [] hj.symm
    | cons b bs =>
      cases hj
      have hfree : j ∈ waiting.filter (cg.isFree waiting) := hbs ▸ mem_append_right _ mem_cons_self
      cases he.symm.trans (isFree_iff.1 (mem_filter.1 hfree).2 i hi)

section Waves

variable (hn : cg.Numbered) {waiting : List Nat} {k : Nat}
  (hw : ∀ i f, cg.funcs[i]? = some f → (i ∈ waiting ↔ Above cg.Calls k f))
include hn hw

theorem Numbered.not_free_iff (hj : cg.funcs[j]? = some t) :
    cg.isFree waiting j = false ↔ Above cg.Calls (k + 1) t := by
  rw [← Bool.not_eq_true, isFree_iff]
  simp only [not_forall, Bool.not_eq_false]
  constructor
  · rintro ⟨i, hi, he⟩
    obtain ⟨s, hs, rfl, rfl⟩ := hasEdge_iff.1 he
    obtain ⟨f, -, hf, -⟩ := hn.named s hs
    exact .step ((hw _ f hf).1 hi) ⟨s, hs, hf, hj⟩
  · rintro (_ | ⟨habove, s, hs, hf, ht⟩)
    exact ⟨s.caller, (hw _ _ hf).2 habove, hasEdge_iff.2 ⟨s, hs, rfl, hn.index ht hj⟩⟩

/-- What waits for `k` batches has a chain of `k` callers above it. -/
theorem Numbered.batch_depth (count : Nat) {m : Nat} {b : List Nat}
    (hb : (cg.batchesOf count waiting).1[m]? = some b) (hj : j ∈ b)
    (hf : cg.funcs[j]? = some f) : IsGreatest {m | Above cg.Calls m f} (k + m) := by
  induction count generalizing waiting k m with
  | zero => simp [batchesOf] at hb
  | succ count ih =>
    unfold batchesOf at hb
    split at hb
    · simp at hb
    generalize hr : cg.batchesOf count (waiting.filter fun i => !cg.isFree waiting i) = r at hb
    obtain ⟨rest, stuck⟩ := r
    cases m with
    | zero =>
      cases hb
      obtain ⟨hwait, hfree⟩ := mem_filter.1 hj
      rw [Above.isGreatest_iff, ← hn.not_free_iff hw hf, hfree]
      exact ⟨(hw j f hf).1 hwait, by simp⟩
    | succ m =>
      rw [← Nat.succ_add_eq_add_succ]
      refine ih (fun i f hf => ?_) (hr ▸ hb)
      rw [mem_filter, hw i f hf, Bool.not_eq_true', hn.not_free_iff hw hf]
      exact ⟨And.right, fun h => ⟨h.pred, h⟩⟩

end Waves

theorem mem_funcsAt {is : List Nat} : f ∈ cg.funcsAt is ↔ ∃ i ∈ is, cg.funcs[i]? = some f := by
  simp [funcsAt]

theorem mem_funcs_of_mem_funcsAt {is : List Nat} (h : f ∈ cg.funcsAt is) : f ∈ cg.funcs := by
  obtain ⟨i, -, hi⟩ := mem_funcsAt.1 h
  exact mem_of_getElem? hi

theorem mem_numbers (hi : cg.funcs[i]? = some f) : i ∈ cg.numbers :=
  mem_range.2 (List.getElem?_eq_some_iff.1 hi).1

theorem funcsAt_numbers : cg.funcsAt cg.numbers = cg.funcs := by
  unfold funcsAt numbers
  induction cg.funcs with
  | nil => rfl
  | cons f fs ih => simpa [range_succ_eq_map, filterMap_map, Function.comp_def] using ih

section Sorting

variable (hn : cg.Numbered) {batches : List (List Nat)} {stuck : List Nat}
  (hb : cg.batchesOf cg.funcs.length cg.numbers = (batches, stuck))
include hn hb

theorem Numbered.depth {k : Nat} {b : List Nat} (hk : batches[k]? = some b) (hj : j ∈ b)
    (hf : cg.funcs[j]? = some f) : IsGreatest {m | Above cg.Calls m f} k := by
  rw [← Nat.zero_add k]
  refine hn.batch_depth (fun i f hi => ?_) _ (by rw [hb]; exact hk) hj hf
  exact iff_of_true (mem_numbers hi) (.start f)

theorem Numbered.in_batch (hf : f ∈ cg.funcsAt batches.flatten) :
    ∃ k b, batches[k]? = some b ∧ f ∈ cg.funcsAt b ∧ IsGreatest {m | Above cg.Calls m f} k := by
  obtain ⟨i, hi, hif⟩ := mem_funcsAt.1 hf
  obtain ⟨b, hmem, hib⟩ := mem_flatten.1 hi
  obtain ⟨k, hk⟩ := mem_iff_getElem?.1 hmem
  exact ⟨k, b, hk, mem_funcsAt.2 ⟨i, hib, hif⟩, hn.depth hb hk hib hif⟩

theorem Numbered.front_or_stuck (hf : f ∈ cg.funcs) :
    f ∈ cg.funcsAt batches.flatten ∧ ¬Behind cg.Calls f ∨
      f ∈ cg.funcsAt stuck ∧ Behind cg.Calls f := by
  obtain ⟨hperm, -, hstuck, -⟩ := batchesOf_spec _ _ hb (by simp [numbers])
  obtain ⟨i, hi⟩ := mem_iff_getElem?.1 hf
  rcases mem_append.1 (hperm.symm.subset (mem_numbers hi)) with h | h
  · have hfront := mem_funcsAt.2 ⟨i, h, hi⟩
    obtain ⟨k, -, -, -, hk⟩ := hn.in_batch hb hfront
    exact .inl ⟨hfront, fun hbehind => (Above.isGreatest_iff.1 hk).2 (.of_behind hbehind _)⟩
  · refine .inr ⟨mem_funcsAt.2 ⟨i, h, hi⟩, ?_⟩
    obtain ⟨c, -, hc⟩ := exists_circle (r := cg.Calls) (fun t ht => by
      obtain ⟨j, hj, hjt⟩ := mem_funcsAt.1 ht
      obtain ⟨i, hi, he⟩ := hstuck j hj
      obtain ⟨s, hs, rfl, rfl⟩ := hasEdge_iff.1 he
      obtain ⟨f, -, hf, -⟩ := hn.named s hs
      exact ⟨f, mem_funcsAt.2 ⟨_, hi, hf⟩, s, hs, hf, hjt⟩) (mem_funcsAt.2 ⟨i, h, hi⟩)
    exact ⟨c, hc⟩

theorem Numbered.front_not_stuck (hf : f ∈ cg.funcsAt batches.flatten) : f ∉ cg.funcsAt stuck := by
  obtain ⟨hperm, -, -, -⟩ := batchesOf_spec _ _ hb (by simp [numbers])
  have hnd : (batches.flatten ++ stuck).Nodup := hperm.nodup_iff.2 nodup_range
  intro hf'
  obtain ⟨i, hi, hif⟩ := mem_funcsAt.1 hf
  obtain ⟨j, hj, hjf⟩ := mem_funcsAt.1 hf'
  exact (nodup_append.1 hnd).2.2 i hi j hj (hn.index hif hjf)

theorem Numbered.mem_stuck : f ∈ cg.funcsAt stuck ↔ f ∈ cg.funcs ∧ Behind cg.Calls f := by
  constructor
  · intro h
    have hf := mem_funcs_of_mem_funcsAt h
    exact ⟨hf, ((hn.front_or_stuck hb hf).resolve_left fun h' => hn.front_not_stuck hb h'.1 h).2⟩
  · exact fun h => ((hn.front_or_stuck hb h.1).resolve_left fun h' => h'.2 h.2).1

theorem Numbered.mem_front :
    f ∈ cg.funcsAt batches.flatten ↔ f ∈ cg.funcs ∧ ¬Behind cg.Calls f := by
  constructor
  · intro h
    have hf := mem_funcs_of_mem_funcsAt h
    exact ⟨hf, fun h' => hn.front_not_stuck hb h ((hn.mem_stuck hb).2 ⟨hf, h'⟩)⟩
  · exact fun h => ((hn.front_or_stuck hb h.1).resolve_right fun h' => h.2 h'.2).1

theorem Numbered.callers_before (before : List NodeId) (t : NodeId) (after : List NodeId)
    (heq : cg.funcsAt batches.flatten = before ++ t :: after) : ∀ c, cg.Calls c t → c ∈ before := by
  obtain ⟨-, -, -, hbefore⟩ := batchesOf_spec _ _ hb (by simp [numbers])
  rintro c ⟨s, hs, hc, ht⟩
  obtain ⟨l, l', hl, rfl, hl'⟩ := filterMap_eq_append_iff.1 heq
  obtain ⟨skipped, j, rest, rfl, hskip, hj, -⟩ := filterMap_eq_cons_iff.1 hl'
  cases hn.index ht hj
  rw [← append_assoc] at hl
  have := hbefore _ _ _ hl s.caller (mem_numbers hc) (hasEdge_iff.2 ⟨s, hs, rfl, rfl⟩)
  rcases mem_append.1 this with h | h
  · exact mem_filterMap.2 ⟨_, h, hc⟩
  · cases (hskip _ h).symm.trans hc

end Sorting

theorem Numbered.sorts (hn : cg.Numbered) : cg.callOrder.Sorts cg.funcs cg.Calls := by
  unfold callOrder
  generalize hb : cg.batchesOf cg.funcs.length cg.numbers = r
  obtain ⟨batches, stuck⟩ := r
  obtain ⟨hperm, hsub, -, -⟩ := batchesOf_spec _ _ hb (by simp [numbers])
  have hnd : (batches.flatten ++ stuck).Nodup := hperm.nodup_iff.2 nodup_range
  have hstuck := fun f => hn.mem_stuck hb (f := f)
  have hfront := fun f => hn.mem_front hb (f := f)
  constructor
  · rw [CallOrder.isCyclic, Bool.not_eq_true', isEmpty_eq_false_iff_exists_mem]
    constructor
    · rintro ⟨f, hf⟩
      obtain ⟨-, c, hc, -⟩ := (hstuck f).1 hf
      exact ⟨c, hc⟩
    · rintro ⟨f, hf⟩
      obtain ⟨-, -, s, -, -, ht⟩ := TransGen.tail'_iff.1 hf
      exact ⟨f, (hstuck f).2 ⟨mem_of_getElem? ht, f, hf, .refl⟩⟩
  · exact (nodup_append.1 hnd).1.filterMap fun i j f hi hj => hn.index hi hj
  · exact hfront
  · exact hstuck
  · exact funcsAt_numbers ▸ hsub.filterMap _
  · exact hn.callers_before hb
  · exact filterMap_flatten.symm
  · intro k f
    rw [getElem?_map]
    constructor
    · rintro ⟨b, hk, hf⟩
      obtain ⟨is, his, rfl⟩ := Option.map_eq_some_iff.1 hk
      obtain ⟨i, hi, hif⟩ := mem_funcsAt.1 hf
      exact ⟨mem_of_getElem? hif, hn.depth hb his hi hif⟩
    · rintro ⟨hf, hk⟩
      have hmem := (hfront f).2 ⟨hf, fun h => (Above.isGreatest_iff.1 hk).2 (.of_behind h _)⟩
      obtain ⟨m, b, hm, hfb, hgreat⟩ := hn.in_batch hb hmem
      cases hk.unique hgreat
      exact ⟨_, congrArg (Option.map _) hm, hfb⟩

/-! ## Sites -/

variable {g : Graph} {keep : NodeId → Bool}

/-- The functions that `s` numbers are the one around the call and the one it names. -/
structure Stands (g : Graph) (fs : List NodeId) (s : CallSite) (f t : NodeId) : Prop where
  caller : fs[s.caller]? = some f
  callee : fs[s.callee]? = some t
  call : CallFrom g s.call f t

theorem except_mapM_map {ε α β : Type} {f : α → Except ε β} {h : α → β} {xs : List α}
    (hf : ∀ x ∈ xs, f x = .ok (h x)) : xs.mapM f = .ok (xs.map h) := by
  induction xs with
  | nil => rfl
  | cons x xs ih =>
    rw [mapM_cons, hf x mem_cons_self, ih fun y hy => hf y (mem_cons_of_mem _ hy)]
    rfl

theorem findIdx?_iff {fs : List NodeId} (hnd : fs.Nodup) {x : NodeId} :
    fs.findIdx? (fun f => some f == some x) = some i ↔ fs[i]? = some x := by
  rw [findIdx?_eq_some_iff_getElem, List.getElem?_eq_some_iff]
  refine exists_congr fun hi => ⟨fun h => by simpa using h.1, ?_⟩
  rintro rfl
  refine ⟨by simp, fun j hj => ?_⟩
  simpa using fun h => absurd ((hnd.getElem_inj_iff).1 h) (Nat.ne_of_lt hj)

theorem site?_ok (ha : g.Arena) {fs : List NodeId} (hnd : fs.Nodup)
    (hfs : ∀ x, x ∈ fs ↔ g.kind? x = some .funcDefn) {c : NodeId} (hc : g.kind? c = some .call) :
    ∃ o, site? g fs c = .ok o ∧ ∀ s, o = some s ↔ s.call = c ∧ ∃ f t, Stands g fs s f t := by
  obtain ⟨f, hf, hfk, hu⟩ := ha.enclosing_ok hc
  obtain ⟨n, hn, hk⟩ := node_of_kind? hc
  refine ⟨_, except_bind_ok.2 ⟨some f, hf, rfl⟩, fun s => ?_⟩
  simp only [hn, Option.bind_some, Option.bind_eq_bind, Option.bind_eq_some_iff, findIdx?_iff hnd,
    Option.some.injEq]
  constructor
  · rintro ⟨i, hi, j, hj, rfl⟩
    cases hcallee : n.body.callee with
    | none => simp [hcallee, findIdx?_eq_some_iff_getElem] at hj
    | some t =>
      rw [hcallee, findIdx?_iff hnd] at hj
      exact ⟨rfl, f, t, hi, hj, hfk, (hfs t).1 (mem_of_getElem? hj), hu, n, hn, hk, hcallee⟩
  · rintro ⟨rfl, f', t, hst⟩
    cases ha.function_unique hst.call.caller hfk hst.call.inside hu
    obtain ⟨n', hn', -, hcallee⟩ := hst.call.names
    cases hn.symm.trans hn'
    rw [hcallee]
    exact ⟨_, hst.caller, _, (findIdx?_iff hnd).2 hst.callee, rfl⟩

/-- The functions of `cg` are listed as in the module, and its sites are the kept calls from function
to function. -/
structure Built (g : Graph) (keep : NodeId → Bool) (cg : CallGraph) : Prop where
  nodup : cg.funcs.Nodup
  listed : g.functions = .ok cg.funcs
  functions : ∀ x, x ∈ cg.funcs ↔ g.kind? x = some .funcDefn
  once : (cg.calls.map (·.call)).Nodup
  site : ∀ s ∈ cg.calls, keep s.call = true ∧ ∃ f t, Stands g cg.funcs s f t
  whole : ∀ {c f t}, CallFrom g c f t → keep c = true →
    ∃ s ∈ cg.calls, s.call = c ∧ Stands g cg.funcs s f t

theorem build_ok (ha : g.Arena) (keep : NodeId → Bool) :
    ∃ cg, build g keep = .ok cg ∧ Built g keep cg := by
  obtain ⟨fs, hfs, hnd, hmem⟩ := ha.functions
  choose! site hsite hiff using fun c (hc : c ∈ g.calls.filter keep) =>
    site?_ok ha hnd hmem ((mem_calls ha).1 (mem_filter.1 hc).1)
  refine ⟨⟨fs, (g.calls.filter keep).filterMap site⟩, ?_, hnd, hfs, hmem, ?_, ?_, ?_⟩
  · refine except_bind_ok.2 ⟨fs, hfs, except_bind_ok.2 ⟨_, except_mapM_map hsite, ?_⟩⟩
    rw [filterMap_map]
    rfl
  · rw [Nodup, pairwise_map, pairwise_filterMap]
    refine ((calls_nodup ha).filter keep).imp_of_mem fun {c d} hc hd hne s hs s' hs' heq => hne ?_
    exact ((hiff c hc s).1 hs).1.symm.trans (heq.trans ((hiff d hd s').1 hs').1)
  · intro s hs
    obtain ⟨c, hc, hcs⟩ := mem_filterMap.1 hs
    obtain ⟨rfl, hst⟩ := (hiff c hc s).1 hcs
    exact ⟨(mem_filter.1 hc).2, hst⟩
  · intro c f t hc hkeep
    obtain ⟨n, hn, hk, -⟩ := hc.names
    have hcalls : c ∈ g.calls.filter keep :=
      mem_filter.2 ⟨(mem_calls ha).2 (by rw [kind?_of_node hn, hk]), hkeep⟩
    obtain ⟨i, hi⟩ := mem_iff_getElem?.1 ((hmem f).2 hc.caller)
    obtain ⟨j, hj⟩ := mem_iff_getElem?.1 ((hmem t).2 hc.callee)
    have hst : Stands g fs ⟨c, i, j⟩ f t := ⟨hi, hj, hc⟩
    exact ⟨_, mem_filterMap.2 ⟨c, hcalls, (hiff c hcalls _).2 ⟨rfl, f, t, hst⟩⟩, rfl, hst⟩

theorem Built.numbered (hb : Built g keep cg) : cg.Numbered where
  nodup := hb.nodup
  named s hs := by
    obtain ⟨-, f, t, hst⟩ := hb.site s hs
    exact ⟨f, t, hst.caller, hst.callee⟩

theorem Built.calls_iff (hb : Built g keep cg) : cg.Calls f t ↔ g.Links keep f t := by
  constructor
  · rintro ⟨s, hs, hf, ht⟩
    obtain ⟨hkeep, f', t', hst⟩ := hb.site s hs
    cases hf.symm.trans hst.caller
    cases ht.symm.trans hst.callee
    exact ⟨s.call, hkeep, hst.call⟩
  · rintro ⟨c, hkeep, hc⟩
    obtain ⟨s, hs, -, hst⟩ := hb.whole hc hkeep
    exact ⟨s, hs, hst.caller, hst.callee⟩

theorem Built.sorts (hb : Built g keep cg) : cg.callOrder.Sorts cg.funcs (g.Links keep) := by
  have hrel : cg.Calls = g.Links keep := funext₂ fun f t => propext hb.calls_iff
  exact hrel ▸ hb.numbered.sorts

/-- Every function stands before the functions it calls. -/
def CallersFirst (r : NodeId → NodeId → Prop) : List NodeId → Prop
  | [] => True
  | f :: rest => f ∉ rest ∧ (∀ t, r f t → t ∈ rest) ∧ CallersFirst r rest

theorem CallersFirst.closed {r : NodeId → NodeId → Prop} {order : List NodeId}
    (h : CallersFirst r order) (hf : f ∈ order) (ht : r f t) : t ∈ order := by
  induction order with
  | nil => cases hf
  | cons c rest ih =>
    obtain ⟨-, hcallees, hrest⟩ := h
    rcases mem_cons.1 hf with rfl | hf
    · exact mem_cons_of_mem _ (hcallees t ht)
    · exact mem_cons_of_mem _ (ih hrest hf)

theorem Built.callersFirst (hb : Built g keep cg) (hcyc : cg.callOrder.isCyclic = false) :
    CallersFirst (g.Links keep) cg.callOrder.order ∧
      ∀ f, f ∈ cg.callOrder.order ↔ g.kind? f = some .funcDefn := by
  have hsorts := hb.sorts
  have hall : ∀ f, f ∈ cg.callOrder.order ↔ g.kind? f = some .funcDefn := by
    intro f
    rw [hsorts.order, hb.functions, and_iff_left_iff_imp]
    rintro - ⟨c, hc, -⟩
    cases hcyc.symm.trans (hsorts.cyclic.2 ⟨c, hc⟩)
  have hsuffix : ∀ before after, cg.callOrder.order = before ++ after →
      CallersFirst (g.Links keep) after := by
    intro before after
    induction after generalizing before with
    | nil => exact fun _ => trivial
    | cons f after ih =>
      intro he
      have hnd := hsorts.nodup
      rw [he, nodup_middle, nodup_cons, mem_append, not_or] at hnd
      refine ⟨hnd.1.2, fun t ht => ?_, ih (before ++ [f]) (by simp [he])⟩
      have hmem : t ∈ cg.callOrder.order := by
        obtain ⟨c, -, hc⟩ := ht
        exact (hall t).2 hc.callee
      rw [he, mem_append, mem_cons] at hmem
      obtain h | rfl | h := hmem
      · -- the caller would stand before the callee
        obtain ⟨b₁, b₂, rfl⟩ := append_of_mem h
        have := hsorts.callers b₁ t (b₂ ++ f :: after) (by simp [he]) f ht
        exact absurd (mem_append_left _ this) hnd.1.1
      · exact absurd (hsorts.callers before t after he t ht) hnd.1.1
      · exact h
  exact ⟨hsuffix [] _ rfl, hall⟩

end CallGraph

end Qirc
