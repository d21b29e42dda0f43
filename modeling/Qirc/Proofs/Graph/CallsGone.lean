import Qirc.Proofs.Graph.CallOrder
import Qirc.Proofs.Graph.Splice
import Qirc.Proofs.Graph.Upkeep

/-!
# No call is left

Inlining every call, callees first, leaves no call behind: a body that is copied has lost its own
calls before, so that no copy of a call is ever made.
-/

namespace Qirc.Graph

open List Step

variable {g h : Graph}

/-! ## One call -/

/-- What goes, stays and comes when a call is replaced by a copy of the function. -/
structure Replaced (g h : Graph) (call fn : NodeId) : Prop where
  arena : h.Arena
  lasting : Lasting g h
  gone : h.node? call = none
  stays : ∀ x n, g.node? x = some n → x ≠ call → ∃ n', h.node? x = some n'
  fresh : ∀ x n, h.node? x = some n → g.nodes.size ≤ x →
    ∃ a k, Under g fn a ∧ g.node? a = some k ∧ n.kind = k.kind

variable {call fn : NodeId} {c : Node} {u : Unit}

section

variable (ha : g.Arena) (hc : g.node? call = some c) (hfn : c.body.callee = some fn)

include ha hc hfn

/-- The stages of a call that is inlined: the copies, their place, the edges, the end of the
call. -/
theorem inlineCall_stages (hok : inlineCall call g = .ok u h) :
    ∃ f q made h₁ cs h₂, c.kind = .call ∧ g.node? fn = some f ∧ f.kind = .funcDefn ∧
      c.parent = some q ∧ copyTrees g.copyDepth q (f.children.drop 2) g = .ok made h₁ ∧
      h₂.Arena ∧ h₂.nodes = (h₁.setChildren q cs).nodes ∧ removeSubtree call h₂ = .ok () h := by
  unfold inlineCall at hok
  rw [get_bind] at hok
  simp only [hc] at hok
  split at hok
  · obtain ⟨_, _, hthrow, -⟩ := bind_ok.1 hok
    exact (throw_ok.1 hthrow).elim
  rename_i hkind
  simp only [hfn, Option.bind_some, Option.getD_some] at hok
  cases hf : g.node? fn with
  | none =>
    simp only [hf] at hok
    exact (throw_ok.1 hok).elim
  | some f =>
    simp only [hf] at hok
    split at hok
    · obtain ⟨_, _, hthrow, -⟩ := bind_ok.1 hok
      exact (throw_ok.1 hthrow).elim
    rename_i hfkind
    obtain ⟨⟨input, output⟩, _, hb, hok⟩ := bind_ok.1 hok
    rw [(ofExcept_ok.1 hb).2] at hok
    cases hp : c.parent.bind g.node? with
    | none =>
      simp only [hp] at hok
      exact (throw_ok.1 hok).elim
    | some parent =>
      obtain ⟨q, hq, hqn⟩ := Option.bind_eq_some_iff.1 hp
      simp only [hp] at hok
      simp only [hq, Option.getD_some] at hok
      obtain ⟨made, h₁, hcopy, hok⟩ := bind_ok.1 hok
      rw [get_bind] at hok
      cases hk : parent.children.findIdx? (· == call) with
      | none =>
        simp only [hk] at hok
        obtain ⟨_, _, -, hthrow⟩ := bind_ok.1 hok
        exact (throw_ok.1 hthrow).elim
      | some k =>
        simp only [hk] at hok
        obtain ⟨_, h₂, hset, hok⟩ := bind_ok.1 hok
        obtain ⟨_, h₃, hall, hok⟩ := bind_ok.1 hok
        obtain ⟨_, h₄, houtputs, hok⟩ := bind_ok.1 hok
        obtain ⟨ha₁, -⟩ : h₁.Arena ∧ Lasting g h₁ := upholds_copyTrees.ok ha hcopy
        have ha₂ : h₂.Arena := modify_ok.1 hset ▸ ha₁.reorder (inserted_perm _ _ k)
        obtain ⟨ha₃, hn₃⟩ : h₃.Arena ∧ SameNodes h₂ h₃ := upholds_rewireAll.ok ha₂ hall
        obtain ⟨ha₄, hn₄⟩ : h₄.Arena ∧ SameNodes h₃ h₄ := upholds_rewireOutputs.ok ha₃ houtputs
        have hnodes := (hn₄.trans hn₃).trans (congrArg Graph.nodes (modify_ok.1 hset))
        exact ⟨f, q, made, h₁, _, h₄, Decidable.not_not.1 hkind, rfl,
          Decidable.not_not.1 hfkind, hq, hcopy, ha₄, hnodes, hok⟩

theorem replaced_of_inlineCall (hout : ¬Under g fn call) (hok : inlineCall call g = .ok u h) :
    Replaced g h call fn := by
  obtain ⟨harena, hlast⟩ : h.Arena ∧ Lasting g h := upholds_inlineCall.ok ha hok
  obtain ⟨f, q, made, h₁, cs, h₂, hkind, hf, hfkind, hq, hcopy, ha₂, hnodes, hremove⟩ :=
    inlineCall_stages ha hc hfn hok
  obtain ⟨r, hh⟩ := ha.hangs_of_parent hc hq
  -- the region of the call holds what the function holds, and is no part of it
  have hapart : ¬Under g fn q := fun hu => hout (.of_parent hc hq (.inr hu))
  have hunder : ∀ d ∈ f.children.drop 2, ∀ x, x = d ∨ Under g d x → Under g fn x := by
    intro d hd x hx
    obtain ⟨k, hk⟩ := ha.child fn f d hf (mem_of_mem_drop hd)
    exact hk.under hx
  obtain ⟨made', tops, h₁', hcopy', hg⟩ := copyTrees_ok (q := q) (p := fn) (lt_copyDepth g) ha
    ((ha.nodup fn f hf).sublist (drop_sublist 2 _))
    fun d hd => copyable_of_call ha hh hkind hf hfkind hapart (mem_of_mem_drop hd)
  cases hcopy.symm.trans hcopy'
  have hkept : Keeps g h₂ :=
    (hg.keeps.trans (setChildren_keeps q cs)).trans (.of_nodes hnodes)
  obtain ⟨cs', hcall⟩ := hkept call c hc
  obtain ⟨r', hh'⟩ := ha₂.hangs_of_parent hcall hq
  cases (removeSubtree_ok hh').symm.trans hremove
  have hwalk : ∀ x, x ∈ h₂.walk call ↔ x = call := fun x =>
    mem_walk_leaf ha₂ ((kind?_of_node hcall).trans (congrArg some hkind)) fun _ => rfl
  refine ⟨harena, hlast, ?_, ?_, ?_⟩
  · rw [without_node, if_pos ((hwalk call).2 rfl)]
  · intro x n hn hx
    obtain ⟨cs'', hx'⟩ := hkept x n hn
    exact ⟨_, without_of_node ha₂ hh' hx' (fun hw => hx ((hwalk x).1 hw))⟩
  · intro x n hn hx
    obtain ⟨-, l, hl, rfl⟩ := node_of_without ha₂ hh' hn
    have hl₁ : (h₁.setChildren q cs).node? x = some l := by rw [← hl, node?, node?, slot?, slot?, hnodes]
    rw [setChildren_node, Option.map_eq_some_iff] at hl₁
    obtain ⟨m, hm, hml⟩ := hl₁
    -- behind the old nodes there are only the copies
    obtain ⟨a, hab⟩ := hg.mem_values.2 ⟨hx, node?_lt hm⟩
    obtain ⟨k, t, htwin⟩ := hg.twins a x hab
    cases hm.symm.trans htwin.new
    obtain ⟨-, d, hd, hda⟩ := (hg.keys a).1 (mem_map.2 ⟨(a, x), hab, rfl⟩)
    refine ⟨a, k, hunder d hd a hda, htwin.old, ?_⟩
    have hlm : l.body = m.body := by
      rw [← hml]
      split <;> rfl
    change l.body.kind = k.body.kind
    rw [hlm, htwin.body, settleCallee_kind]

end

/-! ## Call after call -/

/-- A node that lasts stands where it stood. -/
theorem Lasting.under_iff (hl : Lasting g h) (hh : h.Arena) {r x : NodeId} {n : Node}
    (hn : h.node? x = some n) (hx : x < g.nodes.size) : Under h r x ↔ Under g r x := by
  constructor
  · intro hu
    clear hn
    induction hu with
    | child hk hp =>
      obtain ⟨m, hm, -, hparent⟩ := hl.node hk hx
      exact .child hm (hparent.symm.trans hp)
    | deeper hk hp _ ih =>
      obtain ⟨m, hm, -, hparent⟩ := hl.node hk hx
      obtain ⟨_, hhang⟩ := hh.hangs_of_parent hk hp
      exact .deeper hm (hparent.symm.trans hp) (ih (Nat.lt_trans hhang.older hx))
  · intro hu
    induction hu generalizing n with
    | child hk hp =>
      obtain ⟨m, hm, -, hparent⟩ := hl.node hn hx
      cases hk.symm.trans hm
      exact .child hn (hparent.trans hp)
    | deeper hk hp _ ih =>
      obtain ⟨m, hm, -, hparent⟩ := hl.node hn hx
      cases hk.symm.trans hm
      obtain ⟨_, hhang⟩ := hh.hangs_of_parent hn (hparent.trans hp)
      exact .deeper hn (hparent.trans hp) (ih hhang.holder (Nat.lt_trans hhang.older hx))

variable {g₀ : Graph} {keep : NodeId → Bool} {gone : List NodeId} {call f t : NodeId}

/-- Midway from the first graph to the second: these calls have been inlined. What has come is a copy
of no function and of no kept call. -/
structure Underway (g₀ : Graph) (keep : NodeId → Bool) (gone : List NodeId) (g : Graph) : Prop where
  arena : g.Arena
  lasting : Lasting g₀ g
  calls : ∀ x ∈ gone, g₀.kind? x = some .call
  dead : ∀ x ∈ gone, g.node? x = none
  stays : ∀ x n, g₀.node? x = some n → x ∉ gone → ∃ n', g.node? x = some n'
  fresh : ∀ x n, g.node? x = some n → g₀.nodes.size ≤ x → n.kind ≠ .funcDefn ∧
    (n.kind = .call → ∃ c, g₀.kind? c = some .call ∧ ∀ f t, keep c = true → ¬g₀.CallFrom c f t)

/-- A call that can be inlined next: it does not stand in what it calls, which has lost its kept
calls, and none of the calls before it named the function it stands in. -/
structure Next (g₀ : Graph) (keep : NodeId → Bool) (gone : List NodeId) (call f t : NodeId) :
    Prop where
  kept : keep call = true
  site : g₀.CallFrom call f t
  apart : f ≠ t
  new : call ∉ gone
  lost : ∀ x t', keep x = true → g₀.CallFrom x t t' → x ∈ gone
  later : ∀ x ∈ gone, ∀ f', ¬g₀.CallFrom x f' f

namespace Underway

theorem start (ha : g₀.Arena) : Underway g₀ keep [] g₀ where
  arena := ha
  lasting := .refl g₀
  calls := by simp
  dead := by simp
  stays x n hn _ := ⟨n, hn⟩
  fresh x n hn hx := absurd (node?_lt hn) (Nat.not_lt_of_le hx)

theorem sameFunctions (hg : Underway g₀ keep gone g) : SameFunctions g₀ g := by
  intro x
  constructor
  · intro hx
    obtain ⟨n, hn, hk⟩ := node_of_kind? hx
    by_cases hlt : x < g₀.nodes.size
    · exact hg.lasting.kind? hx hlt
    · exact absurd hk (hg.fresh x n hn (Nat.le_of_not_lt hlt)).1
  · intro hx
    obtain ⟨n, hn, hk⟩ := node_of_kind? hx
    have hgone : x ∉ gone := fun hmem => by
      have := hg.calls x hmem
      rw [hx] at this
      cases this
    obtain ⟨n', hn'⟩ := hg.stays x n hn hgone
    obtain ⟨m, hm, hbody, -⟩ := hg.lasting.node hn' (node?_lt hn)
    cases hn.symm.trans hm
    rw [kind?_of_node hn', ← hk]
    exact congrArg (fun b => some b.kind) hbody

theorem inlineCall_node {u : Unit} (hok : inlineCall call g = .ok u h) :
    ∃ n, g.node? call = some n := by
  unfold inlineCall at hok
  rw [get_bind] at hok
  cases hn : g.node? call with
  | none =>
    simp only [hn] at hok
    exact (throw_ok.1 hok).elim
  | some n => exact ⟨n, rfl⟩

variable (ha : g₀.Arena) (hg : Underway g₀ keep gone g) (hnext : Next g₀ keep gone call f t)

include ha hg hnext

/-- A call that is still there is the call it was, outside of what it calls. -/
theorem outside {n : Node} (hn : g.node? call = some n) :
    n.kind = .call ∧ n.body.callee = some t ∧ ¬Under g t call := by
  obtain ⟨hf, ht, hu, n₀, hn₀, hk, hcallee⟩ := hnext.site
  obtain ⟨m, hm, hbody, -⟩ := hg.lasting.node hn (node?_lt hn₀)
  cases hn₀.symm.trans hm
  refine ⟨(congrArg NodeBody.kind hbody).trans hk, by rw [hbody, hcallee], fun htc => ?_⟩
  exact hnext.apart (ha.function_unique hf ht hu
    ((hg.lasting.under_iff hg.arena hn (node?_lt hn₀)).1 htc))

theorem step {u : Unit} (hok : inlineCall call g = .ok u h) :
    Underway g₀ keep (call :: gone) h := by
  obtain ⟨n, hn⟩ := inlineCall_node hok
  obtain ⟨hk, hcallee, hout⟩ := hg.outside ha hnext hn
  have ht := hnext.site.callee
  have hr : Replaced g h call t := replaced_of_inlineCall hg.arena hn hcallee hout hok
  have hold : ∀ x n', h.node? x = some n' → x < g.nodes.size →
      ∃ n, g.node? x = some n ∧ n'.kind = n.kind := by
    intro x n' hn' hx
    obtain ⟨n, hn, hbody, -⟩ := hr.lasting.node hn' hx
    exact ⟨n, hn, congrArg NodeBody.kind hbody⟩
  refine ⟨hr.arena, hg.lasting.trans hr.lasting, ?_, ?_, ?_, ?_⟩
  · intro x hx
    rcases mem_cons.1 hx with rfl | hx
    · obtain ⟨n₀, hn₀, hk₀, -⟩ := hnext.site.names
      rw [kind?_of_node hn₀, hk₀]
    · exact hg.calls x hx
  · intro x hx
    rcases mem_cons.1 hx with rfl | hx
    · exact hr.gone
    obtain ⟨n₁, hn₁, -⟩ := node_of_kind? (hg.calls x hx)
    have hlt := Nat.lt_of_lt_of_le (node?_lt hn₁) hg.lasting.size
    by_contra hlive
    obtain ⟨n', hn'⟩ := Option.ne_none_iff_exists'.1 hlive
    obtain ⟨n₂, hn₂, -⟩ := hold x n' hn' hlt
    rw [hg.dead x hx] at hn₂
    cases hn₂
  · intro x n hn hx
    rw [mem_cons, not_or] at hx
    obtain ⟨n', hn'⟩ := hg.stays x n hn hx.2
    exact hr.stays x n' hn' hx.1
  · intro x n' hn' hx
    by_cases hlt : x < g.nodes.size
    · obtain ⟨n, hn, hkind⟩ := hold x n' hn' hlt
      rw [hkind]
      exact hg.fresh x n hn hx
    · obtain ⟨a, k, hau, hak, hkind⟩ := hr.fresh x n' hn' (Nat.le_of_not_lt hlt)
      rw [hkind]
      by_cases hlt₀ : a < g₀.nodes.size
      · constructor
        · intro hfunc
          cases hg.arena.function_under hak hfunc hau
          obtain ⟨r, hr, hrk, -⟩ := ha.top
          rw [kind?_of_node hr, hrk] at ht
          cases ht
        · intro hcall
          refine ⟨a, hg.lasting.kind? (by rw [kind?_of_node hak, hcall]) hlt₀, ?_⟩
          -- a kept call in the function would be gone, and not be copied
          intro f' t' hkeep hc
          cases ha.function_unique hc.caller ht hc.inside
            ((hg.lasting.under_iff hg.arena hak hlt₀).1 hau)
          have := hg.dead a (hnext.lost a t' hkeep hc)
          rw [hak] at this
          cases this
      · exact hg.fresh a k hak (Nat.le_of_not_lt hlt₀)

end Underway

/-! ## Caller after caller -/

theorem inlineCallers_append (cg : CallGraph) (as bs : List NodeId) :
    inlineCallers cg (as ++ bs) = inlineCallers cg as >>= fun _ => inlineCallers cg bs := by
  induction as with
  | nil => rfl
  | cons a as ih => simp [inlineCallers, ih]

section Run

variable {P : List NodeId → Graph → Prop} {fails : Prop}
  (hstep : ∀ {gone g call f t}, P gone g → Next g₀ keep gone call f t →
    Ends fails (inlineCall call) g (P (call :: gone)))
include hstep

theorem inlineSites_ends (name : String) {sites : List NodeId} (hP : P gone g)
    (hsites : ∀ x ∈ sites, ∃ t, Next g₀ keep gone x f t) (hnodup : sites.Nodup) :
    Ends fails (inlineSites name sites) g (P (sites.reverse ++ gone)) := by
  induction sites generalizing g gone with
  | nil => exact hP
  | cons call rest ih =>
    rw [nodup_cons] at hnodup
    obtain ⟨t, hnext⟩ := hsites call mem_cons_self
    refine ((hstep hP hnext).inContext _).bind fun _ h hh => ?_
    rw [reverse_cons, append_assoc]
    refine ih hh (fun x hx => ?_) hnodup.2
    obtain ⟨t', hx'⟩ := hsites x (mem_cons_of_mem _ hx)
    refine ⟨t', hx'.kept, hx'.site, hx'.apart, ?_, ?_, ?_⟩
    · rintro (_ | ⟨_, hmem⟩)
      · exact hnodup.1 hx
      · exact hx'.new hmem
    · exact fun y t' hy hc => mem_cons_of_mem _ (hx'.lost y t' hy hc)
    · rintro y (_ | ⟨_, hy⟩) f' hc
      · exact hnext.apart (hc.callee_unique hnext.site)
      · exact hx'.later y hy f' hc

/-- With callers first, the sites of a caller can be inlined once those of the functions behind it
are. -/
theorem inlineCallers_ends (ha : g₀.Arena) {cg : CallGraph} (hb : cg.Built g₀ keep) {order : List NodeId}
    (horder : CallGraph.CallersFirst (g₀.Links keep) order) (hP : P [] g₀) :
    Ends fails (inlineCallers cg order.reverse) g₀ fun h => ∃ gone, P gone h ∧ ∀ x, x ∈ gone ↔
      keep x = true ∧ ∃ f ∈ order, ∃ t, g₀.CallFrom x f t := by
  induction order with
  | nil => exact ⟨[], hP, by simp⟩
  | cons caller order ih =>
    obtain ⟨hnot, hcallees, hrest⟩ := horder
    rw [reverse_cons, inlineCallers_append]
    refine (ih hrest).bind fun _ g ⟨gone, hg, hgone⟩ => ?_
    let sites := ((cg.calls.filter fun s => cg.funcs[s.caller]? == some caller).map
      (·.call)).mergeSort (· ≤ ·)
    have hmem : ∀ x, x ∈ sites ↔ keep x = true ∧ ∃ t, g₀.CallFrom x caller t := by
      intro x
      simp only [sites, mem_mergeSort, mem_map, mem_filter, beq_iff_eq]
      constructor
      · rintro ⟨s, ⟨hs, hc⟩, rfl⟩
        obtain ⟨hkeep, f, t, hst⟩ := hb.site s hs
        cases hc.symm.trans hst.caller
        exact ⟨hkeep, t, hst.call⟩
      · rintro ⟨hkeep, t, hc⟩
        obtain ⟨s, hs, rfl, hst⟩ := hb.whole hc hkeep
        exact ⟨s, ⟨hs, hst.caller⟩, rfl⟩
    have hnodup : sites.Nodup :=
      (mergeSort_perm _ _).nodup_iff.2 (hb.once.sublist (filter_sublist.map _))
    refine (inlineSites_ends (f := caller) hstep (g.nameOf caller) hg (fun x hx => ?_) hnodup).bind
      fun _ h hh => ⟨_, hh, fun x => ?_⟩
    · obtain ⟨hkeep, t, hc⟩ := (hmem x).1 hx
      have ht := hcallees t ⟨x, hkeep, hc⟩
      refine ⟨t, hkeep, hc, ?_, ?_, ?_, ?_⟩
      · rintro rfl
        exact hnot ht
      · intro hxg
        obtain ⟨-, f, hf, t', hc'⟩ := (hgone x).1 hxg
        cases ha.function_unique hc.caller hc'.caller hc.inside hc'.inside
        exact hnot hf
      · exact fun y t' hy hyc => (hgone y).2 ⟨hy, t, ht, t', hyc⟩
      · intro y hy f' hyc
        obtain ⟨hkeep, f, hf, t', hc'⟩ := (hgone y).1 hy
        cases hyc.callee_unique hc'
        exact hnot (hrest.closed hf ⟨y, hkeep, hc'⟩)
    · rw [mem_append, mem_reverse, hmem, hgone]
      simp only [exists_mem_cons_iff, and_or_left]

end Run

/-! ## All calls -/

/-- What inlining a selection comes to: something chosen is no call, the calls lead in a circle, or
the callers are gone through one by one, callees first. -/
theorem inlineCalls_cases (ha : g.Arena) (chosen : List NodeId) :
    (∃ id ∈ chosen, g.kind? id ≠ some .call ∧
      inlineCalls chosen g = .error (.error (.notACall id)) g) ∨
    (∀ c ∈ chosen, g.kind? c = some .call) ∧
      (((∃ f, Relation.TransGen (g.Links chosen.contains) f f) ∧
          ∃ names, inlineCalls chosen g = .error (.error (.recursion names)) g) ∨
        (∀ f, ¬Relation.TransGen (g.Links chosen.contains) f f) ∧
          ∃ cg order, cg.Built g chosen.contains ∧
            CallGraph.CallersFirst (g.Links chosen.contains) order ∧
            (∀ f, f ∈ order ↔ g.kind? f = some .funcDefn) ∧
            ∀ h, inlineCalls chosen g = .ok () h ↔
              inlineCallers cg order.reverse g = .ok () h ∧ ∀ c ∈ chosen, h.node? c = none) := by
  obtain ⟨cg, hbuild, hb⟩ := CallGraph.build_ok ha chosen.contains
  unfold inlineCalls
  rw [get_bind]
  cases hfind : chosen.find? (fun id => g.kind? id != some .call) with
  | some id => exact .inl ⟨id, mem_of_find?_eq_some hfind, by simpa using find?_some hfind, rfl⟩
  | none =>
    refine .inr ⟨by simpa [find?_eq_none] using hfind, ?_⟩
    cases hcyc : cg.callOrder.isCyclic with
    | true =>
      obtain ⟨f, hf⟩ := hb.sorts.cyclic.1 hcyc
      have hne : chosen.isEmpty = false := by
        obtain ⟨t, ⟨c, hc, -⟩, -⟩ := Relation.TransGen.head'_iff.1 hf
        exact isEmpty_eq_false_iff_exists_mem.2 ⟨c, contains_iff_mem.1 hc⟩
      refine .inl ⟨⟨f, hf⟩, cg.callOrder.cycles.map g.nameOf, ?_⟩
      simp only [hne, hbuild, Step.ofExcept, pure_bind, hcyc, Bool.false_eq_true, if_false, if_true]
      rfl
    | false =>
      obtain ⟨horder, hall⟩ := hb.callersFirst hcyc
      refine .inr ⟨fun f hf => ?_, cg, _, hb, horder, hall, fun h => ?_⟩
      · cases hcyc.symm.trans (hb.sorts.cyclic.2 ⟨f, hf⟩)
      cases hempty : chosen.isEmpty with
      | true =>
        -- where nothing is chosen, there is no site
        cases isEmpty_iff.1 hempty
        obtain ⟨h', hrun, gone, rfl, -⟩ := (inlineCallers_ends (P := fun _ h => h = g)
          (fun _ hnext => by cases hnext.kept) ha hb horder rfl).exists_ok
        simp [hrun, pure_ok, eq_comm]
      | false =>
        simp only [hbuild, Step.ofExcept, pure_bind, hcyc, Bool.false_eq_true, if_false, bind_ok,
          CallOrder.calleesFirst, get_bind]
        constructor
        · rintro ⟨_, t, hrun, hend⟩
          cases hleft : chosen.find? t.contains with
          | some id =>
            simp only [hleft] at hend
            exact (throw_ok.1 hend).elim
          | none =>
            simp only [hleft] at hend
            obtain ⟨-, rfl⟩ := pure_ok.1 hend
            refine ⟨hrun, fun c hc => Option.eq_none_iff_forall_ne_some.2 fun n hn => ?_⟩
            exact find?_eq_none.1 hleft c hc (contains_iff.2 ⟨n, hn⟩)
        · rintro ⟨hrun, hdead⟩
          refine ⟨(), h, hrun, ?_⟩
          rw [find?_eq_none.2 fun c hc => by simp [contains, hdead c hc]]
          rfl

theorem no_call_of_inlineCalls (ha : g.Arena) (hok : inlineCalls g.calls g = .ok u h) :
    h.Arena ∧ Lasting g h ∧ SameFunctions g h ∧ ∀ x, h.kind? x ≠ some .call := by
  obtain ⟨id, -, -, herr⟩ | ⟨-, ⟨-, _, herr⟩ | ⟨-, cg, order, hb, horder, -, hrun⟩⟩ :=
    inlineCalls_cases ha g.calls
  · cases herr.symm.trans hok
  · cases herr.symm.trans hok
  obtain ⟨hcallers, hdead⟩ := (hrun h).1 hok
  obtain ⟨gone, hway, hgone⟩ := (inlineCallers_ends (P := Underway g g.calls.contains)
    (fun hg hnext => .of_ok fun _ _ hstep => hg.step ha hnext hstep) ha hb horder
    (.start ha)).ok hcallers
  refine ⟨hway.arena, hway.lasting, hway.sameFunctions, fun x hx => ?_⟩
  obtain ⟨n, hn, hk⟩ := node_of_kind? hx
  have hold : ∀ c, g.kind? c = some .call → c ∈ gone := by
    intro c hc
    obtain ⟨m, hm, -⟩ := node_of_kind? hc
    by_contra hnot
    obtain ⟨m', hm'⟩ := hway.stays c m hm hnot
    rw [hdead c ((mem_calls ha).2 hc)] at hm'
    cases hm'
  by_cases hlt : x < g.nodes.size
  · rw [hway.dead x (hold x (hway.lasting.kind? hx hlt))] at hn
    cases hn
  · obtain ⟨c, hc, hnone⟩ := (hway.fresh x n hn (Nat.le_of_not_lt hlt)).2 hk
    obtain ⟨hkeep, f, -, t, hcall⟩ := (hgone c).1 (hold c hc)
    exact hnone f t hkeep hcall

end Qirc.Graph
