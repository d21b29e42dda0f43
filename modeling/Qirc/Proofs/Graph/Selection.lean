import Mathlib.Tactic.Abel
import Qirc.Proofs.Graph.Expansion

/-!
# Any selection of calls without a circle can be inlined

In a lawful graph every call stands in a function and names one, so every chosen call is a site of
the call graph. If the functions that the chosen calls lead to do not call each other in a circle,
the sites are inlined one after the other, and each step leaves a lawful graph for the next one. In
the end every body holds what it holds when its chosen calls are written out.
-/

namespace Qirc.Graph

open List Step

variable {g h : Graph} {chosen gone : List NodeId} {call c f t : NodeId}

/-- In a lawful graph every call stands in a function and names one. -/
theorem Lawful.callFrom (hl : g.Lawful) (ha : g.Arena) (hc : g.kind? c = some .call) :
    ∃ f, g.CallFrom c f (g.calleeOf c) := by
  obtain ⟨n, hn, hk⟩ := node_of_kind? hc
  obtain ⟨f, -, hf, hu⟩ := ha.enclosing_ok hc
  obtain ⟨t, fn, ht, hfn, htk, -⟩ := hl.call c n hn hk
  have hcallee : g.calleeOf c = t := by simp [calleeOf, hn, ht]
  rw [hcallee]
  exact ⟨f, hf, by rw [kind?_of_node hfn, htk], hu, n, hn, hk, ht⟩

/-- A chosen call leads from the function it stands in to the function it names. -/
def Leads (g : Graph) (chosen : List NodeId) (f t : NodeId) : Prop :=
  g.kind? f = some .funcDefn ∧ ∃ c ∈ chosen, Under g f c ∧
    ∃ n, g.node? c = some n ∧ n.kind = .call ∧ n.body.callee = some t

theorem CallFrom.calleeOf_eq (h : g.CallFrom c f t) : g.calleeOf c = t := by
  obtain ⟨n, hn, -, ht⟩ := h.names
  simp [calleeOf, hn, ht]

theorem chosenIn_cons (ha : g.Arena) (hu : Under g f c) (hnew : c ∉ gone) :
    (g.chosenIn (c :: gone) f).Perm (c :: g.chosenIn gone f) := by
  have hnodup : (g.walk f).Nodup := walkFrom_nodup ha _ _
  have hc : c ∈ g.walk f := (mem_walk_iff ha).2 ⟨hu.node, .inr hu⟩
  refine (perm_ext_iff_of_nodup (hnodup.filter _)
    (nodup_cons.2 ⟨by simp [hnew], hnodup.filter _⟩)).2 fun x => ?_
  simp only [mem_filter, decide_eq_true_eq, mem_cons, and_or_left]
  refine or_congr_left ⟨And.right, ?_⟩
  rintro rfl
  exact ⟨hc, rfl⟩

theorem chosenIn_cons_of_not (hc : c ∉ g.walk f) :
    g.chosenIn (c :: gone) f = g.chosenIn gone f := by
  refine filter_congr fun x hx => ?_
  have hne : x ≠ c := fun he => hc (he ▸ hx)
  simp [hne]

theorem CallSite.Spliced.take_children {s : CallSite g} {made : NodeMap} {tops : List NodeId}
    (hs : s.Spliced h made tops) {x : NodeId} {n : Node} (hn : g.node? x = some n)
    (hx : x ≠ s.call) : ∃ l, h.node? x = some l ∧ l.children.take 2 = n.children.take 2 := by
  by_cases hh : x = s.holder
  · subst hh
    cases s.hangs.holder.symm.trans hn
    obtain ⟨a, z, pre, post, hch, hnode, -⟩ := hs.holder_split
    exact ⟨_, hnode, by rw [hch]; rfl⟩
  · exact ⟨n, (node?_congr (hs.others x (node?_lt hn) hh hx)).trans hn, rfl⟩

/-! ## The run -/

variable {g₀ : Graph}

/-- Midway through a selection: the graph is lawful, every function starts with the boundary it
started with, and a body holds what it held and what the calls it lost have brought. -/
structure Inlining (g₀ : Graph) (chosen gone : List NodeId) (g : Graph) : Prop extends
    Underway g₀ chosen.contains gone g where
  lawful : g.Lawful
  plain : g.PlainBoundary
  heads : ∀ f n, g₀.node? f = some n → n.kind = .funcDefn →
    ∃ n', g.node? f = some n' ∧ n'.children.take 2 = n.children.take 2
  payloads : ∀ f, g₀.kind? f = some .funcDefn → g.payloads f =
    g₀.payloads f + ((g₀.chosenIn gone f).map fun c => g.payloads (g₀.calleeOf c)).sum

theorem Inlining.step (ha : g₀.Arena) (hl : g₀.Lawful) (hg : Inlining g₀ chosen gone g)
    (hnext : Next g₀ chosen.contains gone call f t) :
    Ends False (inlineCall call) g (Inlining g₀ chosen (call :: gone)) := by
  obtain ⟨n₀, hn₀, hk₀, -⟩ := hnext.site.names
  obtain ⟨n, hn⟩ := hg.stays call n₀ hn₀ hnext.new
  obtain ⟨hk, hcallee, hout⟩ := hg.outside ha hnext hn
  obtain ⟨s, rfl, rfl⟩ := callSite_of_call hg.arena hg.lawful hg.plain hn hk hcallee hout
  obtain ⟨made, tops, h, hrun, hs⟩ := s.inlineCall_spliced
  obtain ⟨-, hlast⟩ : h.Arena ∧ Lasting g h := upholds_inlineCall.ok hg.arena hrun
  have hfunc : ∀ {x}, g₀.kind? x = some .funcDefn → g.kind? x = some .funcDefn :=
    (hg.sameFunctions _).2
  have hcall : ∀ {x}, g₀.kind? x = some .funcDefn → x ≠ s.call := by
    rintro x hx rfl
    rw [kind?_of_node hn₀, hk₀] at hx
    cases hx
  have hunder := hg.lasting.under_iff (r := f) hg.arena hn (node?_lt hn₀)
  have hother : ∀ {x}, g₀.kind? x = some .funcDefn → x ≠ f → h.payloads x = g.payloads x := by
    intro x hx hne
    refine hs.payloads_other hlast (hfunc hx) fun hu => hne ?_
    exact hg.arena.function_unique (hfunc hx) (hfunc hnext.site.caller) hu
      (hunder.2 hnext.site.inside)
  have hparts : ∀ c ∈ s.call :: gone, h.payloads (g₀.calleeOf c) = g.payloads (g₀.calleeOf c) := by
    intro c hc
    rcases mem_cons.1 hc with rfl | hc
    · rw [hnext.site.calleeOf_eq]
      exact hother hnext.site.callee hnext.apart.symm
    · obtain ⟨f', hct⟩ := hl.callFrom ha (hg.calls c hc)
      exact hother hct.callee fun he => hnext.later c hc f' (he ▸ hct)
  refine .of_eq hrun ⟨hg.step ha hnext hrun, hs.lawful, hs.plain, ?_, ?_⟩
  · intro x m hm hmk
    obtain ⟨m', hm', htake⟩ := hg.heads x m hm hmk
    obtain ⟨l, hl', htake'⟩ := hs.take_children hm' (hcall (by rw [kind?_of_node hm, hmk]))
    exact ⟨l, hl', htake'.trans htake⟩
  · intro x hx
    rw [map_congr_left fun c hc => hparts c (by simpa using (mem_filter.1 hc).2)]
    by_cases hxf : x = f
    · subst hxf
      rw [hs.payloads_caller hlast (hfunc hx) (hunder.2 hnext.site.inside), hg.payloads x hx,
        ((chosenIn_cons ha hnext.site.inside hnext.new).map _).sum_eq, map_cons, sum_cons,
        hnext.site.calleeOf_eq]
      abel
    · have hnot : s.call ∉ g₀.walk x := by
        intro hw
        obtain he | hu := ((mem_walk_iff ha).1 hw).2
        · exact hcall hx he.symm
        · exact hxf (ha.function_unique hx hnext.site.caller hu hnext.site.inside)
      rw [chosenIn_cons_of_not hnot, hother hx hxf, hg.payloads x hx]

section Selected

variable (ha : g.Arena) (hl : g.Lawful)
include ha hl

theorem inlineCallers_inlining (hp : g.PlainBoundary) (hchosen : ∀ c ∈ chosen, g.kind? c = some .call)
    {cg : CallGraph} (hb : cg.Built g chosen.contains) {order : List NodeId}
    (horder : CallGraph.CallersFirst (g.Links chosen.contains) order)
    (hall : ∀ f, f ∈ order ↔ g.kind? f = some .funcDefn) :
    ∃ h gone, inlineCallers cg order.reverse g = .ok () h ∧ Inlining g chosen gone h ∧
      ∀ x, x ∈ gone ↔ x ∈ chosen := by
  have hstart : Inlining g chosen [] g :=
    ⟨.start ha, hl, hp, fun f n hn _ => ⟨n, hn, rfl⟩, fun f _ => by simp [chosenIn]⟩
  obtain ⟨h, hrun, gone, hin, hgone⟩ :=
    (inlineCallers_ends (fun hg hnext => hg.step ha hl hnext) ha hb horder hstart).exists_ok
  refine ⟨h, gone, hrun, hin, fun x => ?_⟩
  rw [hgone, contains_iff_mem, and_iff_left_iff_imp]
  intro hx
  obtain ⟨f, hc⟩ := hl.callFrom ha (hchosen x hx)
  exact ⟨f, (hall f).2 hc.caller, _, hc⟩

theorem Inlining.unfolds (hchosen : ∀ c ∈ chosen, g.kind? c = some .call)
    (hin : Inlining g chosen gone h) (hgone : ∀ x, x ∈ gone ↔ x ∈ chosen) {order : List NodeId}
    (horder : CallGraph.CallersFirst (g.Links chosen.contains) order)
    (hfunc : ∀ f ∈ order, g.kind? f = some .funcDefn) :
    ∀ f ∈ order, Unfolds g chosen f (h.payloads f) := by
  induction order with
  | nil => simp
  | cons caller rest ih =>
    obtain ⟨-, hcallees, hrest⟩ := horder
    have ih := ih hrest fun f hf => hfunc f (mem_cons_of_mem _ hf)
    intro f hf
    rcases mem_cons.1 hf with rfl | hf
    · have hf := hfunc f mem_cons_self
      have hsame : g.chosenIn gone f = g.chosenIn chosen f := filter_congr fun x _ => by simp [hgone]
      rw [hin.payloads f hf, hsame]
      refine .body _ fun c hin => ?_
      simp only [chosenIn, mem_filter, decide_eq_true_eq, mem_walk_iff ha] at hin
      obtain ⟨⟨-, hu⟩, hc⟩ := hin
      obtain ⟨f', hct⟩ := hl.callFrom ha (hchosen c hc)
      refine ih _ (hcallees _ ⟨c, contains_iff_mem.2 hc, ?_⟩)
      obtain rfl | hu := hu
      · cases hf.symm.trans (hchosen c hc)
      · cases ha.function_unique hf hct.caller hu hct.inside
        exact hct
    · exact ih f hf

theorem inlineCalls_ok (hp : g.PlainBoundary) (hchosen : ∀ c ∈ chosen, g.kind? c = some .call)
    (hacyc : ∀ f, ¬Relation.TransGen (g.Leads chosen) f f) :
    ∃ h, inlineCalls chosen g = .ok () h ∧ h.Arena ∧ h.Lawful ∧ h.PlainBoundary ∧ Lasting g h ∧
      SameFunctions g h := by
  obtain ⟨id, hid, hnot, -⟩ | ⟨-, ⟨⟨f, hf⟩, -⟩ | ⟨-, cg, order, hb, horder, hall, hrun⟩⟩ :=
    inlineCalls_cases ha chosen
  · exact absurd (hchosen id hid) hnot
  · refine absurd (Relation.TransGen.mono (fun f t hft => ?_) f f hf) (hacyc f)
    obtain ⟨c, hc, hfrom⟩ := hft
    exact ⟨hfrom.caller, c, contains_iff_mem.1 hc, hfrom.inside, hfrom.names⟩
  obtain ⟨h, gone, hcallers, hin, hgone⟩ := inlineCallers_inlining ha hl hp hchosen hb horder hall
  exact ⟨h, (hrun h).2 ⟨hcallers, fun c hc => hin.dead c ((hgone c).2 hc)⟩, hin.arena, hin.lawful,
    hin.plain, hin.lasting, hin.sameFunctions⟩

end Selected

/-- The chosen calls are inlined, and nothing else changes but what the bodies hold. -/
structure Selected (g : Graph) (chosen : List NodeId) (h : Graph) : Prop where
  gone : ∀ c ∈ chosen, h.node? c = none
  kept : ∀ c, g.kind? c = some .call → c ∉ chosen → h.kind? c = some .call
  functions : SameFunctions g h
  signature : ∀ f, g.kind? f = some .funcDefn → (h.node? f).map (·.sig) = (g.node? f).map (·.sig)
  boundary : ∀ f, g.kind? f = some .funcDefn → h.boundary f = g.boundary f
  unfolds : ∀ f, g.kind? f = some .funcDefn → Unfolds g chosen f (h.payloads f)

/-- A selection of calls in a checked graph with plain boundaries is refused if something in it is
no call, and then if its calls lead in a circle; a graph is left as it was then. Any other selection
is inlined. -/
theorem inlineCalls_unfolds (ha : g.Arena) (hc : g.check = .ok ()) (hp : g.PlainBoundary)
    (chosen : List NodeId) :
    ((∃ id ∈ chosen, g.kind? id ≠ some .call) ∧
      ∃ e, e.kinds = [.invalidArgument] ∧ inlineCalls chosen g = .error (.error e) g) ∨
    (∀ c ∈ chosen, g.kind? c = some .call) ∧
      (((∃ f, Relation.TransGen (g.Links chosen.contains) f f) ∧
        ∃ e, e.kinds = [.cyclicCallGraph] ∧ inlineCalls chosen g = .error (.error e) g) ∨
      (∀ f, ¬Relation.TransGen (g.Links chosen.contains) f f) ∧
        ∃ h, inlineCalls chosen g = .ok () h ∧ Selected g chosen h) := by
  have hl := lawful_of_check ha hc
  obtain ⟨id, hid, hnot, herr⟩ |
    ⟨hchosen, ⟨hcyc, names, herr⟩ | ⟨hacyc, cg, order, hb, horder, hall, hrun⟩⟩ :=
      inlineCalls_cases ha chosen
  · exact .inl ⟨⟨id, hid, hnot⟩, _, rfl, herr⟩
  · exact .inr ⟨hchosen, .inl ⟨hcyc, _, rfl, herr⟩⟩
  obtain ⟨h, gone, hcallers, hin, hgone⟩ := inlineCallers_inlining ha hl hp hchosen hb horder hall
  have hdead : ∀ c ∈ chosen, h.node? c = none := fun c hc => hin.dead c ((hgone c).2 hc)
  have hbody : ∀ {x n n'}, g.node? x = some n → h.node? x = some n' → n'.body = n.body := by
    intro x n n' hn hn'
    obtain ⟨m, hm, hbody, -⟩ := hin.lasting.node hn' (node?_lt hn)
    cases hn.symm.trans hm
    exact hbody
  refine .inr ⟨hchosen, .inr ⟨hacyc, h, (hrun h).2 ⟨hcallers, hdead⟩, hdead, ?_,
    hin.sameFunctions, ?_, ?_, fun f hf => ?_⟩⟩
  · intro c hk hnot
    obtain ⟨n, hn, hk⟩ := node_of_kind? hk
    obtain ⟨n', hn'⟩ := hin.stays c n hn fun hmem => hnot ((hgone c).1 hmem)
    rw [kind?_of_node hn', ← hk]
    exact congrArg (fun b => some b.kind) (hbody hn hn')
  · intro f hf
    obtain ⟨n, hn, hk⟩ := node_of_kind? hf
    obtain ⟨n', hn', -⟩ := hin.heads f n hn hk
    rw [hn, hn']
    exact congrArg (fun b => some b.sig) (hbody hn hn')
  · intro f hf
    obtain ⟨n, hn, hk⟩ := node_of_kind? hf
    obtain ⟨n', hn', htake⟩ := hin.heads f n hn hk
    have hk' : n'.kind = .funcDefn := (congrArg NodeBody.kind (hbody hn hn')).trans hk
    obtain ⟨a, z, rest, i, o, hb⟩ := hl.region f n hn (by rw [hk]; rfl)
    obtain ⟨a', z', rest', i', o', hb'⟩ := hin.lawful.region f n' hn' (by rw [hk']; rfl)
    rw [hb.children, hb'.children] at htake
    cases htake
    rw [hb.boundary_eq hn (by rw [hk]; rfl), hb'.boundary_eq hn' (by rw [hk']; rfl)]
  · exact hin.unfolds ha hl hchosen hgone horder (fun f hf => (hall f).1 hf) f ((hall f).2 hf)

/-- The first function calls the second and the third, and the second calls the third. -/
def calledTwice : Graph where
  nodes :=
    let input := plainNode .input ⟨[], []⟩
    let output := plainNode .output ⟨[], []⟩
    let call callee parent :=
      Node.fresh { NodeBody.ofKind .call ⟨[], []⟩ with callee := some callee } (some parent)
    #[{ Node.fresh (NodeBody.ofKind .module ⟨[], []⟩) none with children := [1, 6, 10] },
      plainNode .funcDefn ⟨[], []⟩ 0 [2, 3, 4, 5], input 1 [], output 1 [], call 6 1, call 10 1,
      plainNode .funcDefn ⟨[], []⟩ 0 [7, 8, 9], input 6 [], output 6 [], call 10 6,
      plainNode .funcDefn ⟨[], []⟩ 0 [11, 12, 13], input 10 [], output 10 [],
      Node.fresh { NodeBody.ofKind .op ⟨[], []⟩ with op := ⟨⟨quantumDialect, "Barrier"⟩, "", ""⟩ }
        (some 10)]
  edges := []

theorem inlineCalls_unfolds_calledTwice : calledTwice.isArena = true ∧ calledTwice.check = .ok () ∧
    calledTwice.isPlain = true ∧ ∃ h, inlineCalls [4, 9, 4] calledTwice = .ok () h ∧
      h.node? 9 = none ∧ h.kind? 5 = some .call ∧ Selected calledTwice [4, 9, 4] h := by
  have harena : calledTwice.isArena = true := by decide +kernel
  have hcheck : calledTwice.check = .ok () := check_ok_iff.mpr rfl
  have hplain : calledTwice.isPlain = true := by decide +kernel
  have ha := arena_of_isArena harena
  -- a chosen call stands below the function it names
  have hlt : ∀ f t, calledTwice.Links (List.contains [4, 9, 4]) f t → f < t := by
    rintro f t ⟨c, hc, hfrom⟩
    have hf : f < c := hfrom.inside.lt ha
    rw [← hfrom.calleeOf_eq]
    have hc : c = 4 ∨ c = 9 := by simpa [or_comm] using hc
    rcases hc with rfl | rfl
    · exact hf.trans (by decide)
    · exact hf.trans (by decide)
  obtain ⟨⟨id, hid, hnot⟩, -⟩ | ⟨-, ⟨⟨f, hf⟩, -⟩ | ⟨-, h, hrun, hs⟩⟩ :=
    inlineCalls_unfolds ha hcheck (plainBoundary_of_isPlain hplain) [4, 9, 4]
  · have hcalls : ∀ c ∈ [4, 9, 4], calledTwice.kind? c = some .call := by decide
    exact absurd (hcalls id hid) hnot
  · have hff := Relation.TransGen.mono hlt _ _ hf
    rw [Relation.transGen_eq_self] at hff
    exact absurd hff (Nat.lt_irrefl f)
  · exact ⟨harena, hcheck, hplain, h, hrun, hs.gone 9 (by decide), hs.kept 5 rfl (by decide), hs⟩

end Qirc.Graph
