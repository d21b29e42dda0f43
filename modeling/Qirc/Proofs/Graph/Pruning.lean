import Mathlib.Data.List.Perm.Subperm
import Qirc.Proofs.Graph.CallsGone
import Qirc.Proofs.Graph.SplicedLaws

/-!
# What pruning keeps

The calls spread from the entry until nothing new is found. The functions they do not reach are
removed one after the other, and nothing refuses it: what is left is the graph without them.
-/

namespace Qirc

open List Step Graph Relation

variable {g h : Graph}

/-! ## What the entry reaches -/

namespace CallGraph

variable {cg : CallGraph}

variable {seen : List Nat}

theorem mem_spread {j : Nat} :
    j ∈ cg.spread seen ↔ j ∈ cg.numbers ∧ (j ∈ seen ∨ ∃ i ∈ seen, cg.hasEdge i j = true) := by
  simp [spread]

theorem spread_subset (hseen : ∀ j ∈ seen, j ∈ cg.numbers) :
    ∀ j ∈ seen, j ∈ cg.spread seen := fun j hj => mem_spread.2 ⟨hseen j hj, .inl hj⟩

theorem spread_nodup (seen : List Nat) : (cg.spread seen).Nodup := nodup_range.filter _

def Closed (cg : CallGraph) (seen : List Nat) : Prop := ∀ j ∈ cg.spread seen, j ∈ seen

theorem closed_or_grows (hnodup : seen.Nodup) (hseen : ∀ j ∈ seen, j ∈ cg.numbers) :
    cg.Closed seen ∨ seen.length < (cg.spread seen).length := by
  by_cases hclosed : cg.Closed seen
  · exact .inl hclosed
  refine .inr (lt_of_le_of_ne
    (subperm_of_subset hnodup (spread_subset hseen)).length_le fun heq => hclosed ?_)
  have hperm := (subperm_of_subset hnodup (spread_subset hseen)).perm_of_length_le
    (Nat.le_of_eq heq.symm)
  exact fun j hj => hperm.mem_iff.2 hj

theorem closed_spread (hclosed : cg.Closed seen) : cg.Closed (cg.spread seen) := by
  intro j hj
  obtain ⟨hn, hj | ⟨i, hi, he⟩⟩ := mem_spread.1 hj
  · exact hj
  · exact mem_spread.2 ⟨hn, .inr ⟨i, hclosed i hi, he⟩⟩

theorem closed_spreadTimes (count : Nat) (hnodup : seen.Nodup) (hseen : ∀ j ∈ seen, j ∈ cg.numbers)
    (hcount : cg.funcs.length ≤ count + seen.length) : cg.Closed (cg.spreadTimes count seen) := by
  induction count generalizing seen with
  | zero =>
    have hperm := (subperm_of_subset hnodup hseen).perm_of_length_le
      (by simpa [numbers] using hcount)
    intro j hj
    exact hperm.mem_iff.2 (mem_spread.1 hj).1
  | succ count ih =>
    have hnext : ∀ j ∈ cg.spread seen, j ∈ cg.numbers := fun j hj => (mem_spread.1 hj).1
    rcases closed_or_grows hnodup hseen with hclosed | hgrows
    · have hstay : ∀ n (s : List Nat), cg.Closed s → cg.Closed (cg.spreadTimes n s) := by
        intro n
        induction n with
        | zero => exact fun s hs => hs
        | succ n ihn => exact fun s hs => ihn _ (closed_spread hs)
      exact hstay count _ (closed_spread hclosed)
    · exact ih (spread_nodup seen) hnext (by omega)

theorem reachable_closed (hnodup : cg.funcs.Nodup) {roots : List NodeId} {s : CallSite}
    (hs : s ∈ cg.calls) {f t : NodeId} (hf : cg.funcs[s.caller]? = some f)
    (ht : cg.funcs[s.callee]? = some t) (hreach : f ∈ cg.reachable roots) :
    t ∈ cg.reachable roots := by
  obtain ⟨i, hi, hif⟩ := mem_filterMap.1 hreach
  have hlt := (List.getElem?_eq_some_iff.1 hif).1
  obtain rfl : i = s.caller := (getElem?_inj hlt hnodup).1 (hif.trans hf.symm)
  have hedge : cg.hasEdge s.caller s.callee = true := any_eq_true.2 ⟨s, hs, by simp⟩
  refine mem_filterMap.2 ⟨s.callee, ?_, ht⟩
  refine closed_spreadTimes _ (nodup_range.filter _) (fun j hj => mem_of_mem_filter hj)
    (Nat.le_add_right _ _) _ (mem_spread.2 ⟨?_, .inr ⟨_, hi, hedge⟩⟩)
  exact mem_range.2 (List.getElem?_eq_some_iff.1 ht).1

theorem subset_spreadTimes (count : Nat) (hseen : ∀ j ∈ seen, j ∈ cg.numbers) :
    ∀ j ∈ seen, j ∈ cg.spreadTimes count seen := by
  induction count generalizing seen with
  | zero => exact fun j hj => hj
  | succ count ih =>
    exact fun j hj => ih (fun i hi => (mem_spread.1 hi).1) j (spread_subset hseen j hj)

theorem Numbered.spreadTimes_called (hn : cg.Numbered) {root : NodeId} (count : Nat)
    (hseen : ∀ i ∈ seen, ∀ f, cg.funcs[i]? = some f → ReflTransGen cg.Calls root f) :
    ∀ i ∈ cg.spreadTimes count seen, ∀ f, cg.funcs[i]? = some f → ReflTransGen cg.Calls root f := by
  induction count generalizing seen with
  | zero => exact hseen
  | succ count ih =>
    refine ih fun j hj t ht => ?_
    obtain ⟨-, hj | ⟨i, hi, he⟩⟩ := mem_spread.1 hj
    · exact hseen j hj t ht
    · obtain ⟨s, hs, rfl, rfl⟩ := hasEdge_iff.1 he
      obtain ⟨f, -, hf, -⟩ := hn.named s hs
      exact .tail (hseen _ hi f hf) ⟨s, hs, hf, ht⟩

theorem Numbered.mem_reachable (hn : cg.Numbered) {root : NodeId} (hroot : root ∈ cg.funcs)
    {f : NodeId} : f ∈ cg.reachable [root] ↔ ReflTransGen cg.Calls root f := by
  constructor
  · intro hf
    obtain ⟨i, hi, hif⟩ := mem_funcsAt.1 hf
    refine hn.spreadTimes_called _ (fun j hj t ht => ?_) i hi f hif
    have hjt := (mem_filter.1 hj).2
    rw [ht] at hjt
    obtain rfl : t = root := by simpa using hjt
    exact .refl
  · intro hf
    induction hf with
    | refl =>
      obtain ⟨i, hi⟩ := mem_iff_getElem?.1 hroot
      refine mem_funcsAt.2 ⟨i, subset_spreadTimes _ (fun j hj => mem_of_mem_filter hj) i ?_, hi⟩
      exact mem_filter.2 ⟨mem_numbers hi, by simp [hi]⟩
    | tail _ hcall ih =>
      obtain ⟨s, hs, hf, ht⟩ := hcall
      exact reachable_closed hn.nodup hs hf ht ih

end CallGraph

namespace Graph

/-! ## What is left without some functions -/

/-- A node that is none of these functions and lies in none of them. -/
def Spared (g : Graph) (gone : List NodeId) (x : NodeId) : Prop := ∀ f ∈ gone, x ≠ f ∧ ¬Under g f x

/-- The second graph is the first one without these functions. -/
structure Bereft (g h : Graph) (gone : List NodeId) : Prop where
  arena : h.Arena
  lasting : Lasting g h
  size : h.nodes.size = g.nodes.size
  functions : ∀ f ∈ gone, g.kind? f = some .funcDefn
  spared : ∀ x n, h.node? x = some n → Spared g gone x
  kept : ∀ x n, g.node? x = some n → Spared g gone x →
    h.node? x = some { n with children := n.children.filter (· ∉ gone) }
  edges : h.edges = g.edges.filter fun e => h.contains e.dst.node

theorem bereft_nil (ha : g.Arena) : Bereft g g [] where
  arena := ha
  lasting := .refl g
  size := rfl
  functions := by simp
  spared _ _ _ := by simp [Spared]
  kept x n hn _ := by simpa using hn
  edges := by
    refine (filter_eq_self.2 fun e he => ?_).symm
    obtain ⟨s, t, hfit⟩ := ha.edge e he
    exact contains_iff.2 ⟨t, hfit.target⟩

theorem Arena.edge_not_function (ha : g.Arena) {e : Edge} (he : e ∈ g.edges) :
    g.kind? e.src.node ≠ some .funcDefn := by
  obtain ⟨s, t, hfit⟩ := ha.edge e he
  have hp := hfit.hasPorts ha
  rw [kind?_of_node hfit.source]
  intro hk
  rw [Option.some.inj hk] at hp
  cases hp

theorem Lasting.nameOf (hl : Lasting g h) {id : NodeId} (hlt : id < g.nodes.size)
    (hid : h.contains id = true) : h.nameOf id = g.nameOf id := by
  obtain ⟨n', hn'⟩ := contains_iff.1 hid
  obtain ⟨n, hn, hbody, -⟩ := hl.node hn' hlt
  simp [Graph.nameOf, hn, hn', Node.name, hbody]

theorem Arena.function_apart (ha : g.Arena) {f t : NodeId} (hf : g.kind? f = some .funcDefn)
    (ht : g.kind? t = some .funcDefn) : ¬Under g f t := by
  intro hu
  obtain ⟨n, hn, hk⟩ := node_of_kind? ht
  cases ha.function_under hn hk hu
  obtain ⟨m, hm, hmk, -⟩ := ha.top
  rw [kind?_of_node hm, hmk] at hf
  cases hf

namespace Bereft

variable {gone : List NodeId} (hb : Bereft g h gone)
include hb

theorem mem_edges {e : Edge} : e ∈ h.edges ↔ e ∈ g.edges ∧ ∃ n, h.node? e.dst.node = some n := by
  rw [hb.edges, mem_filter, contains_iff]

theorem node {x : NodeId} {n' : Node} (hn : h.node? x = some n') :
    ∃ n, g.node? x = some n ∧ n' = { n with children := n.children.filter (· ∉ gone) } := by
  obtain ⟨n, hg, -⟩ := hb.lasting.node hn (hb.size ▸ node?_lt hn)
  exact ⟨n, hg, Option.some.inj (hn.symm.trans (hb.kept x n hg (hb.spared x n' hn)))⟩

theorem under_iff {r x : NodeId} {n : Node} (hn : h.node? x = some n) : Under h r x ↔ Under g r x :=
  hb.lasting.under_iff hb.arena hn (hb.size ▸ node?_lt hn)

theorem remove {fn : NodeId} (hfn : h.kind? fn = some .funcDefn) :
    ∃ h', removeSubtree fn h = .ok () h' ∧ Bereft g h' (fn :: gone) := by
  obtain ⟨n, hn, hk⟩ := node_of_kind? hfn
  obtain ⟨m, hh⟩ := hb.arena.hangs_function hn hk
  have hmem : ∀ {x l}, h.node? x = some l → (x ∈ h.walk fn ↔ x = fn ∨ Under g fn x) := by
    intro x l hl
    rw [mem_walk_iff hb.arena, hb.under_iff hl]
    exact and_iff_right ⟨l, hl⟩
  refine ⟨_, removeSubtree_ok hh, hb.arena.without hh, hb.lasting.trans (.without _ _),
    without_size.trans hb.size, ?_, ?_, ?_, ?_⟩
  · intro f hf
    rcases mem_cons.1 hf with rfl | hf
    · exact hb.lasting.kind? hfn (hb.size ▸ node?_lt hn)
    · exact hb.functions f hf
  · intro x l hl f hf
    obtain ⟨hnot, k, hkx, -⟩ := node_of_without hb.arena hh hl
    rcases mem_cons.1 hf with rfl | hf
    · exact not_or.1 fun hx => hnot ((hmem hkx).2 hx)
    · exact hb.spared x k hkx f hf
  · intro x k hkx hx
    have hcs := hb.kept x k hkx fun f hf => hx f (mem_cons_of_mem _ hf)
    have hnot : x ∉ h.walk fn := fun hw =>
      not_or.2 (hx fn mem_cons_self) ((hmem hcs).1 hw)
    have hboth : ∀ c, (c != fn && decide (c ∉ gone)) = decide (c ∉ fn :: gone) := by
      intro c
      rw [Bool.eq_iff_iff]
      simp
    rw [without_of_node hb.arena hh hcs hnot, filter_filter]
    simp only [hboth]
  · have hedges : (h.without fn root).edges = h.edges.filter fun e =>
        !(h.walk fn).contains e.src.node && !(h.walk fn).contains e.dst.node := by
      simp [without]
    rw [hedges]
    nth_rw 1 [hb.edges]
    rw [filter_filter]
    refine filter_congr fun e he => ?_
    rw [Bool.eq_iff_iff]
    simp only [Bool.and_eq_true, Bool.not_eq_true', List.contains_eq_mem, decide_eq_false_iff_not,
      contains_iff]
    constructor
    · rintro ⟨⟨-, hdst⟩, l, hl⟩
      exact ⟨_, without_of_node hb.arena hh hl hdst⟩
    rintro ⟨l, hl⟩
    obtain ⟨hdst, k, hkd, -⟩ := node_of_without hb.arena hh hl
    have heh := hb.mem_edges.2 ⟨he, k, hkd⟩
    refine ⟨⟨fun hsrc => hdst ?_, hdst⟩, k, hkd⟩
    rcases ((mem_walk_iff hb.arena).1 hsrc).2 with heq | hu
    · exact absurd (by rw [heq, hfn]) (hb.arena.edge_not_function heh)
    · exact (mem_walk_iff hb.arena).2 ⟨⟨k, hkd⟩, .inr ((hb.arena.under_ends heh).1 hu)⟩

variable (ha : g.Arena)
include ha

/-- Only the module has functions for children. -/
theorem children_kept {x : NodeId} {n : Node} (hn : g.node? x = some n) (hx : x ≠ root) :
    n.children.filter (· ∉ gone) = n.children := by
  refine filter_eq_self.2 fun c hc => decide_eq_true fun hcg => ?_
  obtain ⟨k, hk, hkk⟩ := node_of_kind? (hb.functions c hcg)
  obtain ⟨m, hh⟩ := ha.hangs_function hk hkk
  exact hx (Option.some.inj ((ha.parent_of_child hn hc hk).symm.trans hh.parent))

theorem node_kept {x : NodeId} {n : Node} (hn : g.node? x = some n) (hx : x ≠ root)
    (hspared : Spared g gone x) : h.node? x = some n := by
  rw [hb.kept x n hn hspared, hb.children_kept ha hn hx]

theorem inside {f x : NodeId} (hf : g.kind? f = some .funcDefn) (hfg : f ∉ gone)
    (hx : x = f ∨ Under g f x) : h.node? x = g.node? x := by
  obtain ⟨k, hk, hkk⟩ := node_of_kind? hf
  obtain ⟨m, hh⟩ := ha.hangs_function hk hkk
  rcases hx with rfl | hu
  · exact (hb.node_kept ha hk hh.ne_root fun t ht => ⟨fun he => hfg (he ▸ ht),
      ha.function_apart (hb.functions t ht) hf⟩).trans hk.symm
  · obtain ⟨n, hn⟩ := hu.node
    obtain ⟨p, l, hx, -⟩ := hu.hangs ha hn
    refine (hb.node_kept ha hn hx.ne_root fun t ht => ?_).trans hn.symm
    have htk := hb.functions t ht
    exact ⟨fun he => ha.function_apart hf htk (he ▸ hu),
      fun hut => hfg (ha.function_unique hf htk hu hut ▸ ht)⟩

theorem function_iff {x : NodeId} :
    h.kind? x = some .funcDefn ↔ g.kind? x = some .funcDefn ∧ x ∉ gone := by
  constructor
  · intro hx
    obtain ⟨n, hn, -⟩ := node_of_kind? hx
    exact ⟨hb.lasting.kind? hx (hb.size ▸ node?_lt hn),
      fun hmem => (hb.spared x n hn x hmem).1 rfl⟩
  · rintro ⟨hx, hnot⟩
    rw [← hx, kind?, kind?, hb.inside ha hx hnot (.inl rfl)]

theorem pruneFuncs (live : List NodeId) {funcs : List NodeId} (done : Pruned)
    (hnodup : funcs.Nodup) (hfuncs : ∀ f ∈ funcs, h.kind? f = some .funcDefn) :
    ∃ h', pruneFuncs live done funcs h =
        .ok ⟨done.kept + (funcs.filter (· ∈ live)).length,
          done.removed ++ (funcs.filter (· ∉ live)).map g.nameOf⟩ h' ∧
      Bereft g h' ((funcs.filter (· ∉ live)).reverse ++ gone) := by
  induction funcs generalizing h done gone with
  | nil => exact ⟨h, by simp [pruneFuncs, pure_ok], hb⟩
  | cons fn rest ih =>
    rw [nodup_cons] at hnodup
    unfold pruneFuncs
    by_cases hlive : fn ∈ live
    · obtain ⟨h', hrun, hb'⟩ := ih hb { done with kept := done.kept + 1 } hnodup.2
        fun f hf => hfuncs f (mem_cons_of_mem _ hf)
      refine ⟨h', ?_, by simpa [hlive] using hb'⟩
      rw [if_pos (contains_iff_mem.2 hlive), hrun]
      simp [hlive, Nat.add_assoc, Nat.add_comm 1]
    · have hfn := hfuncs fn mem_cons_self
      obtain ⟨h₁, hremove, hb₁⟩ := hb.remove hfn
      obtain ⟨n, hn, -⟩ := node_of_kind? hfn
      have hname : h.nameOf fn = g.nameOf fn :=
        hb.lasting.nameOf (hb.size ▸ node?_lt hn) (contains_iff.2 ⟨n, hn⟩)
      obtain ⟨h', hrun, hb'⟩ :=
        ih hb₁ { done with removed := done.removed ++ [h.nameOf fn] } hnodup.2 (by
          intro f hf
          obtain ⟨hfk, hnot⟩ := (hb.function_iff ha).1 (hfuncs f (mem_cons_of_mem _ hf))
          refine (hb₁.function_iff ha).2 ⟨hfk, ?_⟩
          rw [mem_cons, not_or]
          exact ⟨fun he => hnodup.1 (he ▸ hf), hnot⟩)
      refine ⟨h', ?_, by simpa [hlive] using hb'⟩
      rw [if_neg (mt contains_iff_mem.1 hlive), get_bind]
      refine bind_ok.2 ⟨(), h₁, inContext_ok.2 hremove, hrun.trans ?_⟩
      simp [hlive, hname]

theorem functions_eq {fs : List NodeId} (hfs : g.functions = .ok fs) :
    h.functions = .ok (fs.filter (· ∉ gone)) := by
  obtain ⟨m, hm, -⟩ := ha.top
  cases (ha.functions_eq hm).symm.trans hfs
  obtain ⟨m', hm', -⟩ := hb.arena.top
  obtain ⟨n, hn, rfl⟩ := hb.node hm'
  cases hm.symm.trans hn
  exact hb.arena.functions_eq hm'

theorem edges_at {f x : NodeId} (hf : g.kind? f = some .funcDefn) (hfg : f ∉ gone)
    (hx : x = f ∨ Under g f x) :
    h.edges.filter (fun e => e.src.node == x || e.dst.node == x) =
      g.edges.filter fun e => e.src.node == x || e.dst.node == x := by
  rw [hb.edges, filter_filter]
  refine filter_congr fun e he => ?_
  rw [Bool.and_eq_left_iff_imp]
  intro hat
  obtain ⟨s, t, hfit⟩ := ha.edge e he
  refine contains_iff.2 ⟨t, (hb.inside ha hf hfg ?_).trans hfit.target⟩
  simp only [Bool.or_eq_true, beq_iff_eq] at hat
  rcases hat with hsrc | hdst
  · rcases hx with rfl | hu
    · exact absurd (hsrc ▸ hf) (ha.edge_not_function he)
    · exact .inr ((ha.under_ends he).1 (hsrc ▸ hu))
  · exact hdst ▸ hx

theorem callFrom {c f t : NodeId} (hc : g.CallFrom c f t) (hf : f ∉ gone) (ht : t ∉ gone) :
    h.CallFrom c f t := by
  obtain ⟨n, hn, hk, hcallee⟩ := hc.names
  have hn' := (hb.inside ha hc.caller hf (.inr hc.inside)).trans hn
  exact ⟨(hb.function_iff ha).2 ⟨hc.caller, hf⟩, (hb.function_iff ha).2 ⟨hc.callee, ht⟩,
    (hb.under_iff hn').2 hc.inside, n, hn', hk, hcallee⟩

end Bereft

/-! ## The entry -/

theorem eq_singleton {l : List NodeId} {a : NodeId} (hl : l.Nodup) (hmem : ∀ x, x ∈ l ↔ x = a) :
    l = [a] :=
  perm_singleton.1 ((perm_ext_iff_of_nodup hl (nodup_singleton a)).2 fun x => by
    rw [hmem, mem_singleton])

theorem funcsByName_iff (ha : g.Arena) {name : String} {f : NodeId} :
    g.funcsByName name = .ok [f] ↔
      ∀ x, (g.kind? x = some .funcDefn ∧ g.nameOf x = name) ↔ x = f := by
  obtain ⟨fs, hfs, hnodup, hmem⟩ := ha.functions
  have hval : g.funcsByName name = .ok (fs.filter fun id => g.nameOf id == name) := by
    unfold funcsByName
    rw [hfs]
    rfl
  rw [hval, Except.ok.injEq]
  constructor
  · intro he x
    have hx : x ∈ fs.filter (fun id => g.nameOf id == name) ↔ x ∈ [f] := by rw [he]
    rwa [mem_filter, beq_iff_eq, hmem, mem_singleton] at hx
  · intro hx
    refine eq_singleton (hnodup.filter _) fun x => ?_
    rw [mem_filter, beq_iff_eq, hmem, hx]

theorem funcsByName_of_same (ha : g.Arena) (hh : h.Arena) (hl : Lasting g h)
    (hs : SameFunctions g h) {name : String} {f : NodeId} (hf : g.funcsByName name = .ok [f]) :
    h.funcsByName name = .ok [f] := by
  refine (funcsByName_iff hh).2 fun x => (Iff.trans ?_ ((funcsByName_iff ha).1 hf x))
  rw [hs x]
  refine and_congr_right fun hx => ?_
  obtain ⟨n, hn, -⟩ := node_of_kind? hx
  obtain ⟨n', hn', -⟩ := node_of_kind? ((hs x).2 hx)
  rw [hl.nameOf (node?_lt hn) (contains_iff.2 ⟨n', hn'⟩)]

theorem entry_of_funcsByName {main : NodeId} (h : g.funcsByName entryName = .ok [main]) :
    g.entry = .ok main := by
  unfold entry
  rw [h]
  rfl

theorem entry_of_functions {fs : List NodeId} (hfs : g.functions = .ok fs) :
    g.entry = match fs.filter fun id => g.nameOf id == entryName with
      | [] => .error (.error .entryMissing)
      | [id] => .ok id
      | ids => .error (.error (.entryAmbiguous ids.length)) := by
  unfold entry funcsByName
  rw [hfs]
  rfl

theorem entry_ok_iff {fs : List NodeId} (hfs : g.functions = .ok fs) {main : NodeId} :
    g.entry = .ok main ↔ fs.filter (fun id => g.nameOf id == entryName) = [main] := by
  rw [entry_of_functions hfs]
  generalize fs.filter (fun id => g.nameOf id == entryName) = found
  rcases found with _ | ⟨id, _ | ⟨other, rest⟩⟩ <;> simp

theorem pruneFuncs_live {live funcs : List NodeId} (hlive : ∀ f ∈ funcs, f ∈ live) (done : Pruned) :
    pruneFuncs live done funcs g = .ok { done with kept := done.kept + funcs.length } g := by
  induction funcs generalizing done with
  | nil => rfl
  | cons fn rest ih =>
    rw [pruneFuncs, if_pos (contains_iff_mem.2 (hlive fn mem_cons_self)),
      ih fun f hf => hlive f (mem_cons_of_mem _ hf), length_cons, Nat.add_assoc, Nat.add_comm 1]

/-- A chain of calls leads from `main` to `f`. -/
def Reaches (g : Graph) (main f : NodeId) : Prop := ReflTransGen (g.Links fun _ => true) main f

theorem prune_of_entry (ha : g.Arena) {fs : List NodeId} (hfs : g.functions = .ok fs)
    {main : NodeId} (hmain : g.entry = .ok main) :
    ∃ live, (∀ f, f ∈ live ↔ g.Reaches main f) ∧ prune g = pruneFuncs live ⟨0, []⟩ fs g := by
  obtain ⟨cg, hbuild, hcg⟩ := CallGraph.build_ok ha fun _ => true
  cases hcg.listed.symm.trans hfs
  have hmem : main ∈ cg.funcs := by
    have hfound := (entry_ok_iff hfs).1 hmain
    exact mem_of_mem_filter (hfound ▸ mem_singleton_self main)
  have hrel : cg.Calls = g.Links fun _ => true := funext₂ fun f t => propext hcg.calls_iff
  refine ⟨cg.reachable [main], fun f => ?_, ?_⟩
  · rw [hcg.numbered.mem_reachable hmem, hrel]
    rfl
  · unfold prune
    rw [get_bind, hmain, hbuild]
    rfl

theorem prune_bereft (ha : g.Arena) {fs : List NodeId} (hfs : g.functions = .ok fs) {main : NodeId}
    (hmain : g.entry = .ok main) :
    ∃ live : List NodeId, (∀ f, f ∈ live ↔ g.Reaches main f) ∧ ∃ h,
      prune g = .ok ⟨(fs.filter (· ∈ live)).length, (fs.filter (· ∉ live)).map g.nameOf⟩ h ∧
      h.functions = .ok (fs.filter (· ∈ live)) ∧ Bereft g h (fs.filter (· ∉ live)).reverse := by
  obtain ⟨live, hlive, hprune⟩ := prune_of_entry ha hfs hmain
  obtain ⟨fs', hfs', hnodup, hmem⟩ := ha.functions
  cases hfs.symm.trans hfs'
  obtain ⟨h, hrun, hb⟩ := (bereft_nil ha).pruneFuncs ha live ⟨0, []⟩ hnodup fun f hf => (hmem f).1 hf
  rw [append_nil] at hb
  refine ⟨live, hlive, h, by simpa [hprune] using hrun, ?_, hb⟩
  rw [hb.functions_eq ha hfs]
  refine congrArg Except.ok (filter_congr fun f hf => ?_)
  simp [hf]

theorem prune_of_all_reached (ha : g.Arena) {fs : List NodeId} (hfs : g.functions = .ok fs)
    {main : NodeId} (hmain : g.entry = .ok main) (hall : ∀ f ∈ fs, g.Reaches main f) :
    prune g = .ok ⟨fs.length, []⟩ g := by
  obtain ⟨live, hlive, hprune⟩ := prune_of_entry ha hfs hmain
  rw [hprune, pruneFuncs_live (fun f hf => (hlive f).2 (hall f hf)), Nat.zero_add]

theorem prune_ok_of_no_calls (ha : g.Arena) (hcalls : ∀ x, g.kind? x ≠ some .call) {main : NodeId}
    (hmain : g.funcsByName entryName = .ok [main]) :
    ∃ removed h, prune g = .ok ⟨1, removed⟩ h ∧ h.Arena ∧ Lasting g h ∧
      h.functions = .ok [main] := by
  obtain ⟨fs, hfs, hnodup, hmem⟩ := ha.functions
  obtain ⟨live, hlive, h, hprune, hfuncs, hb⟩ :=
    prune_bereft ha hfs (entry_of_funcsByName hmain)
  have hkept : fs.filter (· ∈ live) = [main] := by
    refine eq_singleton (hnodup.filter _) fun x => ?_
    rw [mem_filter, decide_eq_true_eq, hlive, hmem]
    constructor
    · rintro ⟨-, hx⟩
      rcases hx.cases_tail with rfl | ⟨f, -, c, -, hc⟩
      · rfl
      · obtain ⟨n, hn, hk, -⟩ := hc.names
        exact absurd (by rw [kind?_of_node hn, hk]) (hcalls c)
    · rintro rfl
      exact ⟨((((funcsByName_iff ha).1 hmain) x).2 rfl).1, .refl⟩
  rw [hkept] at hprune hfuncs
  exact ⟨_, h, hprune, hb.arena, hb.lasting, hfuncs⟩

/-! ## The whole pass -/

/-- Of the functions `fs` of the first graph the second one has those that `main` reaches, as they
were. -/
structure Prunes (g h : Graph) (main : NodeId) (fs kept : List NodeId) : Prop where
  functions : h.functions = .ok kept
  order : kept.Sublist fs
  reached : ∀ f, f ∈ kept ↔ f ∈ fs ∧ g.Reaches main f
  node : ∀ f ∈ kept, ∀ x, x = f ∨ Under g f x → h.node? x = g.node? x
  edges : ∀ f ∈ kept, ∀ x, x = f ∨ Under g f x →
    h.edges.filter (fun e => e.src.node == x || e.dst.node == x) =
      g.edges.filter fun e => e.src.node == x || e.dst.node == x
  dead : ∀ f ∈ fs, f ∉ kept → ∀ x, x = f ∨ Under g f x → h.node? x = none

/-- Without exactly one entry nothing is pruned. With one, the functions left are those that a chain
of calls from it reaches, in the order of the module and with their bodies untouched, and the others
are dead. Pruning again removes nothing. -/
theorem prune_keeps_reached (ha : g.Arena) : ∃ fs, g.functions = .ok fs ∧
    (((fs.filter fun f => g.nameOf f == entryName).length ≠ 1 ∧
        ∃ e, g.entry = .error e ∧ prune g = .error e g) ∨
      ∃ main kept h, fs.filter (fun f => g.nameOf f == entryName) = [main] ∧
        prune g = .ok ⟨kept.length, (fs.filter (· ∉ kept)).map g.nameOf⟩ h ∧
        Prunes g h main fs kept ∧ prune h = .ok ⟨kept.length, []⟩ h) := by
  obtain ⟨fs, hfs, hnodup, hmem⟩ := ha.functions
  refine ⟨fs, hfs, ?_⟩
  cases hentry : g.entry with
  | error e =>
    refine .inl ⟨fun hone => ?_, e, rfl, ?_⟩
    · obtain ⟨main, hmain⟩ := length_eq_one_iff.1 hone
      cases hentry.symm.trans ((entry_ok_iff hfs).2 hmain)
    · unfold prune
      rw [get_bind, hentry]
      rfl
  | ok main =>
    have hfound := (entry_ok_iff hfs).1 hentry
    obtain ⟨live, hlive, h, hprune, hkept, hb⟩ := prune_bereft ha hfs hentry
    have hgone : ∀ {f}, f ∈ (fs.filter (· ∉ live)).reverse ↔ f ∈ fs ∧ f ∉ live := by simp
    have hstay : ∀ {f}, f ∈ live → f ∉ (fs.filter (· ∉ live)).reverse :=
      fun hf hmem => (hgone.1 hmem).2 hf
    have hremoved : fs.filter (· ∉ live) = fs.filter (· ∉ fs.filter (· ∈ live)) :=
      filter_congr fun f hf => by simp [hf]
    refine .inr ⟨main, fs.filter (· ∈ live), h, hfound, hremoved ▸ hprune, ?_, ?_⟩
    · refine ⟨hkept, filter_sublist, fun f => ?_, fun f hf x hx => ?_, fun f hf x hx => ?_,
        fun f hf hnot x hx => ?_⟩
      · rw [mem_filter, decide_eq_true_eq, hlive]
      · obtain ⟨hf, hl⟩ := mem_filter.1 hf
        exact hb.inside ha ((hmem f).1 hf) (hstay (of_decide_eq_true hl)) hx
      · obtain ⟨hf, hl⟩ := mem_filter.1 hf
        exact hb.edges_at ha ((hmem f).1 hf) (hstay (of_decide_eq_true hl)) hx
      · refine Option.eq_none_iff_forall_ne_some.2 fun n hn => ?_
        have hfg := hgone.2 ⟨hf, fun hl => hnot (mem_filter.2 ⟨hf, decide_eq_true hl⟩)⟩
        exact not_or.2 (hb.spared x n hn f hfg) hx
    · have hnames : ∀ f ∈ fs.filter (· ∈ live), (h.nameOf f == entryName) = (g.nameOf f == entryName) := by
        intro f hf
        obtain ⟨hf, hl⟩ := mem_filter.1 hf
        have hn := hb.inside ha ((hmem f).1 hf) (hstay (of_decide_eq_true hl)) (.inl rfl)
        rw [nameOf, hn, nameOf]
      have hmain : h.entry = .ok main := by
        rw [entry_ok_iff hkept, filter_congr hnames, filter_comm, hfound, filter_eq_self]
        rintro f hf
        cases mem_singleton.1 hf
        exact decide_eq_true ((hlive main).2 .refl)
      refine prune_of_all_reached hb.arena hkept hmain fun f hf => ?_
      have hreach := (hlive f).1 (of_decide_eq_true (mem_filter.1 hf).2)
      clear hf
      induction hreach with
      | refl => exact .refl
      | tail hpath hlink ih =>
        obtain ⟨c, hc⟩ := hlink
        refine ih.tail ⟨c, hc.1, hb.callFrom ha hc.2 ?_ ?_⟩
        · exact hstay ((hlive _).2 hpath)
        · exact hstay ((hlive _).2 (hpath.tail ⟨c, hc⟩))

/-- The entry calls the second function. The third one, which nothing calls, calls the fourth. -/
def twoIslands : Graph where
  nodes :=
    let function name child :=
      { Node.fresh { NodeBody.ofKind .funcDefn ⟨[], []⟩ with name } (some 0) with children := child }
    let call callee parent :=
      Node.fresh { NodeBody.ofKind .call ⟨[], []⟩ with callee := some callee } (some parent)
    #[{ Node.fresh (NodeBody.ofKind .module ⟨[], []⟩) none with children := [3, 1, 2, 4] },
      function "main" [5], function "near" [], function "lost" [6], function "far" [], call 2 1,
      call 4 3]
  edges := []

theorem prune_keeps_reached_twoIslands : twoIslands.isArena = true ∧ ∃ h,
    prune twoIslands = .ok ⟨2, ["lost", "far"]⟩ h ∧ h.functions = .ok [1, 2] ∧
      prune h = .ok ⟨2, []⟩ h := by
  have harena : twoIslands.isArena = true := by decide
  obtain ⟨fs, hfs, ⟨hnot, -⟩ | ⟨main, kept, h, -, hprune, -, hagain⟩⟩ :=
    prune_keeps_reached (arena_of_isArena harena)
  · cases hfs
    exact absurd rfl hnot
  · obtain ⟨h', hrun, hfs'⟩ : ∃ h', prune twoIslands = .ok ⟨2, ["lost", "far"]⟩ h' ∧
        h'.functions = .ok [1, 2] := ⟨_, rfl, rfl⟩
    injection hprune.symm.trans hrun with hdone hh
    injection hdone with hlen
    rw [hh, hlen] at hagain
    exact ⟨harena, h', hrun, hfs', hagain⟩

end Graph

end Qirc
