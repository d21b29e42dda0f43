import Qirc.Proofs.Graph.Inlining

/-!
# Inlining keeps every denotation

A node of the graph after inlining stands for one before: the copies for what they were copied
from, all others for themselves. Main statement: a call outside the body of its callee is inlined,
and all functions denote afterwards what they denoted before.
-/

namespace Qirc.Graph

open List

variable {R : NodeId → NodeId → Prop} {ren : NodeId → NodeId} {xs : List NodeId}

theorem eq_map_of_forall₂ {ys : List NodeId} (h : Forall₂ R xs ys)
    (hren : ∀ x y, R x y → ren x = y) : ys = xs.map ren := by
  induction h with
  | nil => rfl
  | cons hr _ ih => rw [map_cons, hren _ _ hr, ih]

theorem forall₂_map (h : ∀ x ∈ xs, R x (ren x)) : Forall₂ R xs (xs.map ren) :=
  forall₂_map_right_iff.2 (forall₂_same.2 h)

namespace CallSite

variable {g g' : Graph} {s : CallSite g} {made : NodeMap} {tops : List NodeId}

/-- Which node of the graph before inlining a node of the graph after it stands for. -/
def Stands (s : CallSite g) (made : NodeMap) (x y : NodeId) : Prop :=
  (x = y ∧ x ≠ s.call ∧ x < g.nodes.size) ∨ (x, y) ∈ made

/-- What a fresh node is a copy of; any other node is itself. -/
def origin (made : NodeMap) (y : NodeId) : NodeId :=
  ((made.find? (fun p => p.2 == y)).map (·.1)).getD y

theorem source_exists (s : CallSite g) {c : NodeId} {k : Node} (hk : g.node? c = some k) {i : Nat}
    (hi : i < k.inputCount) : ∃ src, g.source? ⟨c, i⟩ = some src := by
  obtain ⟨src, he⟩ := s.lawful.fed _ _ hk i hi
  exact ⟨src, (source?_eq_some_iff s.arena).2 he⟩

theorem stands_self {x : NodeId} {n : Node} (hx : g.node? x = some n) (hcall : n.kind ≠ .call) :
    s.Stands made x x := .inl ⟨rfl, s.ne_call hx hcall, node?_lt hx⟩

namespace Spliced

section

variable (hs : s.Spliced g' made tops)

include hs

theorem origin_fresh {a b : NodeId} (hab : (a, b) ∈ made) : origin made b = a := by
  have hfind : made.find? (fun p => p.2 == b) = some (a, b) := find?_key hs.values hab
  rw [origin, hfind]
  rfl

theorem origin_old {x : Nat} (hx : x < g.nodes.size) : origin made x = x := by
  unfold origin
  cases hf : made.find? (fun p => p.2 == x) with
  | none => rfl
  | some p =>
    have hp := find?_some hf
    rw [beq_iff_eq] at hp
    have hb := hs.fresh p.1 p.2 (mem_of_find?_eq_some hf)
    rw [hp] at hb
    exact absurd hx (Nat.not_lt_of_le hb)

theorem origin_stands {x y : NodeId} (hxy : s.Stands made x y) : origin made y = x := by
  obtain ⟨rfl, -, hx⟩ | hxy := hxy
  · exact hs.origin_old hx
  · exact hs.origin_fresh hxy

theorem renamed {x y : NodeId} {k : Node}
    (hxy : s.Stands made x y) (hk : g.node? x = some k) (hx : x ≠ s.holder) :
    ∃ l ren, g'.node? y = some l ∧ Same k l ∧ l.children = k.children.map ren ∧
      (∀ c ∈ k.children, s.Stands made c (ren c)) ∧
      ∀ c ∈ k.children, ∀ i src, g.source? ⟨c, i⟩ = some src →
        g'.source? ⟨ren c, i⟩ = some ⟨ren src.node, src.index⟩ := by
  obtain ⟨rfl, hcall, hlt⟩ | hxy := hxy
  · have hne : ∀ c ∈ k.children, c ≠ s.call := by
      rintro c hc rfl
      have hp := s.arena.parent_of_child hk hc s.hangs.node
      rw [s.hangs.parent] at hp
      exact hx (Option.some.inj hp).symm
    refine ⟨k, id, ?_, .rehold k _, by simp, ?_, ?_⟩
    · rw [node?_congr (hs.others x hlt hx hcall), hk]
    · intro c hc
      obtain ⟨kc, hh⟩ := s.arena.child x k c hk hc
      exact .inl ⟨rfl, hne c hc, node?_lt hh.node⟩
    · intro c hc i src hsrc
      obtain ⟨S, w, hS, hlisted, -, -⟩ := source?_listed s.arena hk hsrc hc
      rw [id, hs.oldSource c i src (hne c hc) hsrc, if_neg (hne _ hlisted)]
      rfl
  · obtain ⟨k', l, ht⟩ := hs.twins x y hxy
    have hkk := ht.old
    rw [hk] at hkk
    cases hkk
    have hmem : ∀ c ∈ k.children, (c, (made.get? c).getD root) ∈ made := by
      intro c hc
      obtain ⟨t, -, hct, -⟩ := forall₂_of_mem_left ht.children hc
      rw [NodeMap.get?_of_mem hs.once hct]
      exact hct
    refine ⟨l, fun c => (made.get? c).getD root, ht.new, ht.same s.arena hs.arena, ?_, ?_, ?_⟩
    · apply eq_map_of_forall₂ ht.children
      rintro c t ⟨hct, -⟩
      rw [NodeMap.get?_of_mem hs.once hct]
      rfl
    · intro c hc
      exact .inr (hmem c hc)
    · intro c hc i src hsrc
      obtain ⟨S, w, hS, hlisted, -, -⟩ := source?_listed s.arena hk hsrc hc
      rw [hs.newSource c _ i src (hmem c hc) hsrc, hs.copySource_of_mem (hmem _ hlisted)]

theorem mirrors {c t : NodeId} {k : Node} (hct : s.Stands made c t) (hk : g.node? c = some k) :
    ∃ l, g'.node? t = some l ∧ Mirrors (s.Stands made) c t k l := by
  have hcallees : ∀ f, k.kind = .call → k.body.callee = some f → s.Stands made f f := by
    intro f hkind hf
    obtain ⟨f', fn, hf', hfn, hfk, -⟩ := s.lawful.call c k hk hkind
    rw [hf] at hf'
    cases hf'
    exact stands_self hfn (by rw [hfk]; decide)
  by_cases hc : c = s.holder
  · have ht : t = s.holder := by
      obtain ⟨rfl, -, -⟩ | hct := hct
      · exact hc
      · exact absurd hc (s.holder_apart (.inr (hs.key_under hct)))
    subst hc ht
    rw [s.hangs.holder] at hk
    cases hk
    obtain ⟨before, after, -, hnode⟩ := hs.holder
    refine ⟨_, hnode, .rehold _ _, hct, hcallees, ?_⟩
    intro hkind
    have hr := s.holder_isRegion
    rw [hkind] at hr
    cases hr
  · obtain ⟨l, ren, hl, hsame, hch, hstands, -⟩ := hs.renamed hct hk hc
    refine ⟨l, hl, hsame, hct, hcallees, fun _ => ?_⟩
    rw [hch]
    exact forall₂_map hstands

theorem origin_exists {x : NodeId} {l : Node} (hl : g'.node? x = some l) :
    ∃ y k, g.node? y = some k ∧ Mirrors (s.Stands made) y x k l := by
  have hstands : ∃ y k, s.Stands made y x ∧ g.node? y = some k := by
    rcases hs.covered x with hlt | hge | ⟨a, hab⟩
    · have hcall : x ≠ s.call := by
        rintro rfl
        rw [hs.gone] at hl
        cases hl
      by_cases hh : x = s.holder
      · exact ⟨x, s.region, .inl ⟨rfl, hcall, hlt⟩, by rw [hh]; exact s.hangs.holder⟩
      · exact ⟨x, l, .inl ⟨rfl, hcall, hlt⟩, by rw [← node?_congr (hs.others x hlt hh hcall), hl]⟩
    · rw [node?_of_size_le hge] at hl
      cases hl
    · obtain ⟨k, t, htwin⟩ := hs.twins a x hab
      exact ⟨a, k, .inr hab, htwin.old⟩
  obtain ⟨y, k, hyx, hk⟩ := hstands
  obtain ⟨l', hl', hm⟩ := hs.mirrors hyx hk
  cases hl.symm.trans hl'
  exact ⟨y, k, hk, hm⟩

end

section Values

variable {V : Type} {I : Interpretation V}

variable {x : NodeId}

theorem renamed_paired (hs : s.Spliced g' made tops) {k l : Node} {ren : NodeId → NodeId}
    (hk : g.node? x = some k) (hch : l.children = k.children.map ren)
    (hstands : ∀ c ∈ k.children, s.Stands made c (ren c))
    (hsource : ∀ c ∈ k.children, ∀ i src, g.source? ⟨c, i⟩ = some src → g'.source? ⟨ren c, i⟩ =
      some ⟨ren src.node, src.index⟩) (env env' : Port → V)
    (henv : ∀ c ∈ k.children, ∀ i, env ⟨c, i⟩ = env' ⟨ren c, i⟩) :
    Forall₂ (Paired (s.Stands made) g g' env env') k.children l.children := by
  rw [hch]
  apply forall₂_map
  intro c hc
  obtain ⟨kc, hh⟩ := s.arena.child x k c hk hc
  obtain ⟨lc, hlc, hm⟩ := hs.mirrors (hstands c hc) hh.node
  refine ⟨kc, lc, hh.node, hlc, hm, fun i => henv c hc i, ?_⟩
  intro i hi
  obtain ⟨src, hsrc⟩ := s.source_exists hh.node hi
  obtain ⟨S, w, -, hlisted, -, -⟩ := source?_listed s.arena hk hsrc hc
  exact ⟨src, _, hsrc, hsource c hc i src hsrc, henv _ hlisted _⟩

theorem holder_split (hs : s.Spliced g' made tops) : ∃ a z pre post,
    s.region.children = a :: z :: (pre ++ s.call :: post) ∧
      g'.node? s.holder = some { s.region with children := a :: z :: (pre ++ tops ++ post) } ∧
      ∀ x ∈ a :: z :: (pre ++ post), x ∈ s.region.children ∧ x ≠ s.call := by
  obtain ⟨before, after, hch, hnode⟩ := hs.holder
  obtain ⟨a, z, rest, i, o, hb⟩ := s.lawful.region _ _ s.hangs.holder s.holder_isRegion
  have hcs := hb.children
  rw [hch] at hcs
  have hkind : ∀ n, g.node? s.call = some n → n.kind = .call := by
    intro n hn
    rw [s.hangs.node] at hn
    rw [← Option.some.inj hn, s.kind]
  match before with
  | [] =>
    rw [nil_append, cons.injEq] at hcs
    have := hkind i (by rw [hcs.1, hb.first])
    rw [hb.firstKind] at this
    cases this
  | [b] =>
    rw [singleton_append, cons.injEq, cons.injEq] at hcs
    have := hkind o (by rw [hcs.2.1, hb.last])
    rw [hb.lastKind] at this
    cases this
  | b :: c :: pre =>
    refine ⟨b, c, pre, after, by rw [hch]; rfl, by rw [hnode]; rfl, ?_⟩
    have hnodup := s.arena.nodup _ _ s.hangs.holder
    rw [hch, nodup_append] at hnodup
    intro x hx
    rw [hch]
    have hx' : x ∈ b :: c :: pre ∨ x ∈ after := by simpa [or_assoc] using hx
    obtain hx | hx := hx'
    · exact ⟨mem_append_left _ hx, hnodup.2.2 x hx _ mem_cons_self⟩
    refine ⟨mem_append_right _ (mem_cons_of_mem _ hx), ?_⟩
    rintro rfl
    exact (nodup_cons.1 hnodup.2.1).1 hx

/-- The values in the function as it is called, and in the region with the body in place of the
call. -/
structure Copied (s : CallSite g) (made : NodeMap) (envc env' : Port → V) : Prop where
  copied : ∀ a b, (a, b) ∈ made → ∀ i : Int, envc ⟨a, i⟩ = env' ⟨b, i⟩
  entered : ∀ k : Nat, k < s.input.outputCount →
    envc ⟨s.first, k⟩ = env' (s.copySource made ⟨s.first, k⟩)

/-- The values in the region of the call come along. -/
structure Flows (s : CallSite g) (made : NodeMap) (env envc env' : Port → V) : Prop
    extends Copied s made envc env' where
  kept : ∀ x : Nat, x < g.nodes.size → x ≠ s.call → ∀ i : Int, env ⟨x, i⟩ = env' ⟨x, i⟩
  called : ∀ j : Nat, j < s.node.outputCount → env ⟨s.call, j⟩ = env' (s.start made j)

variable {c : NodeId} {env' envc : Port → V}

theorem source_value (hs : s.Spliced g' made tops) (hf : Copied s made envc env') {i : Int}
    {src : Port} (hc : c ∈ s.fn.children)
    (hsrc : g.source? ⟨c, i⟩ = some src) : envc src = env' (s.copySource made src) := by
  obtain ⟨S, w, hS, hlisted, hw, heq⟩ := source?_listed s.arena s.function hsrc hc
  rw [s.bounded.children, mem_cons, mem_cons] at hlisted
  obtain hx | hx | hx := hlisted
  · rw [hx, s.bounded.first] at hS
    cases hS
    rw [hx] at heq
    rw [heq]
    exact hf.entered w hw
  · rw [hx, s.bounded.last] at hS
    cases hS
    rw [s.plain.output _ _ s.bounded.last s.bounded.lastKind] at hw
    exact absurd hw (Nat.not_lt_zero w)
  · obtain ⟨t, ht⟩ := hs.mem_of_key hS hx (.inl rfl)
    rw [hs.copySource_of_mem ht]
    exact hf.copied _ _ ht src.index

variable {env : Port → V}

theorem Flows.paired_old (hf : Flows s made env envc env') (hs : s.Spliced g' made tops)
    (hx : x ∈ s.region.children) (hne : x ≠ s.call) : Paired (s.Stands made) g g' env env' x x := by
  obtain ⟨k, hh⟩ := s.arena.child _ _ x s.hangs.holder hx
  have hlt := node?_lt hh.node
  obtain ⟨l, hl, hm⟩ := hs.mirrors (.inl ⟨rfl, hne, hlt⟩) hh.node
  refine ⟨k, l, hh.node, hl, hm, fun i => hf.kept x hlt hne i, ?_⟩
  intro i hi
  obtain ⟨src, hsrc⟩ := s.source_exists hh.node hi
  refine ⟨src, _, hsrc, hs.oldSource x i src hne hsrc, ?_⟩
  obtain ⟨S, w, hS, -, hw, heq⟩ := source?_listed s.arena s.hangs.holder hsrc hx
  by_cases hcall : src.node = s.call
  · rw [hcall, s.hangs.node] at hS
    cases hS
    rw [hcall] at heq
    rw [if_pos hcall, heq]
    exact hf.called w hw
  · rw [if_neg hcall]
    exact hf.kept src.node (node?_lt hS) hcall src.index

theorem Flows.paired_new (hf : Flows s made env envc env') (hs : s.Spliced g' made tops)
    {t : NodeId} (hc : c ∈ s.body) (hct : (c, t) ∈ made) :
    Paired (s.Stands made) g g' envc env' c t := by
  obtain ⟨k, l, ht⟩ := hs.twins c t hct
  obtain ⟨l, hl, hm⟩ := hs.mirrors (.inr hct) ht.old
  refine ⟨k, l, ht.old, hl, hm, fun i => hf.copied c t hct i, ?_⟩
  intro i hi
  obtain ⟨src, hsrc⟩ := s.source_exists ht.old hi
  exact ⟨src, _, hsrc, hs.newSource c t i src hct hsrc,
    hs.source_value hf.toCopied (by simp [s.bounded.children, hc]) hsrc⟩

/-- The values of the region, with those of the function on the copies. -/
def joined (g : Graph) (made : NodeMap) (env envc : Port → V) (p : Port) : V :=
  if p.node < g.nodes.size then env p else envc ⟨origin made p.node, p.index⟩

variable {outs : List V}

theorem flows_joined (hs : s.Spliced g' made tops) {region : NodeId → List V → List V → Prop}
    {args : List V} (hfed : g.Fed env s.call s.node args)
    (hset : g.Settles I region s.fn s.first s.last s.body args outs envc)
    (hout : ∀ j < s.node.outputCount, outs[j]? = some (env ⟨s.call, j⟩)) :
    Flows s made env envc (joined g made env envc) := by
  have hcopied : Copied s made envc (joined g made env envc) := by
    refine ⟨fun a b hab i => ?_, fun k hk => ?_⟩
    · rw [joined, if_neg (Nat.not_lt_of_le (hs.fresh a b hab)), hs.origin_fresh hab]
    obtain ⟨src, hsrc, -, hcopy⟩ := s.copySource_of_first made hk
    obtain ⟨S, T, hfit⟩ := s.arena.edge _ (source?_edge hsrc)
    have hlen : k < args.length := by
      rw [hfed.1, ← s.first_count]
      exact hk
    obtain ⟨src', hsrc', hval⟩ := hfed.2 k (by rw [← hfed.1]; exact hlen)
    rw [hsrc] at hsrc'
    cases hsrc'
    rw [hset.inputs k hlen] at hval
    rw [hcopy, joined, if_pos (node?_lt hfit.source)]
    exact Option.some.inj hval
  refine ⟨hcopied, ?_, ?_⟩
  · intro x hx _ i
    exact (if_pos hx).symm
  intro j hj
  obtain ⟨src, S, hsrc, -⟩ := s.last_fed hj
  obtain ⟨o, ho, hlast⟩ := hset.output
  rw [s.bounded.last] at ho
  cases ho
  obtain ⟨src', hsrc', hval⟩ := hlast.2 j (by rw [s.last_count]; exact hj)
  rw [hsrc] at hsrc'
  cases hsrc'
  rw [hout j hj] at hval
  rw [Option.some.inj hval,
    hs.source_value hcopied (c := s.last) (by simp [s.bounded.children]) hsrc, start, hsrc]
  rfl

variable {depth : Nat} {ins : List V}

variable (hs : s.Spliced g' made tops)

include hs

theorem runs_holder (ih : ∀ r r' ins outs, s.Stands made r r' → g.Runs I depth r ins outs →
      g'.Runs I depth r' ins outs) (h : g.Runs I (depth + 1) s.holder ins outs) :
    g'.Runs I (depth + 1) s.holder ins outs := by
  obtain ⟨n, first, last, rest, env, hn, hreg, hset⟩ := h
  rw [s.hangs.holder] at hn
  cases hn
  obtain ⟨a, z, pre, post, hch, hnode, hothers⟩ := hs.holder_split
  have hcs := hset.children
  rw [hch] at hcs
  cases hcs
  -- the run of the callee
  obtain ⟨k, args, hk, hfed, hshow⟩ := hset.inner s.call (by simp)
  rw [s.hangs.node] at hk
  cases hk
  simp only [Shows, s.kind] at hshow
  obtain ⟨f, hf, outsc, hrun, hout⟩ := hshow
  rw [s.names] at hf
  cases hf
  cases depth with
  | zero => cases hrun
  | succ depth =>
    obtain ⟨n, first, last, rest, envc, hn, -, hsetc⟩ := hrun
    rw [s.function] at hn
    cases hn
    have hcs := hsetc.children
    rw [s.bounded.children] at hcs
    cases hcs
    have hflow := hs.flows_joined hfed hsetc hout
    have hpair : ∀ x ∈ first :: last :: (pre ++ post),
        Paired (s.Stands made) g g' env (joined g made env envc) x x := by
      intro x hx
      exact hflow.paired_old hs (hothers x hx).1 (hothers x hx).2
    refine ⟨_, first, last, pre ++ tops ++ post, joined g made env envc, hnode, hreg,
      hset.replace rfl rfl (hpair first (by simp)) (hpair last (by simp)) fun x hx => ?_⟩
    by_cases htop : x ∈ tops
    · obtain ⟨c, hc, hcx, -⟩ := forall₂_of_mem_right hs.roots htop
      exact (hflow.paired_new hs hc hcx).settled
        (fun r r' ins outs hr hrun => ih r r' ins outs hr hrun.succ) (hsetc.inner c hc)
    · have hx' : x ∈ pre ++ post := by simpa [htop] using hx
      exact (hpair x (by tauto)).settled ih (hset.inner x (by simp at hx' ⊢; tauto))

theorem flows_redirected (env' : Port → V) :
    Flows s made (fun p => env' (if p.node = s.call then s.start made p.index else p))
      (fun p => env' (s.copySource made p)) env' := by
  refine ⟨⟨?_, fun _ _ => rfl⟩, ?_, ?_⟩
  · intro a b hab i
    exact congrArg env' (hs.copySource_of_mem hab)
  · intro x _ hne i
    exact congrArg env' (if_neg hne)
  · intro j _
    exact congrArg env' (if_pos rfl)

theorem runs_holder_back (ih : ∀ r r' ins outs, s.Stands made r' r → g'.Runs I depth r ins outs →
      g.Runs I (2 * depth) r' ins outs) (h : g'.Runs I (depth + 1) s.holder ins outs) :
    g.Runs I (2 * (depth + 1)) s.holder ins outs := by
  obtain ⟨n, first, last, rest, env', hn, -, hset⟩ := h
  obtain ⟨a, z, pre, post, hch, hnode, hothers⟩ := hs.holder_split
  rw [hnode] at hn
  cases hn
  have hcs := hset.children
  cases hcs
  have hflow := hs.flows_redirected env'
  generalize (fun p : Port => env' (if p.node = s.call then s.start made p.index else p)) = env
    at hflow
  generalize (fun p => env' (s.copySource made p)) = envc at hflow
  obtain ⟨args, hfed⟩ := Fed.exists env (fun i hi => s.source_exists s.hangs.node hi)
  obtain ⟨outsc, hfedc⟩ := Fed.exists envc (fun i hi => s.source_exists s.bounded.last hi)
  have hpair : ∀ x ∈ first :: last :: (pre ++ post),
      Paired (fun a b => s.Stands made b a) g' g env' env x x :=
    fun x hx => (hflow.paired_old hs (hothers x hx).1 (hothers x hx).2).symm
  have hcallee : g.Settles I (g.Runs I (2 * depth)) s.fn s.first s.last s.body args outsc envc := by
    refine ⟨s.bounded.children, ?_, ?_, ?_, s.output, s.bounded.last, hfedc⟩
    · rw [hfed.1, s.call_arity]
    · intro k hk
      rw [hfed.1] at hk
      obtain ⟨src, hsrc, hval⟩ := hfed.2 k hk
      obtain ⟨src', hsrc', hne, hcopy⟩ := s.copySource_of_first made (by rw [s.first_count]; exact hk)
      rw [hsrc] at hsrc'
      cases hsrc'
      obtain ⟨S, T, hfit⟩ := s.arena.edge _ (source?_edge hsrc)
      rw [hval, hflow.entered k (by rw [s.first_count]; exact hk), hcopy,
        ← hflow.kept src.node (node?_lt hfit.source) hne src.index]
    · intro c hc
      obtain ⟨t, ht, hct, -⟩ := forall₂_of_mem_left hs.roots hc
      exact (hflow.paired_new hs hc hct).symm.settled ih (hset.inner t (by simp [ht]))
  have hrun : g.Runs I (2 * depth + 1) s.callee args outsc :=
    ⟨s.fn, s.first, s.last, s.body, envc, s.function, by rw [s.isFunction]; rfl, hcallee⟩
  refine ⟨s.region, first, last, pre ++ s.call :: post, env, s.hangs.holder, s.holder_isRegion,
    hset.replace rfl hch (hpair first (by simp)) (hpair last (by simp)) fun x hx => ?_⟩
  by_cases hcall : x = s.call
  · subst hcall
    refine ⟨s.node, args, s.hangs.node, hfed, ?_⟩
    simp only [Shows, s.kind]
    refine ⟨s.callee, s.names, outsc, hrun, ?_⟩
    intro j hj
    obtain ⟨src, hsrc, hval⟩ := hfedc.2 j (by rw [s.last_count]; exact hj)
    show outsc[j]? = some (env ⟨s.call, j⟩)
    rw [hval, hflow.called j hj, start, hsrc, hs.source_value hflow.toCopied
      (c := s.last) (by simp [s.bounded.children]) hsrc]
    rfl
  · have hx' : x ∈ pre ++ post := by simpa [hcall] using hx
    exact (hpair x (by tauto)).settled
      (fun r r' ins outs hr hrun => (ih r r' ins outs hr hrun).succ)
      (hset.inner x (by simp at hx' ⊢; tauto))

theorem runs_forward {y : NodeId} (hxy : s.Stands made x y)
    (h : g.Runs I depth x ins outs) : g'.Runs I depth y ins outs := by
  induction depth generalizing x y ins outs with
  | zero => cases h
  | succ depth ih =>
    by_cases hx : x = s.holder
    · subst hx
      obtain ⟨rfl, -, -⟩ | hxy := hxy
      · exact hs.runs_holder (fun r r' ins outs hr hrun => ih hr hrun) h
      · exact absurd rfl (s.holder_apart (.inr (hs.key_under hxy)))
    · obtain ⟨k, first, last, rest, env, hk, hreg, hset⟩ := h
      obtain ⟨l, ren, hl, hsame, hch, hstands, hsource⟩ := hs.renamed hxy hk hx
      have hpairs := hs.renamed_paired hk hch hstands hsource env
        (fun p => env ⟨origin made p.node, p.index⟩)
        fun c hc i => by rw [hs.origin_stands (hstands c hc)]
      have hR : ∀ r r' ins outs, s.Stands made r r' → g.Runs I depth r ins outs →
          g'.Runs I depth r' ins outs := fun _ _ _ _ hr hrun => ih hr hrun
      obtain ⟨first', last', rest', hset'⟩ := hset.transfer hR hsame hpairs
      exact ⟨l, first', last', rest', _, hl, by rw [hsame.kind]; exact hreg, hset'⟩

/-- What stands for a region gives no more than the region gave. A call was unfolded where the
body now stands, so the region has to be unfolded further. -/
theorem runs_backward {y : NodeId} (hxy : s.Stands made x y)
    (h : g'.Runs I depth y ins outs) : g.Runs I (2 * depth) x ins outs := by
  induction depth generalizing x y ins outs with
  | zero => cases h
  | succ depth ih =>
    by_cases hx : x = s.holder
    · subst hx
      obtain ⟨rfl, -, -⟩ | hxy := hxy
      · exact hs.runs_holder_back (fun r r' ins outs hr hrun => ih hr hrun) h
      · exact absurd rfl (s.holder_apart (.inr (hs.key_under hxy)))
    · obtain ⟨l, first, last, rest, env', hl, hreg, hset⟩ := h
      obtain ⟨x', k, hk, hm⟩ := hs.origin_exists hl
      cases (hs.origin_stands hm.self).symm.trans (hs.origin_stands hxy)
      obtain ⟨l', ren, hl', hsame, hch, hstands, hsource⟩ := hs.renamed hxy hk hx
      rw [hl] at hl'
      cases hl'
      have hpairs := hs.renamed_paired hk hch hstands hsource
        (fun p => env' ⟨ren p.node, p.index⟩) env' fun c hc i => rfl
      have hback := (hpairs.imp fun _ _ hp => hp.symm).flip
      have hR : ∀ r' r ins outs, s.Stands made r r' → g'.Runs I depth r' ins outs →
          g.Runs I (2 * depth + 1) r ins outs := fun _ _ _ _ hr hrun => (ih hr hrun).succ
      obtain ⟨first', last', rest', hset'⟩ := hset.transfer hR hsame.symm hback
      exact ⟨k, first', last', rest', _, hk, by rw [← hsame.kind]; exact hreg, hset'⟩

end Values

theorem callee_slot (hs : s.Spliced g' made tops) {x : NodeId}
    (hx : x = s.callee ∨ Under g s.callee x) : g'.slot? x = g.slot? x := by
  exact hs.others x (lt_size_of_under s.function hx) (s.holder_apart hx) (s.call_apart hx)

theorem kind?_function (hs : s.Spliced g' made tops) (x : NodeId) :
    g'.kind? x = some .funcDefn ↔ g.kind? x = some .funcDefn := by
  constructor
  · intro h
    obtain ⟨l, hl, hlk⟩ := node_of_kind? h
    obtain ⟨y, k, hk, hm⟩ := hs.origin_exists hl
    rw [hm.same.kind] at hlk
    obtain ⟨rfl, -, -⟩ | hyx := hm.self
    · rw [kind?_of_node hk, hlk]
    · -- a copy is of what lies in a function, where there is no other one
      have hroot : s.callee ≠ root := s.arena.ne_root s.function (by rw [s.isFunction]; decide)
      exact absurd (s.arena.function_under hk hlk (hs.key_under hyx)) hroot
  · intro h
    obtain ⟨k, hk, hkk⟩ := node_of_kind? h
    obtain ⟨l, hl, hm⟩ := hs.mirrors (stands_self hk (by rw [hkk]; decide)) hk
    rw [kind?_of_node hl, hm.same.kind, hkk]

end Spliced

end CallSite

/-! ## A part of the graph that is left alone -/

section LeftAlone

variable {g h : Graph} {f : NodeId}

theorem walkFrom_congr (ha : g.Arena) {depth r : Nat}
    (hsame : ∀ x, x = r ∨ Under g r x → h.node? x = g.node? x) :
    h.walkFrom depth r = g.walkFrom depth r := by
  induction depth generalizing r with
  | zero => rfl
  | succ depth ih =>
    simp only [walkFrom, hsame r (.inl rfl)]
    split
    · rename_i n hn
      rw [cons.injEq]
      refine ⟨rfl, congrArg flatten (map_congr_left ?_)⟩
      intro c hc
      obtain ⟨k, hh⟩ := ha.child r n c hn hc
      exact ih fun x hx => hsame x (.inr (hh.under hx))
    · rfl

section

variable (hg : g.Arena) (hh : h.Arena) (hsame : ∀ x, x = f ∨ Under g f x → h.slot? x = g.slot? x)

include hg hh hsame

theorem walk_congr : h.walk f = g.walk f := by
  have hnode : ∀ x, x = f ∨ Under g f x → h.node? x = g.node? x :=
    fun x hx => node?_congr (hsame x hx)
  calc h.walk f = h.walkFrom (g.nodes.size + h.nodes.size) f :=
        walkFrom_stable hh (Nat.le_add_right _ _)
          (Nat.le_trans (Nat.le_add_left _ _) (Nat.le_add_right _ _))
    _ = g.walkFrom (g.nodes.size + h.nodes.size) f := walkFrom_congr hg hnode
    _ = g.walk f := walkFrom_stable hg
        (Nat.le_trans (Nat.le_add_right _ _) (Nat.le_add_right _ _)) (Nat.le_add_right _ _)

theorem under_of_sibling {a b : NodeId} {A B : Node} (ha : h.node? a = some A)
    (hb : h.node? b = some B) (hp : A.parent = B.parent) (hu : Under g f a) : Under g f b := by
  rw [node?_congr (hsame a (.inr hu))] at ha
  obtain ⟨p, m, hang, hup⟩ := hu.hangs hg ha
  obtain ⟨m', hang'⟩ := hh.hangs_of_parent hb (hp.symm.trans hang.parent)
  have hm := hang'.holder
  rw [node?_congr (hsame p hup)] at hm
  obtain ⟨k, hk⟩ := hg.child p m' b hm hang'.listed
  exact .of_parent hk.node hk.parent hup

theorem edge_touches_iff {fn : Node}
    (hfn : g.node? f = some fn) (hk : fn.kind = .funcDefn) {e : Edge} (he : e ∈ h.edges) :
    e.src.node ∈ g.walk f ∨ e.dst.node ∈ g.walk f ↔ Under g f e.dst.node := by
  obtain ⟨S, T, hfit⟩ := hh.edge e he
  have hports : ∀ n, h.node? f = some n → n.inputCount = 0 ∧ n.outputCount = 0 := by
    intro n hn
    rw [node?_congr (hsame f (.inl rfl)), hfn] at hn
    cases hn
    rw [hg.inputs _ _ hfn, hg.outputs _ _ hfn, hk]
    exact ⟨rfl, rfl⟩
  constructor
  · rintro (hw | hw)
    · rcases ((mem_walk_iff hg).1 hw).2 with hx | hx
      · have hout := hfit.output
        rw [(hports S (hx ▸ hfit.source)).2] at hout
        exact absurd hout (not_portInRange_zero _)
      · exact under_of_sibling hg hh hsame hfit.source hfit.target hfit.siblings hx
    · rcases ((mem_walk_iff hg).1 hw).2 with hx | hx
      · have hin := hfit.input
        rw [(hports T (hx ▸ hfit.target)).1] at hin
        exact absurd hin (not_portInRange_zero _)
      · exact hx
  · intro hu
    exact .inr ((mem_walk_iff hg).2 ⟨hu.node, .inr hu⟩)

end

def edgesAt (g : Graph) (nodes : List NodeId) : List Edge :=
  g.edges.filter (fun e => nodes.contains e.src.node || nodes.contains e.dst.node)

theorem edgesAt_eq_filter (hg : g.Arena) (hh : h.Arena)
    (hsame : ∀ x, x = f ∨ Under g f x → h.slot? x = g.slot? x) {fn : Node}
    (hfn : g.node? f = some fn) (hk : fn.kind = .funcDefn) {q : Port → Bool}
    (hq : ∀ d, q d = true ↔ Under g f d.node) :
    h.edgesAt (g.walk f) = h.edges.filter (fun e => q e.dst) := by
  apply filter_congr
  intro e he
  rw [Bool.eq_iff_iff, hq, ← edge_touches_iff hg hh hsame hfn hk he]
  simp

end LeftAlone

/-- A call that does not lie in the body of its callee can be inlined. Afterwards every function
denotes the function from inputs to outputs that it denoted before, and the callee has the same
nodes, the same subtree and the same edges. -/
theorem inlineCall_preserves_denotation {g : Graph} (ha : g.Arena) (hc : g.check = .ok ())
    (hp : g.PlainBoundary) {c f : NodeId} {n : Node} (hn : g.node? c = some n)
    (hk : n.kind = .call) (hf : n.body.callee = some f) (hout : ¬Under g f c) :
    ∃ g', inlineCall c g = .ok () g' ∧
      (∀ x, g'.kind? x = some .funcDefn ↔ g.kind? x = some .funcDefn) ∧
      (∀ (V : Type) (I : Interpretation V) x, g.kind? x = some .funcDefn →
        (∀ ins outs, g'.Denotes I x ins outs ↔ g.Denotes I x ins outs) ∧
        ∀ ins outs outs', g'.Denotes I x ins outs → g'.Denotes I x ins outs' → outs = outs') ∧
      (∀ x ∈ g.walk f, g'.slot? x = g.slot? x) ∧ g'.walk f = g.walk f ∧
      g'.edgesAt (g.walk f) = g.edgesAt (g.walk f) := by
  obtain ⟨s, rfl, rfl⟩ := callSite_of_call ha (lawful_of_check ha hc) hp hn hk hf hout
  obtain ⟨made, tops, g', hrun, hs⟩ := s.inlineCall_spliced
  have hslot : ∀ x, x = s.callee ∨ Under g s.callee x → g'.slot? x = g.slot? x :=
    fun x hx => hs.callee_slot hx
  refine ⟨g', hrun, hs.kind?_function, ?_, ?_, walk_congr ha hs.arena hslot, ?_⟩
  · intro V I x hx
    obtain ⟨k, hkx, hkind⟩ := node_of_kind? hx
    have hstands : s.Stands made x x := CallSite.stands_self hkx (by rw [hkind]; decide)
    have hiff : ∀ ins outs, g'.Denotes I x ins outs ↔ g.Denotes I x ins outs := by
      intro ins outs
      constructor
      · rintro ⟨depth, h⟩
        exact ⟨2 * depth, hs.runs_backward hstands h⟩
      · rintro ⟨depth, h⟩
        exact ⟨depth, hs.runs_forward hstands h⟩
    refine ⟨hiff, ?_⟩
    intro ins outs outs' h h'
    exact Denotes.unique ha hc hp ((hiff _ _).mp h) ((hiff _ _).mp h')
  · intro x hx
    exact hslot x ((mem_walk_iff ha).mp hx).2
  · have hq : ∀ d : Port, ((g.walk s.callee).contains d.node && d.node != s.callee) = true ↔
        Under g s.callee d.node := by
      intro d
      simp only [Bool.and_eq_true, contains_iff_mem, bne_iff_ne, ne_eq, mem_walk_iff ha]
      constructor
      · rintro ⟨⟨-, hd | hd⟩, hne⟩
        · exact absurd hd hne
        · exact hd
      · intro hd
        exact ⟨⟨hd.node, .inr hd⟩, Nat.ne_of_gt (hd.lt ha)⟩
    rw [edgesAt_eq_filter ha hs.arena hslot s.function s.isFunction hq,
      edgesAt_eq_filter ha ha (fun _ _ => rfl) s.function s.isFunction hq]
    exact hs.inside _ (fun d hd => (hq d).mp hd)

/-- A function that calls one which gives its input back, negated and as it is. -/
def splitCall : Graph :=
  let sig : Signature := ⟨[.bool], [.bool, .bool]⟩
  { nodes := #[
      { Node.fresh (NodeBody.ofKind .module ⟨[], []⟩) none with children := [1, 5] },
      { Node.fresh { NodeBody.ofKind .funcDefn sig with name := "main" } (some 0) with
        children := [2, 3, 4] },
      plainNode .input ⟨[], [.bool]⟩ 1 [],
      plainNode .output ⟨[.bool, .bool], []⟩ 1 [],
      Node.fresh { NodeBody.ofKind .call sig with callee := some 5 } (some 1),
      { Node.fresh { NodeBody.ofKind .funcDefn sig with name := "split" } (some 0) with
        children := [6, 7, 8] },
      plainNode .input ⟨[], [.bool]⟩ 5 [],
      plainNode .output ⟨[.bool, .bool], []⟩ 5 [],
      plainNode .op ⟨[.bool], [.bool]⟩ 5 []]
    edges := [⟨⟨2, 0⟩, ⟨4, 0⟩⟩, ⟨⟨4, 0⟩, ⟨3, 0⟩⟩, ⟨⟨4, 1⟩, ⟨3, 1⟩⟩, ⟨⟨6, 0⟩, ⟨8, 0⟩⟩,
      ⟨⟨8, 0⟩, ⟨7, 0⟩⟩, ⟨⟨6, 0⟩, ⟨7, 1⟩⟩] }

def negation : Interpretation Bool where
  const c := c.bool
  op _ _ args _ := !args.headD false
  truth b := b

theorem splitCall_denotes : splitCall.Denotes negation 1 [true] [false, true] := by
  have hcallee : splitCall.Runs negation 1 5 [true] [false, true] := by
    refine ⟨_, 6, 7, [8], fun p => p.node != 8, rfl, rfl, rfl, rfl, ?_, ?_, _, rfl, rfl, ?_⟩
    · intro k hk
      match k, hk with
      | 0, _ => rfl
    · intro c hc
      cases mem_singleton.1 hc
      refine ⟨_, [true], rfl, ⟨rfl, ?_⟩, ?_⟩
      · intro k hk
        match k, hk with
        | 0, _ => exact ⟨⟨6, 0⟩, rfl, rfl⟩
      · intro k _
        rfl
    · intro k hk
      match k, hk with
      | 0, _ => exact ⟨⟨8, 0⟩, rfl, rfl⟩
      | 1, _ => exact ⟨⟨6, 0⟩, rfl, rfl⟩
  refine ⟨2, _, 2, 3, [4], fun p => p != ⟨4, 0⟩, rfl, rfl, rfl, rfl, ?_, ?_, _, rfl, rfl, ?_⟩
  · intro k hk
    match k, hk with
    | 0, _ => rfl
  · intro c hc
    cases mem_singleton.1 hc
    refine ⟨_, [true], rfl, ⟨rfl, ?_⟩, 5, rfl, _, hcallee, ?_⟩
    · intro k hk
      match k, hk with
      | 0, _ => exact ⟨⟨2, 0⟩, rfl, rfl⟩
    · intro k hk
      match k, hk with
      | 0, _ => rfl
      | 1, _ => rfl
  · intro k hk
    match k, hk with
    | 0, _ => exact ⟨⟨4, 0⟩, rfl, rfl⟩
    | 1, _ => exact ⟨⟨4, 1⟩, rfl, rfl⟩

theorem inlineCall_preserves_denotation_splitCall :
    ∃ g', inlineCall 4 splitCall = .ok () g' ∧ g'.Denotes negation 1 [true] [false, true] := by
  have ha : splitCall.Arena := arena_of_isArena (by decide +kernel)
  obtain ⟨g', hrun, -, hden, -⟩ := inlineCall_preserves_denotation ha (check_ok_iff.mpr rfl)
    (plainBoundary_of_isPlain (by decide +kernel)) (show splitCall.node? 4 = some _ from rfl) rfl rfl
    (fun hu => absurd (hu.lt ha) (by decide))
  exact ⟨g', hrun, ((hden Bool negation 1 rfl).1 _ _).mpr splitCall_denotes⟩

end Qirc.Graph
