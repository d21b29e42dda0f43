import Qirc.Proofs.Graph.Gadgets

/-!
# A gadget that computes what a gate computes

Values on the ports of a gadget that agree with its wires are values on the nodes that stand for it
in a graph. If whatever agrees with the wires leaves the gadget as it would leave the gate, then every
region denotes the same with the one and with the other.
-/

namespace Qirc

open List

/-- What an operation or a constant shows. -/
def Interpretation.shown {V : Type} (I : Interpretation V) (b : NodeBody) (args : List V) (j : Nat) :
    V :=
  if b.kind = .const then I.const b.const else I.op b.op b.sig args j

namespace Graph

variable {V : Type} {I : Interpretation V}

theorem shows_iff {region : NodeId → List V → List V → Prop} {id : NodeId} {n : Node}
    {args : List V} {out : Nat → V} (hk : n.kind = .op ∨ n.kind = .const) :
    Shows I region id n args out ↔ ∀ j < n.outputCount, out j = I.shown n.body args j := by
  have hbody : n.body.kind = n.kind := rfl
  rcases hk with hk | hk
  · simp only [Shows, hk, Interpretation.shown, hbody, reduceCtorEq, if_false]
    rfl
  · simp only [Shows, hk, Interpretation.shown, hbody, if_true]

namespace Gadget

/-- What node `i` of a gadget reads when `args` flow in. -/
def Reads (G : Gadget) (args : List V) (val : Port → V) (i : Nat) (b : NodeBody) (as : List V) :
    Prop :=
  as.length = b.sig.inputs.length ∧ ∀ k : Nat, k < as.length →
    (∀ m < args.length, G.enter m = ⟨i, k⟩ → as[k]? = args[m]?) ∧
      ∀ e ∈ G.wires, e.dst = ⟨i, k⟩ → as[k]? = some (val e.src)

/-- Values for the ports of a gadget that agree with its wires. -/
def Settles (G : Gadget) (I : Interpretation V) (args : List V) (val : Port → V) : Prop :=
  ∀ i b, G.bodies[i]? = some b → ∃ as, G.Reads args val i b as ∧
    ∀ j < b.sig.outputs.length, val ⟨i, j⟩ = I.shown b as j

/-- Values can be found for whatever flows in, and they leave as they leave the gate. -/
def Computes (G : Gadget) (I : Interpretation V) (op : Operation) (width : Nat) : Prop :=
  ∀ args : List V, args.length = width → (∃ val, G.Settles I args val) ∧
    ∀ val, G.Settles I args val → ∀ j < width,
      val (G.leave j) = I.op op ⟨qubits width, qubits width⟩ args j

theorem Fits.shows_fresh {G : Gadget} {width : Nat} (hG : G.Fits width) {i : Nat} {b : NodeBody}
    (hb : G.bodies[i]? = some b) {p : Option NodeId} {region : NodeId → List V → List V → Prop}
    {id : NodeId} {as : List V} {out : Nat → V} :
    Shows I region id (Node.fresh b p) as out ↔
      ∀ j < b.sig.outputs.length, out j = I.shown b as j := by
  have hkind := (hG.kinds b (mem_of_getElem? hb)).imp_right And.left
  have hcount : (Node.fresh b p).outputCount = b.sig.outputs.length := if_pos (hG.hasPorts hb)
  rw [shows_iff (n := Node.fresh b p) hkind, hcount]
  rfl

end Gadget

namespace GateSite

variable {g h : Graph} {s : GateSite g} {G : Gadget} (hs : G.Seated g h s.gate)
  (hG : G.Fits s.width) {env env' : Port → V}

/-- The values in a region with the gate and in the region with the gadget. -/
structure Flows (s : GateSite g) (G : Gadget) (n : Node) (env env' : Port → V) : Prop where
  kept : ∀ p : Port, p.node < g.nodes.size → p.node ≠ s.gate → env p = env' p
  left : s.gate ∈ n.children → ∀ j : Nat, j < s.width →
    env ⟨s.gate, j⟩ = env' (Gadget.shift g.nodes.size (G.leave j))

include hs

theorem Flows.paired {r x : NodeId} {n : Node} (hf : Flows s G n env env') (hn : g.node? r = some n)
    (hx : x ∈ n.children) (hne : x ≠ s.gate) : Paired s.Stays g h env env' x x := by
  obtain ⟨k, hh⟩ := s.arena.child r n x hn hx
  have hlt := node?_lt hh.node
  obtain ⟨l, hl, hm⟩ := seated_mirrors hs ⟨rfl, hne, hlt⟩ hh.node
  refine ⟨k, l, hh.node, hl, hm, fun i => hf.kept _ hlt hne, fun i hi => ?_⟩
  obtain ⟨src, he⟩ := s.lawful.fed x k hh.node i hi
  have hsrc := (source?_eq_some_iff s.arena).2 he
  by_cases hgate : src.node = s.gate
  · obtain ⟨j, rfl⟩ := s.index_output he hgate
    obtain ⟨-, -, -, hlisted, -, -⟩ := source?_listed s.arena hn hsrc hx
    exact ⟨_, _, hsrc, (source?_eq_some_iff hs.arena).2 ((hs.edges _).2 (.leaving he hne)),
      hf.left hlisted j (s.leaving_lt he)⟩
  · exact ⟨_, _, hsrc, (source?_eq_some_iff hs.arena).2 ((hs.edges _).2 (.kept he hgate hne)),
      hf.kept src (s.arena.source_lt he) hgate⟩

include hG

/-- What feeds a node of the gadget in the graph is what it reads in the gadget. -/
theorem fed_iff_reads {n : Node} (hf : Flows s G n env env') {args : List V}
    (hfed : g.Fed env s.gate s.node args) {i : Nat} {b : NodeBody} (hb : G.bodies[i]? = some b)
    {p : Option NodeId} {as : List V} :
    h.Fed env' (g.nodes.size + i) (Node.fresh b p) as ↔
      G.Reads args (env' ∘ Gadget.shift g.nodes.size) i b as := by
  have hcount : (Node.fresh b p).inputCount = b.sig.inputs.length := if_pos (hG.hasPorts hb)
  have hlen : args.length = s.width := hfed.1.trans s.inputCount
  -- the two ways in which a port of the gadget is fed
  have henter : ∀ m < s.width, ∀ k : Nat, G.enter m = ⟨i, k⟩ →
      ∃ src, h.source? ⟨g.nodes.size + i, k⟩ = some src ∧ args[m]? = some (env' src) := by
    intro m hm k hk
    obtain ⟨src, hsrc, hval⟩ := hfed.2 m (by rwa [s.inputCount])
    have he := source?_edge hsrc
    have hne := s.lawful.not_self he
    refine ⟨src, (source?_eq_some_iff hs.arena).2 ?_, ?_⟩
    · have hw := (hs.edges _).2 (.entering he hne)
      rwa [hk] at hw
    · rw [hval, hf.kept src (s.arena.source_lt he) hne]
  have hwire : ∀ e ∈ G.wires, ∀ k : Nat, e.dst = ⟨i, k⟩ →
      h.source? ⟨g.nodes.size + i, k⟩ = some (Gadget.shift g.nodes.size e.src) := by
    intro e he k hk
    have hw := (hs.edges _).2 (.inside he)
    rw [hk] at hw
    exact (source?_eq_some_iff hs.arena).2 hw
  unfold Fed Gadget.Reads
  rw [hcount, hlen]
  refine and_congr_right fun has => forall_congr' fun k => ?_
  rw [has]
  refine imp_congr_right fun hk => ⟨?_, ?_⟩
  · rintro ⟨src, hsrc, hval⟩
    refine ⟨fun m hm hmk => ?_, fun e he hek => ?_⟩
    · obtain ⟨src', hsrc', harg⟩ := henter m hm k hmk
      cases hsrc.symm.trans hsrc'
      rw [hval, harg]
    · cases hsrc.symm.trans (hwire e he k hek)
      exact hval
  · rintro ⟨hin, hinside⟩
    rcases mem_append.1 (hG.fed i b hb k hk) with hmem | hmem
    · obtain ⟨m, hm, hmk⟩ := mem_map.1 hmem
      obtain ⟨src, hsrc, harg⟩ := henter m (mem_range.1 hm) k hmk
      exact ⟨src, hsrc, (hin m (mem_range.1 hm) hmk).trans harg⟩
    · obtain ⟨e, he, hek⟩ := mem_map.1 hmem
      exact ⟨_, hwire e he k hek, hinside e he hek⟩

variable (hI : G.Computes I s.node.body.op s.width)
include hI

variable {depth : Nat} {ins outs : List V}

theorem runs_seated {r : NodeId} (hne : r ≠ s.gate) (hrun : g.Runs I depth r ins outs) :
    h.Runs I depth r ins outs := by
  induction depth generalizing r ins outs with
  | zero => cases hrun
  | succ depth ih =>
    obtain ⟨n, a, b, rest, env, hn, hr, hset⟩ := hrun
    obtain ⟨cs, hcs, hre⟩ := hs.kept r n hn hne
    obtain ⟨rest', rfl, hmem⟩ := hre.inner hset.children
    have hbd := s.ne_boundary hn hr hset.children
    -- values for the gadget, if the gate is in this region
    obtain ⟨val, hval⟩ : ∃ val, s.gate ∈ rest → ∃ args, g.Fed env s.gate s.node args ∧
        G.Settles I args val ∧ ∀ j < s.width, env ⟨s.gate, j⟩ = val (G.leave j) := by
      by_cases hgate : s.gate ∈ rest
      · obtain ⟨k, args, hk, hfed, hshow⟩ := hset.inner s.gate hgate
        cases s.here.symm.trans hk
        simp only [Shows, s.kind] at hshow
        obtain ⟨⟨val, hval⟩, hleave⟩ := hI args (hfed.1.trans s.inputCount)
        refine ⟨val, fun _ => ⟨args, hfed, hval, fun j hj => ?_⟩⟩
        rw [hshow j (by rwa [s.outputCount]), hleave val hval j hj, s.sig]
      · exact ⟨env, fun hmem => absurd hmem hgate⟩
    let env' : Port → V := fun p =>
      if p.node < g.nodes.size then env p else val ⟨p.node - g.nodes.size, p.index⟩
    have hshift : env' ∘ Gadget.shift g.nodes.size = val := by
      funext p
      simp [env', Gadget.shift]
    have hf : Flows s G n env env' := by
      refine ⟨fun p hp _ => (if_pos hp).symm, fun hc j hj => ?_⟩
      obtain ⟨-, -, -, hleave⟩ := hval (by simpa [hset.children, hbd] using hc)
      exact (hleave j hj).trans (congrFun hshift _).symm
    refine ⟨_, a, b, rest', env', hcs, hr, hset.replace rfl rfl
      (hf.paired hs hn (by simp [hset.children]) hbd.1.symm)
      (hf.paired hs hn (by simp [hset.children]) hbd.2.symm) fun d hd => ?_⟩
    rcases (hmem d).1 hd with ⟨hd, hdg⟩ | ⟨hgate, i, hi, rfl⟩
    · refine (hf.paired hs hn (by simp [hset.children, hd]) hdg).settled ?_ (hset.inner d hd)
      rintro x _ ins outs ⟨rfl, hx, -⟩ hrun
      exact ih hx hrun
    · obtain ⟨args, hfed, hsettles, -⟩ := hval hgate
      obtain ⟨k, hk⟩ := hs.arena.child r _ (g.nodes.size + i) hcs (by simp [hd])
      obtain ⟨j, body, p, heq, hb, rfl⟩ := hs.made _ k hk.node (Nat.le_add_right _ _)
      cases Nat.add_left_cancel heq
      obtain ⟨as, hreads, hout⟩ := hsettles i body hb
      refine ⟨_, as, hk.node, (fed_iff_reads hs hG hf hfed hb).2 (hshift ▸ hreads),
        (hG.shows_fresh hb).2 fun j hj => (congrFun hshift ⟨i, j⟩).trans (hout j hj)⟩

theorem runs_of_seated {r : NodeId} (hne : r ≠ s.gate) (hlt : r < g.nodes.size)
    (hrun : h.Runs I depth r ins outs) : g.Runs I depth r ins outs := by
  induction depth generalizing r ins outs with
  | zero => cases hrun
  | succ depth ih =>
    obtain ⟨n', a, b, rest', env', hn', hr, hset⟩ := hrun
    obtain ⟨n, hn, -⟩ := hs.lasting.node hn' hlt
    obtain ⟨cs, hcs, hre⟩ := hs.kept r n hn hne
    cases hcs.symm.trans hn'
    obtain ⟨a', b', rest, i, o, hb⟩ := s.lawful.region r n hn hr
    obtain ⟨rest'', heq, hmem⟩ := hre.inner hb.children
    cases heq.symm.trans hset.children
    have hbd := s.ne_boundary hn hr hb.children
    let env : Port → V := fun p =>
      if p.node = s.gate then env' (Gadget.shift g.nodes.size (G.leave p.index.toNat)) else env' p
    have hf : Flows s G n env env' :=
      ⟨fun p _ hp => if_neg hp, fun _ j _ => if_pos rfl⟩
    refine ⟨n, a, b, rest, env, hn, hr, hset.replace rfl hb.children
      (hf.paired hs hn (by simp [hb.children]) hbd.1.symm).symm
      (hf.paired hs hn (by simp [hb.children]) hbd.2.symm).symm fun d hd => ?_⟩
    by_cases hdg : d = s.gate
    · subst hdg
      obtain ⟨args, hfed⟩ := Fed.exists env (c := s.gate) (k := s.node) (g := g) fun i hi => by
        obtain ⟨src, he⟩ := s.lawful.fed _ _ s.here i hi
        exact ⟨src, (source?_eq_some_iff s.arena).2 he⟩
      refine ⟨s.node, args, s.here, hfed, ?_⟩
      simp only [Shows, s.kind]
      intro j hj
      have hsettles : G.Settles I args (env' ∘ Gadget.shift g.nodes.size) := by
        intro i body hbody
        have hi := (List.getElem?_eq_some_iff.1 hbody).1
        obtain ⟨k, as, hk, hfedk, hshow⟩ :=
          hset.inner (g.nodes.size + i) ((hmem _).2 (.inr ⟨hd, i, hi, rfl⟩))
        obtain ⟨m, body', p, heq, hbody', rfl⟩ := hs.made _ k hk (Nat.le_add_right _ _)
        cases Nat.add_left_cancel heq
        cases hbody.symm.trans hbody'
        exact ⟨as, (fed_iff_reads hs hG hf hfed hbody).1 hfedk, (hG.shows_fresh hbody).1 hshow⟩
      rw [s.outputCount] at hj
      rw [hf.left (by simp [hb.children, hd]) j hj, s.sig]
      exact (hI args (hfed.1.trans s.inputCount)).2 _ hsettles j hj
    · refine (hf.paired hs hn (by simp [hb.children, hd]) hdg).symm.settled ?_
        (hset.inner d ((hmem d).2 (.inl ⟨hd, hdg⟩)))
      rintro x _ ins outs ⟨rfl, hx, hxlt⟩ hrun
      exact ih hx hxlt hrun

end GateSite

end Graph

end Qirc
