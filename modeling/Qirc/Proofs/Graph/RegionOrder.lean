import Qirc.Proofs.Graph.Order

/-!
# The order of a region is greedy

A region has an order unless its children feed each other in a circle. The order starts with the
`Input` and ends with the `Output` child; what stands between is found by taking, again and again,
the first child whose producers have all been taken.
-/

namespace Qirc.Graph

open List Relation

/-- After `placed`, `c` is not yet placed and all its producers are. -/
def Placeable (g : Graph) (placed : List NodeId) (c : NodeId) : Prop :=
  c ∉ placed ∧ ∀ p, g.Feeds p c → p ∈ placed

/-- Each element is the first of the children that can be placed after those before it. -/
def Greedy (g : Graph) (children ids : List NodeId) : Prop :=
  ∀ before c after, ids = before ++ c :: after → ∃ earlier later, children = earlier ++ c :: later ∧
    g.Placeable before c ∧ ∀ x ∈ earlier, ¬g.Placeable before x

/-- Everything stands behind the producers of its inputs. -/
def ProducersFirst (g : Graph) (ids : List NodeId) : Prop :=
  ∀ before c after, ids = before ++ c :: after → ∀ p, g.Feeds p c → p ∈ before

/-- A region between an `Input` without inputs and an `Output` without outputs. -/
structure Framed (g : Graph) (region first last : NodeId) (rest : List NodeId) : Prop where
  listed : ∃ n, g.node? region = some n ∧ n.children = first :: last :: rest
  input : ∃ i, g.node? first = some i ∧ i.kind = .input ∧ i.inputCount = 0
  output : ∃ o, g.node? last = some o ∧ o.kind = .output ∧ o.outputCount = 0

variable {g : Graph} {count : Nat} {children waiting ids : List NodeId}

theorem takeReady_first (hnd : waiting.Nodup) (h : g.takeReady count waiting = some ids) :
    ∀ before c after, ids = before ++ c :: after →
      let left := waiting.filter (· ∉ before)
      left.find? (g.isReady left) = some c := by
  revert hnd
  refine takeReady_rec (P := fun waiting ids => waiting.Nodup → ∀ before c after,
    ids = before ++ c :: after → let left := waiting.filter (· ∉ before)
      left.find? (g.isReady left) = some c) (by simp) ?_ h
  intro waiting x ids hx ih hnd before c after hids
  cases before with
  | nil =>
    cases hids
    simpa using hx
  | cons y before =>
    cases hids
    have hleft : (waiting.erase x).filter (· ∉ before) = waiting.filter (· ∉ x :: before) := by
      rw [hnd.erase_eq_filter, filter_filter]
      exact filter_congr fun a _ => Bool.eq_iff_iff.2 (by simp [and_comm])
    exact hleft ▸ ih (hnd.erase x) before c after rfl

theorem no_circle_of_takeReady (hsib : ∀ c ∈ waiting, ∀ p, g.Feeds p c → p ∈ waiting)
    (h : g.takeReady count waiting = some ids) : ∀ c ∈ waiting, ¬TransGen g.Feeds c c := by
  refine takeReady_induction h fun c hc hprod hcirc => ?_
  obtain ⟨p, hcp, hpc⟩ := TransGen.tail'_iff.1 hcirc
  exact hprod p hpc (hsib c hc p hpc) ((TransGen.single hpc).trans_left hcp)

namespace Framed

variable {region first last : NodeId} {rest : List NodeId} (ha : g.Arena)
  (hf : g.Framed region first last rest)
include ha hf

theorem nodup : (first :: last :: rest).Nodup := by
  obtain ⟨n, hn, hch⟩ := hf.listed
  exact hch ▸ ha.nodup region n hn

theorem without : (first :: last :: rest).filter (· != last) = first :: rest := by
  have hne : first ≠ last := fun h => (nodup_cons.1 (hf.nodup ha)).1 (h ▸ mem_cons_self)
  rw [← (hf.nodup ha).erase_eq_filter, erase_cons_tail (by simpa using hne), erase_cons_head]

theorem not_fed (p : NodeId) : ¬g.Feeds p first := by
  rintro ⟨e, he, -, hd⟩
  obtain ⟨i, hi, -, hzero⟩ := hf.input
  obtain ⟨s, t, hfit⟩ := ha.edge e he
  cases hi.symm.trans (hd ▸ hfit.target)
  obtain ⟨k, hk, -⟩ := natCast_index hfit.input
  omega

theorem producer {p c : NodeId} (hc : c ∈ first :: last :: rest) (hp : g.Feeds p c) :
    p ∈ first :: last :: rest ∧ p ≠ last := by
  obtain ⟨n, hn, hch⟩ := hf.listed
  refine ⟨hch ▸ ha.feeder_listed hn (hch ▸ hc) hp, ?_⟩
  rintro rfl
  obtain ⟨e, he, rfl, rfl⟩ := hp
  obtain ⟨o, ho, -, hzero⟩ := hf.output
  obtain ⟨s, t, hfit⟩ := ha.edge e he
  cases ho.symm.trans hfit.source
  obtain ⟨k, hk, -⟩ := natCast_index hfit.output
  omega

theorem greedy {taken : List NodeId} (ht : g.takeReady count (first :: last :: rest) = some taken) :
    g.Greedy (first :: rest) (taken.filter (· != last)) := by
  intro before c after hsplit
  obtain ⟨l₁, l₂, rfl, rfl, hl₂⟩ := filter_eq_append_iff.1 hsplit
  obtain ⟨skipped, later, rfl, hskip, hc, -⟩ := filter_eq_cons_iff.1 hl₂
  rw [← append_assoc] at ht
  have hfirst := takeReady_first (hf.nodup ha) ht _ c later rfl
  dsimp only at hfirst
  rw [find?_filter, find?_eq_some_iff_append] at hfirst
  obtain ⟨hready, as, bs, hch, has⟩ := hfirst
  -- before `c` the same children are placed, whether `Output` is counted or not
  have hplaced : ∀ x ≠ last, x ∈ l₁ ++ skipped ↔ x ∈ l₁.filter (· != last) := by
    intro x hx
    have : x ∉ skipped := fun hmem => by simpa [hx] using hskip x hmem
    simp [this, hx]
  have hplace : ∀ x ∈ first :: last :: rest, x ≠ last → (g.Placeable (l₁.filter (· != last)) x ↔
      x ∉ l₁ ++ skipped ∧ g.isReady ((first :: last :: rest).filter (· ∉ l₁ ++ skipped)) x) := by
    intro x hx hne
    rw [isReady_iff, Placeable, hplaced x hne]
    refine and_congr_right fun _ => forall₂_congr fun p hp => ?_
    obtain ⟨hmem, hpne⟩ := hf.producer ha hx hp
    rw [← hplaced p hpne, mem_filter]
    simp [hmem, or_iff_not_imp_left]
  simp only [bne_iff_ne] at hc
  have hmem : c ∈ first :: last :: rest := hch ▸ mem_append_right as mem_cons_self
  refine ⟨as.filter (· != last), bs.filter (· != last), ?_, ?_, ?_⟩
  · rw [← hf.without ha, hch, filter_append, filter_cons_of_pos (by simpa using hc)]
  · exact (hplace c hmem hc).2 (by simpa using hready)
  · intro x hx hpl
    obtain ⟨hxas, hne⟩ := mem_filter.1 hx
    have := (hplace x (hch ▸ mem_append_left _ hxas) (by simpa using hne)).1 hpl
    have hnot := has x hxas
    simp_all

theorem order_eq : g.order region =
    match g.takeReady (rest.length + 2) (first :: last :: rest) with
    | none => .error (.graph (.cycle region))
    | some taken => .ok (taken.filter (· != last) ++ [last]) := by
  obtain ⟨n, hn, hch⟩ := hf.listed
  obtain ⟨i, hi, hkind, -⟩ := hf.input
  obtain ⟨i', hh⟩ := ha.child region n first hn (hch ▸ mem_cons_self)
  cases hi.symm.trans hh.node
  have hregion : n.kind.isRegion = true := by
    have := hh.allowed
    rw [hkind] at this
    cases hk : n.kind <;> simp [hk, NodeKind.mayHold, NodeKind.isRegion] at this ⊢
  simp only [order, hn, hch, hregion, if_true]
  rfl

theorem head {kept : List NodeId} (hkept : g.Greedy (first :: rest) kept) (hmem : first ∈ kept) :
    ∃ mid, kept = first :: mid := by
  cases kept with
  | nil => cases hmem
  | cons c mid =>
    obtain ⟨earlier, later, hch, -, hearlier⟩ := hkept [] c mid rfl
    cases earlier with
    | nil =>
      cases hch
      exact ⟨mid, rfl⟩
    | cons x earlier =>
      cases hch
      exact absurd ⟨by simp, fun p hp => absurd hp (hf.not_fed ha p)⟩ (hearlier _ mem_cons_self)

theorem producersFirst {kept : List NodeId} (hkept : g.Greedy (first :: rest) kept)
    (hperm : kept.Perm (first :: rest)) : g.ProducersFirst (kept ++ [last]) := by
  have hlast : ∀ p, g.Feeds p last → p ∈ kept := by
    intro p hp
    obtain ⟨hmem, hne⟩ := hf.producer ha (by simp) hp
    rw [hperm.mem_iff]
    simpa [hne] using hmem
  intro before c after hsplit
  rcases append_eq_append_iff.1 hsplit with ⟨as, rfl, has⟩ | ⟨bs, rfl, hbs⟩
  · cases as with
    | nil =>
      cases has
      simpa using hlast
    | cons a as => simp at has
  · cases bs with
    | nil =>
      cases hbs
      simpa using hlast
    | cons b bs =>
      cases hbs
      obtain ⟨-, -, -, hplace, -⟩ := hkept before c bs rfl
      exact hplace.2

end Framed

/-- A function whose first operation takes both its inputs from the second one. -/
def backwards : Graph where
  nodes := #[
    { Node.fresh (NodeBody.ofKind .module ⟨[], []⟩) none with children := [1] },
    plainNode .funcDefn ⟨[], []⟩ 0 [2, 3, 4, 5],
    plainNode .input ⟨[], [.bool]⟩ 1 [],
    plainNode .output ⟨[.bool], []⟩ 1 [],
    plainNode .op ⟨[.bool, .bool], [.bool]⟩ 1 [],
    plainNode .op ⟨[.bool], [.bool]⟩ 1 []]
  edges := [⟨⟨2, 0⟩, ⟨5, 0⟩⟩, ⟨⟨5, 0⟩, ⟨4, 0⟩⟩, ⟨⟨5, 0⟩, ⟨4, 1⟩⟩, ⟨⟨4, 0⟩, ⟨3, 0⟩⟩]

end Qirc.Graph
