import Qirc.Proofs.IR.Branches.Chains
import Qirc.Proofs.IR.Branches.Reroute

/-!
# Passing over blocks that only branch on

A block that holds nothing but a branch has a link to the target of the branch, unless that starts
with a phi. Branches to it go to the place where its chain of links stops. A block that is passed
over computes nothing, so no use loses its definition.
-/

namespace Qirc.IR.Module

open List Step

def onward (m : Module) (b : BlockId) : Option BlockId :=
  match (m.block b).instrs with
  | [i] =>
    if (m.instr i).op = .br then
      match (m.instr i).blocks with
      | some t :: _ => if t ≠ b ∧ m.phis t = [] then some t else none
      | _ => none
    else none
  | _ => none

/-- Where the chain of a block stops, when that is another block. -/
def final? (m : Module) (b : BlockId) : Option BlockId := stop? m.onward m.blockTable.size b

def detour (m : Module) (b t : BlockId) : BlockId :=
  match m.final? t with
  | some u => if u = b then t else u
  | none => t

def passed (m : Module) (bs : List BlockId) : List (BlockId × BlockId) :=
  bs.filterMap (fun b => (m.final? b).map (fun t => (b, t)))

/-- A module after the branches of a function were redirected. -/
def skipped (m : Module) (f : FuncId) : Module :=
  (m.func f).blocks.foldl (redirectBlock (m.passed (m.func f).blocks.tail)) m

variable {m : Module} {f : FuncId} {e b c t u : BlockId} {i x : InstrId}

theorem onward_eq_some :
    m.onward b = some t ↔ ∃ i rest, (m.block b).instrs = [i] ∧ (m.instr i).op = .br ∧
      (m.instr i).blocks = some t :: rest ∧ t ≠ b ∧ m.phis t = [] := by
  unfold onward
  constructor
  · intro h
    split at h
    · rename_i i hi
      split at h
      · rename_i hop
        split at h
        · rename_i rest hs
          split at h
          · rename_i hc
            cases h
            exact ⟨i, rest, hi, hop, hs, hc⟩
          · cases h
        · cases h
      · cases h
    · cases h
  · rintro ⟨i, rest, hi, hop, hs, hne, hphi⟩
    simp [hi, hop, hs, hne, hphi]

theorem onward_lt (b t : BlockId) (h : m.onward b = some t) : b < m.blockTable.size := by
  obtain ⟨i, -, hi, -⟩ := onward_eq_some.1 h
  apply Decidable.byContradiction
  intro hb
  rw [block_of_size_le m (Nat.le_of_not_lt hb)] at hi
  cases hi

theorem terminator?_of_br (hi : (m.block b).instrs = [i]) (hop : (m.instr i).op = .br) :
    m.terminator? b = some i := by
  rw [terminator?_eq_some, hi, hop]
  exact ⟨rfl, rfl⟩

theorem onward_target (h : m.onward b = some t) : t ∈ m.successors b := by
  obtain ⟨i, rest, hi, hop, hbl, -⟩ := onward_eq_some.1 h
  rw [mem_successors, targets_of_terminator (terminator?_of_br hi hop), hbl]
  exact mem_cons_self

theorem onward_of_phi (h : m.phis b ≠ []) : m.onward b = none := by
  cases ho : m.onward b with
  | none => rfl
  | some t =>
    obtain ⟨i, rest, hi, hop, -⟩ := onward_eq_some.1 ho
    exact absurd (by simp [phis, hi, hop]) h

theorem hops_phis (h : Hops m.onward b u) : b = u ∨ m.phis u = [] := by
  induction h with
  | refl => exact .inl rfl
  | step hs _ ih =>
    obtain rfl | h := ih
    · obtain ⟨-, -, -, -, -, -, hphi⟩ := onward_eq_some.1 hs
      exact .inr hphi
    · exact .inr h

theorem final?_hops (h : m.final? t = some u) : Hops m.onward t u ∧ t ≠ u := by
  obtain ⟨hc, s, hs, hu⟩ := (stop?_eq_some onward_lt).1 h
  refine ⟨.step hs hu.hops, ?_⟩
  rintro rfl
  exact hc ⟨s, hs, hu.hops⟩

theorem detour_cases (m : Module) (b t : BlockId) :
    m.detour b t = t ∨ (Hops m.onward t (m.detour b t) ∧ t ≠ m.detour b t) := by
  unfold detour
  split
  · rename_i hu
    split
    · exact .inl rfl
    · exact .inr (final?_hops hu)
  · exact .inl rfl

theorem detour_of_onward (h : m.onward t = none) (b : BlockId) : m.detour b t = t := by
  have hfinal : m.final? t = none := stop?_of_stop onward_lt (.inl h)
  rw [detour, hfinal]

theorem detour_congr {m' : Module} (h : m'.final? t = m.final? t) (b : BlockId) :
    m'.detour b t = m.detour b t := by
  unfold detour
  rw [h]

theorem targetWithPhi_some (m : Module) (c : BlockId) :
    m.targetWithPhi (some c) = .ok (c, !(m.phis c).isEmpty) := rfl

theorem redirected_passed {bs : List BlockId} (ht : t ∈ bs) (b : BlockId) :
    redirected (m.passed bs) b (some t) = some (m.detour b t) := by
  have hfind : (m.passed bs).find? (fun r => some r.1 == some t) =
      (m.final? t).map (fun u => (t, u)) := by
    induction bs with
    | nil => cases ht
    | cons a bs ih =>
      unfold passed
      rw [filterMap_cons]
      by_cases hat : a = t
      · subst hat
        cases hfin : m.final? a with
        | some u => simp
        | none =>
          -- A block without a final target is not found further down either.
          simp only [Option.map_none, find?_eq_none, mem_filterMap]
          rintro ⟨x, y⟩ ⟨z, -, hz⟩ hxa
          obtain ⟨w, hw, heq⟩ := Option.map_eq_some_iff.1 hz
          cases heq
          simp only [Option.some_beq_some, beq_iff_eq] at hxa
          rw [hxa, hfin] at hw
          cases hw
      · have ht' := (mem_cons.1 ht).resolve_left (Ne.symm hat)
        cases hfin : m.final? a with
        | some u =>
          simp only [Option.map_some, find?_cons]
          rw [show (some a == some t) = false by simpa using hat]
          exact ih ht'
        | none => exact ih ht'
  unfold redirected detour
  rw [hfind]
  cases m.final? t with
  | none => rfl
  | some u =>
    simp only [Option.map_some]
    split <;> rfl

/-! ## The search -/

section Search

variable (hf : m.Formed f e)

include hf

theorem forwardTarget?_spec (hb : b ∈ (m.func f).blocks) :
    (m.forwardTarget? b = .ok none ∧ m.onward b = none) ∨
      ∃ c ∈ (m.func f).blocks, m.forwardTarget? b = .ok (some (some c)) ∧
        m.onward b = if m.phis c = [] then some c else none := by
  unfold forwardTarget?
  split
  · rename_i i hi
    split
    · rename_i hop
      have hterm := terminator?_of_br hi hop
      obtain ⟨c, hc, hbl⟩ := hf.br hb (terminator?_mem hterm) hterm hop
      by_cases hcb : c = b
      · exact .inl ⟨by simp [hbl, hcb], by simp [onward, hi, hop, hbl, hcb]⟩
      · exact .inr ⟨c, hc, by simp [hbl, hcb], by simp [onward, hi, hop, hbl, hcb]⟩
    · rename_i hop
      exact .inl ⟨rfl, by simp [onward, hi, hop]⟩
  · rename_i hno
    refine .inl ⟨rfl, ?_⟩
    rw [Option.eq_none_iff_forall_ne_some]
    intro s hs
    obtain ⟨i, -, hi, -⟩ := onward_eq_some.1 hs
    exact hno i hi

theorem followForwards_eq (n : Nat) (visited : List BlockId) (hb : b ∈ (m.func f).blocks) :
    m.followForwards n visited b = .ok (follow m.onward n visited b) := by
  induction n generalizing visited b with
  | zero => rfl
  | succ n ih =>
    unfold followForwards follow
    obtain ⟨h, ho⟩ | ⟨c, hc, h, ho⟩ := forwardTarget?_spec hf hb
    · simp [h, ho, bind, Except.bind]
    simp only [h, ho, bind, Except.bind, targetWithPhi_some]
    by_cases hphi : m.phis c = []
    · simp only [hphi, isEmpty_nil, Bool.not_true, Bool.false_eq_true, if_false, if_true,
        contains_iff_mem]
      split
      · rfl
      · exact ih _ hc
    · split
      · rfl
      · rw [if_pos (by simpa using hphi)]

theorem redirect?_eq (hb : b ∈ (m.func f).blocks) : m.redirect? b = .ok (m.final? b) := by
  unfold redirect? final? stop?
  obtain ⟨h, ho⟩ | ⟨c, hc, h, ho⟩ := forwardTarget?_spec hf hb
  · simp [h, ho, bind, Except.bind]
  simp only [h, ho, bind, Except.bind, targetWithPhi_some]
  by_cases hphi : m.phis c = []
  · simp [hphi, followForwards_eq hf _ _ hc]
  · simp [hphi]

theorem redirects_eq {bs : List BlockId} (hbs : ∀ b ∈ bs, b ∈ (m.func f).blocks) :
    m.redirects bs = .ok (m.passed bs) := by
  induction bs with
  | nil => rfl
  | cons b bs ih =>
    rw [forall_mem_cons] at hbs
    unfold redirects passed
    rw [redirect?_eq hf hbs.1, ih hbs.2, filterMap_cons]
    cases m.final? b <;> rfl

theorem Formed.map_redirected (hb : b ∈ (m.func f).blocks) :
    (m.targets b).map (redirected (m.passed (m.func f).blocks.tail) b) =
      (m.targets b).map (Option.map (m.detour b)) := by
  refine map_congr_left fun s hs => ?_
  obtain ⟨c, hc, rfl⟩ := hf.targets b hb s hs
  apply redirected_passed
  -- The entry is no target, and every other block is behind it on the list.
  have hce := hf.ne_entry hb (mem_successors.2 hs)
  have hentry := hf.entry
  unfold entry? at hentry
  cases hB : (m.func f).blocks with
  | nil =>
    rw [hB] at hentry
    cases hentry
  | cons a tail =>
    rw [hB] at hentry hc
    cases hentry
    exact (mem_cons.1 hc).resolve_left hce

end Search

/-! ## The function afterwards -/

section Redirecting

variable (rs : List (BlockId × BlockId)) (m : Module)

theorem redirectBlock_table (b : BlockId) :
    ∃ table, redirectBlock rs m b = { m with instrTable := table } := by
  unfold redirectBlock
  split <;> exact ⟨_, rfl⟩

theorem redirectBlock_instr (b : BlockId) (x : InstrId) :
    ∃ ts, (redirectBlock rs m b).instr x = { m.instr x with blocks := ts } ∧
      (m.terminator? b ≠ some x → ts = (m.instr x).blocks) ∧
      (m.terminator? b = some x → x < m.instrTable.size →
        ts = (m.instr x).blocks.map (redirected rs b)) := by
  unfold redirectBlock
  cases ht : m.terminator? b with
  | none => exact ⟨_, rfl, fun _ => rfl, fun h => by cases h⟩
  | some t =>
    rw [updateInstr_instr]
    by_cases hx : t = x ∧ x < m.instrTable.size
    · rw [if_pos hx]
      exact ⟨_, rfl, fun h => absurd (by rw [hx.1]) h, fun _ _ => rfl⟩
    · rw [if_neg hx]
      exact ⟨_, rfl, fun _ => rfl, fun h hlt => absurd ⟨Option.some.inj h, hlt⟩ hx⟩

theorem redirectBlock_terminator? (b c : BlockId) :
    (redirectBlock rs m b).terminator? c = m.terminator? c := by
  obtain ⟨table, hm⟩ := redirectBlock_table rs m b
  refine terminator?_congr (by rw [hm]; rfl) fun x _ => ?_
  obtain ⟨ts, hx, -⟩ := redirectBlock_instr rs m b x
  rw [hx]

theorem redirectBlock_size (b : BlockId) :
    (redirectBlock rs m b).instrTable.size = m.instrTable.size := by
  unfold redirectBlock
  split
  · rfl
  · rw [updateInstr_size]

variable (bs : List BlockId)

include bs

theorem foldl_redirectBlock_table :
    ∃ table, bs.foldl (redirectBlock rs) m = { m with instrTable := table } := by
  induction bs generalizing m with
  | nil => exact ⟨_, rfl⟩
  | cons b bs ih =>
    obtain ⟨table, hm⟩ := redirectBlock_table rs m b
    rw [foldl_cons, hm]
    exact ih _

theorem foldl_redirectBlock_instr (hnd : bs.Nodup)
    (hown : ∀ b c t, m.terminator? b = some t → m.terminator? c = some t → b = c) (x : InstrId) :
    ∃ ts, (bs.foldl (redirectBlock rs) m).instr x = { m.instr x with blocks := ts } ∧
      ((∀ b ∈ bs, m.terminator? b ≠ some x) → ts = (m.instr x).blocks) ∧
      ∀ b ∈ bs, m.terminator? b = some x → x < m.instrTable.size →
        ts = (m.instr x).blocks.map (redirected rs b) := by
  induction bs generalizing m with
  | nil => exact ⟨_, rfl, fun _ => rfl, by simp⟩
  | cons a bs ih =>
    obtain ⟨hab, hbs⟩ := nodup_cons.1 hnd
    obtain ⟨ts, hx, hkeep, hchange⟩ := redirectBlock_instr rs m a x
    obtain ⟨us, hx', hkeep', hchange'⟩ := ih (redirectBlock rs m a) hbs (by
      simpa only [redirectBlock_terminator?] using hown)
    rw [hx] at hx' hkeep' hchange'
    simp only [redirectBlock_terminator?, redirectBlock_size] at hkeep' hchange'
    refine ⟨us, hx', fun h => ?_, fun b hb ht hlt => ?_⟩
    · rw [forall_mem_cons] at h
      rw [hkeep' h.2, hkeep h.1]
    obtain rfl | hb := mem_cons.1 hb
    · rw [hkeep' fun c hc h => hab (hown c b x h ht ▸ hc), hchange ht hlt]
    · rw [hchange' b hb ht hlt, hkeep fun h => hab (hown a b x h ht ▸ hb)]

end Redirecting

section Afterwards

theorem skipped_table (m : Module) (f : FuncId) :
    ∃ table, m.skipped f = { m with instrTable := table } := foldl_redirectBlock_table ..

@[simp] theorem skipped_block (c : BlockId) : (m.skipped f).block c = m.block c := by
  obtain ⟨table, h⟩ := skipped_table m f
  rw [h]
  rfl

@[simp] theorem skipped_func (g : FuncId) : (m.skipped f).func g = m.func g := by
  obtain ⟨table, h⟩ := skipped_table m f
  rw [h]
  rfl

theorem skipped_size (m : Module) (f : FuncId) :
    (m.skipped f).blockTable.size = m.blockTable.size := by
  obtain ⟨table, h⟩ := skipped_table m f
  rw [h]

variable (hl : m.Linked) (hf : m.Formed f e)

include hl

theorem Linked.terminator?_unique (hb : m.terminator? b = some x) (hc : m.terminator? c = some x) :
    b = c := hl.block_unique (terminator?_mem hb) (terminator?_mem hc)

include hf

theorem skipped_branch (hb : b ∈ (m.func f).blocks) (ht : m.terminator? b = some x) :
    (m.skipped f).instr x =
      { m.instr x with blocks := (m.instr x).blocks.map (Option.map (m.detour b)) } := by
  have hdetours := hf.map_redirected hb
  rw [targets_of_terminator ht] at hdetours
  obtain ⟨ts, hx, -, hchange⟩ := foldl_redirectBlock_instr
    (m.passed (m.func f).blocks.tail) m (m.func f).blocks (hl.blocks f)
    (fun _ _ _ => hl.terminator?_unique) x
  rw [skipped, hx, hchange b hb ht (hl.instr_lt (terminator?_mem ht)), hdetours]

omit hf in
theorem skipped_other (hx : ∀ b ∈ (m.func f).blocks, m.terminator? b ≠ some x) :
    (m.skipped f).instr x = m.instr x := by
  obtain ⟨ts, hx', hkeep, -⟩ := foldl_redirectBlock_instr
    (m.passed (m.func f).blocks.tail) m (m.func f).blocks (hl.blocks f)
    (fun _ _ _ => hl.terminator?_unique) x
  rw [skipped, hx', hkeep hx]

theorem skipped_instr (x : InstrId) :
    ∃ ts, (m.skipped f).instr x = { m.instr x with blocks := ts } ∧
      ts.length = (m.instr x).blocks.length := by
  by_cases h : ∃ b ∈ (m.func f).blocks, m.terminator? b = some x
  · obtain ⟨b, hb, ht⟩ := h
    exact ⟨_, skipped_branch hl hf hb ht, by simp⟩
  · refine ⟨_, skipped_other hl fun b hb ht => h ⟨b, hb, ht⟩, rfl⟩

omit hf in
theorem skipped_phi (hop : (m.instr x).op = .phi) : (m.skipped f).instr x = m.instr x := by
  exact skipped_other hl fun b hb ht => terminator?_ne_phi ht hop

theorem skipped_eq (x : InstrId) : (m.skipped f).instr x =
    { m.instr x with blocks := ((m.skipped f).instr x).blocks } := by
  obtain ⟨ts, hx, -⟩ := skipped_instr hl hf x
  rw [hx]

theorem skipped_terminator? (b : BlockId) : (m.skipped f).terminator? b = m.terminator? b :=
  terminator?_congr (by rw [skipped_block]) fun x _ => by rw [skipped_eq hl hf]

theorem skipped_targets (b : BlockId) :
    (m.skipped f).targets b =
      if b ∈ (m.func f).blocks then (m.targets b).map (Option.map (m.detour b))
      else m.targets b := by
  cases ht : m.terminator? b with
  | none =>
    unfold targets
    rw [skipped_terminator? hl hf, ht]
    simp
  | some x =>
    rw [targets_of_terminator ht,
      targets_of_terminator ((skipped_terminator? hl hf b).trans ht)]
    split
    · rename_i hb
      rw [skipped_branch hl hf hb ht]
    rename_i hb
    rw [skipped_other hl]
    intro c hc htc
    exact hb (hl.terminator?_unique ht htc ▸ hc)

theorem Linked.skipped : (m.skipped f).Linked := by
  refine hl.congr (fun _ => by rw [skipped_func]) fun _ => by rw [skipped_block]
    (fun _ => by rw [skipped_block]) fun x => ?_
  rw [skipped_eq hl hf]

theorem Edited.skipped : Edited f m (m.skipped f) where
  toSameGlobals := by
    obtain ⟨table, h⟩ := skipped_table m f
    rw [h]
    exact .of_instrs rfl
  ty x := by rw [skipped_eq hl hf]
  proto g := by rw [skipped_func]
  owned g := by rw [skipped_func]
  otherBlocks g _ := by rw [skipped_func]
  otherBlock g b _ _ := skipped_block b
  otherInstr g b x hg hb hx := by
    refine skipped_other hl fun c hc ht => hg (hl.func_unique hb ?_)
    rwa [hl.block_unique hx (terminator?_mem ht)]

omit hl in
theorem hops_mem (hb : b ∈ (m.func f).blocks) (h : Hops m.onward b u) : u ∈ (m.func f).blocks := by
  induction h with
  | refl => exact hb
  | step hs _ ih => exact ih (hf.closed hb (onward_target hs))

omit hl in
theorem detour_mem (hb : b ∈ (m.func f).blocks) (hc : c ∈ m.successors b) (a : BlockId) :
    m.detour a c ∈ (m.func f).blocks ∧ m.detour a c ≠ e := by
  have hcB := hf.closed hb hc
  obtain h | ⟨h, hne⟩ := detour_cases m a c
  · rw [h]
    exact ⟨hcB, hf.ne_entry hb hc⟩
  refine ⟨hops_mem hf hcB h, ?_⟩
  generalize m.detour a c = u at h hne
  clear hne
  induction h generalizing b with
  | refl => exact hf.ne_entry hb hc
  | step hs _ ih =>
    exact ih hcB (onward_target hs) (hf.closed hcB (onward_target hs))

omit hl hf in
theorem Walk.hops {ok : BlockId → Prop} {a : BlockId}
    (hok : ∀ x y, m.onward x = some y → ok x) (hw : Walk m.successors ok a b)
    (h : Hops m.onward b u) (hu : ok u) : Walk m.successors ok a u := by
  induction h with
  | refl => exact hw
  | @step b c u hs rest ih =>
    refine ih (hw.step (onward_target hs) ?_) hu
    cases rest with
    | refl => exact hu
    | step hc _ => exact hok _ _ hc

theorem skipped_walk {ok : BlockId → Prop} {a : BlockId} (hok : ∀ x y, m.onward x = some y → ok x)
    (hw : Walk (m.skipped f).successors ok a b) : Walk m.successors ok a b := by
  induction hw with
  | start h => exact .start h
  | @step b c _ hn hc ih =>
    rw [mem_successors, skipped_targets hl hf] at hn
    split at hn
    · obtain ⟨s, hs, hsc⟩ := mem_map.1 hn
      obtain ⟨d, rfl, hdc⟩ := Option.map_eq_some_iff.1 hsc
      obtain h | ⟨h, hne⟩ := detour_cases m b d
      · rw [← hdc, h] at hc ⊢
        exact ih.step (mem_successors.2 hs) hc
      rw [hdc] at h hne
      have hd : ok d := by
        cases h with
        | refl => exact absurd rfl hne
        | step hd _ => exact hok _ _ hd
      exact Walk.hops hok (ih.step (mem_successors.2 hs) hd) h hc
    · exact ih.step (mem_successors.2 hn) hc

theorem skipped_predecessors (hphi : m.phis c ≠ []) :
    (m.skipped f).predecessors f c = m.predecessors f c := by
  unfold predecessors
  rw [skipped_func]
  refine filter_congr fun p hp => ?_
  rw [skipped_targets hl hf, if_pos hp, Bool.eq_iff_iff, contains_iff_mem,
    contains_iff_mem, mem_map]
  constructor
  · rintro ⟨s, hs, hsc⟩
    obtain ⟨d, rfl, hdc⟩ := Option.map_eq_some_iff.1 hsc
    obtain h | ⟨h, hne⟩ := detour_cases m p d
    · rw [← hdc, h]
      exact hs
    · rw [hdc] at h hne
      exact absurd ((hops_phis h).resolve_left hne) hphi
  · intro hc
    refine ⟨some c, hc, ?_⟩
    rw [Option.map_some, detour_of_onward (onward_of_phi hphi)]

theorem Rerouted.skipped : Rerouted f e m (m.skipped f) where
  edited := Edited.skipped hl hf
  entry := by
    rw [ entry?, skipped_func]
    exact hf.entry
  blocks c hc := by rwa [skipped_func] at hc
  kept c hc := by
    rw [skipped_func]
    exact hf.mem_of_reached hc
  instrs c := by rw [skipped_block]
  parent x := by rw [skipped_eq hl hf]
  ends x := by rw [skipped_eq hl hf]
  phi x := by rw [skipped_eq hl hf]
  targets b hb s hs := by
    rw [skipped_func] at hb ⊢
    rw [skipped_targets hl hf, if_pos hb] at hs
    obtain ⟨s', hs', rfl⟩ := mem_map.1 hs
    obtain ⟨c, hc, rfl⟩ := hf.targets b hb s' hs'
    obtain ⟨hd, hde⟩ := detour_mem hf hb (mem_successors.2 hs') b
    exact ⟨_, hd, rfl, hde⟩
  typed b hb x hx hop := by
    rw [skipped_func] at hb
    obtain ⟨ts, hx', hlen⟩ := skipped_instr hl hf x
    rw [hx']
    exact (Edited.skipped hl hf).instrDefect? hop hlen (hf.typed b hb x hx hop)
  phis b hb x hx hop := by
    rw [skipped_func] at hb
    have hphi : m.phis b ≠ [] := ne_nil_of_mem ((hf.mem_phis hb).2 ⟨hx, hop⟩)
    rw [skipped_phi hl hop, skipped_predecessors hl hf hphi]
    exact (hf.phis b hb x hx hop).edited (Edited.skipped hl hf)
  operands x _ v hv := by rwa [skipped_eq hl hf] at hv
  entries x hop p hp := by rwa [skipped_phi hl hop] at hp
  reached c hc := skipped_walk hl hf (fun _ _ _ => trivial) hc
  dominates h c j hj hop _ hdom hw := by
    refine hdom (skipped_walk hl hf (fun x y hxy => ?_) hw)
    rintro rfl
    obtain ⟨i, -, hi, hbr, -⟩ := onward_eq_some.1 hxy
    rw [hi, mem_singleton] at hj
    subst hj
    rw [hbr] at hop
    cases hop

theorem Formed.skipped : (m.skipped f).Formed f e :=
  hf.rerouted hl (hl.skipped hf) (Rerouted.skipped hl hf)

/-! ## Once is enough -/

theorem skipped_phis (c : BlockId) : (m.skipped f).phis c = m.phis c := by
  unfold phis
  rw [skipped_block]
  congr 1
  funext x
  rw [skipped_eq hl hf]

theorem skipped_onward_of_some (hb : b ∈ (m.func f).blocks) (h : m.onward b = some t) :
    (m.skipped f).onward b = some (m.detour b t) := by
  obtain ⟨i, rest, hi, hop, hbl, hne, hphi⟩ := onward_eq_some.1 h
  have hterm := terminator?_of_br hi hop
  refine onward_eq_some.2 ⟨i, rest.map (Option.map (m.detour b)), by rwa [skipped_block], ?_, ?_,
    ?_, ?_⟩
  · rw [skipped_branch hl hf hb hterm]
    exact hop
  · rw [skipped_branch hl hf hb hterm, hbl]
    rfl
  · unfold detour
    split
    · split
      · exact hne
      · assumption
    · exact hne
  · rw [skipped_phis hl hf]
    obtain h | ⟨h, hne'⟩ := detour_cases m b t
    · rw [h]
      exact hphi
    · exact (hops_phis h).resolve_left hne'

theorem skipped_onward_of_none (h : m.onward b = none) : (m.skipped f).onward b = none := by
  rw [Option.eq_none_iff_forall_ne_some]
  intro t ht
  obtain ⟨i, rest, hi, hop, hbl, hne, hphi⟩ := onward_eq_some.1 ht
  obtain ⟨ts, hx, -⟩ := skipped_instr hl hf i
  rw [skipped_block] at hi
  rw [hx] at hop
  have hterm := terminator?_of_br hi hop
  by_cases hb : b ∈ (m.func f).blocks
  · obtain ⟨c, hc, hblocks⟩ := hf.br hb (terminator?_mem hterm) hterm hop
    rw [skipped_branch hl hf hb hterm, hblocks] at hbl
    cases hbl
    have honward : m.onward b = if c ≠ b ∧ m.phis c = [] then some c else none := by
      simp [onward, hi, show (m.instr i).op = .br from hop, hblocks]
    rw [honward] at h
    split at h
    · cases h
    rename_i hno
    -- A target that starts with a phi, or is the block itself, has no detour.
    have hsame : m.detour b c = c := by
      refine detour_of_onward ?_ b
      by_cases hcb : c = b
      · subst hcb
        rw [honward, if_neg hno]
      · exact onward_of_phi fun h => hno ⟨hcb, h⟩
    rw [hsame] at hne hphi
    rw [skipped_phis hl hf] at hphi
    exact hno ⟨hne, hphi⟩
  · rw [skipped_other hl fun c hc htc => hb (hl.terminator?_unique hterm htc ▸ hc)] at hbl
    rw [skipped_phis hl hf] at hphi
    have hsome := onward_eq_some.2 ⟨i, rest, hi, hop, hbl, hne, hphi⟩
    rw [h] at hsome
    cases hsome

theorem skipped_final? (hb : b ∈ (m.func f).blocks) : (m.skipped f).final? b = m.final? b := by
  have hsize : (m.skipped f).blockTable.size = m.blockTable.size := skipped_size m f
  have hfinal : ∀ c t u, m.onward c = some t → ¬OnCycle m.onward c → Stops m.onward t u →
      m.detour c t = u := by
    intro c t u hct hcc hu
    unfold detour
    cases hu with
    | here h =>
      rw [show m.final? t = none from stop?_of_stop onward_lt h]
    | @further _ s _ hts htc rest =>
      rw [show m.final? t = some u from (stop?_eq_some onward_lt).2 ⟨htc, s, hts, rest⟩]
      dsimp only
      rw [if_neg]
      rintro rfl
      exact hcc ⟨t, hct, .step hts rest.hops⟩
  unfold final?
  rw [hsize]
  refine stop?_shortened (p := (· ∈ (m.func f).blocks)) onward_lt
    (hsize ▸ onward_lt) ?_ ?_ ?_ ?_ hb
  · exact fun a t ha h => hf.closed ha (onward_target h)
  · exact fun a _ h => skipped_onward_of_none hl hf h
  · intro a ha hc
    obtain ⟨t, hat, hback⟩ := hc
    have hfinal : m.final? t = none :=
      stop?_of_stop onward_lt (.inr (OnCycle.next ⟨t, hat, hback⟩ hat))
    rw [skipped_onward_of_some hl hf ha hat, detour, hfinal, hat]
  · intro a t u ha hat hc hu
    rw [skipped_onward_of_some hl hf ha hat, hfinal a t u hat hc hu]

theorem skipped_detour (hb : b ∈ (m.func f).blocks) (hc : c ∈ m.successors b) :
    (m.skipped f).detour b (m.detour b c) = m.detour b c := by
  have hsame : (m.skipped f).final? (m.detour b c) = m.final? (m.detour b c) :=
    skipped_final? hl hf (detour_mem hf hb hc b).1
  have hidem : m.detour b (m.detour b c) = m.detour b c := by
    cases hfin : m.final? c with
    | none =>
      have h : m.detour b c = c := by rw [detour, hfin]
      rw [h, h]
    | some u =>
      by_cases hub : u = b
      · have h : m.detour b c = c := by rw [detour, hfin]; exact if_pos hub
        rw [h, h]
      have h : m.detour b c = u := by rw [detour, hfin]; exact if_neg hub
      obtain ⟨-, t, -, hu⟩ := (stop?_eq_some onward_lt).1 hfin
      have hstop : m.final? u = none := stop?_of_stop onward_lt hu.stop
      rw [h, detour, hstop]
  exact (detour_congr hsame b).trans hidem

/-! ## The rule -/

def detours (m : Module) (f : FuncId) : Bool :=
  (m.func f).blocks.any (fun b =>
    m.targets b != (m.targets b).map (redirected (m.passed (m.func f).blocks.tail) b))

omit hl in
theorem skipForwards_ok : skipForwards f m = .ok (m.detours f) (m.skipped f) := by
  refine bind_ok.2 ⟨m, m, rfl,
    bind_ok.2 ⟨m.passed (m.func f).blocks.tail, m, ?_, ?_⟩⟩
  · exact ofExcept_ok.2 ⟨redirects_eq hf fun b hb => mem_of_mem_tail hb, rfl⟩
  · exact bind_ok.2 ⟨⟨⟩, _, set_ok.2 rfl, rfl⟩

theorem skipped_detours : (m.skipped f).detours f = false := by
  unfold detours
  rw [any_eq_false]
  intro b hb
  rw [(hf.skipped hl).map_redirected hb, bne_iff_ne, Decidable.not_not]
  rw [skipped_func] at hb
  rw [skipped_targets hl hf, if_pos hb, map_map]
  refine map_congr_left fun s hs => ?_
  obtain ⟨c, -, rfl⟩ := hf.targets b hb s hs
  simp only [Function.comp_apply, Option.map_some, Option.some.injEq]
  exact (skipped_detour hl hf hb (mem_successors.2 hs)).symm

end Afterwards

end Qirc.IR.Module
