import Qirc.Proofs.Emission.Regions
import Qirc.Proofs.IR.Formed

/-!
# The blocks of an emission

Between two cursors an emission finishes the blocks it adds and the one it starts in, except for the
one it ends in. A finished block has its shape and branches to blocks that were added on the way, so
that control gets to all of them.
-/

namespace Qirc

open List Step IR

/-- Instructions that leave a block open: phis come first, and nothing ends the block. -/
structure IR.Module.OpenList (m : Module) (l : List InstrId) : Prop where
  plain : ∀ i ∈ l, (m.instr i).op.isTerminator = false
  phisFirst : ∀ i j, [i, j].Sublist l → (m.instr j).op = .phi → (m.instr i).op = .phi

/-- A block with its terminator at the end and its phis in front. -/
structure IR.Module.Shaped (m : Module) (b : BlockId) : Prop where
  ended : ∃ t, m.terminator? b = some t
  inner : ∀ i j, [i, j].Sublist (m.block b).instrs → (m.instr i).op.isTerminator = false
  phisFirst : ∀ i j, [i, j].Sublist (m.block b).instrs → (m.instr j).op = .phi →
    (m.instr i).op = .phi

namespace IR.Module

variable {m m' : Module} {l : List InstrId} {b : BlockId} {i : InstrId}

theorem OpenList.nil (m : Module) : m.OpenList [] :=
  ⟨fun _ h => absurd h not_mem_nil, fun _ _ h => by cases h⟩

theorem OpenList.of_phis (h : ∀ i ∈ l, (m.instr i).op = .phi) : m.OpenList l where
  plain i hi := by
    rw [h i hi]
    rfl
  phisFirst i _ hs _ := h i (hs.subset (by simp))

theorem OpenList.congr (h : m.OpenList l) (hi : ∀ i ∈ l, m'.instr i = m.instr i) :
    m'.OpenList l where
  plain i hmem := by
    rw [hi i hmem]
    exact h.plain i hmem
  phisFirst i j hs := by
    rw [hi i (hs.subset (by simp)), hi j (hs.subset (by simp))]
    exact h.phisFirst i j hs

theorem OpenList.append {more : List InstrId} (h : m.OpenList l)
    (hmore : ∀ i ∈ more, (m.instr i).op.isTerminator = false ∧ (m.instr i).op ≠ .phi) :
    m.OpenList (l ++ more) where
  plain i hi := by
    obtain hi | hi := mem_append.1 hi
    · exact h.plain i hi
    · exact (hmore i hi).1
  phisFirst i j hs hj := by
    obtain hs | ⟨-, hmem⟩ | hs := pair_sublist_append.1 hs
    · exact h.phisFirst i j hs hj
    · exact absurd hj (hmore j hmem).2
    · exact absurd hj (hmore j (hs.subset (by simp))).2

theorem OpenList.close (h : m.OpenList l) (hb : (m.block b).instrs = l ++ [i])
    (hi : (m.instr i).op.isTerminator = true) : m.Shaped b ∧ m.terminator? b = some i := by
  have hlast : m.terminator? b = some i := terminator?_eq_some.2 ⟨by simp [hb], hi⟩
  have hphi : (m.instr i).op ≠ .phi := by
    intro hop
    rw [hop] at hi
    cases hi
  refine ⟨⟨⟨i, hlast⟩, fun x y hs => ?_, fun x y hs hy => ?_⟩, hlast⟩
  · rw [hb] at hs
    obtain hs | ⟨hmem, -⟩ | hs := pair_sublist_append.1 hs
    · exact h.plain x (hs.subset (by simp))
    · exact h.plain x hmem
    · exact absurd hs.length_le (by simp)
  · rw [hb] at hs
    obtain hs | ⟨-, hmem⟩ | hs := pair_sublist_append.1 hs
    · exact h.phisFirst x y hs hy
    · rw [mem_singleton.1 hmem] at hy
      exact absurd hy hphi
    · exact absurd hs.length_le (by simp)

end IR.Module

namespace Cursor

variable {k : Nat} {m : Module} {c c' c'' : Cursor}

def Open (c : Cursor) : Prop := c.module.OpenList (c.module.block c.block).instrs

structure Finished (c c' : Cursor) (x : Nat) : Prop where
  within : x = c.block ∨ c.module.blockTable.size ≤ x
  lt : x < c'.module.blockTable.size
  left : x ≠ c'.block

/-- The blocks between two cursors in a finished module. -/
structure Laid (m : Module) (c c' : Cursor) : Prop where
  opened : Open c'
  shaped : ∀ x, Finished c c' x → m.Shaped x
  targets : ∀ x, Finished c c' x → ∀ t ∈ m.targets x,
    ∃ y : Nat, t = some y ∧ c.module.blockTable.size ≤ y ∧ y < c'.module.blockTable.size
  reached : ∀ e, Reached m.successors e c.block → ∀ x : Nat,
    x = c.block ∨ c.module.blockTable.size ≤ x → x < c'.module.blockTable.size →
    Reached m.successors e x

theorem Finished.split {x : Nat} (h : Finished c c'' x) : Finished c c' x ∨ Finished c' c'' x := by
  rcases Nat.lt_or_ge x c'.module.blockTable.size with hlt | hge
  · by_cases hne : x = c'.block
    · exact .inr ⟨.inl hne, h.lt, h.left⟩
    · exact .inl ⟨h.within, hlt, hne⟩
  · exact .inr ⟨.inr hge, h.lt, h.left⟩

theorem Laid.trans (h : Laid m c c') (h' : Laid m c' c'') (hg : Grows c c') (hg' : Grows c' c'')
    (hb' : c'.block < c'.module.blockTable.size) : Laid m c c'' where
  opened := h'.opened
  shaped x hx := hx.split.elim (h.shaped x) (h'.shaped x)
  targets x hx t ht := by
    obtain hx | hx : Finished c c' x ∨ Finished c' c'' x := hx.split
    · obtain ⟨y, rfl, hge, hlt⟩ := h.targets x hx t ht
      exact ⟨y, rfl, hge, Nat.lt_of_lt_of_le hlt hg'.within.blocks⟩
    · obtain ⟨y, rfl, hge, hlt⟩ := h'.targets x hx t ht
      exact ⟨y, rfl, Nat.le_trans hg.within.blocks hge, hlt⟩
  reached e he x hx hlt := by
    rcases Nat.lt_or_ge x c'.module.blockTable.size with hlt' | hge
    · exact h.reached e he x hx hlt'
    · exact h'.reached e (h.reached e he c'.block hg.moved hb') x (.inr hge) hlt

theorem Grows.appended_new (hg : Grows c c') (hs : c.module.Sound k) (hs' : c'.module.Sound k)
    {more : List InstrId}
    (hi : (c'.module.block c.block).instrs = (c.module.block c.block).instrs ++ more)
    {i : Nat} (hmem : i ∈ more) : c.module.instrTable.size ≤ i := by
  apply Nat.le_of_not_lt
  intro hlt
  have hin : i ∈ (c'.module.block c.block).instrs := by simp [hi, hmem]
  have hparent := (hs'.linked.instr c.block i).1 hin
  rw [hg.within.instr i hlt] at hparent
  have hnd := hs'.linked.instrs c.block
  rw [hi] at hnd
  exact (nodup_append.1 hnd).2.2 i ((hs.linked.instr c.block i).2 hparent) i hmem rfl

theorem Laid.of_stays (hs : Stays c c') (hr : Ready k c) (hr' : Ready k c') (ho : Open c) :
    Laid m c c' := by
  have hnone : ∀ x, ¬Finished c c' x := by
    rintro x ⟨rfl | hge, hlt, hne⟩
    · exact hne hs.block.symm
    rw [hs.size] at hlt
    exact absurd hlt (Nat.not_lt.2 hge)
  refine ⟨?_, fun x hx => absurd hx (hnone x), fun x hx => absurd hx (hnone x), ?_⟩
  · obtain ⟨more, hi, hphi⟩ := hs.current
    unfold Open
    rw [hs.block, hi]
    refine (ho.congr fun i hmem => hs.within.instr i (hr.sound.listed _ i hmem)).append ?_
    intro i hmem
    have hlt : i < c'.module.instrTable.size := hr'.sound.listed c.block i (by simp [hi, hmem])
    exact ⟨hs.plain i (hs.appended_new hr.sound hr'.sound hi hmem) hlt, hphi i hmem⟩
  · rintro e he x (rfl | hge) hlt
    · exact he
    rw [hs.size] at hlt
    exact absurd hlt (Nat.not_lt.2 hge)

/-- No block but those finished between two cursors branches to one that was added on the way. -/
def Apart (m : Module) (fn : FuncId) (c c' : Cursor) : Prop :=
  ∀ p ∈ (m.func fn).blocks, ¬Finished c c' p → ∀ y : Nat, some y ∈ m.targets p →
    y < c.module.blockTable.size ∨ c'.module.blockTable.size ≤ y

section Apart

variable {fn : FuncId} {e : BlockId}

theorem Apart.first (h : Apart m fn c c'') (hl : Laid m c' c'') (hg : Grows c' c'') :
    Apart m fn c c' := by
  intro p hp hnot y hy
  by_cases hlater : Finished c' c'' p
  · obtain ⟨z, hz, hge, -⟩ := hl.targets p hlater _ hy
    cases hz
    exact .inr hge
  · have hnone : ¬Finished c c'' p := fun hfin => hfin.split.elim hnot hlater
    exact (h p hp hnone y hy).imp_right (Nat.le_trans hg.within.blocks)

theorem Apart.second (h : Apart m fn c c'') (hl : Laid m c c') (hg : Grows c c') :
    Apart m fn c' c'' := by
  intro p hp hnot y hy
  by_cases hearlier : Finished c c' p
  · obtain ⟨z, hz, -, hlt⟩ := hl.targets p hearlier _ hy
    cases hz
    exact .inl hlt
  · have hnone : ¬Finished c c'' p := fun hfin => hfin.split.elim hearlier hnot
    exact (h p hp hnone y hy).imp_left fun hlt => Nat.lt_of_lt_of_le hlt hg.within.blocks

theorem Apart.dominates (h : Apart m fn c c')
    (hclosed : ∀ b ∈ (m.func fn).blocks, ∀ d ∈ m.successors b, d ∈ (m.func fn).blocks)
    (he : e ∈ (m.func fn).blocks) (hlt : e < c.module.blockTable.size) {x : Nat}
    (hge : c.module.blockTable.size ≤ x) (hx : x < c'.module.blockTable.size) :
    Dominates m.successors e c.block x := by
  intro hw
  -- A walk that keeps away from the first block never enters the new ones.
  obtain ⟨-, hout⟩ := hw.carry
    (p := fun y => y ∈ (m.func fn).blocks ∧
      (y < c.module.blockTable.size ∨ c'.module.blockTable.size ≤ y))
    ⟨he, .inl hlt⟩ fun y z hy ⟨hmem, hold⟩ hz _ => ⟨hclosed y hmem z hz, by
      refine h y hmem (fun hfin => ?_) z (Module.mem_successors.1 hz)
      obtain hyc | hyc := hfin.within
      · exact hy.ok_end hyc
      · exact hold.elim (Nat.not_lt.2 hyc) (Nat.not_le.2 hfin.lt)⟩
  exact hout.elim (Nat.not_lt.2 hge) (Nat.not_le.2 hx)

end Apart

theorem Open.close {x : Instr} (ho : Open c) (hr : Ready k c) (hw : c.module.Within m)
    (hb : (m.block c.block).instrs = (c.module.block c.block).instrs ++ [c.module.instrTable.size])
    (hi : m.instr c.module.instrTable.size = x) (hx : x.op.isTerminator = true) :
    m.Shaped c.block ∧ m.targets c.block = x.blocks := by
  have hopen : m.OpenList (c.module.block c.block).instrs :=
    Module.OpenList.congr ho fun i hmem => hw.instr i (hr.sound.listed _ i hmem)
  obtain ⟨hshape, hlast⟩ := hopen.close hb (hi ▸ hx)
  exact ⟨hshape, by rw [Module.targets_of_terminator hlast, hi]⟩

end Cursor

namespace Emission

open Cursor

variable {k : Nat} {m : Module} {g : Graph} {region : RegionEmitter}

def Neat (k : Nat) (m : Module) (region : RegionEmitter) : Prop :=
  ∀ id args s outs t, Ready k s.cursor → region id args s = .ok outs t →
    Fits s.cursor t.cursor m → Open s.cursor → Laid m s.cursor t.cursor

namespace Split

variable {id no yes : NodeId} {ts : List ValueType} {predicate : Value} {args vs ws : List Value}
  {ids : List InstrId} {b : Nat} {s f s1 t1 s2 t2 s3 : State}
  (h : Split k g region id ts predicate args no yes vs ws ids b s f s1 t1 s2 t2 s3)

include h

theorem finished_cases {x : Nat} (hx : Finished s.cursor s3.cursor x) :
    x = s.cursor.block ∨ Finished (f.moveTo b).cursor s1.cursor x ∨ x = s1.cursor.block ∨
      Finished (t1.moveTo (b + 1)).cursor s2.cursor x ∨ x = s2.cursor.block := by
  obtain ⟨hz, hz1, hz2, hz3⟩ := h.sizes
  have hno := h.size_no
  have hyes := h.size_yes
  obtain ⟨rfl | hge, hlt, hne⟩ := hx
  · exact .inl rfl
  rw [h.size] at hge
  rw [h.merge_block] at hne
  right
  by_cases h1 : x = b + 1 ∨ t1.cursor.module.blockTable.size ≤ x
  · right; right
    by_cases h2 : x = s2.cursor.block
    · exact .inr h2
    · exact .inl ⟨h1, by omega, h2⟩
  · by_cases h2 : x = s1.cursor.block
    · exact .inr (.inl h2)
    refine .inl ⟨?_, by omega, h2⟩
    show x = b ∨ f.cursor.module.blockTable.size ≤ x
    omega

/-- How the blocks of a conditional are joined: it branches to its cases, each of them ends in a
branch to the block behind. -/
theorem joined (hf : Fits s.cursor s3.cursor m) (ho : Open s.cursor) (ho1 : Open s1.cursor)
    (ho2 : Open s2.cursor) :
    (m.Shaped s.cursor.block ∧ m.targets s.cursor.block = [some (b + 1), some b]) ∧
      (m.Shaped s1.cursor.block ∧ m.targets s1.cursor.block = [some (b + 2)]) ∧
      m.Shaped s2.cursor.block ∧ m.targets s2.cursor.block = [some (b + 2)] := by
  have hw := h.within.trans hf.within
  have hw2 : s2.cursor.module.Within m :=
    (h.leaveYes.grows.within.trans h.merged.within).trans hf.within
  have hw1 : s1.cursor.module.Within m :=
    h.leaveNo.grows.within.trans (h.inYes.grows.within.trans hw2)
  obtain ⟨hb, hi⟩ := h.opening hf
  obtain ⟨hb1, hi1⟩ := h.leaving_no hf
  obtain ⟨hb2, hi2⟩ := h.leaving_yes hf
  exact ⟨ho.close h.start hw hb hi rfl, ho1.close h.inNo.ready hw1 hb1 hi1 rfl,
    ho2.close h.inYes.ready hw2 hb2 hi2 rfl⟩

theorem laid (hf : Fits s.cursor s3.cursor m) (ho : Open s.cursor)
    (hno : Laid m (f.moveTo b).cursor s1.cursor)
    (hyes : Laid m (t1.moveTo (b + 1)).cursor s2.cursor) : Laid m s.cursor s3.cursor := by
  obtain ⟨⟨hshape, htargets⟩, ⟨hshape1, htargets1⟩, hshape2, htargets2⟩ :=
    h.joined hf ho hno.opened hyes.opened
  obtain ⟨hz, hz1, hz2, hz3⟩ := h.sizes
  have hsize := h.size
  have hsize1 := h.size_no
  have hsize2 := h.size_yes
  have hmerge := h.merge_block
  refine ⟨?_, ?_, ?_, ?_⟩
  · unfold Open
    rw [hmerge, h.merge_instrs]
    exact .of_phis h.merged.phi
  · intro x hx
    obtain rfl | hx | rfl | hx | rfl := h.finished_cases hx
    · exact hshape
    · exact hno.shaped x hx
    · exact hshape1
    · exact hyes.shaped x hx
    · exact hshape2
  · intro x hx t ht
    have hnew : ∀ y : Nat, b ≤ y → y < t2.cursor.module.blockTable.size →
        ∃ z : Nat, some y = some z ∧ s.cursor.module.blockTable.size ≤ z ∧
          z < s3.cursor.module.blockTable.size := fun y h1 h2 => ⟨y, rfl, by omega, by omega⟩
    obtain rfl | hx | rfl | hx | rfl := h.finished_cases hx
    · rw [htargets] at ht
      obtain rfl | rfl : t = some (b + 1) ∨ t = some b := by simpa using ht
      · exact hnew _ (by omega) (by omega)
      · exact hnew _ (by omega) (by omega)
    · obtain ⟨y, rfl, hge, hlt⟩ := hno.targets x hx t ht
      replace hge : f.cursor.module.blockTable.size ≤ y := hge
      exact hnew y (by omega) (by omega)
    · rw [htargets1] at ht
      obtain rfl := mem_singleton.1 ht
      exact hnew _ (by omega) (by omega)
    · obtain ⟨y, rfl, hge, hlt⟩ := hyes.targets x hx t ht
      replace hge : t1.cursor.module.blockTable.size ≤ y := hge
      exact hnew y (by omega) (by omega)
    · rw [htargets2] at ht
      obtain rfl := mem_singleton.1 ht
      exact hnew _ (by omega) (by omega)
  · intro e he x hx hlt
    have hin : ∀ y, y = b ∨ y = b + 1 → Reached m.successors e y := by
      intro y hy
      refine he.onward (Module.mem_successors.2 ?_)
      rw [htargets]
      rcases hy with rfl | rfl <;> simp
    have hfirst : ∀ y : Nat, y = b ∨ b + 3 ≤ y → y < t1.cursor.module.blockTable.size →
        Reached m.successors e y := fun y hy hlt => by
      refine hno.reached e (hin b (.inl rfl)) y (hy.imp_right fun hge => ?_) (by omega)
      show f.cursor.module.blockTable.size ≤ y
      omega
    have hsecond : ∀ y : Nat, y = b + 1 ∨ t1.cursor.module.blockTable.size ≤ y →
        y < t2.cursor.module.blockTable.size → Reached m.successors e y :=
      fun y hy hlt => hyes.reached e (hin (b + 1) (.inr rfl)) y hy (by omega)
    have hlast : Reached m.successors e (b + 2) := by
      refine (hfirst s1.cursor.block h.end_no ?_).onward (Module.mem_successors.2 ?_)
      · rw [hsize1]
        exact h.inNo.ready.block
      · simp [htargets1]
    obtain rfl | hge := hx
    · exact he
    by_cases h2 : x = b + 2
    · exact h2 ▸ hlast
    by_cases h1 : x = b + 1 ∨ t1.cursor.module.blockTable.size ≤ x
    · exact hsecond x h1 (by omega)
    · exact hfirst x (by omega) (by omega)

theorem open_no : Open (f.moveTo b).cursor := by
  show f.cursor.module.OpenList (f.cursor.module.block b).instrs
  rw [h.fork.fresh b (Nat.le_refl b)]
  exact .nil _

theorem open_yes : Open (t1.moveTo (b + 1)).cursor := by
  show t1.cursor.module.OpenList (t1.cursor.module.block (b + 1)).instrs
  rw [h.still_empty (b + 1) (by omega) (by omega)]
  exact .nil _

theorem within_no (hf : Fits s.cursor s3.cursor m) : Fits (f.moveTo b).cursor s1.cursor m :=
  (h.fits_no hf).first h.inNo.grows h.inNo.ready h.leaveNo.grows h.leaveNo.ready.sound

theorem within_yes (hf : Fits s.cursor s3.cursor m) : Fits (t1.moveTo (b + 1)).cursor s2.cursor m :=
  (h.fits_yes hf).first h.inYes.grows h.inYes.ready h.leaveYes.grows h.leaveYes.ready.sound

theorem laid_no (hneat : Neat k m region) (hf : Fits s.cursor s3.cursor m) :
    Laid m (f.moveTo b).cursor s1.cursor :=
  hneat _ _ _ _ _ h.inNo.start h.runNo (h.within_no hf) h.open_no

theorem laid_yes (hneat : Neat k m region) (hf : Fits s.cursor s3.cursor m) :
    Laid m (t1.moveTo (b + 1)).cursor s2.cursor :=
  hneat _ _ _ _ _ h.inYes.start h.runYes (h.within_yes hf) h.open_yes

section Sources

variable {fn : FuncId} (hf : Fits s.cursor s3.cursor m) (ho : Open s.cursor)
  (hno : Laid m (f.moveTo b).cursor s1.cursor)
  (hyes : Laid m (t1.moveTo (b + 1)).cursor s2.cursor) (hapart : Apart m fn s.cursor s3.cursor)

include hf ho hno hyes hapart

theorem target_cases {p : BlockId} (hp : p ∈ (m.func fn).blocks) {y : Nat}
    (hy : some y ∈ m.targets p) :
    (y < b ∨ t2.cursor.module.blockTable.size ≤ y) ∨ (y = b ∨ y = b + 1) ∨
      (Finished (f.moveTo b).cursor s1.cursor p ∧ b + 3 ≤ y ∧
        y < t1.cursor.module.blockTable.size) ∨
      (Finished (t1.moveTo (b + 1)).cursor s2.cursor p ∧ t1.cursor.module.blockTable.size ≤ y ∧
        y < t2.cursor.module.blockTable.size) ∨
      (p = s1.cursor.block ∨ p = s2.cursor.block) ∧ y = b + 2 := by
  obtain ⟨⟨-, htargets⟩, ⟨-, htargets1⟩, -, htargets2⟩ := h.joined hf ho hno.opened hyes.opened
  obtain ⟨hz, -, -, hz3⟩ := h.sizes
  by_cases hfin : Finished s.cursor s3.cursor p
  · obtain rfl | hx | rfl | hx | rfl := h.finished_cases hfin
    · rw [htargets] at hy
      exact .inr (.inl (by simpa [or_comm] using hy))
    · obtain ⟨z, hyz, hge, hlt⟩ := hno.targets p hx _ hy
      cases hyz
      exact .inr (.inr (.inl ⟨hx, hz ▸ hge, h.size_no ▸ hlt⟩))
    · rw [htargets1] at hy
      exact .inr (.inr (.inr (.inr ⟨.inl rfl, by simpa using hy⟩)))
    · obtain ⟨z, hyz, hge, hlt⟩ := hyes.targets p hx _ hy
      cases hyz
      exact .inr (.inr (.inr (.inl ⟨hx, hge, h.size_yes ▸ hlt⟩)))
    · rw [htargets2] at hy
      exact .inr (.inr (.inr (.inr ⟨.inr rfl, by simpa using hy⟩)))
  · rw [← h.size, hz3]
    exact .inl (hapart p hp hfin y hy)

theorem apart_no : Apart m fn (f.moveTo b).cursor s1.cursor := by
  intro p hp hnot y hy
  obtain ⟨hz, hz1, hz2, -⟩ := h.sizes
  show y < f.cursor.module.blockTable.size ∨ s1.cursor.module.blockTable.size ≤ y
  rw [← h.size_no]
  obtain hc | hc | ⟨hc, -⟩ | ⟨-, hc, -⟩ | ⟨-, hc⟩ := h.target_cases hf ho hno hyes hapart hp hy
  · omega
  · omega
  · exact absurd hc hnot
  · exact .inr hc
  · omega

theorem apart_yes : Apart m fn (t1.moveTo (b + 1)).cursor s2.cursor := by
  intro p hp hnot y hy
  obtain ⟨hz, hz1, hz2, -⟩ := h.sizes
  show y < t1.cursor.module.blockTable.size ∨ s2.cursor.module.blockTable.size ≤ y
  rw [← h.size_yes]
  obtain hc | hc | ⟨-, -, hc⟩ | ⟨hc, -⟩ | ⟨-, hc⟩ := h.target_cases hf ho hno hyes hapart hp hy
  · omega
  · omega
  · exact .inl hc
  · exact absurd hc hnot
  · omega

theorem merge_sources {p : BlockId} (hp : p ∈ (m.func fn).blocks) :
    some (b + 2) ∈ m.targets p ↔ p = s1.cursor.block ∨ p = s2.cursor.block := by
  obtain ⟨-, ⟨-, htargets1⟩, -, htargets2⟩ := h.joined hf ho hno.opened hyes.opened
  obtain ⟨hz, hz1, hz2, -⟩ := h.sizes
  constructor
  · intro hy
    obtain hc | hc | ⟨-, hc, -⟩ | ⟨-, hc, -⟩ | ⟨hc, -⟩ :=
      h.target_cases hf ho hno hyes hapart hp hy
    · omega
    · omega
    · omega
    · omega
    · exact hc
  · rintro (rfl | rfl)
    · simp [htargets1]
    · simp [htargets2]

end Sources

end Split

/-! ## Nodes and regions -/

theorem node_laid (ha : g.Arena) (ho : Orderly k g region) (hneat : Neat k m region) {id : NodeId}
    {n : Node} {s t : State} (hr : Ready k s.cursor) (hn : g.node? id = some n)
    (h : NodeEmitted g region id n s t) (hf : Fits s.cursor t.cursor m) (hopen : Open s.cursor) :
    Laid m s.cursor t.cursor := by
  have hadv := node_advances ha ho hr hn h
  cases h with
  | const hk hv =>
    obtain ⟨-, hs⟩ : Advances k (g.Under id) s _ ∧ _ := constant_advances hr hv
    exact .of_stays hs hr hadv.ready hopen
  | op hk hargs hl =>
    obtain ⟨l, hfind, -, hlow⟩ := Operation.lower_ok hl
    obtain ⟨hr', hs⟩ := Lowering.lower_steady hfind _ _ _ _ _ hr hlow
    exact .of_stays hs hr hr' hopen
  | call hk he hargs hc =>
    obtain ⟨-, rfl⟩ := Cursor.emit_ok.1 hc
    exact .of_stays (.append hr (by simp [Instr.call]) rfl) hr hadv.ready hopen
  | dfg hk hargs hreg =>
    have hlaid := hneat _ _ _ _ _ hr hreg hf hopen
    exact hlaid
  | conditional hk hargs hch hcases =>
    obtain ⟨ids, f, t1, t2, -, hs⟩ := split_of_emitted ha ho hr hn hch hcases
    exact hs.laid hf hopen (hs.laid_no hneat hf) (hs.laid_yes hneat hf)

theorem nodes_laid (ha : g.Arena) (ho : Orderly k g region) (hneat : Neat k m region)
    {ids : List NodeId} {s t : State} (hr : Ready k s.cursor)
    (h : ids.forM (node g region) s = .ok ⟨⟩ t) (hf : Fits s.cursor t.cursor m)
    (hopen : Open s.cursor) : Laid m s.cursor t.cursor := by
  induction ids generalizing s with
  | nil =>
    rw [forM_nil_ok.1 h]
    exact .of_stays (.refl _) hr hr hopen
  | cons c ids ih =>
    obtain ⟨s1, hc, hrest⟩ := forM_cons_ok.1 h
    obtain ⟨n, hn, hemit⟩ := node_emitted hc
    have hadv := node_advances ha ho hr hn hemit
    have hadv' : Advances k (fun _ => True) s1 t :=
      nodes_advance ha ho (fun _ _ _ _ => trivial) hadv.ready hrest
    have h1 := node_laid ha ho hneat hr hn hemit
      (hf.first hadv.grows hadv.ready hadv'.grows hadv'.ready.sound) hopen
    exact h1.trans (ih hadv.ready hrest (hf.second hadv.grows) h1.opened) hadv.grows hadv'.grows
      hadv.ready.block

theorem region_laid (ha : g.Arena) (depth : Nat) : Neat k m (Emission.region g depth) := by
  induction depth with
  | zero =>
    intro id args s outs t _ h
    exact (throw_ok.1 h).elim
  | succ depth ih =>
    intro id args s outs t hr h hf hopen
    obtain ⟨n, first, last, order, ids, he⟩ := regionWith_ok ha h
    exact nodes_laid (s := { s with values := keep first args s.values }) ha
      (region_advances ha depth) ih hr he.run hf hopen

end Emission

end Qirc
