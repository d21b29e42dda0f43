import Qirc.IR.Pass.Promotion
import Qirc.Proofs.IR.DeadCode
import Qirc.Proofs.Step

/-!
# Promoted slots

A slot that is only loaded from and stored to can go: every load gives way to a value that was stored
before, and then nothing reads the slot but the stores, which nothing reads either. Whether the value
is there at the load has to be shown for loads that control can get to only.
-/

namespace Qirc.IR.Module

open List Step

variable {m m' : Module} {f : FuncId} {e b c : BlockId} {i j k slot : InstrId} {v w : Value}

theorem Ready.later (hl : m.Linked) (h : m.Ready f e b i v)
    (hs : [i, k].Sublist (m.block b).instrs) : m.Ready f e b k v := by
  refine h.imp_right fun h => ⟨h.1, fun j hj => ?_⟩
  obtain ⟨d, hp, hd⟩ := h.2 j hj
  refine ⟨d, hp, hd.imp_left fun hd => ⟨hd.1, pair_sublist_trans (hl.instrs b) hd.2 hs⟩⟩

theorem Ready.elsewhere (h : m.Ready f e e i v) (hc : c ≠ e) : m.Ready f e c k v := by
  refine h.imp_right fun h => ⟨h.1, fun j hj => ?_⟩
  obtain ⟨d, hp, hd⟩ := h.2 j hj
  have hde : d = e := by
    obtain ⟨rfl, -⟩ | ⟨-, hd⟩ := hd
    · rfl
    · exact hd.eq_entry
  subst hde
  exact ⟨d, hp, .inr ⟨Ne.symm hc, Dominates.of_entry c⟩⟩

/-! ## The accesses of a slot -/

theorem Regular.store_shape (hr : m.Regular f e) (hi : i ∈ m.body f)
    (hop : (m.instr i).op = .store) :
    ∃ v p, (m.instr i).operands = [v, p] ∧ (m.typeOf p).elem = m.typeOf v := by
  obtain ⟨c, hp, hc⟩ := hr.linked.mem_body.1 hi
  have htyped := hr.formed.typed c hc i ((hr.linked.instr c i).2 hp) (by simp [hop])
  have hsolid := (hr.typed i hi).solid
  unfold instrDefect? at htyped
  rw [hop] at htyped
  match hops : (m.instr i).operands with
  | [v, p] =>
    refine ⟨v, p, rfl, ?_⟩
    rw [hops] at htyped hsolid
    have hv : m.operandType v = .ok (m.typeOf v) :=
      operandType_eq_ok.2 ⟨(hsolid v (by simp)).ne_missing, rfl⟩
    cases hs : m.shapedType p with
    | error => simp [hs, bind, Except.bind] at htyped
    | ok t =>
      have ht : m.typeOf p = t := by
        unfold shapedType at hs
        split at hs
        · cases hs
        · exact Except.ok.inj hs
      by_cases hptr : isPtr t = true
      · by_cases helem : t.elem = m.typeOf v
        · rw [ht, helem]
        · simp [hs, hptr, hv, helem, bind, Except.bind] at htyped
      · simp [hs, hptr, bind, Except.bind] at htyped
  | [] => simp [hops] at htyped
  | [_] => simp [hops] at htyped
  | _ :: _ :: _ :: _ => simp [hops] at htyped

theorem Regular.load_shape (hr : m.Regular f e) (hi : i ∈ m.body f) (hop : (m.instr i).op = .load) :
    ∃ p, (m.instr i).operands = [p] ∧ (m.instr i).ty = (m.typeOf p).elem := by
  have hfits := (hr.typed i hi).fits
  unfold Instr.Fits at hfits
  rwa [hop] at hfits

theorem Regular.load_type (hr : m.Regular f e) (hi : i ∈ m.body f) (hop : (m.instr i).op = .load)
    (hops : (m.instr i).operands = [v]) : (m.instr i).ty = (m.typeOf v).elem := by
  obtain ⟨p, hops', hty⟩ := hr.load_shape hi hop
  cases hops.symm.trans hops'
  exact hty

theorem Regular.store_type (hr : m.Regular f e) (hi : i ∈ m.body f) (hop : (m.instr i).op = .store)
    (hops : (m.instr i).operands = [v, w]) : m.typeOf v = (m.typeOf w).elem := by
  obtain ⟨v', w', hops', hty⟩ := hr.store_shape hi hop
  cases hops.symm.trans hops'
  exact hty.symm

structure Slot (m : Module) (f : FuncId) (slot : InstrId) : Prop where
  inside : slot ∈ m.body f
  op : (m.instr slot).op = .alloca

theorem Slot.ty (hslot : Slot m f slot) (hr : m.Regular f e) :
    (m.instr slot).ty = .ptr (m.instr slot).elem := by
  have hfits := (hr.typed slot hslot.inside).fits
  unfold Instr.Fits at hfits
  rwa [hslot.op] at hfits

theorem Slot.elem (hslot : Slot m f slot) (hr : m.Regular f e) :
    (m.typeOf (.instr slot)).elem = (m.instr slot).elem := by
  rw [typeOf, hslot.ty hr]
  rfl

/-- A slot is only loaded from and stored to. -/
structure Accessed (m : Module) (f : FuncId) (slot : InstrId) (loads stores : List InstrId) :
    Prop where
  loadsIn : loads.Sublist (m.body f)
  storesIn : stores.Sublist (m.body f)
  loadOp : ∀ i ∈ loads, (m.instr i).op = .load ∧ (m.instr i).operands = [.instr slot]
  storeOp : ∀ i ∈ stores, (m.instr i).op = .store ∧ ∃ v, (m.instr i).operands = [v, .instr slot]
  all : ∀ i ∈ m.body f, .instr slot ∈ (m.instr i).operands → i ∈ loads ∨ i ∈ stores

theorem slotAccesses_spec (slot : InstrId) (hr : m.Regular f e) {us : List InstrId}
    (hus : ∀ i ∈ us, i ∈ m.body f ∧ .instr slot ∈ (m.instr i).operands) :
    m.slotAccesses slot us = .ok none ∨
      m.slotAccesses slot us = .ok (some (us.filter (fun i => (m.instr i).op == .load),
          us.filter (fun i => (m.instr i).op == .store))) ∧
        ∀ i ∈ us, ((m.instr i).op = .load ∧ (m.instr i).operands = [.instr slot]) ∨
          ((m.instr i).op = .store ∧ ∃ v, (m.instr i).operands = [v, .instr slot]) := by
  induction us with
  | nil => exact .inr ⟨rfl, by simp⟩
  | cons u us ih =>
    rw [forall_mem_cons] at hus
    obtain ⟨⟨hu, hread⟩, hus⟩ := hus
    by_cases hload : (m.instr u).op = .load
    · obtain ⟨p, hops, -⟩ := hr.load_shape hu hload
      obtain rfl : .instr slot = p := by simpa [hops] using hread
      refine (ih hus).imp (fun h => ?_) fun ⟨h, hall⟩ =>
        ⟨?_, forall_mem_cons.2 ⟨.inl ⟨hload, hops⟩, hall⟩⟩
      · simp [slotAccesses, hload, h, bind, Except.bind]
      · simp [slotAccesses, hload, h, bind, Except.bind]
    by_cases hstore : (m.instr u).op = .store
    · obtain ⟨v, p, hops, -⟩ := hr.store_shape hu hstore
      by_cases hok : p = .instr slot ∧ v ≠ .instr slot
      · refine (ih hus).imp (fun h => ?_) fun ⟨h, hall⟩ =>
          ⟨?_, forall_mem_cons.2 ⟨.inr ⟨hstore, v, by rw [hops, hok.1]⟩, hall⟩⟩
        · simp [slotAccesses, hstore, hops, hok, h, bind, Except.bind]
        · simp [slotAccesses, hstore, hops, hok, h, bind, Except.bind]
      · exact .inl (by simp [slotAccesses, hstore, hops, if_neg hok])
    · refine .inl ?_
      unfold slotAccesses
      split
      · contradiction
      · contradiction
      · contradiction
      · rfl

/-! ## Replacing loads -/

/-- A module after loads gave way to values other than the slot. -/
structure Freed (f : FuncId) (e : BlockId) (slot : InstrId) (m m' : Module) : Prop where
  sub : Substituted f e m m'
  kept : ∀ x ∈ m.body f, (m.instr x).op ≠ .load → x ∈ m'.body f
  reads : ∀ x ∈ m'.body f, .instr slot ∈ (m'.instr x).operands →
    .instr slot ∈ (m.instr x).operands

theorem Freed.refl (f : FuncId) (e : BlockId) (slot : InstrId) (m : Module) : Freed f e slot m m :=
  ⟨.refl, fun _ h _ => h, fun _ _ h => h⟩

theorem Freed.trans {m'' : Module} (hr : m.Regular f e) (h : Freed f e slot m m')
    (h' : Freed f e slot m' m'') : Freed f e slot m m'' := by
  have hu := (h.sub.keeps hr).2
  have hu' := (h'.sub.keeps (h.sub.keeps hr).1).2
  refine ⟨h.sub.trans h'.sub, fun x hx hop => ?_, fun x hx hread => ?_⟩
  · exact h'.kept x (h.kept x hx hop) (by rwa [hu.ops])
  · exact h.reads x (hu'.body x hx) (h'.reads x hx hread)

theorem Slot.freed (h : Slot m f slot) (hr : m.Regular f e) (hfreed : Freed f e slot m m') :
    Slot m' f slot :=
  ⟨hfreed.kept slot h.inside (by simp [h.op]), by rw [(hfreed.sub.keeps hr).2.ops, h.op]⟩

theorem Freed.supplant (hr : m.Regular f e) (hc : c ∈ (m.func f).blocks)
    (hi : i ∈ (m.block c).instrs) (hop : (m.instr i).op = .load) (hv : StandsIn m f e c i v)
    (hne : v ≠ .instr slot) : Freed f e slot m (m.supplant f i v) := by
  have hswap : ∀ w, swap i v w = .instr slot → w = .instr slot := by
    intro w h
    unfold swap at h
    split at h
    · exact absurd h hne
    · exact h
  refine ⟨.supplant .refl hr.linked hc hi (by rw [hop]; rfl) hv, fun x hx hxop => ?_,
    fun x hx hread => ?_⟩
  · refine (supplant_body hr.linked).2 ⟨hx, ?_⟩
    rintro rfl
    exact hxop hop
  · rw [supplant_instr] at hread
    obtain ⟨w, hw, hslot⟩ := mem_map.1 ((if_pos ((supplant_body hr.linked).1 hx).1) ▸ hread)
    rwa [hswap w hslot] at hw

/-- A value that the loads of a slot among the instructions may yield, if control gets to `b`. -/
structure Held (m : Module) (f : FuncId) (e b : BlockId) (slot : InstrId) (is : List InstrId)
    (v : Value) : Prop where
  ty : m.typeOf v = (m.typeOf (.instr slot)).elem
  solid : v.Solid m
  ready : Reached m.successors e b → ∀ i ∈ is, ∀ c, (m.instr i).parent = some c → m.Ready f e c i v

variable {is : List InstrId}

theorem Held.tail (h : Held m f e b slot (i :: is) v) : Held m f e b slot is v :=
  ⟨h.ty, h.solid, fun hr j hj => h.ready hr j (mem_cons_of_mem i hj)⟩

section Forwarding

variable (hr : m.Regular f e)
include hr

/-- No type is the type of its own pointers. -/
theorem Held.apart (h : Held m f e b slot is v) (hslot : Slot m f slot) : v ≠ .instr slot := by
  rintro rfl
  have hty := h.ty
  rw [typeOf, hslot.ty hr] at hty
  exact absurd (congrArg sizeOf hty) (by simp [Ty.elem])

theorem Held.store (hb : b ∈ (m.func f).blocks) (his : (i :: is).Sublist (m.block b).instrs)
    (hop : (m.instr i).op = .store) (hops : (m.instr i).operands = [v, .instr slot]) :
    Held m f e b slot is v := by
  have hib : i ∈ (m.block b).instrs := his.subset mem_cons_self
  have hi := hr.linked.mem_body_of_mem hb hib
  have hv : v ∈ (m.instr i).operands := by simp [hops]
  refine ⟨hr.store_type hi hop hops, (hr.typed i hi).solid v hv, fun hreach k hk c hp => ?_⟩
  cases hp.symm.trans ((hr.linked.instr b k).1 (his.subset (mem_cons_of_mem i hk)))
  have hready := hr.formed.reads b hb hreach i hib (by simp [hop]) v hv
  exact hready.later hr.linked ((singleton_sublist.2 hk).cons_cons i |>.trans his)

variable (hc : c ∈ (m.func f).blocks) (hi : i ∈ (m.block c).instrs) (hop : (m.instr i).op = .load)
include hc hi hop

theorem Held.standsIn (h : Held m f e b slot (i :: is) v)
    (hops : (m.instr i).operands = [.instr slot])
    (hreach : Reached m.successors e c → Reached m.successors e b) : StandsIn m f e c i v := by
  have hty := hr.load_type (hr.linked.mem_body_of_mem hc hi) hop hops
  exact ⟨h.ty.trans hty.symm, h.solid,
    fun hrc => h.ready (hreach hrc) i mem_cons_self c ((hr.linked.instr c i).1 hi)⟩

theorem Held.supplant (h : Held m f e b slot (i :: is) v) (hnew : i ∉ is)
    (his : ∀ k ∈ is, k ∈ m.body f) : Held (m.supplant f i v) f e b slot is v := by
  have hp := (hr.linked.instr c i).1 hi
  have hterm : (m.instr i).op.isTerminator = false := by rw [hop]; rfl
  have ht := Thinned.supplant (v := v) hr.linked hc hi hterm
  have hu := ht.unbent hr.formed.toEnclosed fun _ => supplant_op
  refine ⟨?_, h.solid.edited hu.edited hu.ends, fun hreach k hk d hd => ?_⟩
  · rw [hu.edited.typeOf, hu.edited.typeOf, h.ty]
  have hreach := (ht.walk hr.formed.toEnclosed).1 hreach
  have hself := (h.ready hreach i mem_cons_self c hp).ne_self hr.linked hp hterm
  have hki : k ≠ i := fun heq => hnew (heq ▸ hk)
  rw [supplant_instr, if_neg hki] at hd
  obtain ⟨d', hd', hdf⟩ := hr.linked.mem_body.1 (his k hk)
  cases hd.symm.trans hd'
  refine ht.ready hr.linked (fun j hj => decide_eq_true ?_) hu.ends hr.formed.toEnclosed hdf ?_
    (h.ready hreach k (mem_cons_of_mem i hk) d hd)
  · rintro rfl
    exact hself hj
  · rw [hr.linked.supplant_instrs, (hr.linked.instrs d).mem_erase_iff]
    exact ⟨hki, (hr.linked.instr d k).2 hd⟩

end Forwarding

theorem forward_spec (hr : m.Regular f e) (hb : b ∈ (m.func f).blocks) (hslot : Slot m f slot)
    (his : is.Sublist (m.block b).instrs) (hv : Held m f e b slot is v) :
    ∃ m', forward f slot is v m = .ok () m' ∧ Freed f e slot m m' ∧
      ∀ x ∈ is, x ∈ m'.body f → (m.instr x).op = .load →
        .instr slot ∉ (m'.instr x).operands := by
  induction is generalizing m v with
  | nil => exact ⟨m, rfl, .refl f e slot m, by simp⟩
  | cons i is ih =>
    have hib : i ∈ (m.block b).instrs := his.subset mem_cons_self
    have hi := hr.linked.mem_body_of_mem hb hib
    have his' : is.Sublist (m.block b).instrs := (sublist_cons_self i is).trans his
    by_cases hload : (m.instr i).op = .load
    · obtain ⟨p, hops, -⟩ := hr.load_shape hi hload
      by_cases hp : p = .instr slot
      · subst hp
        have hstands := hv.standsIn hr hb hib hload hops id
        have hfreed := Freed.supplant hr hb hib hload hstands (hv.apart hr hslot)
        obtain ⟨hr', hu⟩ := hfreed.sub.keeps hr
        have hnd := nodup_cons.1 (his.nodup (hr.linked.instrs b))
        have hrest : is.Sublist ((m.supplant f i v).block b).instrs := by
          rw [hr.linked.supplant_instrs, ← erase_of_not_mem hnd.1]
          exact his'.erase i
        obtain ⟨m', hrun, hfreed', hgone⟩ := ih hr' (by rwa [supplant_func])
          (hslot.freed hr hfreed) hrest (hv.supplant hr hb hib hload hnd.1 fun k hk =>
            hr.linked.mem_body_of_mem hb (his'.subset hk))
        refine ⟨m', ?_, hfreed.trans hr hfreed', forall_mem_cons.2 ⟨fun hin => ?_, ?_⟩⟩
        · refine bind_ok.2 ⟨m, m, rfl, ?_⟩
          simp only [hload, hops, if_true]
          exact bind_ok.2 ⟨_, _, rfl, hrun⟩
        · have hin' := (hfreed'.sub.keeps hr').2.body i hin
          exact absurd rfl ((supplant_body hr.linked).1 hin').2
        · intro x hx hin hop
          exact hgone x hx hin (by rwa [supplant_op])
      · obtain ⟨m', hrun, hfreed, hgone⟩ := ih hr hb hslot his' hv.tail
        refine ⟨m', ?_, hfreed, forall_mem_cons.2 ⟨fun hin _ hread => ?_, hgone⟩⟩
        · refine bind_ok.2 ⟨m, m, rfl, ?_⟩
          simp only [hload, hops, if_neg hp]
          exact bind_ok.2 ⟨_, _, rfl, hrun⟩
        · have hread := hfreed.reads i hin hread
          rw [hops, mem_singleton] at hread
          exact hp hread.symm
    · obtain ⟨w, hw, hskip⟩ : ∃ w, Held m f e b slot is w ∧ ∀ m',
          forward f slot is w m = .ok () m' → forward f slot (i :: is) v m = .ok () m' := by
        by_cases hstore : (m.instr i).op = .store
        · obtain ⟨w, p, hops, -⟩ := hr.store_shape hi hstore
          by_cases hp : p = .instr slot
          · subst hp
            refine ⟨w, .store hr hb his hstore hops, fun m' hrun => ?_⟩
            refine bind_ok.2 ⟨m, m, rfl, ?_⟩
            simpa only [hstore, hops, if_true] using hrun
          · refine ⟨v, hv.tail, fun m' hrun => bind_ok.2 ⟨m, m, rfl, ?_⟩⟩
            simpa only [hstore, hops, if_neg hp] using hrun
        · refine ⟨v, hv.tail, fun m' hrun => bind_ok.2 ⟨m, m, rfl, ?_⟩⟩
          cases hop : (m.instr i).op <;> first | contradiction | exact hrun
      obtain ⟨m', hrun, hfreed, hgone⟩ := ih hr hb hslot his' hw
      exact ⟨m', hskip m' hrun, hfreed, forall_mem_cons.2
        ⟨fun _ hop => absurd hop hload, hgone⟩⟩

theorem replaceLoads_spec {loads : List InstrId} (hr : m.Regular f e) (hslot : Slot m f slot)
    (hv : Held m f e e slot loads v)
    (hloads : ∀ i ∈ loads, i ∈ m.body f ∧ (m.instr i).op = .load ∧
      (m.instr i).operands = [.instr slot]) (hnd : loads.Nodup) :
    Freed f e slot m (replaceLoads f v loads m) ∧
      ∀ i ∈ loads, i ∉ (replaceLoads f v loads m).body f := by
  induction loads generalizing m with
  | nil => exact ⟨.refl f e slot m, by simp⟩
  | cons i loads ih =>
    rw [forall_mem_cons] at hloads
    obtain ⟨⟨hi, hop, hops⟩, hloads⟩ := hloads
    obtain ⟨hfresh, hnd⟩ := nodup_cons.1 hnd
    obtain ⟨c, hp, hc⟩ := hr.linked.mem_body.1 hi
    have hic := (hr.linked.instr c i).2 hp
    have hstands := hv.standsIn hr hc hic hop hops fun _ => Reached.entry
    have hfreed := Freed.supplant hr hc hic hop hstands (hv.apart hr hslot)
    have hr' := (hfreed.sub.keeps hr).1
    obtain ⟨hfreed', hgone⟩ := ih hr' (hslot.freed hr hfreed)
      (hv.supplant hr hc hic hop hfresh fun j hj => (hloads j hj).1)
      (fun j hj => by
        obtain ⟨hj', hjop, hjops⟩ := hloads j hj
        refine ⟨(supplant_body hr.linked).2 ⟨hj', fun h => hfresh (h ▸ hj)⟩,
          by rwa [supplant_op], ?_⟩
        rw [supplant_instr]
        rw [if_pos hj', hjops, map_singleton, swap, if_neg]
        intro h
        have hslotop := hslot.op
        rw [Value.instr.inj h, hop] at hslotop
        cases hslotop)
      hnd
    refine ⟨hfreed.trans hr hfreed', forall_mem_cons.2 ⟨fun hin => ?_, hgone⟩⟩
    have hin' := (hfreed'.sub.keeps hr').2.body i hin
    exact ((supplant_body hr.linked).1 hin').2 rfl

/-! ## Taking off the stores and the slot -/

theorem Freed.finish (stores : List InstrId) (hr : m.Regular f e) (hslot : Slot m f slot)
    (hfreed : Freed f e slot m m') (hnd : stores.Nodup)
    (hstores : ∀ i ∈ stores, i ∈ m.body f ∧ (m.instr i).op = .store)
    (hreads : ∀ x ∈ m'.body f, .instr slot ∈ (m'.instr x).operands → x ∈ stores) :
    Substituted f e m ((stores.foldl erase m').erase slot) ∧
      ∀ x ∈ m.body f, (m.instr x).op = .alloca → x ≠ slot →
        x ∈ ((stores.foldl erase m').erase slot).body f := by
  obtain ⟨hr', hu⟩ := hfreed.sub.keeps hr
  have hnot : ∀ x, (m.instr x).op = .alloca → x ∉ stores := by
    intro x hop hx
    have hop' := (hstores x hx).2
    rw [hop] at hop'
    cases hop'
  have hunread : ∀ i ∈ stores, ∀ x ∈ m'.body f, .instr i ∉ (m'.instr x).operands := by
    intro i hi x hx
    obtain ⟨hbody, hop⟩ := hstores i hi
    refine hr'.unread ?_ hx
    have hfits := (hr'.typed i (hfreed.kept i hbody (by simp [hop]))).fits
    unfold Instr.Fits at hfits
    rw [hu.ops, hop] at hfits
    rw [hfits]
    rfl
  have hun : Unneeded m' f (stores ++ [slot]) := by
    refine ⟨nodup_append.2 ⟨hnd, by simp, ?_⟩, ?_, ?_⟩
    · rintro i hi j hj rfl
      rw [mem_singleton.1 hj] at hi
      exact hnot slot hslot.op hi
    · simp only [forall_mem_append, forall_mem_singleton]
      exact ⟨fun i hi => hfreed.kept i (hstores i hi).1 (by simp [(hstores i hi).2]),
        hfreed.kept slot hslot.inside (by simp [hslot.op])⟩
    · simp only [forall_mem_append, forall_mem_singleton]
      exact ⟨fun i hi x hx hread => absurd hread (hunread i hi x hx),
        fun x hx hread => mem_append_left _ (hreads x hx hread)⟩
  have hends : ∀ i ∈ stores ++ [slot], (m'.instr i).op.isTerminator = false := by
    simp only [forall_mem_append, forall_mem_singleton, hu.ops]
    exact ⟨fun i hi => by rw [(hstores i hi).2]; rfl, by rw [hslot.op]; rfl⟩
  have hm := Erased.of_nodup hr'.linked hun.nodup hun.inside
  have hsub := hfreed.sub.drop hr'.linked hun hends
  rw [foldl_append] at hm hsub
  refine ⟨hsub, fun x hx hop hne => hm.mem_body.2 ⟨hfreed.kept x hx (by simp [hop]), ?_⟩⟩
  simpa [hne] using hnot x hop

/-! ## Slots -/

theorem sharedBlock_eq_some {home : Option BlockId} (h : m.sharedBlock home is = some b) :
    (∀ d, home = some d → d = b) ∧ ((home = none → is ≠ []) ∧
      ((∀ i ∈ is, (m.instr i).parent ≠ none) → ∀ i ∈ is, (m.instr i).parent = some b)) := by
  induction is generalizing home with
  | nil =>
    subst h
    simp
  | cons i is ih =>
    cases home with
    | none =>
      obtain ⟨hhome, -, hall⟩ := ih h
      refine ⟨by simp, by simp, fun hp => ?_⟩
      rw [forall_mem_cons] at hp ⊢
      obtain ⟨d, hd⟩ := Option.ne_none_iff_exists'.1 hp.1
      exact ⟨by rw [hd, hhome d hd], hall hp.2⟩
    | some d =>
      simp only [sharedBlock] at h
      split at h
      · rename_i hid
        obtain ⟨hhome, -, hall⟩ := ih h
        refine ⟨hhome, by simp, fun hp => ?_⟩
        rw [forall_mem_cons] at hp ⊢
        exact ⟨by rw [hid, hhome d rfl], hall hp.2⟩
      · cases h

theorem loadsBefore_of_sublist {store load : InstrId} (hnd : (m.block b).instrs.Nodup)
    (hload : (m.instr load).parent = some b) (hstore : (m.instr store).parent = some b)
    (h : [load, store].Sublist (m.block b).instrs) : m.loadsBefore store load = true := by
  have hfound : ∀ k ∈ (m.block b).instrs, ∃ n, (m.block b).instrs.findIdx? (· == k) = some n := by
    intro k hk
    refine Option.ne_none_iff_exists'.1 fun hnone => ?_
    have hk' := findIdx?_eq_none_iff.1 hnone k hk
    simp at hk'
  have hl := h.subset (mem_cons_self (a := load))
  have hs := h.subset (mem_cons_of_mem load (mem_singleton.2 rfl))
  obtain ⟨k, hk⟩ := hfound load hl
  obtain ⟨n, hn⟩ := hfound store hs
  have hlt := (findIdx_lt_iff hnd hl hs).2 h
  rw [hk, hn] at hlt
  have hlt : k < n := hlt
  simp [loadsBefore, positionIn, hload, hstore, hk, hn, hlt]

section Slots

variable (hr : m.Regular f e) (hslot : Slot m f slot) {loads stores : List InstrId}
  (hacc : Accessed m f slot loads stores)

include hr hslot hacc

theorem Accessed.elem_given (hne : loads ++ stores ≠ []) : (m.instr slot).elem ≠ .missing := by
  obtain ⟨i, hi⟩ := exists_mem_of_ne_nil _ hne
  obtain hi | hi := mem_append.1 hi
  · have hbody := hacc.loadsIn.subset hi
    obtain ⟨hop, hops⟩ := hacc.loadOp i hi
    rw [← hslot.elem hr, ← hr.load_type hbody hop hops]
    exact (hr.typed i hbody).given
  · have hbody := hacc.storesIn.subset hi
    obtain ⟨hop, v, hops⟩ := hacc.storeOp i hi
    rw [← hslot.elem hr, ← hr.store_type hbody hop hops]
    exact ((hr.typed i hbody).solid v (by simp [hops])).given

theorem promote_shared (h : m.sharedBlock none (loads ++ stores) = some b) :
    ∃ m', (do
        set ({ m with tags := m.tags + 1 } : Module)
        forward f slot (m.block b).instrs (.undef (m.instr slot).elem m.tags)
        modify (fun m => (stores.foldl erase m).erase slot)
        pure true : Step Module Bool) m = .ok true m' ∧ Substituted f e m m' ∧
      ∀ x ∈ m.body f, (m.instr x).op = .alloca → x ≠ slot → x ∈ m'.body f := by
  obtain ⟨-, hsome, hall⟩ := sharedBlock_eq_some h
  have hbody : ∀ i ∈ loads ++ stores, i ∈ m.body f := fun i hi =>
    (mem_append.1 hi).elim (fun h => hacc.loadsIn.subset h) fun h => hacc.storesIn.subset h
  have hparents := hall fun i hi hp => by
    obtain ⟨c, hc, -⟩ := hr.linked.mem_body.1 (hbody i hi)
    rw [hp] at hc
    cases hc
  have hb : b ∈ (m.func f).blocks := by
    obtain ⟨i, hi⟩ := exists_mem_of_ne_nil _ (hsome rfl)
    obtain ⟨c, hc, hcf⟩ := hr.linked.mem_body.1 (hbody i hi)
    cases hc.symm.trans (hparents i hi)
    exact hcf
  have htag : Freed f e slot m { m with tags := m.tags + 1 } :=
    ⟨.tag .refl hr _, fun _ h _ => h, fun _ _ h => h⟩
  have hr' := (htag.sub.keeps hr).1
  have hheld : Held { m with tags := m.tags + 1 } f e b slot (m.block b).instrs
      (.undef (m.instr slot).elem m.tags) :=
    ⟨(hslot.elem hr).symm, ⟨hacc.elem_given hr hslot (hsome rfl), by simp⟩,
      fun _ _ _ _ _ => .inr ⟨rfl, by simp⟩⟩
  obtain ⟨m', hrun, hfreed, hgone⟩ := forward_spec hr' hb (hslot.freed hr htag)
    (List.Sublist.refl _) hheld
  have hfreed := htag.trans hr hfreed
  obtain ⟨hsub, hkept⟩ := hfreed.finish stores hr hslot
    (hacc.storesIn.nodup (hr.linked.body_nodup f))
    (fun i hi => ⟨hacc.storesIn.subset hi, (hacc.storeOp i hi).1⟩) fun x hx hread => by
      have hread' := hfreed.reads x hx hread
      have hxm := (hfreed.sub.keeps hr).2.body x hx
      refine (hacc.all x hxm hread').resolve_left fun hload => ?_
      have hxb := (hr.linked.instr b x).2 (hparents x (mem_append_left _ hload))
      exact hgone x hxb hx (hacc.loadOp x hload).1 hread
  refine ⟨_, ?_, hsub, hkept⟩
  exact bind_ok.2 ⟨_, _, rfl, bind_ok.2 ⟨_, _, hrun, rfl⟩⟩

theorem promote_single {store : InstrId} (hs : stores = [store])
    (hstore : (m.instr store).parent = some e) (hbefore : loads.any (m.loadsBefore store) = false) :
    Substituted f e m (((replaceLoads f ((m.instr store).operands.headD .missing) loads m).erase
        store).erase slot) ∧
      ∀ x ∈ m.body f, (m.instr x).op = .alloca → x ≠ slot →
        x ∈ (((replaceLoads f ((m.instr store).operands.headD .missing) loads m).erase
          store).erase slot).body f := by
  subst hs
  obtain ⟨hop, v, hops⟩ := hacc.storeOp store (by simp)
  have hsbody : store ∈ m.body f := hacc.storesIn.subset (by simp)
  have hin := (hr.linked.instr e store).2 hstore
  have hvmem : v ∈ (m.instr store).operands := by simp [hops]
  have hready : m.Ready f e e store v :=
    hr.formed.reads e hr.formed.entry_mem Reached.entry store hin (by simp [hop]) v hvmem
  have horder : ∀ i ∈ loads, (m.instr i).parent = some e →
      [store, i].Sublist (m.block e).instrs := by
    intro i hi hp
    have hie := (hr.linked.instr e i).2 hp
    have hnot : m.loadsBefore store i = false := by
      rw [any_eq_false] at hbefore
      exact Bool.eq_false_iff.2 (hbefore i hi)
    have hsi : store ≠ i := by
      rintro rfl
      rw [(hacc.loadOp store hi).1] at hop
      cases hop
    refine (pair_sublist_total hin hie hsi).resolve_right fun hlate => ?_
    rw [loadsBefore_of_sublist (hr.linked.instrs e) hp hstore hlate] at hnot
    cases hnot
  have hheld : Held m f e e slot loads v := by
    refine ⟨hr.store_type hsbody hop hops, (hr.typed store hsbody).solid v hvmem,
      fun _ i hi c hp => ?_⟩
    by_cases hce : c = e
    · subst hce
      exact hready.later hr.linked (horder i hi hp)
    · exact hready.elsewhere hce
  obtain ⟨hfreed, hgone⟩ := replaceLoads_spec hr hslot hheld
    (fun i hi => ⟨hacc.loadsIn.subset hi, hacc.loadOp i hi⟩)
    (hacc.loadsIn.nodup (hr.linked.body_nodup f))
  have hhead : (m.instr store).operands.headD .missing = v := by rw [hops]; rfl
  rw [hhead]
  exact hfreed.finish [store] hr hslot (by simp)
    (fun i hi => ⟨hacc.storesIn.subset hi, (hacc.storeOp i hi).1⟩) fun x hx hread => by
      have hread' := hfreed.reads x hx hread
      have hxm := (hfreed.sub.keeps hr).2.body x hx
      exact (hacc.all x hxm hread').resolve_left fun hload => hgone x hload hx

end Slots

theorem slotAccesses_readers (slot : InstrId) (hr : m.Regular f e) :
    m.slotAccesses slot (m.readers f (.instr slot)) = .ok none ∨
      ∃ loads stores, m.slotAccesses slot (m.readers f (.instr slot)) = .ok (some (loads, stores)) ∧
        Accessed m f slot loads stores := by
  have hsub : (m.readers f (.instr slot)).Sublist (m.body f) := filter_sublist
  have hmem : ∀ i, i ∈ m.readers f (.instr slot) ↔
      i ∈ m.body f ∧ .instr slot ∈ (m.instr i).operands := by
    simp [readers, Value.isShared]
  refine (slotAccesses_spec slot hr fun i => (hmem i).1).imp_right fun ⟨h, hall⟩ =>
    ⟨_, _, h, filter_sublist.trans hsub, filter_sublist.trans hsub, ?_, ?_, ?_⟩
  · intro i hi
    rw [mem_filter, beq_iff_eq] at hi
    exact (hall i hi.1).resolve_right fun h => by simp [hi.2] at h
  · intro i hi
    rw [mem_filter, beq_iff_eq] at hi
    exact (hall i hi.1).resolve_left fun h => by simp [hi.2] at h
  · intro i hi hread
    have hin := (hmem i).2 ⟨hi, hread⟩
    exact (hall i hin).imp (fun h => by simp [hin, h.1]) fun h => by simp [hin, h.1]

theorem promoteSlot_spec (hr : m.Regular f e) (hslot : Slot m f slot) :
    ∃ changed m', promoteSlot f e slot m = .ok changed m' ∧ Substituted f e m m' ∧
      ∀ x ∈ m.body f, (m.instr x).op = .alloca → x ≠ slot → x ∈ m'.body f := by
  have hkeep : Substituted f e m m ∧
      ∀ x ∈ m.body f, (m.instr x).op = .alloca → x ≠ slot → x ∈ m.body f :=
    ⟨.refl, fun _ h _ _ => h⟩
  unfold promoteSlot
  rw [get_bind]
  obtain h | ⟨loads, stores, h, hacc⟩ := slotAccesses_readers slot hr
  · rw [ofExcept_bind h]
    exact ⟨false, m, rfl, hkeep⟩
  rw [ofExcept_bind h]
  dsimp only
  cases hshared : m.sharedBlock none (loads ++ stores) with
  | some b => exact ⟨true, promote_shared hr hslot hacc hshared⟩
  | none =>
    by_cases hone : ∃ store, stores = [store]
    · obtain ⟨store, rfl⟩ := hone
      dsimp only
      split
      next hok =>
        exact ⟨true, _, rfl, promote_single hr hslot hacc rfl hok.1 (by simpa using hok.2.2)⟩
      next => exact ⟨false, m, rfl, hkeep⟩
    · refine ⟨false, m, ?_, hkeep⟩
      match stores, hone with
      | [], _ => rfl
      | [store], hone => exact absurd ⟨store, rfl⟩ hone
      | _ :: _ :: _, _ => rfl

theorem promoteEach_spec {slots : List InstrId} (hr : m.Regular f e)
    (hslots : ∀ s ∈ slots, s ∈ m.body f ∧ (m.instr s).op = .alloca) (hnd : slots.Nodup) :
    ∃ changed m', promoteEach f e slots m = .ok changed m' ∧ Substituted f e m m' := by
  induction slots generalizing m with
  | nil => exact ⟨false, m, rfl, .refl⟩
  | cons slot slots ih =>
    rw [forall_mem_cons] at hslots
    obtain ⟨hfresh, hnd⟩ := nodup_cons.1 hnd
    obtain ⟨first, m', hrun, hsub, hkept⟩ :=
      promoteSlot_spec hr ⟨hslots.1.1, hslots.1.2⟩
    obtain ⟨hr', hu⟩ := hsub.keeps hr
    obtain ⟨more, m'', hrun', hsub'⟩ := ih hr' (fun s hs => by
      obtain ⟨hbody, hop⟩ := hslots.2 s hs
      exact ⟨hkept s hbody hop fun h => hfresh (h ▸ hs), by rw [hu.ops, hop]⟩) hnd
    exact ⟨_, m'', bind_ok.2 ⟨_, _, hrun, bind_ok.2 ⟨_, _, hrun', rfl⟩⟩, hsub.trans hsub'⟩

theorem promote_spec (hr : m.Regular f e) :
    ∃ changed m', promote f m = .ok changed m' ∧ Substituted f e m m' := by
  have hslots : ∀ s ∈ (m.body f).filter fun i => (m.instr i).op == .alloca,
      s ∈ m.body f ∧ (m.instr s).op = .alloca := by
    intro s hs
    obtain ⟨hbody, hop⟩ := mem_filter.1 hs
    exact ⟨hbody, beq_iff_eq.1 hop⟩
  obtain ⟨changed, m', hrun, hsub⟩ :=
    promoteEach_spec hr hslots ((hr.linked.body_nodup f).filter _)
  refine ⟨changed, m', bind_ok.2 ⟨m, m, rfl, ?_⟩, hsub⟩
  rw [hr.formed.entry]
  exact hrun

end Qirc.IR.Module
