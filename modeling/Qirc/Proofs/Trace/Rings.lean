import Mathlib.Data.List.DropRight
import Qirc.Trace.Tracer

/-!
# What a ring shows

A ring overwrites its oldest place, and a snapshot turns the places round. Against this stands the
list of everything that passed: at any time a snapshot shows the last entries of that list, as many
as the ring has places, in their order and with growing numbers.
-/

namespace Qirc.Trace

open List

namespace Ring

/-- The ring holds the end of a list: what stands from the head on is older than what stands before
it, and only a full ring has something before the head. -/
def Holds (r : Ring) (l : List Event) : Prop :=
  ∃ new old, r.slots.toList = new ++ old ∧ r.head = new.length ∧ old ++ new = l.rtake r.capacity ∧
    r.head < r.capacity ∧ r.slots.size ≤ r.capacity ∧ (r.slots.size < r.capacity → new = [])

variable {r : Ring} {l : List Event}

theorem ofSize_holds (size : Int) : (ofSize size).Holds [] := by
  refine ⟨[], [], rfl, rfl, by simp, ?_, Nat.zero_le _, fun _ => rfl⟩
  unfold ofSize
  split
  · exact Nat.succ_pos 4095
  · exact Int.pos_iff_toNat_pos.1 (Int.not_le.1 ‹_›)

theorem Holds.snapshot_eq (h : r.Holds l) : r.snapshot = l.rtake r.capacity := by
  obtain ⟨new, old, hslots, hhead, hl, -⟩ := h
  rw [snapshot, hslots, hhead, drop_left, take_left, hl]

theorem push_capacity (r : Ring) (e : Event) : (r.push e).capacity = r.capacity := by
  unfold push
  split <;> rfl

theorem rtake_concat (l : List Event) (n : Nat) (e : Event) :
    (l.rtake n ++ [e]).rtake n = (l ++ [e]).rtake n := by
  cases n <;> simp [rtake_eq_reverse_take_reverse, take_take]

theorem Holds.push (h : r.Holds l) (e : Event) : (r.push e).Holds (l ++ [e]) := by
  obtain ⟨new, old, hslots, hhead, hl, hlt, hle, hnew⟩ := h
  have hsize : r.slots.size = new.length + old.length := by
    rw [← Array.length_toList, hslots, length_append]
  unfold Holds
  rw [push_capacity, ← rtake_concat, ← hl, rtake]
  unfold Ring.push
  split
  · rename_i hroom
    cases hnew hroom
    have hall : (old ++ [] ++ [e]).length - r.capacity = 0 := by simp; omega
    refine ⟨[], old ++ [e], ?_, hhead, ?_, hlt, ?_, fun _ => rfl⟩
    · rw [Array.toList_push, hslots, append_assoc]
    · rw [hall, drop_zero, append_nil, append_nil]
    · rw [Array.size_push]
      exact hroom
  · rename_i hroom
    have hfull : r.slots.size = r.capacity := Nat.le_antisymm hle (Nat.le_of_not_lt hroom)
    cases old with
    | nil =>
      rw [length_nil] at hsize
      omega
    | cons x old =>
      rw [length_cons] at hsize
      have hset : (r.slots.setIfInBounds r.head e).toList = new ++ e :: old := by
        simp [hslots, hhead]
      have hone : (x :: old ++ new ++ [e]).length - r.capacity = 1 := by
        simp only [cons_append, length_cons, length_append, length_nil]
        omega
      rw [hone, Array.size_setIfInBounds]
      -- The head comes back to the first place when it stood at the last one.
      cases old with
      | nil =>
        have hhead' : (r.head + 1) % r.capacity = 0 := by
          rw [← hfull, hsize, hhead, length_nil, Nat.mod_self]
        rw [hhead']
        exact ⟨[], new ++ [e], hset, rfl, by simp, Nat.zero_lt_of_lt hlt, hle, fun _ => rfl⟩
      | cons y old =>
        rw [length_cons] at hsize
        have hnext : r.head + 1 < r.capacity := by omega
        rw [Nat.mod_eq_of_lt hnext]
        refine ⟨new ++ [e], y :: old, ?_, ?_, by simp, hnext, hle, fun h => absurd h hroom⟩
        · rw [hset, append_assoc, singleton_append]
        · rw [hhead, length_append, length_singleton]

end Ring

/-! ## Calls of a tracer -/

inductive Ask where
  | emit (e : Event)
  | snapshot

/-- The snapshots that the calls of a tracer are answered with. -/
def Tracer.answers (t : Tracer) : List Ask → List (List Event)
  | [] => []
  | .emit e :: rest => (t.emit e).answers rest
  | .snapshot :: rest => t.ring.toList.map Ring.snapshot ++ t.answers rest

/-- The last events that passed before each snapshot, at most `capacity` of them. -/
def latest (passes : Event → Bool) (capacity : Nat) (passed : List Event) :
    List Ask → List (List Event)
  | [] => []
  | .emit e :: rest => latest passes capacity (if passes e then passed ++ [e] else passed) rest
  | .snapshot :: rest =>
    passed.rtake (min passed.length capacity) :: latest passes capacity passed rest

def Event.unnumbered (e : Event) : Event := { e with seq := 0 }

namespace Tracer

variable {t : Tracer}

theorem emit_admits (t : Tracer) (e : Event) : (t.emit e).admits = t.admits := by
  have hlevel : (t.emit e).level = t.level := by
    unfold emit emitToRing emitToStream
    split
    · split <;> split <;> rfl
    · rfl
  unfold admits
  rw [hlevel]

/-- A ring keeps what passes under the last number given out, which is a new one. -/
theorem emit_ring {r : Ring} {e : Event} (hr : t.ring = some r) (he : t.admits e = true) :
    (t.emit e).ring = some (r.push { e with seq := (t.emit e).seqs }) ∧
      t.seqs < (t.emit e).seqs := by
  unfold emit emitToRing emitToStream
  rw [if_pos he]
  cases t.stream with
  | none => simp [hr]
  | some s =>
    simp only [hr, true_and]
    omega

variable {r : Ring} {stored passed : List Event}

theorem answers_holds (hr : t.ring = some r) (hold : r.Holds stored)
    (hgrow : stored.Pairwise (·.seq < ·.seq)) (hgiven : ∀ s ∈ stored, s.seq ≤ t.seqs)
    (hp : stored.map Event.unnumbered = passed.map Event.unnumbered) (calls : List Ask) :
    (t.answers calls).map (·.map Event.unnumbered) =
        (latest t.admits r.capacity passed calls).map (·.map Event.unnumbered) ∧
      ∀ w ∈ t.answers calls, w.Pairwise (·.seq < ·.seq) := by
  induction calls generalizing t r stored passed with
  | nil => exact ⟨rfl, fun w hw => absurd hw not_mem_nil⟩
  | cons call rest ih =>
    cases call with
    | emit e =>
      unfold answers latest
      by_cases he : t.admits e = true
      · obtain ⟨hring, hlt⟩ := emit_ring hr he
        have hless : ∀ s ∈ stored, s.seq < (t.emit e).seqs :=
          fun s hs => (hgiven s hs).trans_lt hlt
        rw [if_pos he, ← emit_admits t e, ← Ring.push_capacity]
        refine ih hring (hold.push _) ?_ ?_ ?_
        · rw [pairwise_append]
          refine ⟨hgrow, pairwise_singleton _ _, fun s hs s' hs' => ?_⟩
          rw [mem_singleton.1 hs']
          exact hless s hs
        · intro s hs
          obtain hs | hs := mem_append.1 hs
          · exact (hless s hs).le
          · rw [mem_singleton.1 hs]
        · simp [hp, Event.unnumbered]
      · rw [if_neg he, show t.emit e = t from if_neg he]
        exact ih hr hold hgrow hgiven hp
    | snapshot =>
      obtain ⟨hrest, hgrow'⟩ := ih hr hold hgrow hgiven hp
      have hlen : passed.length = stored.length := by simpa using (congrArg length hp).symm
      unfold answers latest
      rw [hr, Option.toList_some, map_singleton, singleton_append, hold.snapshot_eq]
      constructor
      · have : passed.rtake (min passed.length r.capacity) = passed.rtake r.capacity := by
          rw [rtake, rtake]
          congr 1
          omega
        rw [map_cons, map_cons, hrest, this, rtake, rtake, map_drop, map_drop, hp, hlen]
      · rw [forall_mem_cons]
        exact ⟨hgrow.sublist (drop_sublist _ _), hgrow'⟩

/-- Whenever a snapshot is taken, it shows the last events that the level admits and the last
heartbeats, at most as many as the ring has places, in their order and with growing numbers. -/
theorem answers_latest (t : Tracer) (size : Int) (calls : List Ask) :
    let capacity := if size ≤ 0 then Ring.defaultCapacity else size.toNat
    let passes := fun e : Event => t.level.admits e.scope || e.kind == .heartbeat
    let answers := { t with ring := some (Ring.ofSize size) }.answers calls
    answers.map (·.map Event.unnumbered) =
        (latest passes capacity [] calls).map (·.map Event.unnumbered) ∧
      ∀ w ∈ answers, w.Pairwise (·.seq < ·.seq) :=
  answers_holds rfl (Ring.ofSize_holds size) .nil (fun _ hs => absurd hs not_mem_nil) rfl calls

end Tracer

end Qirc.Trace
