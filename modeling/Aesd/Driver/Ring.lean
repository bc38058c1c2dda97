import Aesd.Driver.CircularBuffer

/-! # The circular buffer as a window on its history

`Stores cb added` says that `cb` is what `aesd_circular_buffer_init` and one
`aesd_circular_buffer_add_entry` for each item of `added` leave.  Every fact
about reachable buffers is read off this one relation: the offsets and the
`full` flag count the history modulo ten, and the live entries are its last
ten.
-/

namespace Aesd.Driver.CircularBuffer

open Aesd.Lib

variable {Ptr : Type}

@[simp] theorem slot_setIfInBounds (cb : CircularBuffer Ptr) (e : BufferEntry Ptr) {i : Nat}
    (inside : i < 10) (j : Nat) (inOffs outOffs : Nat) (full : Bool) :
    slot ⟨cb.entry.setIfInBounds i e, inOffs, outOffs, full⟩ j = if j = i then e else cb.slot j := by
  simp only [slot, Vector.getElem?_setIfInBounds, inside, if_true]
  by_cases same : i = j
  · simp [same]
  · simp [same, Ne.symm same]

/-- `cb` is the buffer after adding `added` to an empty one. -/
structure Stores (cb : CircularBuffer Ptr) (added : List (BufferEntry Ptr)) : Prop where
  inOffs : cb.inOffs = added.length % 10
  outOffs : cb.outOffs = Ring.start 10 added.length
  full : cb.full = decide (10 ≤ added.length)
  slots : Ring.Holds 10 .zero cb.slot added

namespace Stores

variable {cb : CircularBuffer Ptr} {added : List (BufferEntry Ptr)}

theorem init (cb : CircularBuffer Ptr) : Stores cb.init [] where
  inOffs := rfl
  outOffs := rfl
  full := rfl
  slots := by
    have blank : (CircularBuffer.init cb).slot = fun _ => BufferEntry.zero := by
      funext i
      simp only [slot, CircularBuffer.init, Vector.getElem?_replicate]
      split <;> rfl
    rw [blank]
    exact Ring.Holds.empty 10 _

theorem inOffs_lt (stores : Stores cb added) : cb.inOffs < 10 := by
  rw [stores.inOffs]
  exact Nat.mod_lt _ (by decide)

theorem outOffs_lt (stores : Stores cb added) : cb.outOffs < 10 := by
  rw [stores.outOffs, Ring.start]
  split
  · decide
  · exact Nat.mod_lt _ (by decide)

/-- The pointer `aesd_circular_buffer_add_entry` returns: NULL for the first
    ten entries, then that of the entry that falls out of the window. -/
theorem addEntry_snd (stores : Stores cb added) (e : BufferEntry Ptr) :
    (cb.addEntry e).2 =
      if added.length < 10 then none else (added[added.length - 10]?).bind BufferEntry.buffptr := by
  have returned : (cb.addEntry e).2 = (cb.slot (added.length % 10)).buffptr := by
    simp only [addEntry, ← stores.inOffs]
    split <;> [rfl; split <;> rfl]
  rw [returned]
  split
  · rename_i room
    rw [stores.slots.next_blank room]
    rfl
  · rw [stores.slots.next_oldest (by decide) (by omega), List.getElem?_eq_getElem (by omega)]
    rfl

theorem addEntry (stores : Stores cb added) (e : BufferEntry Ptr) :
    Stores (cb.addEntry e).1 (added ++ [e]) := by
  have inside := stores.inOffs_lt
  have next : (aesdCircularIncrement cb.inOffs maxIndex).1 = (added ++ [e]).length % 10 := by
    rw [aesdCircularIncrement_eq inside, stores.inOffs, List.length_append, List.length_singleton,
      Nat.mod_add_mod]
  have slots : ∀ inOffs outOffs full, Ring.Holds 10 .zero
      (slot ⟨cb.entry.setIfInBounds cb.inOffs e, inOffs, outOffs, full⟩) (added ++ [e]) := by
    intro inOffs outOffs full
    refine stores.slots.push e ?_ ?_ (by decide)
    · rw [slot_setIfInBounds cb e inside, if_pos stores.inOffs.symm]
    · intro j _ apart
      rw [slot_setIfInBounds cb e inside, if_neg (stores.inOffs ▸ apart)]
  by_cases wasFull : 10 ≤ added.length
  · have flag : cb.full = true := by simp [stores.full, wasFull]
    have oldest : cb.outOffs = added.length % 10 := by
      rw [stores.outOffs, Ring.start, if_neg (by omega)]
    simp only [CircularBuffer.addEntry, flag, if_true]
    refine ⟨next, ?_, ?_, slots _ _ _⟩
    · have stillFull : ¬added.length + 1 < 10 := by omega
      simp only [Ring.start, List.length_append, List.length_singleton, if_neg stillFull]
      rw [aesdCircularIncrement_eq stores.outOffs_lt, oldest, Nat.mod_add_mod]
    · have stillFull : 10 ≤ (added ++ [e]).length := by
        simp only [List.length_append, List.length_singleton]
        omega
      rw [decide_eq_true stillFull]
  · have flag : cb.full = false := by simp [stores.full, wasFull]
    have oldest : cb.outOffs = 0 := by
      rw [stores.outOffs, Ring.start, if_pos (by omega)]
    -- the indices meet exactly when the tenth entry goes in
    by_cases last : added.length = 9
    · have meet : (aesdCircularIncrement cb.inOffs maxIndex).1 = cb.outOffs := by
        rw [next, oldest, List.length_append, List.length_singleton, last]
      simp only [CircularBuffer.addEntry, flag, if_pos meet, Bool.false_eq_true, if_false]
      refine ⟨next, ?_, ?_, slots _ _ _⟩
      · rw [oldest, List.length_append, List.length_singleton, last]
        rfl
      · rw [List.length_append, List.length_singleton, last]
        rfl
    · have apart : (aesdCircularIncrement cb.inOffs maxIndex).1 ≠ cb.outOffs := by
        rw [next, oldest, List.length_append, List.length_singleton, Nat.mod_eq_of_lt (by omega)]
        omega
      simp only [CircularBuffer.addEntry, flag, if_neg apart, Bool.false_eq_true, if_false]
      refine ⟨next, ?_, ?_, slots _ _ _⟩
      · rw [oldest, Ring.start, if_pos]
        simp only [List.length_append, List.length_singleton]
        omega
      · symm
        simp only [List.length_append, List.length_singleton, decide_eq_false_iff_not]
        omega

theorem liveCount (stores : Stores cb added) : cb.liveCount = min 10 added.length := by
  by_cases wasFull : 10 ≤ added.length
  · simp [CircularBuffer.liveCount, stores.full, wasFull]
  · simp only [CircularBuffer.liveCount, stores.full, stores.inOffs, stores.outOffs, Ring.start,
      decide_eq_true_eq, if_neg wasFull, if_pos (Nat.lt_of_not_le wasFull)]
    omega

end Stores

theorem slotsFrom_eq {i : Nat} (inside : i < 10) (n : Nat) :
    slotsFrom i n = (List.range n).map fun k => (i + k) % 10 := by
  induction n generalizing i with
  | zero => rfl
  | succ n ih =>
      have later : ∀ k, ((i + 1) % 10 + k) % 10 = (i + (k + 1)) % 10 := by
        intro k
        omega
      rw [slotsFrom, aesdCircularIncrement_eq inside, ih (Nat.mod_lt _ (by decide)),
        List.range_succ_eq_map, List.map_cons, List.map_map]
      simp only [later, Nat.add_zero, Nat.mod_eq_of_lt inside, Function.comp_def, Nat.succ_eq_add_one]

namespace Stores

variable {cb : CircularBuffer Ptr} {added : List (BufferEntry Ptr)}

theorem live_slots (stores : Stores cb added) :
    cb.live = (List.range cb.liveCount).map fun k => cb.slot ((cb.outOffs + k) % 10) := by
  rw [CircularBuffer.live, slotsFrom_eq stores.outOffs_lt, List.map_map]
  rfl

theorem live (stores : Stores cb added) : cb.live = added.rtake 10 := by
  have count : cb.liveCount = (added.rtake 10).length := by
    rw [stores.liveCount, Ring.length_rtake]
  apply List.ext_getElem
  · rw [stores.live_slots, List.length_map, List.length_range, count]
  · intro k _ inside
    simp only [stores.live_slots, List.getElem_map, List.getElem_range, stores.outOffs]
    exact stores.slots.slot_window k inside

end Stores

/-- Successive calls of `aesd_circular_buffer_add_entry`: the buffer, and what each returned. -/
def addEntries (cb : CircularBuffer Ptr) : List (BufferEntry Ptr) → CircularBuffer Ptr × List (Option Ptr)
  | [] => (cb, [])
  | e :: rest =>
    let (cb, r) := cb.addEntry e
    let (cb, returned) := cb.addEntries rest
    (cb, r :: returned)

/-- The pointer that call number `i` (from 0) returns, over a whole history. -/
def evicted (added : List (BufferEntry Ptr)) (i : Nat) : Option Ptr :=
  if i < 10 then none else (added[i - 10]?).bind BufferEntry.buffptr

namespace Stores

variable {cb : CircularBuffer Ptr} {added : List (BufferEntry Ptr)}

theorem addEntry_evicts (stores : Stores cb added) (e : BufferEntry Ptr)
    (later : List (BufferEntry Ptr)) :
    (cb.addEntry e).2 = evicted (added ++ later) added.length := by
  rw [stores.addEntry_snd e, evicted]
  split
  · rfl
  · rw [List.getElem?_append_left (by omega)]

theorem addEntries (stores : Stores cb added) (adds : List (BufferEntry Ptr)) :
    Stores (cb.addEntries adds).1 (added ++ adds) ∧
      (cb.addEntries adds).2 =
        (List.range adds.length).map fun i => evicted (added ++ adds) (added.length + i) := by
  induction adds generalizing cb added with
  | nil => exact ⟨by simpa [CircularBuffer.addEntries] using stores, rfl⟩
  | cons e rest ih =>
      obtain ⟨after, returned⟩ := ih (stores.addEntry e)
      have whole : added ++ [e] ++ rest = added ++ e :: rest := List.append_cons .. |>.symm
      rw [whole] at after returned
      refine ⟨after, ?_⟩
      simp only [CircularBuffer.addEntries, returned, List.length_cons, List.range_succ_eq_map,
        List.map_cons, List.map_map, Nat.add_zero, ← stores.addEntry_evicts e (e :: rest)]
      congr 1
      apply List.map_congr_left
      intro i _
      simp only [Function.comp_apply, List.length_append, List.length_singleton,
        Nat.succ_eq_add_one, Nat.add_assoc, Nat.add_comm 1]

end Stores

/-- Any number of additions to an initialised buffer: the offsets stay inside
    the array, the buffer is full from the tenth entry on, its live entries are
    the last ten, and the pointers handed back are those that leave the window. -/
theorem addEntries_window (cb : CircularBuffer Ptr) (adds : List (BufferEntry Ptr)) :
    let after := (cb.init.addEntries adds).1
    let returned := (cb.init.addEntries adds).2
    (after.inOffs < 10 ∧ after.outOffs < 10) ∧ (after.full = true ↔ 10 ≤ adds.length) ∧
      after.live = adds.rtake (min adds.length 10) ∧
      ∀ i < adds.length, returned[i]? =
        some (if i < 10 then none else (adds[i - 10]?).bind BufferEntry.buffptr) := by
  obtain ⟨stores, returned⟩ := (Stores.init cb).addEntries adds
  rw [List.nil_append] at stores
  refine ⟨⟨stores.inOffs_lt, stores.outOffs_lt⟩, ?_, ?_, ?_⟩
  · rw [stores.full, decide_eq_true_iff]
  · rw [stores.live, List.rtake, List.rtake]
    congr 1
    omega
  · intro i inside
    simp only [returned, List.getElem?_map, List.getElem?_range inside, List.nil_append,
      List.length_nil, Nat.zero_add, Option.map_some, evicted]

end Aesd.Driver.CircularBuffer
