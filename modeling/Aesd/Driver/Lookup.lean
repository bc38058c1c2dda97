import Aesd.Driver.Ring
import Aesd.Lib.Locate

/-! # The walks over the circular buffer

Both walks of the read path and the summing loop of the seek visit slots in ring
order.  On a buffer with a history they are folds over the live slots, and the
lookup of a file position is `Locate.locate` on the live sizes.
-/

namespace Aesd.Driver.CircularBuffer

open Aesd.Lib

variable {Ptr : Type}

/-- The number of bytes in a slot. -/
def slotSize (cb : CircularBuffer Ptr) (i : Nat) : Nat := (cb.slot i).size.toNat

/-- The sizes of the live entries, oldest first. -/
def liveSizes (cb : CircularBuffer Ptr) : List Nat := cb.live.map fun e => e.size.toNat

section ForSlots

variable {Exit Locals : Type} (cb : CircularBuffer Ptr) (body : Nat → Locals → Except Exit Locals)

/-- Rounds still to go from slot `i`, once `j` has left 0. -/
def roundsFrom (cb : CircularBuffer Ptr) (i : Nat) : Nat := (cb.inOffs + 10 - i) % 10

theorem forSlots_later {fuel j i n : Nat} {locals : Locals} (inside : i < 10)
    (inOffs : cb.inOffs < 10) (rounds : cb.roundsFrom i = n) (started : 0 < j)
    (small : j + n < 256) (enough : n < fuel) :
    cb.forSlots body fuel j i locals =
      some ((slotsFrom i n).foldlM (fun locals i => body i locals) locals) := by
  obtain ⟨fuel, rfl⟩ : ∃ m, fuel = m + 1 := ⟨fuel - 1, by omega⟩
  induction n generalizing j i fuel locals with
  | zero =>
      have arrived : i = cb.inOffs := by
        simp only [roundsFrom] at rounds
        omega
      have stop : ¬(j = 0 ∨ i ≠ cb.inOffs) := by omega
      rw [forSlots, if_neg stop]
      rfl
  | succ n ih =>
      have going : j = 0 ∨ i ≠ cb.inOffs := by
        refine .inr fun arrived => ?_
        simp only [roundsFrom, arrived] at rounds
        omega
      rw [forSlots, if_pos going, slotsFrom, List.foldlM_cons]
      cases step : body i locals with
      | error exit => rfl
      | ok next =>
          have rest : cb.roundsFrom ((i + 1) % 10) = n := by
            simp only [roundsFrom] at rounds ⊢
            omega
          obtain ⟨fuel, rfl⟩ : ∃ m, fuel = m + 1 := ⟨fuel - 1, by omega⟩
          simp only [aesdCircularIncrement_eq inside]
          rw [Nat.mod_eq_of_lt (by omega : j + 1 < 256)]
          exact ih (Nat.mod_lt _ (by decide)) rest (by omega) (by omega) fuel (by omega)

/-- From `out_offs` a walk visits as many slots as lie before `in_offs`, and all
    ten when the two coincide. -/
theorem forSlots_eq {locals : Locals} (inOffs : cb.inOffs < 10) (outOffs : cb.outOffs < 10) :
    cb.forSlots body uint8Rounds 0 cb.outOffs locals =
      some ((slotsFrom cb.outOffs
        (if cb.inOffs = cb.outOffs then 10 else cb.roundsFrom cb.outOffs)).foldlM
          (fun locals i => body i locals) locals) := by
  obtain ⟨n, count⟩ : ∃ n, (if cb.inOffs = cb.outOffs then 10 else cb.roundsFrom cb.outOffs) = n + 1 := by
    refine ⟨(if cb.inOffs = cb.outOffs then 10 else cb.roundsFrom cb.outOffs) - 1, ?_⟩
    split
    · rfl
    · simp only [roundsFrom]
      omega
  have rest : cb.roundsFrom ((cb.outOffs + 1) % 10) = n := by
    simp only [roundsFrom] at count ⊢
    split at count <;> omega
  rw [count, slotsFrom, List.foldlM_cons, uint8Rounds, forSlots, if_pos (.inl rfl)]
  cases body cb.outOffs locals with
  | error exit => rfl
  | ok next =>
      simp only [aesdCircularIncrement_eq outOffs]
      exact forSlots_later cb body (Nat.mod_lt _ (by decide)) inOffs rest (by decide)
        (by simp only [roundsFrom] at rest; omega) (by simp only [roundsFrom] at rest; omega)

end ForSlots

/-- The lookup loop on a list of slots, from an accumulated offset.  The
    comparison `acc + size - 1 >= off` is `off < acc + size` unless both `acc` and
    `size` are 0. -/
theorem foldlM_findRound (cb : CircularBuffer Ptr) (off : SizeT) (slots : List Nat) (acc : SizeT)
    (fits : acc.toNat + (slots.map cb.slotSize).sum < 2 ^ 64) (reached : acc.toNat ≤ off.toNat)
    (positive : 0 < acc.toNat ∨ ∀ i ∈ slots.head?, 0 < cb.slotSize i) :
    slots.foldlM (fun acc i => cb.findRound off i acc) acc =
      match Locate.locate (slots.map cb.slotSize) (off.toNat - acc.toNat) with
      | some (k, d) => .error (slots.getD k 0, BitVec.ofNat 64 d)
      | none => .ok (acc + BitVec.ofNat 64 (slots.map cb.slotSize).sum) := by
  induction slots generalizing acc with
  | nil => simp [Locate.locate, pure, Except.pure]
  | cons i slots ih =>
      simp only [List.map_cons, List.sum_cons] at fits
      have size : (cb.slot i).size.toNat = cb.slotSize i := rfl
      have nonzero : 0 < acc.toNat + cb.slotSize i := by
        rcases positive with positive | positive
        · omega
        · have := positive i (by simp)
          omega
      rw [List.foldlM_cons]
      by_cases found : off.toNat - acc.toNat < cb.slotSize i
      · have hit : acc + (cb.slot i).size - 1 ≥ off := by bv_omega
        have offset : off - acc = BitVec.ofNat 64 (off.toNat - acc.toNat) := by bv_omega
        simp only [findRound, if_pos hit, Locate.locate, List.map_cons, if_pos found, offset]
        rfl
      · have miss : ¬acc + (cb.slot i).size - 1 ≥ off := by bv_omega
        have next : (acc + (cb.slot i).size).toNat = acc.toNat + cb.slotSize i := by bv_omega
        have later := ih (acc + (cb.slot i).size) (by omega) (by omega) (.inl (by omega))
        have shift : off.toNat - (acc + (cb.slot i).size).toNat =
            off.toNat - acc.toNat - cb.slotSize i := by omega
        simp only [findRound, if_neg miss, Locate.locate, List.map_cons, if_neg found]
        change slots.foldlM (fun acc i => cb.findRound off i acc) (acc + (cb.slot i).size) = _
        rw [later, shift]
        cases Locate.locate (slots.map cb.slotSize) (off.toNat - acc.toNat - cb.slotSize i) with
        | some found => rfl
        | none =>
            simp only [Option.map_none, List.sum_cons]
            congr 1
            bv_omega

theorem map_slotSize (cb : CircularBuffer Ptr) :
    (slotsFrom cb.outOffs cb.liveCount).map cb.slotSize = cb.liveSizes := by
  rw [liveSizes, live, List.map_map]
  rfl

namespace Stores

variable {cb : CircularBuffer Ptr} {added : List (BufferEntry Ptr)}

theorem length_liveSizes (stores : Stores cb added) : cb.liveSizes.length = cb.liveCount := by
  rw [← map_slotSize, List.length_map, slotsFrom_eq stores.outOffs_lt, List.length_map,
    List.length_range]

/-- The buffer has no entries exactly when the code's emptiness test says so. -/
theorem empty_iff (stores : Stores cb added) :
    (¬cb.full ∧ cb.inOffs = cb.outOffs) ↔ cb.liveCount = 0 := by
  rw [stores.liveCount, stores.full, stores.inOffs, stores.outOffs, Ring.start]
  by_cases wasFull : 10 ≤ added.length
  · simp only [wasFull, decide_true, not_true_eq_false, false_and, false_iff]
    omega
  · simp only [wasFull, decide_false, if_pos (Nat.lt_of_not_le wasFull), Bool.false_eq_true,
      not_false_eq_true, true_and]
    omega

theorem forSlots_live {Exit Locals : Type} (stores : Stores cb added) (some : 0 < cb.liveCount)
    (body : Nat → Locals → Except Exit Locals) (locals : Locals) :
    cb.forSlots body uint8Rounds 0 cb.outOffs locals =
      .some ((slotsFrom cb.outOffs cb.liveCount).foldlM (fun locals i => body i locals) locals) := by
  have inOffs := stores.inOffs_lt
  have outOffs := stores.outOffs_lt
  have nonempty : ¬(¬cb.full ∧ cb.inOffs = cb.outOffs) := by
    rw [stores.empty_iff]
    omega
  have rounds : (if cb.inOffs = cb.outOffs then 10 else cb.roundsFrom cb.outOffs) = cb.liveCount := by
    rw [CircularBuffer.liveCount]
    by_cases wasFull : cb.full
    · have meet : cb.inOffs = cb.outOffs := by
        have many : 10 ≤ added.length := by simpa [stores.full] using wasFull
        rw [stores.inOffs, stores.outOffs, Ring.start, if_neg (by omega)]
      rw [if_pos meet, if_pos wasFull]
    · have apart : cb.inOffs ≠ cb.outOffs := fun meet => nonempty ⟨wasFull, meet⟩
      rw [if_neg apart, if_neg wasFull, roundsFrom]
  rw [cb.forSlots_eq body inOffs outOffs, rounds]

/-- `aesd_circular_buffer_find_entry_offset_for_fpos` ends and finds the live
    entry that holds the byte, as long as the oldest one is not empty. -/
theorem findEntryOffsetForFpos (stores : Stores cb added) (total : cb.liveSizes.sum < 2 ^ 64)
    (positive : ∀ size ∈ cb.liveSizes.head?, 0 < size) (off : SizeT) :
    cb.findEntryOffsetForFpos off = some ((Locate.locate cb.liveSizes off.toNat).map
      fun (k, d) => ((cb.outOffs + k) % 10, BitVec.ofNat 64 d)) := by
  by_cases none : cb.liveCount = 0
  · have sizes : cb.liveSizes = [] := by
      apply List.eq_nil_of_length_eq_zero
      rw [stores.length_liveSizes, none]
    rw [CircularBuffer.findEntryOffsetForFpos, if_pos (stores.empty_iff.mpr none), sizes]
    rfl
  · have walk := cb.foldlM_findRound off (slotsFrom cb.outOffs cb.liveCount) 0
      (by simpa [map_slotSize] using total) (by simp) (.inr ?_)
    · rw [map_slotSize] at walk
      rw [CircularBuffer.findEntryOffsetForFpos, if_neg (mt stores.empty_iff.mp none),
        stores.forSlots_live (by omega), walk]
      simp only [BitVec.ofNat_eq_ofNat, BitVec.toNat_ofNat, Nat.zero_mod, Nat.sub_zero]
      cases found : Locate.locate cb.liveSizes off.toNat with
      | none => rfl
      | some place =>
          obtain ⟨k, d⟩ := place
          obtain ⟨inside, _⟩ := Locate.locate_some_iff.mp found
          rw [stores.length_liveSizes] at inside
          have slot : (slotsFrom cb.outOffs cb.liveCount).getD k 0 = (cb.outOffs + k) % 10 := by
            rw [slotsFrom_eq stores.outOffs_lt, List.getD_eq_getElem?_getD, List.getElem?_map,
              List.getElem?_range inside]
            rfl
          simp only [slot, Option.map_some]
    · intro i first
      refine positive _ ?_
      rw [← map_slotSize, List.head?_map, first]
      rfl

end Stores

end Aesd.Driver.CircularBuffer
