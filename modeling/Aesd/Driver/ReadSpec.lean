import Aesd.Driver.Invariant
import Aesd.Driver.Lookup

/-! # What one `aesd_read` can do

Over the live contents `D`, put end to end, a read at position `q = *f_pos +
cb_ioctl_offs` delivers a piece of `D` that starts at `q`, or nothing when `q` is
past the end.  `ReadOutcome` lists the exits; the loops of the call always end.
-/

namespace Aesd.Driver

open Aesd.Lib

/-- The byte of `stored` that a read at `pos` starts with, in `size_t` arithmetic. -/
def Dev.readAt (d : Dev) (pos : LoffT) : Nat := (pos + d.cbIoctlOffs).toNat

namespace Models

variable {K : Kernel} {d : Dev} {added : List (BufferEntry Nat)} {committed : List (List UInt8)}

theorem liveSizes (models : Models K d added committed) :
    d.cb.liveSizes = d.liveContents.map List.length := by
  rw [CircularBuffer.liveSizes, Dev.liveContents, List.map_map]
  exact List.map_congr_left fun e member => (models.standsFor_live member).size_toNat

theorem find (models : Models K d added committed) (off : SizeT) :
    d.cb.findEntryOffsetForFpos off =
      some ((Locate.locate (d.liveContents.map List.length) off.toNat).map
        fun (k, i) => ((d.cb.outOffs + k) % 10, BitVec.ofNat 64 i)) := by
  rw [← models.liveSizes]
  refine models.stores.findEntryOffsetForFpos ?_ ?_ off
  · rw [models.liveSizes, ← List.length_flatten]
    exact Nat.lt_of_le_of_lt models.length_stored (by decide)
  · intro size first
    rw [models.liveSizes] at first
    obtain ⟨line, inside, rfl⟩ := List.mem_map.mp (List.mem_of_mem_head? first)
    exact (models.bounded_live inside).1

end Models

/-- The exits of `aesd_read`. -/
inductive ReadOutcome (d : Dev) (pos : LoffT) (c : ReadCall) : Option ReadResult → Prop where
  | interrupted (lock : c.lock = .interrupted) :
      ReadOutcome d pos c (some ⟨-ERESTARTSYS, [], pos⟩)
  | atEnd (lock : c.lock = .granted) (past : d.stored.length ≤ d.readAt pos) :
      ReadOutcome d pos c (some ⟨0, [], pos⟩)
  | faulted (lock : c.lock = .granted) (inside : d.readAt pos < d.stored.length)
      (faults : c.faults = true) : ReadOutcome d pos c (some ⟨-EFAULT, [], pos⟩)
  | chunk (lock : c.lock = .granted) (copied : c.faults = false) (n : Nat)
      (inside : d.readAt pos < d.stored.length) (within : d.readAt pos + n ≤ d.stored.length)
      (asked : n ≤ c.count.toNat) (progress : 0 < c.count.toNat → 0 < n) :
      ReadOutcome d pos c (some ⟨n, (d.stored.drop (d.readAt pos)).take n,
        pos + (BitVec.ofNat 64 n - d.cbIoctlOffs)⟩)

/-- The second walk stops at the starting slot, wherever that is among the live ones. -/
theorem foldlM_readRound (d : Dev) (start : Nat) (off count : SizeT) {slots : List Nat}
    (member : start ∈ slots) :
    slots.foldlM (fun locals i => readRound d start off count i locals) () =
      readRound d start off count start () := by
  induction slots with
  | nil => simp at member
  | cons i slots ih =>
      rw [List.foldlM_cons]
      by_cases here : i = start
      · subst here
        simp only [readRound, if_true]
        rfl
      · have later : start ∈ slots := by
          rcases List.mem_cons.mp member with same | later
          · exact absurd same.symm here
          · exact later
        have skip : readRound d start off count i () = .ok () := by
          simp only [readRound, if_neg here]
        rw [skip]
        exact ih later

theorem slot_live {cb : CircularBuffer Nat} {added : List (BufferEntry Nat)}
    (stores : cb.Stores added) {k : Nat} (inside : k < cb.live.length) :
    cb.slot ((cb.outOffs + k) % 10) = cb.live[k] := by
  simp only [stores.live_slots, List.getElem_map, List.getElem_range]

theorem StandsFor.blockBytes {d : Dev} {e : BufferEntry Nat} {bytes : List UInt8}
    (stands : StandsFor d.heap e bytes) : d.blockBytes e.buffptr = bytes ++ [0] := by
  obtain ⟨b, block, ptr, found, content, _⟩ := stands
  simp only [Dev.blockBytes, ptr, found, Option.elim_some, content]

theorem ofNat_toNat {n : Nat} (small : n ≤ 2 ^ 59) : (BitVec.ofNat 64 n).toNat = n := by
  rw [BitVec.toNat_ofNat, Nat.mod_eq_of_lt (by omega)]

theorem clip_eq (count : SizeT) {size : SizeT} {i : Nat} (inside : i < size.toNat)
    (bound : size.toNat ≤ 2 ^ 59) :
    (if count > size - BitVec.ofNat 64 i then size - BitVec.ofNat 64 i else count) =
      BitVec.ofNat 64 (min count.toNat (size.toNat - i)) := by
  have remaining : (size - BitVec.ofNat 64 i).toNat = size.toNat - i := by
    bv_omega
  apply BitVec.eq_of_toNat_eq
  rw [ofNat_toNat (by omega)]
  split
  · rename_i more
    rw [gt_iff_lt, BitVec.lt_def, remaining] at more
    omega
  · rename_i less
    rw [gt_iff_lt, BitVec.lt_def, remaining] at less
    omega

section

variable {K : Kernel} {d : Dev} {added : List (BufferEntry Nat)} {committed : List (List UInt8)}

theorem readRound_live (models : Models K d added committed) {k i : Nat}
    (inside : k < d.liveContents.length) (short : i < d.liveContents[k].length) (count : SizeT) :
    readRound d ((d.cb.outOffs + k) % 10) (BitVec.ofNat 64 i) count ((d.cb.outOffs + k) % 10) () =
      .error (BitVec.ofNat 64 (min count.toNat (d.liveContents[k].length - i)),
        (d.liveContents[k].drop i).take (min count.toNat (d.liveContents[k].length - i))) := by
  have present : k < d.cb.live.length := by
    rwa [Dev.liveContents, List.length_map] at inside
  have line : d.liveContents[k] = d.contents d.cb.live[k] := by
    simp only [Dev.liveContents, List.getElem_map]
  have stands : StandsFor d.heap d.cb.live[k] d.liveContents[k] := by
    rw [line]
    exact models.standsFor_live (List.getElem_mem present)
  have bound : d.liveContents[k].length ≤ 2 ^ 59 :=
    (models.bounded_live (List.getElem_mem inside)).2
  generalize d.liveContents[k] = bytes at *
  have size := stands.size_toNat
  have clip := clip_eq count (size ▸ short) (size ▸ bound)
  rw [size] at clip
  simp only [readRound, if_true, slot_live models.stores present, clip, stands.blockBytes,
    ofNat_toNat (by omega : i ≤ 2 ^ 59),
    ofNat_toNat (by omega : min count.toNat (bytes.length - i) ≤ 2 ^ 59)]
  rw [List.drop_append_of_le_length (by omega), List.take_append_of_le_length (by simp)]

/-- The walk over the slots comes to the starting slot, and copies from there. -/
theorem walk_live (models : Models K d added committed) {k i : Nat}
    (inside : k < d.liveContents.length) (short : i < d.liveContents[k].length) (count : SizeT) :
    d.cb.forSlots (readRound d ((d.cb.outOffs + k) % 10) (BitVec.ofNat 64 i) count) uint8Rounds 0
        d.cb.outOffs () =
      some (.error (BitVec.ofNat 64 (min count.toNat (d.liveContents[k].length - i)),
        (d.liveContents[k].drop i).take (min count.toNat (d.liveContents[k].length - i)))) := by
  have live : d.cb.liveCount = d.liveContents.length := by
    rw [← models.stores.length_liveSizes, models.liveSizes, List.length_map]
  have member : (d.cb.outOffs + k) % 10 ∈
      CircularBuffer.slotsFrom d.cb.outOffs d.cb.liveCount := by
    rw [CircularBuffer.slotsFrom_eq models.stores.outOffs_lt, List.mem_map]
    exact ⟨k, List.mem_range.mpr (live ▸ inside), rfl⟩
  rw [models.stores.forSlots_live (by omega), foldlM_readRound d _ _ _ member,
    readRound_live models inside short]

theorem aesdRead_outcome (models : Models K d added committed) (pos : LoffT) (c : ReadCall) :
    ReadOutcome d pos c (aesdRead d pos c) := by
  cases lock : c.lock with
  | interrupted =>
      simp only [aesdRead, lock]
      exact .interrupted lock
  | granted =>
      simp only [aesdRead, lock, models.find]
      cases found : Locate.locate (d.liveContents.map List.length) (d.readAt pos) with
      | none =>
          rw [Dev.readAt] at found
          rw [found]
          rw [Locate.locate_none_iff, ← List.length_flatten] at found
          exact .atEnd lock found
      | some place =>
          obtain ⟨k, i⟩ := place
          obtain ⟨inside, short, split⟩ := Locate.drop_flatten found
          have bound := (models.bounded_live (List.getElem_mem inside)).2
          -- the copied bytes start at the read position and stay inside the entry
          have rest := congrArg List.length split
          simp only [List.length_drop, List.length_append] at rest
          have reach : d.readAt pos < d.stored.length := by
            rw [Dev.stored]
            omega
          rw [Dev.readAt] at found
          simp only [found, Option.map_some, walk_live models inside short]
          cases copied : c.faults with
          | true => exact .faulted lock reach copied
          | false =>
              have clipped := Nat.min_le_right c.count.toNat (d.liveContents[k].length - i)
              have asked := Nat.min_le_left c.count.toNat (d.liveContents[k].length - i)
              have progress : 0 < c.count.toNat →
                  0 < min c.count.toNat (d.liveContents[k].length - i) := by omega
              generalize min c.count.toNat (d.liveContents[k].length - i) = n at *
              have value : (BitVec.ofNat 64 n).toInt = n := by
                rw [BitVec.toInt_eq_toNat_of_lt] <;> rw [ofNat_toNat (by omega)]
                omega
              have bytes : (d.liveContents[k].drop i).take n =
                  (d.stored.drop (d.readAt pos)).take n := by
                rw [Dev.stored, split, List.take_append_of_le_length (by simpa using clipped)]
              have within : d.readAt pos + n ≤ d.stored.length := by
                rw [Dev.stored] at reach ⊢
                omega
              rw [value, bytes]
              exact .chunk lock copied n reach within asked progress

end

end Aesd.Driver
