import Aesd.Driver.WriteSpec
import Mathlib.Algebra.Order.BigOperators.Group.List
import Mathlib.Algebra.Order.Ring.Nat

/-! # What every reachable device looks like

`Models K d added committed` ties a device to two histories: the entries given
to the circular buffer so far, and the bytes each of them stands for.  Entry
blocks are written once and never moved, so an entry stands for the same bytes
for ever, and the live contents are the last ten items of `committed`.
-/

namespace Aesd.Driver

open Aesd.Lib Aesd.Lib.Memory

/-- The entry's block holds `bytes` and a NUL behind them, and the entry knows their number. -/
def StandsFor (heap : Heap) (e : BufferEntry Nat) (bytes : List UInt8) : Prop :=
  ∃ b block, e.buffptr = some b ∧ heap[b]? = some block ∧ block.bytes = bytes ++ [0] ∧
    e.size.toNat = bytes.length

namespace StandsFor

variable {heap : Heap} {e : BufferEntry Nat} {bytes : List UInt8}

theorem append (stands : StandsFor heap e bytes) (more : Heap) :
    StandsFor (heap ++ more) e bytes := by
  obtain ⟨b, block, ptr, found, content, size⟩ := stands
  have inside : b < heap.length := (List.getElem?_eq_some_iff.mp found).1
  exact ⟨b, block, ptr, by rwa [List.getElem?_append_left inside], content, size⟩

theorem kfree (stands : StandsFor heap e bytes) (ptr : Option Nat) :
    StandsFor (kfree heap ptr) e bytes := by
  obtain ⟨b, block, own, found, content, size⟩ := stands
  cases ptr with
  | none => exact ⟨b, block, own, found, content, size⟩
  | some freed =>
      by_cases same : freed = b
      · refine ⟨b, { block with released := block.released + 1 }, own, ?_, content, size⟩
        simp only [Driver.kfree, same, List.getElem?_modify_eq, found]
        rfl
      · refine ⟨b, block, own, ?_, content, size⟩
        simpa only [Driver.kfree, List.getElem?_modify_ne _ _ same] using found

theorem contents {d : Dev} (stands : StandsFor d.heap e bytes) : d.contents e = bytes := by
  obtain ⟨b, block, ptr, found, content, size⟩ := stands
  simp only [Dev.contents, Dev.blockBytes, ptr, found, Option.elim_some, content, size,
    List.take_left']

theorem size_toNat (stands : StandsFor heap e bytes) : e.size.toNat = bytes.length := by
  obtain ⟨_, _, _, _, _, size⟩ := stands
  exact size

end StandsFor

theorem Kernel.kmallocMaxSize_toNat (K : Kernel) :
    K.kmallocMaxSize.toNat = 2 ^ K.kmallocShiftMax := by
  have small : 2 ^ K.kmallocShiftMax < 2 ^ 64 :=
    Nat.pow_lt_pow_right (by decide) (Nat.lt_of_le_of_lt K.shift_le (by decide))
  rw [kmallocMaxSize, BitVec.toNat_shiftLeft, Nat.shiftLeft_eq, Nat.mod_eq_of_lt]
  · simp
  · simpa using small

theorem Kernel.kmallocMaxSize_le (K : Kernel) : K.kmallocMaxSize.toNat ≤ 2 ^ 59 := by
  rw [K.kmallocMaxSize_toNat]
  exact Nat.pow_le_pow_right (by decide) K.shift_le

/-- A device, with the entries added to its buffer so far and what they stand for. -/
structure Models (K : Kernel) (d : Dev) (added : List (BufferEntry Nat))
    (committed : List (List UInt8)) : Prop where
  stores : d.cb.Stores added
  entries : List.Forall₂ (StandsFor d.heap) added committed
  bounded : ∀ line ∈ committed, 0 < line.length ∧ line.length ≤ K.kmallocMaxSize.toNat
  size : d.we.size = K.kmallocMaxSize
  index_le : d.we.index.toNat ≤ K.kmallocMaxSize.toNat
  accounted : d.cbSize.toNat = (committed.rtake 10).flatten.length
  offset_lt : d.cbIoctlOffs.toNat < 2 ^ 63

namespace Models

variable {K : Kernel} {d : Dev} {added : List (BufferEntry Nat)} {committed : List (List UInt8)}

theorem afterInit (K : Kernel) : Models K (Dev.afterInit K) [] [] where
  stores := CircularBuffer.Stores.init ⟨Vector.replicate 10 .zero, 0, 0, false⟩
  entries := .nil
  bounded := by simp
  size := rfl
  index_le := by simp [Dev.afterInit]
  accounted := rfl
  offset_lt := by simp [Dev.afterInit]

theorem room (models : Models K d added committed) : d.Room where
  index_le := by
    rw [models.size]
    exact models.index_le
  size_le := by
    rw [models.size]
    exact K.kmallocMaxSize_le

theorem map_contents (models : Models K d added committed) : added.map d.contents = committed :=
  List.forall₂_eq_eq_eq ▸ List.forall₂_map_left_iff.mpr
    (models.entries.imp fun _ _ stands => stands.contents)

theorem liveContents (models : Models K d added committed) :
    d.liveContents = committed.rtake 10 := by
  rw [Dev.liveContents, models.stores.live, ← Ring.rtake_map, models.map_contents]

theorem standsFor_mem (models : Models K d added committed) {e : BufferEntry Nat}
    (member : e ∈ added) : StandsFor d.heap e (d.contents e) := by
  have entries := models.entries
  rw [← models.map_contents, List.forall₂_map_right_iff, List.forall₂_same] at entries
  exact entries e member

theorem standsFor_live (models : Models K d added committed) {e : BufferEntry Nat}
    (member : e ∈ d.cb.live) : StandsFor d.heap e (d.contents e) := by
  rw [models.stores.live] at member
  exact models.standsFor_mem (Ring.mem_of_mem_rtake member)

theorem bounded_live (models : Models K d added committed) {line : List UInt8}
    (member : line ∈ d.liveContents) : 0 < line.length ∧ line.length ≤ 2 ^ 59 := by
  rw [models.liveContents] at member
  have bound := models.bounded line (Ring.mem_of_mem_rtake member)
  exact ⟨bound.1, bound.2.trans K.kmallocMaxSize_le⟩

theorem length_liveContents (models : Models K d added committed) :
    d.liveContents.length ≤ 10 := by
  rw [models.liveContents, Ring.length_rtake]
  exact Nat.min_le_left _ _

theorem length_stored (models : Models K d added committed) : d.stored.length ≤ 10 * 2 ^ 59 := by
  rw [Dev.stored, List.length_flatten]
  have each : ∀ n ∈ d.liveContents.map List.length, n ≤ 2 ^ 59 := by
    intro n member
    obtain ⟨line, inside, rfl⟩ := List.mem_map.mp member
    exact (models.bounded_live inside).2
  have total := List.sum_le_card_nsmul _ _ each
  rw [List.length_map, nsmul_eq_mul, Nat.cast_id] at total
  exact total.trans (Nat.mul_le_mul_right _ models.length_liveContents)

theorem cbSize_toNat (models : Models K d added committed) :
    d.cbSize.toNat = d.stored.length := by
  rw [models.accounted, Dev.stored, models.liveContents]

theorem received (models : Models K d added committed) {c : WriteCall} (fits : d.Fits c) {n : Nat}
    (short : n ≤ c.data.length) : Models K (d.received c n) added committed := by
  refine { models with index_le := ?_ }
  have room := models.room
  rw [received_index room fits short, ← models.size]
  simp only [Dev.Fits] at fits
  omega

theorem completed (models : Models K d added committed) : Models K d.completed added committed :=
  { models with index_le := models.index_le }

theorem withBlock (models : Models K d added committed) (bytes : List UInt8) :
    Models K (d.withBlock bytes) added committed :=
  { models with entries := models.entries.imp fun _ _ stands => stands.append _ }

theorem oldsize (models : Models K d added committed) (line : List UInt8) :
    (committed.rtake 10).flatten.length + line.length =
      (d.cb.slot d.cb.inOffs).size.toNat + ((committed ++ [line]).rtake 10).flatten.length := by
  have same : added.length = committed.length := models.entries.length_eq
  rw [models.stores.inOffs]
  by_cases full : 10 ≤ added.length
  · have stands : StandsFor d.heap added[added.length - 10] (committed[committed.length - 10]) := by
      have pair := models.entries.get (i := added.length - 10) (by omega) (by omega)
      simpa only [List.get_eq_getElem, same] using pair
    have window := congrArg (fun lines => lines.flatten.length)
      (Ring.rtake_concat (by decide) (same ▸ full) line)
    simp only [List.flatten_append, List.flatten_cons, List.flatten_nil, List.append_nil,
      List.length_append] at window
    rw [models.stores.slots.next_oldest (by decide) full, stands.size_toNat, window]
  · have blank : (d.cb.slot (added.length % 10)).size.toNat = 0 := by
      rw [models.stores.slots.next_blank (by omega)]
      rfl
    rw [blank, Ring.rtake_of_length_le (by omega), Ring.rtake_of_length_le (by simp; omega)]
    simp

/-- An entry that stands for a line, put into the buffer and accounted for,
    appends that line to the history. -/
theorem account (models : Models K d added committed) {finished : BufferEntry Nat}
    {line : List UInt8} (stands : StandsFor d.heap finished line) (nonempty : 0 < line.length)
    (short : line.length ≤ K.kmallocMaxSize.toNat) :
    Models K ((d.replaceOldest finished).1.accountSize finished (d.replaceOldest finished).2.1)
      (added ++ [finished]) (committed ++ [line]) where
  stores := models.stores.addEntry finished
  entries := List.rel_append models.entries (.cons stands .nil)
  bounded := by
    intro item member
    rcases List.mem_append.mp member with old | new
    · exact models.bounded item old
    · obtain rfl := List.mem_singleton.mp new
      exact ⟨nonempty, short⟩
  size := models.size
  index_le := models.index_le
  accounted := by
    have account := models.oldsize line
    have size := stands.size_toNat
    have before := models.accounted
    have total := models.cbSize_toNat
    have bound := models.length_stored
    have cap := K.kmallocMaxSize_le
    change (d.cbSize + (finished.size - (d.cb.slot d.cb.inOffs).size)).toNat = _
    have old := (d.cb.slot d.cb.inOffs).size.isLt
    simp only [BitVec.toNat_add, BitVec.toNat_sub]
    omega
  offset_lt := models.offset_lt

theorem freeOld (models : Models K d added committed) (oldbuffptr : Option Nat) :
    Models K (d.freeOld oldbuffptr) added committed :=
  { models with entries := models.entries.imp fun _ _ stands => stands.kfree _ }

theorem insert (models : Models K d added committed) {finished : BufferEntry Nat}
    {line : List UInt8} (stands : StandsFor d.heap finished line) (nonempty : 0 < line.length)
    (short : line.length ≤ K.kmallocMaxSize.toNat) :
    Models K (d.insert finished) (added ++ [finished]) (committed ++ [line]) :=
  (models.account stands nonempty short).freeOld _

theorem resetWorking (models : Models K d added committed) :
    Models K d.resetWorking added committed :=
  { models with index_le := by simp [Dev.resetWorking] }

end Models

@[simp] theorem pending_completed (d : Dev) : d.completed.pending = d.pending := rfl

@[simp] theorem pending_withBlock (d : Dev) (bytes : List UInt8) :
    (d.withBlock bytes).pending = d.pending := rfl

theorem length_pending (d : Dev) : d.pending.length = d.we.index.toNat := by
  rw [Dev.pending, length_firstBytes]

/-- A finished entry stands for the line that its body completes. -/
theorem standsFor_finishedEntry {K : Kernel} {d : Dev} {added committed}
    (models : Models K d added committed) {c : WriteCall} (fits : d.Fits c)
    {body after : List UInt8} (line : c.data = body ++ newline :: after) :
    StandsFor (((d.received c c.data.length).completed.withBlock
      (d.pending ++ body ++ [newline])).heap) (d.finishedEntry body)
      (d.pending ++ body ++ [newline]) := by
  have heap : ((d.received c c.data.length).completed.withBlock
      (d.pending ++ body ++ [newline])).heap =
        d.heap ++ [⟨d.pending ++ body ++ [newline] ++ [0], 0⟩] := rfl
  refine ⟨d.heap.length, ⟨d.pending ++ body ++ [newline] ++ [0], 0⟩, rfl, ?_, rfl, ?_⟩
  · rw [heap, List.getElem?_concat_length]
  · have size := models.room.size_le
    have length : c.data.length = body.length + 1 + after.length := by
      rw [line, List.length_append, List.length_cons]
      omega
    have one : (1 : SizeT).toNat = 1 := rfl
    simp only [Dev.Fits] at fits
    simp only [Dev.finishedEntry, List.length_append, length_pending, List.length_singleton,
      BitVec.toNat_add, BitVec.toNat_ofNat, one]
    omega

theorem length_line_le {K : Kernel} {d : Dev} {added committed}
    (models : Models K d added committed) {c : WriteCall} (fits : d.Fits c)
    {body after : List UInt8} (line : c.data = body ++ newline :: after) :
    (d.pending ++ body ++ [newline]).length ≤ K.kmallocMaxSize.toNat := by
  have length : c.data.length = body.length + 1 + after.length := by
    rw [line, List.length_append, List.length_cons]
    omega
  simp only [Dev.Fits, models.size] at fits
  simp only [List.length_append, length_pending, List.length_singleton]
  omega

/-- Until `cb_mutex` is taken a call with a newline only fills the working entry. -/
theorem Models.staged {K : Kernel} {d : Dev} {added committed}
    (models : Models K d added committed) {pos pos' : LoffT} {c : WriteCall}
    {finished : BufferEntry Nat} {d' : Dev}
    (staged : StageOutcome d pos c (.commit finished, d', pos')) :
    Models K d' added committed ∧ d'.pending = d.pending ++ c.data := by
  cases staged with
  | line fits all fresh line grants =>
      refine ⟨((models.received fits le_rfl).completed).withBlock _, ?_⟩
      rw [pending_withBlock, pending_completed, received_all models.room fits all]

theorem Models.commit {K : Kernel} {d : Dev} {added committed}
    (models : Models K d added committed) {finished : BufferEntry Nat} {line : List UInt8}
    (stands : StandsFor d.heap finished (line ++ [newline]))
    (short : (line ++ [newline]).length ≤ K.kmallocMaxSize.toNat) :
    Models K (d.insert finished).resetWorking (added ++ [finished])
      (committed ++ [line ++ [newline]]) :=
  (models.insert stands (by simp) short).resetWorking

end Aesd.Driver
