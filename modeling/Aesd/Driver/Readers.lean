import Aesd.Driver.Phases
import Aesd.Driver.ReadLoop
import Mathlib.Data.List.Infix

/-! # What a reader can count on while others write

A read position counts from the oldest live entry.  As long as nothing is pushed
out of the full buffer and no seek moves the offset, any step of any process
leaves every byte at its position and at most adds bytes at the end.
-/

namespace Aesd.Driver

open Aesd.Lib Aesd.Lib.Mutex

/-- What a read at position 0 starts with, and everything after it. -/
def Dev.fromOffset (d : Dev) : List UInt8 := d.stored.drop d.cbIoctlOffs.toNat

namespace Pc

/-- The next step moves the seek offset, or fails a check of the seek. -/
def seeks : Pc → Bool
  | .seekBody _ => true
  | _ => false

/-- The next step pushes out the oldest entry. -/
def evicts : Pc → Dev → Bool
  | .writeInsert _ _, d => d.cb.full
  | _, _ => false

end Pc

/-- What a read gives a reader who has the first bytes from the offset on already:
    a failure, the news that these are all, or some of the bytes that come next. -/
inductive Continues (d : Dev) (before : List UInt8) (count : Nat) : Int → List UInt8 → Prop where
  | failed {retval : Int} (negative : retval < 0) : Continues d before count retval []
  | ended (all : before = d.fromOffset) : Continues d before count 0 []
  | block {bytes : List UInt8} (nonempty : bytes ≠ []) (short : bytes.length ≤ count)
      (next : before ++ bytes <+: d.fromOffset) : Continues d before count bytes.length bytes

section

variable {K : Kernel} {f : FixedSizeLlseek} {pc pc' : Pc} {d d' : Dev}
  {added : List (BufferEntry Nat)} {committed : List (List UInt8)} {op : LockOp DevMutex}

theorem Phase.stored (phase : Phase K pc d added committed) :
    d.stored = (committed.rtake 10).flatten := by
  rw [Dev.stored, ← settled_liveContents pc, phase.1.liveContents]

theorem Models.continues (models : Models K d added committed) {before : List UInt8} {pos : LoffT}
    (place : pos.toNat = before.length) (start : pos.toNat < 2 ^ 63)
    (already : before <+: d.fromOffset) {c : ReadCall} (positive : 0 < c.count.toNat) {r : ReadResult}
    (result : aesdRead d pos c = some r) : Continues d before c.count.toNat r.retval r.bytes := by
  have outcome := aesdRead_outcome models pos c
  rw [result] at outcome
  have readAt := models.readAt start
  rw [place] at readAt
  cases outcome with
  | interrupted lock => exact .failed (by simp [ERESTARTSYS])
  | atEnd lock past =>
      refine .ended (already.eq_of_length_le ?_)
      rw [Dev.fromOffset, List.length_drop]
      omega
  | faulted lock inside faults => exact .failed (by simp [EFAULT])
  | chunk lock copied n inside within asked progress =>
      have length : ((d.stored.drop (d.readAt pos)).take n).length = n := by
        rw [List.length_take, List.length_drop]
        omega
      have bytes : (d.stored.drop (d.readAt pos)).take n =
          (d.fromOffset.drop before.length).take n := by
        rw [Dev.fromOffset, List.drop_drop, readAt, Nat.add_comm]
      have nonempty : (d.stored.drop (d.readAt pos)).take n ≠ [] := by
        rw [← List.length_pos_iff, length]
        exact progress positive
      have next : before ++ (d.stored.drop (d.readAt pos)).take n <+: d.fromOffset := by
        rw [bytes]
        nth_rewrite 1 [List.prefix_iff_eq_take.mp already]
        rw [← List.take_add]
        exact List.take_prefix ..
      have block : Continues d before c.count.toNat _ _ := .block nonempty (by omega) next
      rwa [length] at block

theorem stage_offset (d : Dev) (pos : LoffT) (c : WriteCall) :
    (d.stage pos c).2.1.cbIoctlOffs = d.cbIoctlOffs := by
  unfold Dev.stage
  split
  · rfl
  · split
    · rfl
    · dsimp only
      split
      · rfl
      · unfold Dev.finishEntry
        dsimp only
        split <;> rfl

theorem offset_next (taken : Pc.next f pc d = some (op, pc', d')) (noSeek : pc.seeks = false) :
    d'.cbIoctlOffs = d.cbIoctlOffs := by
  cases pc with
  | user => cases taken
  | seekBody st => cases noSeek
  | writeFill pos c =>
      have frame := stage_offset d pos c
      simp only [Pc.next] at taken
      split at taken <;> rename_i staged <;> cases taken <;> rwa [staged] at frame
  | writeInsert | writeAccount | writeFree | writeUnlock | writeReset | writeOut | readOut
  | seekOut | llseek =>
      cases taken
      rfl
  | write | writeLock | read | ioctl | seek =>
      simp only [Pc.next] at taken
      split at taken <;> cases taken <;> rfl
  | readBody pos c =>
      obtain ⟨r, _, step⟩ := Option.map_eq_some_iff.mp taken
      cases step
      rfl

theorem Phase.stored_next (phase : Phase K pc d added committed)
    (taken : Pc.next f pc d = some (op, pc', d')) (kept : pc.evicts d = false) :
    d.stored <+: d'.stored := by
  obtain ⟨added', committed', phase', longer⟩ := phase.next taken
  rw [phase.stored, phase'.stored]
  cases pc with
  | writeInsert c finished =>
      obtain ⟨_, line, rfl⟩ := longer
      have full := phase.1.stores.full
      have same := phase.1.entries.length_eq
      simp only [Pc.evicts] at kept
      simp only [Pc.settled, kept, eq_comm (a := false), decide_eq_false_iff_not] at full
      rw [Ring.rtake_of_length_le (by omega : committed.length ≤ 10),
        Ring.rtake_of_length_le (by simp; omega), List.flatten_append]
      exact List.prefix_append ..
  | _ =>
      obtain ⟨_, rfl⟩ := longer
      exact List.prefix_rfl

end

section

variable {Pid : Type} [DecidableEq Pid] {f : FixedSizeLlseek} {K : Kernel}
  {s s' : DriverSystem Pid} {allowed : DriverSystem Pid → Pid × Option Op → Prop} {p : Pid}

/-- The step of a process in the section of `we_mutex` extends what is stored at
    most, and no other step touches it. -/
theorem fromOffset_step (reach : (users Pid f K).Reach allowed s)
    (taken : (users Pid f K).step s (p, none) s') (noSeek : (s.pc p).seeks = false)
    (kept : (s.pc p).evicts s.data = false) :
    s.data.fromOffset <+: s'.data.fromOffset := by
  obtain ⟨op, next⟩ := taken.next
  rw [Dev.fromOffset, Dev.fromOffset, offset_next next noSeek]
  refine List.IsPrefix.drop ?_ _
  by_cases inside : (s.pc p).holds .we
  · obtain ⟨added, committed, phase, _⟩ := (kept_users reach).inside p inside
    exact phase.stored_next next kept
  · rcases next_aside next inside with same | ⟨st, fp, adjusted, moved⟩
    · exact same ▸ List.prefix_rfl
    · exact moved ▸ List.prefix_rfl

/-- A reader under `cb_mutex` finds the device as between two whole calls. -/
theorem models_of_reading (reach : (users Pid f K).Reach allowed s) {pos : LoffT} {c : ReadCall}
    (reads : s.pc p = .readBody pos c) :
    ∃ added committed, Models K s.data added committed := by
  obtain ⟨pc, added, committed, ⟨models, _⟩, place⟩ := phase_of_reach reach
  have settled : pc.settled s.data = s.data := by
    rcases place with rfl | ⟨q, rfl⟩
    · rfl
    · by_cases held : (s.pc q).holds .cb
      · have mine : (s.pc p).holds .cb := by rw [reads]; rfl
        obtain rfl := (guarded_users reach).exclusive held mine
        rw [reads]
        rfl
      · exact settled_of_not_holds held s.data
  rw [settled] at models
  exact ⟨added, committed, models⟩

end

end Aesd.Driver
