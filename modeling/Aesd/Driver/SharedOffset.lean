import Aesd.Driver.ReadLoop
import Aesd.Lib.Trace

/-! # What a seek does to the other open files

`cb_ioctl_offs` is a field of the device and is never reset, so a seek on one
file is a permanent offset for all of them.  Another file can tell whether the
seek was made exactly when the offset moved and a read can still find something
from the old offset or from the new one.
-/

namespace Aesd.Driver

open Aesd.Lib

/-- What is relied on of `fixed_size_llseek`: it leaves the position alone or puts
    it between 0 and the size, and it can go back to the start. -/
structure FixedSizeLlseek.Documented (f : FixedSizeLlseek) : Prop where
  lands : ∀ pos off whence size, (f pos off whence size).2 = pos ∨
    0 ≤ (f pos off whence size).2.toInt ∧ (f pos off whence size).2.toInt ≤ size.toInt
  rewinds : ∀ pos size, 0 ≤ size.toInt → (f pos 0 SEEK_SET size).2 = 0

theorem fixedSizeLlseek_documented : fixedSizeLlseek.Documented where
  lands := by
    intro pos off whence size
    simp only [fixedSizeLlseek]
    split
    · rename_i target _
      split
      · rename_i inside
        have bound := BitVec.toInt_lt (x := size)
        have value : (BitVec.ofInt 64 target).toInt = target := by
          rw [BitVec.toInt_ofInt, Int.bmod_eq_of_le] <;> omega
        refine .inr ?_
        simp only [value]
        exact inside
      · exact .inl rfl
    · exact .inl rfl
  rewinds := by
    intro pos size nonneg
    have target : seekTarget pos 0 SEEK_SET size = some 0 := rfl
    simp only [fixedSizeLlseek, target]
    rw [if_pos ⟨le_rfl, nonneg⟩]
    rfl

/-- A call that depends on the position of an open file. -/
inductive FileOp where
  | read (c : ReadCall)
  | llseek (off : LoffT) (whence : Int)

/-- What the call gives its caller. -/
structure Reply where
  retval : Int
  bytes : List UInt8
  deriving Repr, DecidableEq

/-- One call on an open file, from its position to its position. -/
def fileCall (fixedSizeLlseek : FixedSizeLlseek) (d : Dev) (pos : LoffT) :
    FileOp → Option (Reply × LoffT)
  | .read c => (aesdRead d pos c).map fun r => (⟨r.retval, r.bytes⟩, r.pos)
  | .llseek off whence =>
    let (retval, pos) := aesdLlseek fixedSizeLlseek d pos off whence
    some (⟨retval, []⟩, pos)

/-- A read at `pos` finds nothing. -/
def Dev.Past (d : Dev) (pos : LoffT) : Prop := d.stored.length ≤ d.readAt pos

section

variable {K : Kernel} {d d' : Dev} {added added' : List (BufferEntry Nat)}
  {committed committed' : List (List UInt8)} {f : FixedSizeLlseek} {pos : LoffT}

/-- An `ioctl` changes nothing but the seek offset. -/
theorem ioctl_frame {cmd : UInt32T} {arg : Option SeekCall} {retval : Int}
    (returns : aesdIoctl d cmd arg = some (retval, d')) :
    d' = { d with cbIoctlOffs := d'.cbIoctlOffs } := by
  rcases aesdIoctl_cases returns with rfl | ⟨_, _, _, rfl⟩ <;> rfl

theorem Models.read_past (models : Models K d added committed) (past : d.Past pos) (c : ReadCall) :
    aesdRead d pos c = some ⟨if c.lock = .granted then 0 else -ERESTARTSYS, [], pos⟩ := by
  have outcome := aesdRead_outcome models pos c
  rw [Dev.Past] at past
  generalize aesdRead d pos c = result at outcome
  cases outcome with
  | interrupted lock => simp [lock]
  | atEnd lock _ => simp [lock]
  | faulted lock inside _ => omega
  | chunk lock copied n inside within asked progress => omega

theorem Models.past_of_nonneg (models : Models K d added committed) (start : 0 ≤ pos.toInt)
    (past : d.stored.length ≤ d.cbIoctlOffs.toNat) : d.Past pos := by
  rw [Dev.Past, models.readAt (toNat_of_nonneg start)]
  omega

/-- A read of one byte shows a moved offset wherever it delivers a byte under either. -/
theorem read_differs (models : Models K d added committed) (models' : Models K d' added' committed')
    (stored : d'.stored = d.stored) (moved : d'.cbIoctlOffs ≠ d.cbIoctlOffs)
    (inside : ¬(d.Past pos ∧ d'.Past pos)) :
    fileCall f d' pos (.read (plainRead 1)) ≠ fileCall f d pos (.read (plainRead 1)) := by
  intro same
  have one : 0 < (1 : SizeT).toNat := by decide
  have here := aesdRead_outcome models pos (plainRead 1)
  have there := aesdRead_outcome models' pos (plainRead 1)
  simp only [fileCall] at same
  simp only [Dev.Past, stored] at inside
  generalize aesdRead d pos (plainRead 1) = result at here same
  generalize aesdRead d' pos (plainRead 1) = result' at there same
  cases here with
  | interrupted lock => cases lock
  | faulted lock _ faults => cases faults
  | atEnd _ past =>
      cases there with
      | interrupted lock => cases lock
      | faulted lock _ faults => cases faults
      | atEnd _ past' =>
          rw [stored] at past'
          exact inside ⟨past, past'⟩
      | chunk _ _ n _ _ _ progress =>
          have some := progress one
          simp only [Option.map_some, Option.some.injEq, Prod.mk.injEq, Reply.mk.injEq] at same
          omega
  | chunk _ _ n _ within _ progress =>
      have some := progress one
      cases there with
      | interrupted lock => cases lock
      | faulted lock _ faults => cases faults
      | atEnd _ _ =>
          simp only [Option.map_some, Option.some.injEq, Prod.mk.injEq, Reply.mk.injEq] at same
          omega
      | chunk _ _ n' _ _ _ _ =>
          simp only [Option.map_some, Option.some.injEq, Prod.mk.injEq, Reply.mk.injEq] at same
          obtain ⟨⟨count, _⟩, left⟩ := same
          obtain rfl : n' = n := by omega
          apply moved
          bv_omega

theorem fileCall_rewind (models : Models K d added committed) (documented : f.Documented) (pos : LoffT) :
    fileCall f d pos (.llseek 0 SEEK_SET) = some (⟨0, []⟩, 0) := by
  have nonneg : 0 ≤ d.cbSize.toInt := by
    have total := models.cbSize_toNat
    have bound := models.length_stored
    rw [BitVec.toInt_eq_toNat_of_lt (by omega)]
    exact Int.natCast_nonneg _
  simp only [fileCall, aesdLlseek, documented.rewinds pos d.cbSize nonneg, Int.lt_irrefl, if_false]

/-- Where reads find nothing under either offset, no call tells the two devices apart,
    and none leads anywhere else. -/
theorem fileCall_past (models : Models K d added committed)
    (models' : Models K d' added' committed') (documented : f.Documented)
    (size : d'.cbSize = d.cbSize) (past : d.Past pos) (past' : d'.Past pos)
    (beyond : d.stored.length ≤ d.cbIoctlOffs.toNat)
    (beyond' : d'.stored.length ≤ d'.cbIoctlOffs.toNat) (op : FileOp) :
    fileCall f d' pos op = fileCall f d pos op ∧
      ∀ reply pos', fileCall f d pos op = some (reply, pos') → d.Past pos' ∧ d'.Past pos' := by
  cases op with
  | read c =>
      simp only [fileCall, models.read_past past, models'.read_past past', Option.map_some,
        Option.some.injEq, Prod.mk.injEq, true_and]
      rintro _ _ ⟨_, rfl⟩
      exact ⟨past, past'⟩
  | llseek off whence =>
      simp only [fileCall, aesdLlseek, size, true_and]
      intro reply pos' called
      obtain ⟨_, rfl⟩ := Prod.mk.inj (Option.some.inj called)
      rcases documented.lands pos off whence d.cbSize with same | ⟨nonneg, _⟩
      · simp only [Int.lt_irrefl, if_false, same]
        exact ⟨past, past'⟩
      · exact ⟨models.past_of_nonneg nonneg beyond, models'.past_of_nonneg nonneg beyond'⟩

end

/-- A seek on one open file is seen by the reads and seeks of another, at `pos`,
    unless it left the device's offset alone or nothing can be read with the old
    offset or with the new one, from `pos` or from the start.  A seek refused with
    `-EINVAL` is left out: it returns with the buffer locked. -/
theorem seek_unseen_iff {K : Kernel} {d d' : Dev} (reachable : Reachable K d) {f : FixedSizeLlseek}
    (documented : f.Documented) {c : SeekCall} {retval : Int}
    (returns : aesdIoctl d AESDCHAR_IOCSEEKTO (some c) = some (retval, d'))
    (_unlocked : retval ≠ -EINVAL) (pos : LoffT) :
    (∀ calls, trace (fileCall f d') pos calls = trace (fileCall f d) pos calls) ↔
      d'.cbIoctlOffs = d.cbIoctlOffs ∨
        d.stored.length ≤ d.cbIoctlOffs.toNat ∧ d.stored.length ≤ d'.cbIoctlOffs.toNat ∧
          d.stored.length ≤ (pos + d.cbIoctlOffs).toNat ∧
            d.stored.length ≤ (pos + d'.cbIoctlOffs).toNat := by
  obtain ⟨_, _, models⟩ := reachable.models
  have models' := models.ioctl returns
  have frame := ioctl_frame returns
  have stored : d'.stored = d.stored := by rw [frame]; rfl
  have size : d'.cbSize = d.cbSize := by rw [frame]
  constructor
  · intro unseen
    by_contra seen
    obtain ⟨moved, reads⟩ := not_or.mp seen
    -- a read where the file stands, and one after going back to the start
    have here : d.Past pos ∧ d'.Past pos := by
      by_contra inside
      exact read_differs models models' stored moved inside (step_eq_of_trace (unseen _))
    have start : d.Past 0 ∧ d'.Past 0 := by
      by_contra inside
      have back := fileCall_rewind models documented pos
      have back' := fileCall_rewind models' documented pos
      exact read_differs models models' stored moved inside
        (step_eq_of_trace (trace_tail back' back (unseen _)))
    have origin : ∀ e : Dev, e.readAt 0 = e.cbIoctlOffs.toNat := fun e => by simp [Dev.readAt]
    simp only [Dev.Past, origin] at here start
    rw [stored] at here start
    exact reads ⟨start.1, start.2, here.1, here.2⟩
  · rintro (same | ⟨beyond, beyond', past, past'⟩) calls
    · have whole : d' = d := by rw [frame, same]
      rw [whole]
    · rw [← stored] at beyond' past'
      have step := fun pos (past : d'.Past pos ∧ d.Past pos) =>
        fileCall_past models models' documented size past.2 past.1 beyond beyond'
      refine trace_congr (fun pos => d'.Past pos ∧ d.Past pos) ?_ ?_ ⟨past', past⟩ calls
      · intro pos call inside
        exact (step pos inside call).1
      · intro pos call reply pos' inside called
        rw [(step pos inside call).1] at called
        exact ((step pos inside call).2 reply pos' called).symm

theorem seek_unseen_iff_one_line :
    let d' : Dev := { oneLine with cbIoctlOffs := 1 }
    (∀ calls, trace (fileCall fixedSizeLlseek d') 0 calls =
        trace (fileCall fixedSizeLlseek oneLine) 0 calls) ↔
      d'.cbIoctlOffs = oneLine.cbIoctlOffs ∨
        oneLine.stored.length ≤ oneLine.cbIoctlOffs.toNat ∧
          oneLine.stored.length ≤ d'.cbIoctlOffs.toNat ∧
            oneLine.stored.length ≤ (0 + oneLine.cbIoctlOffs).toNat ∧
              oneLine.stored.length ≤ (0 + d'.cbIoctlOffs).toNat :=
  seek_unseen_iff (c := ⟨0, 1, .granted, fun _ => none⟩) oneLine_reachable
    fixedSizeLlseek_documented rfl (by decide) 0

/-- Another file at the start of the one line `a` reads a newline instead. -/
theorem seek_seen_elsewhere :
    ¬∀ (K : Kernel) (d d' : Dev) (c : SeekCall) (retval : Int) (pos : LoffT)
      (calls : List FileOp), Reachable K d →
        aesdIoctl d AESDCHAR_IOCSEEKTO (some c) = some (retval, d') →
          trace (fileCall fixedSizeLlseek d') pos calls =
            trace (fileCall fixedSizeLlseek d) pos calls := by
  intro claim
  have same := claim .pc oneLine { oneLine with cbIoctlOffs := 1 } ⟨0, 1, .granted, fun _ => none⟩
    0 0 [.read (plainRead 1)] oneLine_reachable rfl
  exact absurd same (by decide)

end Aesd.Driver
