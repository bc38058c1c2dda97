import Aesd.Driver.Invariant
import Aesd.Lib.Lines

/-! # The device as a log of lines

What the device is for, in its own terms: lines in the order in which they were
completed, and the command that is still being written.  `aesd_write` refines
this log: whatever the environment decides, the call leaves the log as it was,
extends the pending command, or completes one line.
-/

namespace Aesd.Driver

open Aesd.Lib

/-- The lines completed so far, and the command not yet complete. -/
structure LineLog where
  committed : List (List UInt8)
  pending : List UInt8

namespace LineLog

/-- The call's bytes fit behind the pending command. -/
def Fits (K : Kernel) (log : LineLog) (c : WriteCall) : Prop :=
  log.pending.length + c.data.length ≤ K.kmallocMaxSize.toNat

/-- The block size requested for the line that `body` completes: its newline and a NUL more. -/
def request (log : LineLog) (body : List UInt8) : SizeT :=
  BitVec.ofNat 64 (log.pending.length + body.length) + 2

/-- The log with more bytes pending, whatever they contain. -/
def grow (log : LineLog) (bytes : List UInt8) : LineLog :=
  { log with pending := log.pending ++ bytes }

/-- The log with the line that `body` completes, and nothing pending. -/
def complete (log : LineLog) (body : List UInt8) : LineLog :=
  ⟨log.committed ++ [log.pending ++ body ++ [newline]], []⟩

/-- What a write call does to the log, and what it returns. -/
inductive Write (K : Kernel) (c : WriteCall) (log : LineLog) : Int → LineLog → Prop where
  | interrupted (lock : c.weLock = .interrupted) : Write K c log (-ERESTARTSYS) log
  | refused (lock : c.weLock = .granted) (full : ¬log.Fits K c) : Write K c log (-ENOMEM) log
  /-- The copy came up short: what did arrive is pending, and nobody looks at it. -/
  | short (lock : c.weLock = .granted) (fits : log.Fits K c) (some : c.uncopied ≠ 0) :
      Write K c log (-EFAULT) (log.grow (c.data.take (c.data.length - c.uncopied)))
  | grew (lock : c.weLock = .granted) (fits : log.Fits K c) (all : c.uncopied = 0)
      (fresh : newline ∉ c.data) : Write K c log c.data.length (log.grow c.data)
  /-- A newline arrived, but there is no memory for the line. -/
  | noBlock (lock : c.weLock = .granted) (fits : log.Fits K c) (all : c.uncopied = 0)
      {body after} (fresh : newline ∉ body) (line : c.data = body ++ newline :: after)
      (fails : c.kzallocOk (log.request body) = false) :
      Write K c log (-ENOMEM) (log.grow c.data)
  /-- A newline arrived, but the buffer could not be locked. -/
  | cbInterrupted (lock : c.weLock = .granted) (fits : log.Fits K c) (all : c.uncopied = 0)
      {body after} (fresh : newline ∉ body) (line : c.data = body ++ newline :: after)
      (grants : c.kzallocOk (log.request body) = true) (cbLock : c.cbLock = .interrupted) :
      Write K c log (-ERESTARTSYS) (log.grow c.data)
  /-- The first newline completes a line; the bytes after it are dropped. -/
  | stored (lock : c.weLock = .granted) (fits : log.Fits K c) (all : c.uncopied = 0)
      {body after} (fresh : newline ∉ body) (line : c.data = body ++ newline :: after)
      (grants : c.kzallocOk (log.request body) = true) (cbLock : c.cbLock = .granted) :
      Write K c log c.data.length (log.complete body)

end LineLog

theorem count_toInt {d : Dev} {c : WriteCall} (room : d.Room) (fits : d.Fits c) :
    c.count.toInt = c.data.length := by
  have size := room.size_le
  simp only [Dev.Fits] at fits
  rw [BitVec.toInt_eq_toNat_of_lt, c.count_toNat]
  rw [c.count_toNat]
  omega

/-- The log behind a device: what has been committed, and the pending bytes. -/
def Dev.log (d : Dev) (committed : List (List UInt8)) : LineLog := ⟨committed, d.pending⟩

section

variable {K : Kernel} {d : Dev} {added : List (BufferEntry Nat)} {committed : List (List UInt8)}

theorem log_fits_iff (models : Models K d added committed) (c : WriteCall) :
    (d.log committed).Fits K c ↔ d.Fits c := by
  simp only [LineLog.Fits, Dev.Fits, Dev.log, length_pending, models.size]

theorem log_request (d : Dev) (committed : List (List UInt8)) (body : List UInt8) :
    (d.log committed).request body =
      BitVec.ofNat 64 (d.we.index.toNat + body.length) + 2 := by
  simp only [LineLog.request, Dev.log, length_pending]

theorem log_blockSize (d : Dev) (committed : List (List UInt8)) {c : WriteCall}
    {body after : List UInt8} (fresh : newline ∉ body) (line : c.data = body ++ newline :: after) :
    (d.log committed).request body = d.blockSize c := by
  rw [log_request, blockSize_line d fresh line]

/-- Every call of `aesd_write` on a device is a write to its log. -/
theorem Models.write (models : Models K d added committed) (pos : LoffT) (c : WriteCall) :
    ∃ added' log', LineLog.Write K c (d.log committed) (aesdWrite d pos c).1 log' ∧
      Models K (aesdWrite d pos c).2.1 added' log'.committed ∧
      (aesdWrite d pos c).2.1.pending = log'.pending := by
  have room := models.room
  have logFits := log_fits_iff models c
  have outcome := aesdWrite_outcome room pos c
  generalize aesdWrite d pos c = result at outcome
  cases outcome with
  | weInterrupted lock => exact ⟨added, _, .interrupted lock, models, rfl⟩
  | out lock staged =>
      cases staged with
      | refused full => exact ⟨added, _, .refused lock (mt logFits.mp full), models, rfl⟩
      | short fits some =>
          have copied : c.data.length - c.uncopied + c.uncopied ≤ c.data.length := by
            have bound := c.uncopied_le
            omega
          exact ⟨added, _, .short lock (logFits.mpr fits) some,
            models.received fits (Nat.sub_le _ _), received_pending room fits copied⟩
      | noLine fits all fresh =>
          refine ⟨added, (d.log committed).grow c.data, ?_, models.received fits le_rfl,
            received_all room fits all⟩
          rw [count_toInt room fits]
          exact .grew lock (logFits.mpr fits) all fresh
      | noBlock fits all fresh line fails =>
          rw [← log_request d committed] at fails
          exact ⟨added, _, .noBlock lock (logFits.mpr fits) all fresh line fails,
            (models.received fits le_rfl).completed, received_all room fits all⟩
  | cbInterrupted lock cbLock staged =>
      obtain ⟨after, pending⟩ := models.staged staged
      cases staged with
      | line fits all fresh line grants =>
          rw [← log_request d committed] at grants
          exact ⟨added, _, .cbInterrupted lock (logFits.mpr fits) all fresh line grants cbLock,
            after, pending⟩
  | committed lock cbLock staged =>
      obtain ⟨after, _⟩ := models.staged staged
      cases staged with
      | line fits all fresh line grants =>
          rw [← log_request d committed] at grants
          have stands := standsFor_finishedEntry models fits line
          have short := length_line_le models fits line
          refine ⟨_, (d.log committed).complete _, ?_, after.commit stands short, rfl⟩
          rw [count_toInt room fits]
          exact .stored lock (logFits.mpr fits) all fresh line grants cbLock

end

end Aesd.Driver
