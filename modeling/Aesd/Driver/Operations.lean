import Aesd.Driver.Device
import Aesd.Lib.Lts

/-! # The file operations of the driver

`main.c`, one definition for each operation.  An operation takes the device, the
value of `*f_pos` and what the environment decides about the call, and gives the
return value, the device and the new `*f_pos`; a call that never returns gives
`none`.  The mutexes themselves are not here: these are the operations with their
locks granted or interrupted, and the interleaving model runs the same pieces
between explicit lock steps.
-/

namespace Aesd.Driver

open Aesd.Lib Aesd.Lib.Memory

def newline : UInt8 := 10

/-- A call of `aesd_write` and what the environment decides about it: the bytes
    at `buf`, `count` of them, the outcome of both lock attempts, what
    `copy_from_user` leaves uncopied, and which `kzalloc` requests succeed. -/
structure WriteCall where
  data : List UInt8
  fits : data.length < 2 ^ 64
  weLock : LockAttempt
  uncopied : Nat
  uncopied_le : uncopied ≤ data.length
  kzallocOk : SizeT → Bool
  cbLock : LockAttempt

def WriteCall.count (c : WriteCall) : SizeT := BitVec.ofNat 64 c.data.length

/-- Nothing disturbs the call: it gets both locks, everything is copied, and
    `kzalloc` refuses only what is larger than `KMALLOC_MAX_SIZE`. -/
structure WriteCall.Undisturbed (K : Kernel) (c : WriteCall) : Prop where
  weLock : c.weLock = .granted
  uncopied : c.uncopied = 0
  kzallocOk : ∀ size, c.kzallocOk size = decide (size ≤ K.kmallocMaxSize)
  cbLock : c.cbLock = .granted

/-- The undisturbed call that writes these bytes. -/
def WriteCall.ofBytes (K : Kernel) (data : List UInt8) (fits : data.length < 2 ^ 64) : WriteCall where
  data
  fits
  weLock := .granted
  uncopied := 0
  uncopied_le := Nat.zero_le _
  kzallocOk size := decide (size ≤ K.kmallocMaxSize)
  cbLock := .granted

theorem WriteCall.ofBytes_undisturbed (K : Kernel) (data : List UInt8)
    (fits : data.length < 2 ^ 64) : (ofBytes K data fits).Undisturbed K where
  weLock := rfl
  uncopied := rfl
  kzallocOk _ := rfl
  cbLock := rfl

/-- What the code before the second lock leads to: `goto out`, or a finished
    entry to be put into the circular buffer. -/
inductive Staged where
  | out (retval : Int)
  | commit (finished : BufferEntry Nat)
  deriving Repr, DecidableEq

/-- `for(; s < dev->we.index; s++) if(buffptr[s] == '\n')` over `n` bytes. -/
def scanNewline (mem : Nat → UInt8) : Nat → Nat → Option Nat
  | _, 0 => none
  | s, n + 1 => if mem s = newline then some s else scanNewline mem (s + 1) n

/-- Fill a finished entry's block: `s+1` bytes of the working entry and a NUL. -/
def fillBlock (mem : Nat → UInt8) (s : Nat) (b : List UInt8) : List UInt8 :=
  ((List.range (s + 1)).foldl (fun b i => b.set i (mem i)) b).set (s + 1) 0

namespace Dev

/-- The copied bytes in the working entry; `copy_from_user` zeroes what it could not copy. -/
def copyFromUser (d : Dev) (c : WriteCall) : Dev :=
  let copied := c.data.take (c.data.length - c.uncopied) ++ List.replicate c.uncopied 0
  { d with we := { d.we with buffptr := storeAt d.we.buffptr d.we.index.toNat copied } }

/-- `dev->we.index += n`. -/
def advance (d : Dev) (n : SizeT) : Dev :=
  { d with we := { d.we with index := d.we.index + n } }

/-- `dev->we.complete = true`. -/
def completed (d : Dev) : Dev := { d with we := { d.we with complete := true } }

/-- From a newline at `s` to the second lock: the line is copied to a block of its own. -/
def finishEntry (d : Dev) (s : Nat) (kzallocOk : SizeT → Bool) : Staged × Dev :=
  let d := d.completed
  let size : SizeT := BitVec.ofNat 64 s
  if kzallocOk (size + 2) then
    let (heap, b) := kzalloc d.heap (size + 2)
    let heap := heap.modify b fun block =>
      { block with bytes := fillBlock d.we.buffptr s block.bytes }
    (.commit ⟨some b, size + 1⟩, { d with heap })
  else (.out (-ENOMEM), d)

/-- `aesd_write` from the first lock up to the second one. -/
def stage (d : Dev) (pos : LoffT) (c : WriteCall) : Staged × Dev × LoffT :=
  if c.count > d.we.size ∨ c.count + d.we.index > d.we.size then
    (.out (-ENOMEM), d, pos)
  else if c.uncopied ≠ 0 then
    let copied := c.count - BitVec.ofNat 64 c.uncopied
    (.out (-EFAULT), (d.copyFromUser c).advance copied, pos + copied)
  else
    let s := d.we.index
    let d := (d.copyFromUser c).advance c.count
    let pos := pos + c.count
    match scanNewline d.we.buffptr s.toNat (d.we.index.toNat - s.toNat) with
    | none => (.out c.count.toInt, d, pos)
    | some s =>
      let (staged, d) := d.finishEntry s c.kzallocOk
      (staged, d, pos)

/-- `oldsize`, then `aesd_circular_buffer_add_entry`, in that order. -/
def replaceOldest (d : Dev) (finished : BufferEntry Nat) : Dev × SizeT × Option Nat :=
  let oldsize := (d.cb.slot d.cb.inOffs).size
  let (cb, oldbuffptr) := d.cb.addEntry finished
  ({ d with cb }, oldsize, oldbuffptr)

/-- `dev->cb_size += finished_entry.size - oldsize`. -/
def accountSize (d : Dev) (finished : BufferEntry Nat) (oldsize : SizeT) : Dev :=
  { d with cbSize := d.cbSize + (finished.size - oldsize) }

/-- `kfree(oldbuffptr)`. -/
def freeOld (d : Dev) (oldbuffptr : Option Nat) : Dev :=
  { d with heap := kfree d.heap oldbuffptr }

/-- The critical section of `aesd_write` under `cb_mutex`. -/
def insert (d : Dev) (finished : BufferEntry Nat) : Dev :=
  let (d, oldsize, oldbuffptr) := d.replaceOldest finished
  (d.accountSize finished oldsize).freeOld oldbuffptr

/-- The working entry is empty again. -/
def resetWorking (d : Dev) : Dev :=
  { d with we := { d.we with index := 0, complete := false } }

end Dev

/-- `aesd_write`. -/
def aesdWrite (d : Dev) (pos : LoffT) (c : WriteCall) : Int × Dev × LoffT :=
  match c.weLock with
  | .interrupted => (-ERESTARTSYS, d, pos)
  | .granted =>
    match d.stage pos c with
    | (.out retval, d, pos) => (retval, d, pos)
    | (.commit finished, d, pos) =>
      match c.cbLock with
      | .interrupted => (-ERESTARTSYS, d, pos)
      | .granted => (c.count.toInt, (d.insert finished).resetWorking, pos)

/-- What `aesd_adjust_file_offset` does once it holds `cb_mutex`. -/
inductive SeekOutcome where
  /-- The read past the array does not come back. -/
  | fault
  /-- The summing loop does not end. -/
  | endless
  /-- One of the two checks failed: `return -EINVAL`, without unlocking. -/
  | einval
  /-- The new `cb_ioctl_offs`, unlocked. -/
  | adjusted (fp : LoffT)
  deriving Repr, DecidableEq

/-- `for(uint8_t i = 0, j = out_offs; i < write_cmd; ++i, increment(&j)) fp += entry[j].size`. -/
def seekLoop (cb : CircularBuffer Nat) (writeCmd : UInt32T) : Nat → Nat → Nat → LoffT → Option LoffT
  | 0, _, _, _ => none
  | fuel + 1, i, j, fp =>
    if i < writeCmd.toNat then
      seekLoop cb writeCmd fuel ((i + 1) % 256) (aesdCircularIncrement j maxIndex).1
        (fp + (cb.slot j).size)
    else some fp

/-- `dev->cb.entry[write_cmd].size`; past the array it is whatever `beyond`
    finds there, if the read does not fault. -/
def entrySize (cb : CircularBuffer Nat) (beyond : Nat → Option SizeT) (writeCmd : UInt32T) :
    Option SizeT :=
  if writeCmd.toNat < 10 then some (cb.slot writeCmd.toNat).size else beyond writeCmd.toNat

/-- `aesd_adjust_file_offset` under the lock.  The two comparisons add one in
    `unsigned int`, and `i` counts modulo 256: a loop that has not stopped after
    256 rounds never does. -/
def seekBody (cb : CircularBuffer Nat) (beyond : Nat → Option SizeT)
    (writeCmd writeCmdOffset : UInt32T) : SeekOutcome :=
  match entrySize cb beyond writeCmd with
  | none => .fault
  | some size =>
    if (writeCmdOffset + 1).setWidth 64 > size then .einval
    else if writeCmd + 1 > BitVec.ofNat 32 maxWriteOperationsSupported then .einval
    else match seekLoop cb writeCmd uint8Rounds 0 cb.outOffs 0 with
      | none => .endless
      | some fp => .adjusted (fp + writeCmdOffset.setWidth 64)

/-- A call of `AESDCHAR_IOCSEEKTO` as far as the environment decides it: the
    lock attempt, and the memory past the `entry` array. -/
structure SeekCall where
  writeCmd : UInt32T
  writeCmdOffset : UInt32T
  lock : LockAttempt
  beyond : Nat → Option SizeT

/-- `aesd_adjust_file_offset`. -/
def aesdAdjustFileOffset (d : Dev) (c : SeekCall) : Option (Int × Dev) :=
  match c.lock with
  | .interrupted => some (-ERESTARTSYS, d)
  | .granted =>
    match seekBody d.cb c.beyond c.writeCmd c.writeCmdOffset with
    | .fault => none
    | .endless => none
    | .einval => some (-EINVAL, d)
    | .adjusted fp => some (0, { d with cbIoctlOffs := fp })

def AESD_IOC_MAGIC : UInt32T := 0x16

def AESDCHAR_IOC_MAXNR : UInt32T := 1

/-- `_IOC_TYPE` and `_IOC_NR` of `asm-generic/ioctl.h`. -/
def iocType (cmd : UInt32T) : UInt32T := (cmd >>> 8) &&& 0xff

def iocNr (cmd : UInt32T) : UInt32T := cmd &&& 0xff

/-- `_IOWR(AESD_IOC_MAGIC, 1, struct aesd_seekto)`: both directions, eight bytes. -/
def AESDCHAR_IOCSEEKTO : UInt32T := (3 <<< 30) ||| (8 <<< 16) ||| (AESD_IOC_MAGIC <<< 8) ||| 1

/-- `aesd_ioctl` up to its call of `aesd_adjust_file_offset`; `arg` is `none`
    when `copy_from_user` cannot read the struct. -/
def ioctlSeek (cmd : UInt32T) (arg : Option SeekCall) : Except Int SeekCall :=
  if iocType cmd ≠ AESD_IOC_MAGIC then .error (-ENOTTY)
  else if iocNr cmd > AESDCHAR_IOC_MAXNR then .error (-ENOTTY)
  else if cmd = AESDCHAR_IOCSEEKTO then
    match arg with
    | none => .error (-EFAULT)
    | some st => .ok st
  else .error (-ENOTTY)

/-- `aesd_ioctl`. -/
def aesdIoctl (d : Dev) (cmd : UInt32T) (arg : Option SeekCall) : Option (Int × Dev) :=
  match ioctlSeek cmd arg with
  | .error retval => some (retval, d)
  | .ok st => aesdAdjustFileOffset d st

/-- A call of `aesd_read`, with the lock attempt and whether `copy_to_user` faults. -/
structure ReadCall where
  count : SizeT
  lock : LockAttempt
  faults : Bool

/-- What `aesd_read` returns, the bytes it copied out, and the new `*f_pos`. -/
structure ReadResult where
  retval : Int
  bytes : List UInt8
  pos : LoffT
  deriving Repr, DecidableEq

/-- One round of the second walk: the starting slot ends it, with the number of
    bytes to copy and the bytes. -/
def readRound (d : Dev) (startingEntry : Nat) (startingEntryOffset count : SizeT) (i : Nat)
    (_ : Unit) : Except (SizeT × List UInt8) Unit :=
  if i = startingEntry then
    let e := d.cb.slot i
    let n := if count > e.size - startingEntryOffset then e.size - startingEntryOffset else count
    .error (n, ((d.blockBytes e.buffptr).drop startingEntryOffset.toNat).take n.toNat)
  else .ok ()

/-- `aesd_read`. -/
def aesdRead (d : Dev) (pos : LoffT) (c : ReadCall) : Option ReadResult :=
  match c.lock with
  | .interrupted => some ⟨-ERESTARTSYS, [], pos⟩
  | .granted =>
    let readPos := pos + d.cbIoctlOffs
    match d.cb.findEntryOffsetForFpos readPos with
    | none => none
    | some none => some ⟨0, [], pos⟩
    | some (some (startingEntry, startingEntryOffset)) =>
      match d.cb.forSlots (readRound d startingEntry startingEntryOffset c.count) uint8Rounds 0
          d.cb.outOffs () with
      | none => none
      | some (.ok ()) => some ⟨0, [], pos⟩
      | some (.error (n, bytes)) =>
        if c.faults then some ⟨-EFAULT, [], pos⟩
        else some ⟨n.toInt, bytes, pos + (n - d.cbIoctlOffs)⟩

/-- `fixed_size_llseek` on a position, an offset, a `whence` and a size: what it
    returns and the position it leaves.  It is kernel code. -/
abbrev FixedSizeLlseek := LoffT → LoffT → Int → LoffT → Int × LoffT

def SEEK_SET : Int := 0

def SEEK_CUR : Int := 1

def SEEK_END : Int := 2

/-- The position that a `whence` and an offset name. -/
def seekTarget (pos off : LoffT) (whence : Int) (size : LoffT) : Option Int :=
  if whence = SEEK_SET then some off.toInt
  else if whence = SEEK_CUR then some (pos.toInt + off.toInt)
  else if whence = SEEK_END then some (size.toInt + off.toInt)
  else none

/-- `fixed_size_llseek`, from its documentation. -/
def fixedSizeLlseek : FixedSizeLlseek := fun pos off whence size =>
  match seekTarget pos off whence size with
  | some target =>
    if 0 ≤ target ∧ target ≤ size.toInt then (target, BitVec.ofInt 64 target) else (-EINVAL, pos)
  | none => (-EINVAL, pos)

/-- `aesd_llseek`.  What the helper returns is dropped; `retval` stays 0. -/
def aesdLlseek (fixedSizeLlseek : FixedSizeLlseek) (d : Dev) (pos off : LoffT) (whence : Int) :
    Int × LoffT :=
  let retval : Int := 0
  let (_, pos) := fixedSizeLlseek pos off whence d.cbSize
  if retval < 0 then (-EINVAL, pos) else (retval, pos)

/-- A driver call, with the `*f_pos` it is made with. -/
inductive Op where
  | write (pos : LoffT) (c : WriteCall)
  | read (pos : LoffT) (c : ReadCall)
  | ioctl (cmd : UInt32T) (arg : Option SeekCall)
  | llseek (pos off : LoffT) (whence : Int)

/-- The device after a call that returns. -/
def Dev.after (d : Dev) : Op → Option Dev
  | .write pos c => some (aesdWrite d pos c).2.1
  | .read pos c => (aesdRead d pos c).map fun _ => d
  | .ioctl cmd arg => (aesdIoctl d cmd arg).map Prod.snd
  | .llseek _ _ _ => some d

/-- The driver taking one whole call after another, each with any outcome. -/
def driver (K : Kernel) : Lts Dev Op where
  init d := d = Dev.afterInit K
  step d op d' := d.after op = some d'

/-- A device state that some sequence of calls leads to. -/
def Reachable (K : Kernel) (d : Dev) : Prop := (driver K).Reach Lts.anyStep d

end Aesd.Driver
