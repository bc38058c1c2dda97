import Aesd.Driver.SeekSpec
import Aesd.Lib.Mutex

/-! # Calls of many processes, step by step

The operations of `main.c` between their lock and unlock calls, as code that any
number of processes run interleaved.  The pieces are those of the whole calls;
`alone_call` says that they add up to them.
-/

namespace Aesd.Driver

open Aesd.Lib Aesd.Lib.Mutex

/-- The two mutexes of `struct aesd_dev`. -/
inductive DevMutex where
  | we
  | cb
  deriving Repr, DecidableEq

/-- Where a process is, with the local variables that are still needed there. -/
inductive Pc where
  /-- In user space, with what its last call returned. -/
  | user (returned : Option Int)
  | write (pos : LoffT) (c : WriteCall)
  | writeFill (pos : LoffT) (c : WriteCall)
  | writeLock (c : WriteCall) (finished : BufferEntry Nat)
  | writeInsert (c : WriteCall) (finished : BufferEntry Nat)
  | writeAccount (c : WriteCall) (finished : BufferEntry Nat) (oldsize : SizeT)
      (oldbuffptr : Option Nat)
  | writeFree (c : WriteCall) (oldbuffptr : Option Nat)
  | writeUnlock (c : WriteCall)
  | writeReset (c : WriteCall)
  | writeOut (retval : Int)
  | read (pos : LoffT) (c : ReadCall)
  | readBody (pos : LoffT) (c : ReadCall)
  | readOut (retval : Int)
  | ioctl (cmd : UInt32T) (arg : Option SeekCall)
  | seek (st : SeekCall)
  | seekBody (st : SeekCall)
  | seekOut
  | llseek (pos off : LoffT) (whence : Int)

namespace Pc

def outside : Pc → Bool
  | .user _ => true
  | _ => false

/-- Where a call starts. -/
def enter : Op → Pc
  | .write pos c => .write pos c
  | .read pos c => .read pos c
  | .ioctl cmd arg => .ioctl cmd arg
  | .llseek pos off whence => .llseek pos off whence

/-- One step of the process.  An interrupted lock attempt returns at once; a seek
    that fails a check returns from under its lock. -/
def next (fixedSizeLlseek : FixedSizeLlseek) : Pc → Dev → Option (LockOp DevMutex × Pc × Dev)
  | .user _, _ => none
  | .write pos c, d =>
    match c.weLock with
    | .interrupted => some (.none, .user (some (-ERESTARTSYS)), d)
    | .granted => some (.lock .we, .writeFill pos c, d)
  | .writeFill pos c, d =>
    match d.stage pos c with
    | (.out retval, d, _) => some (.none, .writeOut retval, d)
    | (.commit finished, d, _) => some (.none, .writeLock c finished, d)
  | .writeLock c finished, d =>
    match c.cbLock with
    | .interrupted => some (.none, .writeOut (-ERESTARTSYS), d)
    | .granted => some (.lock .cb, .writeInsert c finished, d)
  | .writeInsert c finished, d =>
    let (d, oldsize, oldbuffptr) := d.replaceOldest finished
    some (.none, .writeAccount c finished oldsize oldbuffptr, d)
  | .writeAccount c finished oldsize oldbuffptr, d =>
    some (.none, .writeFree c oldbuffptr, d.accountSize finished oldsize)
  | .writeFree c oldbuffptr, d => some (.none, .writeUnlock c, d.freeOld oldbuffptr)
  | .writeUnlock c, d => some (.unlock .cb, .writeReset c, d)
  | .writeReset c, d => some (.none, .writeOut c.count.toInt, d.resetWorking)
  | .writeOut retval, d => some (.unlock .we, .user (some retval), d)
  | .read pos c, d =>
    match c.lock with
    | .interrupted => some (.none, .user (some (-ERESTARTSYS)), d)
    | .granted => some (.lock .cb, .readBody pos c, d)
  | .readBody pos c, d =>
    (aesdRead d pos { c with lock := .granted }).map fun r => (.none, .readOut r.retval, d)
  | .readOut retval, d => some (.unlock .cb, .user (some retval), d)
  | .ioctl cmd arg, d =>
    match ioctlSeek cmd arg with
    | .error retval => some (.none, .user (some retval), d)
    | .ok st => some (.none, .seek st, d)
  | .seek st, d =>
    match st.lock with
    | .interrupted => some (.none, .user (some (-ERESTARTSYS)), d)
    | .granted => some (.lock .cb, .seekBody st, d)
  | .seekBody st, d =>
    match Driver.seekBody d.cb st.beyond st.writeCmd st.writeCmdOffset with
    | .fault => none
    | .endless => none
    | .einval => some (.none, .user (some (-EINVAL)), d)
    | .adjusted fp => some (.none, .seekOut, { d with cbIoctlOffs := fp })
  | .seekOut, d => some (.unlock .cb, .user (some 0), d)
  | .llseek pos off whence, d =>
    some (.none, .user (some (aesdLlseek fixedSizeLlseek d pos off whence).1), d)

/-- The mutexes locked at a program point. -/
def holds : Pc → DevMutex → Prop
  | .writeFill _ _, m | .writeLock _ _, m | .writeReset _, m | .writeOut _, m => m = .we
  | .writeInsert _ _, _ | .writeAccount _ _ _ _, _ | .writeFree _ _, _ | .writeUnlock _, _ => True
  | .readBody _ _, m | .readOut _, m | .seekBody _, m | .seekOut, m => m = .cb
  | _, _ => False

/-- The mutex that a process is about to lock, and may have to wait for. -/
def waits : Pc → DevMutex → Prop
  | .write _ _, m => m = .we
  | .writeLock _ _, m | .read _ _, m | .seek _, m => m = .cb
  | _, _ => False

end Pc

/-- The code of the driver. -/
def driverCode (fixedSizeLlseek : FixedSizeLlseek) : Code DevMutex Pc Op Dev where
  outside := Pc.outside
  enter := Pc.enter
  next := Pc.next fixedSizeLlseek

abbrev DriverSystem (Pid : Type) := System Pid DevMutex Pc Dev

/-- Processes that use the device, from module init on. -/
def users (Pid : Type) [DecidableEq Pid] (f : FixedSizeLlseek) (K : Kernel) :
    Lts (DriverSystem Pid) (Pid × Option Op) :=
  processes (driverCode f) (· = Dev.afterInit K)

/-- Right after module init, with nobody inside the driver. -/
def usersStart (Pid : Type) (K : Kernel) : DriverSystem Pid :=
  ⟨Dev.afterInit K, fun _ => none, fun _ => 0, fun _ => .user none⟩

theorem usersStart_init {Pid : Type} [DecidableEq Pid] (f : FixedSizeLlseek) (K : Kernel) :
    (users Pid f K).init (usersStart Pid K) :=
  ⟨rfl, fun _ => rfl, fun _ => rfl⟩

/-- A whole call: its return value and the device it leaves. -/
def Dev.call (fixedSizeLlseek : FixedSizeLlseek) (d : Dev) : Op → Option (Int × Dev)
  | .write pos c => some ((aesdWrite d pos c).1, (aesdWrite d pos c).2.1)
  | .read pos c => (aesdRead d pos c).map fun r => (r.retval, d)
  | .ioctl cmd arg => aesdIoctl d cmd arg
  | .llseek pos off whence => some ((aesdLlseek fixedSizeLlseek d pos off whence).1, d)

section

attribute [local simp] Code.alone driverCode Pc.enter Pc.outside Pc.next Dev.call

theorem alone_write (f : FixedSizeLlseek) (d : Dev) (pos : LoffT) (c : WriteCall) :
    (driverCode f).alone 10 (.write pos c) d =
      some (.user (some (aesdWrite d pos c).1), (aesdWrite d pos c).2.1) := by
  cases lock : c.weLock with
  | interrupted => simp [aesdWrite, lock]
  | granted =>
      rcases staged : d.stage pos c with ⟨retval | finished, d', pos'⟩
      · simp [aesdWrite, lock, staged]
      · cases cbLock : c.cbLock with
        | interrupted => simp [aesdWrite, lock, staged, cbLock]
        | granted => simp [aesdWrite, lock, staged, cbLock, Dev.insert]

theorem alone_read (f : FixedSizeLlseek) (d : Dev) (pos : LoffT) (c : ReadCall) :
    (driverCode f).alone 10 (.read pos c) d =
      (aesdRead d pos c).map fun r => (.user (some r.retval), d) := by
  obtain ⟨count, lock, faults⟩ := c
  cases lock with
  | interrupted => simp [aesdRead]
  | granted => cases result : aesdRead d pos ⟨count, .granted, faults⟩ <;> simp [result]

theorem alone_ioctl (f : FixedSizeLlseek) (d : Dev) (cmd : UInt32T) (arg : Option SeekCall) :
    (driverCode f).alone 10 (.ioctl cmd arg) d =
      (aesdIoctl d cmd arg).map fun (retval, d') => (.user (some retval), d') := by
  cases checked : ioctlSeek cmd arg with
  | error retval => simp [aesdIoctl, checked]
  | ok st =>
      cases lock : st.lock with
      | interrupted => simp [aesdIoctl, aesdAdjustFileOffset, checked, lock]
      | granted =>
          cases result : seekBody d.cb st.beyond st.writeCmd st.writeCmdOffset <;>
            simp [aesdIoctl, aesdAdjustFileOffset, checked, lock, result]

theorem alone_call (f : FixedSizeLlseek) (d : Dev) (op : Op) :
    (driverCode f).alone 10 (Pc.enter op) d =
      (d.call f op).map fun (retval, d') => (.user (some retval), d') := by
  cases op with
  | write pos c => exact alone_write f d pos c
  | read pos c => rw [Pc.enter, alone_read, Dev.call, Option.map_map]; rfl
  | ioctl cmd arg => exact alone_ioctl f d cmd arg
  | llseek pos off whence => rfl

end

/-- The seek that a process stands in, under its lock. -/
def Pc.seeking : Pc → Option SeekCall
  | .seekBody st => some st
  | _ => none

/-- The two checks of `aesd_adjust_file_offset` against the size it read. -/
def SeekCall.Passes (st : SeekCall) (size : SizeT) : Prop :=
  ¬(st.writeCmdOffset + 1).setWidth 64 > size ∧
    ¬st.writeCmd + 1 > BitVec.ofNat 32 maxWriteOperationsSupported

instance (st : SeekCall) : DecidablePred st.Passes :=
  fun _ => inferInstanceAs (Decidable (_ ∧ _))

/-- A process under the lock of a seek can read the slot, and gets past both checks. -/
def ChecksPass (pc : Pc) (d : Dev) : Prop :=
  ∀ st ∈ pc.seeking, ∃ size ∈ entrySize d.cb st.beyond st.writeCmd, st.Passes size

instance (pc : Pc) (d : Dev) : Decidable (ChecksPass pc d) :=
  @Option.decidableForallMem _ _ (fun _ => Option.decidableExistsMem _) pc.seeking

/-- A seek that has read the slot is refused exactly when a check fails. -/
theorem seekBody_einval_iff {cb : CircularBuffer Nat} {st : SeekCall} {size : SizeT}
    (found : entrySize cb st.beyond st.writeCmd = some size) :
    seekBody cb st.beyond st.writeCmd st.writeCmdOffset = .einval ↔ ¬st.Passes size := by
  simp only [seekBody, found, SeekCall.Passes]
  split
  · rename_i first
    exact iff_of_true rfl fun passes => passes.1 first
  · rename_i first
    split
    · rename_i second
      exact iff_of_true rfl fun passes => passes.2 second
    · rename_i second
      refine iff_of_false ?_ fun fails => fails ⟨first, second⟩
      split <;> simp

theorem seekBody_ne_einval {d : Dev} {st : SeekCall} (passes : ChecksPass (.seekBody st) d) :
    seekBody d.cb st.beyond st.writeCmd st.writeCmdOffset ≠ .einval := by
  obtain ⟨size, found, passes⟩ := passes st rfl
  exact fun refused => (seekBody_einval_iff found).mp refused passes

/-- A step of a process that does not pass the checks is a refused seek: one that
    faults takes no step. -/
theorem seekBody_eq_einval {f : FixedSizeLlseek} {d : Dev} {pc : Pc}
    {after : LockOp DevMutex × Pc × Dev} (fails : ¬ChecksPass pc d)
    (taken : Pc.next f pc d = some after) :
    ∃ st, pc = .seekBody st ∧
      seekBody d.cb st.beyond st.writeCmd st.writeCmdOffset = .einval := by
  cases pc with
  | seekBody st =>
      refine ⟨st, rfl, ?_⟩
      cases found : entrySize d.cb st.beyond st.writeCmd with
      | none => simp [Pc.next, seekBody, found] at taken
      | some size =>
          refine (seekBody_einval_iff found).mpr fun passes => fails fun other same => ?_
          obtain rfl := Option.some.inj same
          exact ⟨size, found, passes⟩
  | _ => exact absurd (fun _ same => by cases same) fails

/-- Every step between lock and unlock keeps to `holds`, except the return of a
    seek that failed a check. -/
theorem next_holds {f : FixedSizeLlseek} {pc pc' : Pc} {d d' : Dev} {op : LockOp DevMutex}
    (taken : Pc.next f pc d = some (op, pc', d')) :
    (∀ l, pc'.holds l ↔ op.after pc.holds l) ∨
      ∃ st retval, pc = .seekBody st ∧ pc' = .user retval ∧
        seekBody d.cb st.beyond st.writeCmd st.writeCmdOffset = .einval := by
  cases pc with
  | user => cases taken
  | writeInsert | writeAccount | writeFree | writeUnlock | writeReset | writeOut | readOut
  | seekOut | llseek =>
      cases taken
      exact .inl fun l => by cases l <;> simp [Pc.holds, LockOp.after]
  | write | writeFill | writeLock | read | ioctl | seek =>
      simp only [Pc.next] at taken
      split at taken <;> cases taken <;>
        exact .inl fun l => by cases l <;> simp [Pc.holds, LockOp.after]
  | readBody pos c =>
      obtain ⟨r, _, step⟩ := Option.map_eq_some_iff.mp taken
      cases step
      exact .inl fun _ => Iff.rfl
  | seekBody st =>
      simp only [Pc.next] at taken
      split at taken
      · cases taken
      · cases taken
      · rename_i refused
        cases taken
        exact .inr ⟨st, _, rfl, rfl, refused⟩
      · cases taken
        exact .inl fun _ => Iff.rfl

theorem unlock_holds {f : FixedSizeLlseek} {pc pc' : Pc} {d d' : Dev} {l : DevMutex}
    (taken : Pc.next f pc d = some (.unlock l, pc', d')) : pc.holds l := by
  cases pc with
  | user | writeInsert | writeAccount | writeFree | writeReset | llseek => cases taken
  | writeUnlock | writeOut | readOut | seekOut =>
      cases taken
      simp [Pc.holds]
  | write | writeFill | writeLock | read | ioctl | seek | seekBody =>
      simp only [Pc.next] at taken
      split at taken <;> cases taken
  | readBody pos c =>
      obtain ⟨r, _, step⟩ := Option.map_eq_some_iff.mp taken
      cases step

theorem not_holds_of_outside {pc : Pc} (out : pc.outside) (l : DevMutex) : ¬pc.holds l := by
  cases pc with
  | user returned => exact id
  | _ => cases out

theorem not_holds_enter (call : Op) (l : DevMutex) : ¬(Pc.enter call).holds l := by
  cases call <;> exact id

theorem driverCode_disciplined (f : FixedSizeLlseek) :
    Disciplined (driverCode f) ChecksPass Pc.holds where
  outside _ l out := not_holds_of_outside out l
  enter := not_holds_enter
  next := by
    intro pc d op pc' d' passes taken
    rcases next_holds taken with held | ⟨st, _, rfl, _, refused⟩
    · exact held
    · exact absurd refused (seekBody_ne_einval passes)
  unlock _ _ _ _ _ taken := unlock_holds taken

/-- `cb_mutex` is only waited for inside `we_mutex`, never the other way round. -/
def DevMutex.rank : DevMutex → Nat
  | .we => 0
  | .cb => 1

theorem waits_ascending (pc : Pc) (l m : DevMutex) (waits : pc.waits l) (held : pc.holds m) :
    m.rank < l.rank := by
  cases pc with
  | writeLock c finished =>
      obtain rfl : l = .cb := waits
      obtain rfl : m = .we := held
      exact Nat.one_pos
  | write | read | seek => cases held
  | _ => cases waits

/-- The mutexes are as they should be: each is free or with a process that is
    still inside the call that locked it, and no two processes wait for each other. -/
structure MutexesKept {Pid : Type} (s : DriverSystem Pid) : Prop where
  inside : ∀ m p n, s.owner m = some (p, n) → s.serial p = n ∧ ¬(s.pc p).outside
  noDeadlock : ∀ p q, ¬(WaitsFor Pc.waits s p q ∧ WaitsFor Pc.waits s q p)

theorem mutexesKept_of_owned {Pid : Type} {s : DriverSystem Pid} (f : FixedSizeLlseek)
    (owned : Owned Pc.holds s) : MutexesKept s where
  inside _ _ _ owner := owned.inside (driverCode_disciplined f) owner
  noDeadlock p _ circle := owned.acyclic waits_ascending p
    ((Relation.TransGen.single circle.1).tail circle.2)

variable {Pid : Type} [DecidableEq Pid]

/-- The step of a seek that fails a check returns with `cb_mutex` locked. -/
theorem not_mutexesKept_of_refused {f : FixedSizeLlseek} {s s' : DriverSystem Pid} {p : Pid}
    (owned : Owned Pc.holds s) (fails : ¬ChecksPass (s.pc p) s.data)
    (taken : Step (driverCode f) s (p, none) s') : ¬MutexesKept s' := by
  obtain ⟨op, step⟩ := taken.next
  obtain ⟨st, stands, refused⟩ := seekBody_eq_einval fails step
  have returns : (driverCode f).next (s.pc p) s.data =
      some (.none, .user (some (-EINVAL)), s.data) := by
    simp only [driverCode, stands, Pc.next, refused]
  have owner : s.owner .cb = some (p, s.serial p) := by
    refine (owned .cb p _).mpr ⟨rfl, ?_⟩
    rw [stands]
    rfl
  intro kept
  cases taken with
  | quiet next =>
      rw [returns] at next
      cases next
      have inside := (kept.inside .cb p (s.serial p) owner).2
      simp [Pc.outside] at inside
  | lock next => simp [returns] at next
  | unlock next => simp [returns] at next

/-- Interleavings in which every seek under its lock passes both checks keep the
    mutexes, and the first seek that fails one loses `cb_mutex`. -/
theorem mutexes_kept {f : FixedSizeLlseek} {K : Kernel} {s : DriverSystem Pid}
    (reach : (users Pid f K).Reach (within ChecksPass) s) :
    MutexesKept s ∧ ∀ p s', (users Pid f K).step s (p, none) s' → ¬ChecksPass (s.pc p) s.data →
      ¬MutexesKept s' := by
  have owned := owned_of_reach (driverCode_disciplined f) reach
  exact ⟨mutexesKept_of_owned f owned,
    fun _ _ taken fails => not_mutexesKept_of_refused owned fails taken⟩

theorem users_run (ok : DriverSystem (Fin 3) → Fin 3 × Option Op → Prop)
    [∀ s label, Decidable (ok s label)] (P : DriverSystem (Fin 3) → Prop) [DecidablePred P]
    (labels : List (Fin 3 × Option Op))
    (computed : (labels.foldlM (Lts.allowing ok (exec (driverCode fixedSizeLlseek)))
      (usersStart (Fin 3) .pc)).any (fun s => decide (P s)) = true) :
    ∃ s, (users (Fin 3) fixedSizeLlseek .pc).Reach ok s ∧ P s := by
  obtain ⟨s, run, holds⟩ :=
    Lts.exists_run (fun _ _ _ => exec_iff.mp) (usersStart_init fixedSizeLlseek .pc) labels computed
  exact ⟨s, ⟨labels, run⟩, holds⟩

/-- A write from its first statement to its last, with nothing in between. -/
def wholeWrite (p : Fin 3) (data : List UInt8) (fits : data.length < 2 ^ 64) :
    List (Fin 3 × Option Op) :=
  (p, some (.write 0 (.ofBytes .pc data fits))) :: List.replicate 9 (p, none)

/-- Ten lines of process 0 and a longer one of process 1, which evicts the first. -/
def evicting : List (Fin 3 × Option Op) :=
  (List.replicate 10 (wholeWrite 0 [97, newline] (by decide))).flatten ++
    wholeWrite 1 [98, 98, 98, 98, newline] (by decide)

/-- After two lines and a seek that is accepted, process 0 has a third line in hand
    under `we_mutex`, and process 2 is under the lock of a seek that is not. -/
def acceptedSeek : List (Fin 3 × Option Op) :=
  wholeWrite 0 [97, newline] (by decide) ++ wholeWrite 0 [98, newline] (by decide) ++
    [(1, some (.ioctl AESDCHAR_IOCSEEKTO (some ⟨1, 1, .granted, fun _ => none⟩))),
      (0, some (.write 0 (.ofBytes .pc [99, newline] (by decide)))), (1, none), (0, none), (1, none),
      (2, some (.ioctl AESDCHAR_IOCSEEKTO (some ⟨1, 2, .granted, fun _ => none⟩))), (0, none),
      (1, none), (2, none), (1, none), (2, none)]

theorem mutexes_kept_seeks : ∃ s s' : DriverSystem (Fin 3),
    s.data.cbIoctlOffs = 3 ∧ s.owner .we = some (0, 3) ∧ s.owner .cb = some (2, 1) ∧
      MutexesKept s ∧ ¬MutexesKept s' := by
  obtain ⟨s, reach, offs, we, cb, fails, goes⟩ := users_run (within ChecksPass)
    (fun s => s.data.cbIoctlOffs = 3 ∧ s.owner .we = some (0, 3) ∧ s.owner .cb = some (2, 1) ∧
      ¬ChecksPass (s.pc 2) s.data ∧ (exec (driverCode fixedSizeLlseek) s (2, none)).isSome)
    acceptedSeek (by decide +kernel)
  obtain ⟨s', taken⟩ := Option.isSome_iff_exists.mp goes
  have kept := mutexes_kept reach
  exact ⟨s, s', offs, we, cb, kept.1, kept.2 2 s' (exec_iff.mp taken) fails⟩

/-- A seek on an empty buffer returns `-EINVAL` and takes `cb_mutex` with it. -/
theorem refused_seek_keeps_mutex :
    ¬∀ (f : FixedSizeLlseek) (K : Kernel) (s : DriverSystem Nat),
      (users Nat f K).Reach Lts.anyStep s → MutexesKept s := by
  intro claim
  let st : SeekCall := ⟨0, 0, .granted, fun _ => none⟩
  let start : DriverSystem Nat := ⟨Dev.afterInit .pc, fun _ => none, fun _ => 0, fun _ => .user none⟩
  have initially : (users Nat fixedSizeLlseek .pc).Reach Lts.anyStep start :=
    Lts.Reach.init ⟨rfl, fun _ => rfl, fun _ => rfl⟩
  have called := initially.step trivial
    (Step.enter (p := 0) (c := Op.ioctl AESDCHAR_IOCSEEKTO (some st)) rfl)
  have checked := called.step trivial (Step.quiet (p := 0) rfl)
  have locked := checked.step trivial (Step.lock (p := 0) rfl rfl)
  have returned := locked.step trivial (Step.quiet (p := 0) rfl)
  exact (claim _ _ _ returned).inside .cb 0 1 rfl |>.2 rfl

end Aesd.Driver
