import Aesd.Driver.Phases
import Aesd.Lib.Linearization

/-! # What the callers of the driver see

The interleavings of `driverCode` once more, now with the memory of the callers
and with the history of their calls.  A call gives its caller a return value, the
bytes that `copy_to_user` has put into its buffer, and a new `*f_pos`; these are
written while the call is under way, each at its own step.
-/

namespace Aesd.Driver

open Aesd.Lib Aesd.Lib.Mutex Function

/-- What a call may write to: the buffer of a read, and `*f_pos`, which an
    `ioctl` is not given. -/
structure UserMemory where
  bytes : List UInt8
  pos : Option LoffT
  deriving Repr, DecidableEq

/-- What a call gives its caller. -/
structure CallResult where
  retval : Int
  memory : UserMemory
  deriving Repr, DecidableEq

/-- The memory with which a call begins. -/
def Op.memory : Op → UserMemory
  | .write pos _ | .read pos _ | .llseek pos _ _ => ⟨[], some pos⟩
  | .ioctl _ _ => ⟨[], none⟩

/-- A whole call, with everything it gives its caller. -/
def Dev.callResult (fixedSizeLlseek : FixedSizeLlseek) (d : Dev) : Op → Option (CallResult × Dev)
  | .write pos c =>
    let (retval, d, pos) := aesdWrite d pos c
    some (⟨retval, [], some pos⟩, d)
  | .read pos c => (aesdRead d pos c).map fun r => (⟨r.retval, r.bytes, some r.pos⟩, d)
  | .ioctl cmd arg => (aesdIoctl d cmd arg).map fun (retval, d) => (⟨retval, [], none⟩, d)
  | .llseek pos off whence =>
    let (retval, pos) := aesdLlseek fixedSizeLlseek d pos off whence
    some (⟨retval, [], some pos⟩, d)

namespace Pc

/-- What the next step of a process writes to its caller's memory. -/
def deliver (fixedSizeLlseek : FixedSizeLlseek) : Pc → Dev → UserMemory → UserMemory
  | .writeFill pos c, d, m => { m with pos := some (d.stage pos c).2.2 }
  | .readBody pos c, d, m =>
    match aesdRead d pos { c with lock := .granted } with
    | none => m
    | some r => ⟨r.bytes, some r.pos⟩
  | .llseek pos off whence, d, m =>
    { m with pos := some (aesdLlseek fixedSizeLlseek d pos off whence).2 }
  | _, _, m => m

/-- What the last call has returned, in user space. -/
def returned : Pc → Option Int
  | .user returned => returned
  | _ => none

end Pc

/-- The driver, its callers' memory, and what they have seen.  A call goes by its
    process and its number. -/
structure Observed (Pid : Type) where
  sys : DriverSystem Pid
  memory : Pid → UserMemory
  history : List (CallEvent (Pid × Nat) Op CallResult)

section

variable {Pid : Type} [DecidableEq Pid]

/-- The driver has taken a step: a call has begun, or gone on and maybe returned. -/
def Observed.after (f : FixedSizeLlseek) (w : Observed Pid) (sys : DriverSystem Pid) :
    Pid × Option Op → Observed Pid
  | (p, some op) =>
    ⟨sys, update w.memory p op.memory, w.history ++ [.invoke (p, sys.serial p) op]⟩
  | (p, none) =>
    let memory := (w.sys.pc p).deliver f w.sys.data (w.memory p)
    ⟨sys, update w.memory p memory,
      w.history ++ match (sys.pc p).returned with
        | none => []
        | some retval => [.reply (p, sys.serial p) ⟨retval, memory⟩]⟩

/-- Processes that use the device, with what they see of it. -/
def observed (Pid : Type) [DecidableEq Pid] (f : FixedSizeLlseek) (K : Kernel) :
    Lts (Observed Pid) (Pid × Option Op) where
  init w := (users Pid f K).init w.sys ∧ w.history = []
  step w label w' := ∃ sys, (users Pid f K).step w.sys label sys ∧ w' = w.after f sys label

@[simp] theorem Observed.after_sys (f : FixedSizeLlseek) (w : Observed Pid)
    (sys : DriverSystem Pid) (label : Pid × Option Op) : (w.after f sys label).sys = sys := by
  obtain ⟨p, _ | op⟩ := label <;> rfl

theorem users_of_observed {f : FixedSizeLlseek} {K : Kernel} {w : Observed Pid}
    (reach : (observed Pid f K).Reach Lts.anyStep w) :
    (users Pid f K).Reach Lts.anyStep w.sys := by
  refine Lts.Reach.induct (fun w : Observed Pid => (users Pid f K).Reach Lts.anyStep w.sys) ?_ ?_ reach
  · rintro w ⟨initial, _⟩
    exact Lts.Reach.init initial
  · rintro w label _ before _ ⟨sys, taken, rfl⟩
    rw [Observed.after_sys]
    exact before.step trivial taken

theorem observed_of_users {f : FixedSizeLlseek} {K : Kernel} {labels : List (Pid × Option Op)}
    {s : DriverSystem Pid} (run : (users Pid f K).Run Lts.anyStep labels s) :
    ∃ w, (observed Pid f K).Run Lts.anyStep labels w ∧ w.sys = s := by
  refine run.induct
    (fun labels s => ∃ w, (observed Pid f K).Run Lts.anyStep labels w ∧ w.sys = s) ?_ ?_
  · intro s initial
    exact ⟨⟨s, fun _ => ⟨[], none⟩, []⟩, .nil ⟨initial, rfl⟩, rfl⟩
  · rintro labels _ label s' ⟨w, before, rfl⟩ _ taken
    exact ⟨w.after f s' label, .snoc before trivial ⟨s', taken, rfl⟩, w.after_sys f s' label⟩

end

/-- A call that has not taken effect, or one that has, with what it will give. -/
inductive CallStatus where
  | pending (op : Op)
  | taken (r : CallResult)

/-- Where a call is at each program point: `D` is the device as the calls that have
    taken effect leave it, one after another, and `d` is the device as it is.  A
    write takes effect where `cb_size` is brought up to date. -/
inductive Local (D d : Dev) (m : UserMemory) : CallStatus → Pc → Prop where
  | write {pos c} (own : m = ⟨[], some pos⟩) : Local D d m (.pending (.write pos c)) (.write pos c)
  | writeFill {pos c} (own : m = ⟨[], some pos⟩) (weLock : c.weLock = .granted) (same : d = D) :
      Local D d m (.pending (.write pos c)) (.writeFill pos c)
  | writeLock {pos c finished pos'} (own : m = ⟨[], some pos'⟩) (weLock : c.weLock = .granted)
      (staged : D.stage pos c = (.commit finished, d, pos')) :
      Local D d m (.pending (.write pos c)) (.writeLock c finished)
  | writeInsert {pos c finished pos'} (own : m = ⟨[], some pos'⟩) (weLock : c.weLock = .granted)
      (cbLock : c.cbLock = .granted) (staged : D.stage pos c = (.commit finished, d, pos')) :
      Local D d m (.pending (.write pos c)) (.writeInsert c finished)
  | writeAccount {pos c finished pos' before oldsize oldbuffptr} (own : m = ⟨[], some pos'⟩)
      (weLock : c.weLock = .granted) (cbLock : c.cbLock = .granted)
      (staged : D.stage pos c = (.commit finished, before, pos'))
      (replaced : before.replaceOldest finished = (d, oldsize, oldbuffptr)) :
      Local D d m (.pending (.write pos c)) (.writeAccount c finished oldsize oldbuffptr)
  | writeFree {c oldbuffptr} (ahead : D = (d.freeOld oldbuffptr).resetWorking) :
      Local D d m (.taken ⟨c.count.toInt, m⟩) (.writeFree c oldbuffptr)
  | writeUnlock {c} (ahead : D = d.resetWorking) :
      Local D d m (.taken ⟨c.count.toInt, m⟩) (.writeUnlock c)
  | writeReset {c} (ahead : D = d.resetWorking) :
      Local D d m (.taken ⟨c.count.toInt, m⟩) (.writeReset c)
  | writeOut {retval} (same : d = D) : Local D d m (.taken ⟨retval, m⟩) (.writeOut retval)
  | read {pos c} (own : m = ⟨[], some pos⟩) : Local D d m (.pending (.read pos c)) (.read pos c)
  | readBody {pos c} (own : m = ⟨[], some pos⟩) (lock : c.lock = .granted) :
      Local D d m (.pending (.read pos c)) (.readBody pos c)
  | readOut {retval} : Local D d m (.taken ⟨retval, m⟩) (.readOut retval)
  | ioctl {cmd arg} (own : m = ⟨[], none⟩) : Local D d m (.pending (.ioctl cmd arg)) (.ioctl cmd arg)
  | seek {cmd arg st} (own : m = ⟨[], none⟩) (checked : ioctlSeek cmd arg = .ok st) :
      Local D d m (.pending (.ioctl cmd arg)) (.seek st)
  | seekBody {cmd arg st} (own : m = ⟨[], none⟩) (checked : ioctlSeek cmd arg = .ok st)
      (lock : st.lock = .granted) : Local D d m (.pending (.ioctl cmd arg)) (.seekBody st)
  | seekOut : Local D d m (.taken ⟨0, m⟩) .seekOut
  | llseek {pos off whence} (own : m = ⟨[], some pos⟩) :
      Local D d m (.pending (.llseek pos off whence)) (.llseek pos off whence)
  | user {retval} : Local D d m (.taken ⟨retval, m⟩) (.user (some retval))

theorem Local.enter (D d : Dev) (op : Op) : Local D d op.memory (.pending op) (Pc.enter op) := by
  cases op with
  | write pos c => exact .write rfl
  | read pos c => exact .read rfl
  | ioctl cmd arg => exact .ioctl rfl
  | llseek pos off whence => exact .llseek rfl

/-- All that a reader or a seek looks at is the same. -/
structure SameBuffer (D d : Dev) : Prop where
  cb : d.cb = D.cb
  offset : d.cbIoctlOffs = D.cbIoctlOffs
  blocks : ∀ i, d.blockBytes (D.cb.slot i).buffptr = D.blockBytes (D.cb.slot i).buffptr

theorem SameBuffer.refl (d : Dev) : SameBuffer d d := ⟨rfl, rfl, fun _ => rfl⟩

theorem SameBuffer.resetWorking (d : Dev) : SameBuffer d.resetWorking d := ⟨rfl, rfl, fun _ => rfl⟩

theorem SameBuffer.aesdRead {D d : Dev} (same : SameBuffer D d) (pos : LoffT) (c : ReadCall) :
    aesdRead d pos c = aesdRead D pos c := by
  have round : readRound d = readRound D := by
    funext start off count i _
    simp only [readRound, same.cb, same.blocks]
  simp only [Driver.aesdRead, same.cb, same.offset, round]

theorem Models.slot_inside {K : Kernel} {d : Dev} {added : List (BufferEntry Nat)}
    {committed : List (List UInt8)} (models : Models K d added committed) (i b : Nat)
    (points : (d.cb.slot i).buffptr = some b) : b < d.heap.length := by
  have blank : (BufferEntry.zero : BufferEntry Nat).buffptr ≠ some b := by simp [BufferEntry.zero]
  by_cases inside : i < 10
  · by_cases reached : ∃ m, ∃ _ : m < added.length, added.length ≤ m + 10 ∧ m % 10 = i
    · obtain ⟨m, short, near, rfl⟩ := reached
      rw [models.stores.slots.recent m short near] at points
      have member : some b ∈ added.map BufferEntry.buffptr :=
        points ▸ List.mem_map_of_mem (List.getElem_mem short)
      obtain ⟨_, same, bound⟩ := models.ptr_inside member
      rwa [Option.some.inj same]
    · have unused : added.length ≤ i := by
        by_contra fewer
        refine reached ⟨added.length - 1 - (added.length - 1 - i) % 10, ?_, ?_, ?_⟩ <;> omega
      rw [models.stores.slots.unused i unused inside] at points
      exact absurd points blank
  · have outside : d.cb.entry[i]? = none := Vector.getElem?_eq_none (by omega)
    rw [CircularBuffer.slot, outside] at points
    exact absurd points blank

theorem SameBuffer.allocated {K : Kernel} {D : Dev} {added : List (BufferEntry Nat)}
    {committed : List (List UInt8)} (models : Models K D added committed) (we : WorkingEntry)
    (more : Heap) : SameBuffer D { D with we, heap := D.heap ++ more } := by
  refine ⟨rfl, rfl, fun i => ?_⟩
  cases points : (D.cb.slot i).buffptr with
  | none => rfl
  | some b =>
      have inside := models.slot_inside i b points
      simp only [Dev.blockBytes, List.getElem?_append_left inside]

theorem stage_frame {d : Dev} (room : d.Room) (pos : LoffT) (c : WriteCall) :
    ∃ we more, (d.stage pos c).2.1 = { d with we, heap := d.heap ++ more } := by
  have outcome := stage_outcome room pos c
  generalize d.stage pos c = staged at outcome
  cases outcome with
  | refused => exact ⟨d.we, [], by rw [List.append_nil]⟩
  | short => exact ⟨(d.received c _).we, [], by rw [List.append_nil]; rfl⟩
  | noLine => exact ⟨(d.received c _).we, [], by rw [List.append_nil]; rfl⟩
  | noBlock => exact ⟨(d.received c _).completed.we, [], by rw [List.append_nil]; rfl⟩
  | line => exact ⟨_, _, rfl⟩

theorem stage_offset_comm (d : Dev) (fp pos : LoffT) (c : WriteCall) :
    Dev.stage { d with cbIoctlOffs := fp } pos c =
      ((d.stage pos c).1, { (d.stage pos c).2.1 with cbIoctlOffs := fp }, (d.stage pos c).2.2) := by
  unfold Dev.stage
  split
  · rfl
  · split
    · rfl
    · dsimp only [Dev.copyFromUser, Dev.advance]
      split
      · rfl
      · unfold Dev.finishEntry
        dsimp only [Dev.completed]
        split <;> rfl

end Aesd.Driver
