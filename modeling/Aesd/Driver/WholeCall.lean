import Aesd.Driver.Waiting

/-! # Calls of one process while nobody else is about

`wholeCall` takes the steps of one call, one after another, until the process is
back in user space, and has no result when one of them cannot be taken.  With both
mutexes free that is the operation as a whole, except that a seek which fails a
check keeps `cb_mutex`; with `cb_mutex` gone, nothing that needs it returns.
-/

namespace Aesd.Driver

open Aesd.Lib Aesd.Lib.Mutex Function

variable {Pid : Type} [DecidableEq Pid]

/-- The next steps of a process, until it is outside. -/
def goOn (f : FixedSizeLlseek) (p : Pid) : Nat → Observed Pid → Option (Observed Pid)
  | 0, _ => none
  | fuel + 1, w =>
    if (w.sys.pc p).outside then some w
    else (exec (driverCode f) w.sys (p, none)).bind fun sys => goOn f p fuel (w.after f sys (p, none))

/-- One call, from user space to user space. -/
def wholeCall (f : FixedSizeLlseek) (p : Pid) (w : Observed Pid) (op : Op) : Option (Observed Pid) :=
  (exec (driverCode f) w.sys (p, some op)).bind fun sys =>
    goOn f p 10 (w.after f sys (p, some op))

theorem reach_of_goOn {f : FixedSizeLlseek} {K : Kernel} {p : Pid} {fuel : Nat} {w w' : Observed Pid}
    (reach : (observed Pid f K).Reach Lts.anyStep w) (goes : goOn f p fuel w = some w') :
    (observed Pid f K).Reach Lts.anyStep w' ∧ (w'.sys.pc p).outside := by
  induction fuel generalizing w with
  | zero => cases goes
  | succ fuel ih =>
      rw [goOn] at goes
      split at goes
      · rename_i out
        obtain rfl := Option.some.inj goes
        exact ⟨reach, out⟩
      · obtain ⟨sys, computed, later⟩ := Option.bind_eq_some_iff.mp goes
        exact ih (reach.step trivial ⟨sys, exec_iff.mp computed, rfl⟩) later

theorem reach_of_wholeCall {f : FixedSizeLlseek} {K : Kernel} {p : Pid} {w w' : Observed Pid} {op : Op}
    (reach : (observed Pid f K).Reach Lts.anyStep w) (called : wholeCall f p w op = some w') :
    (observed Pid f K).Reach Lts.anyStep w' ∧ (w'.sys.pc p).outside := by
  obtain ⟨sys, computed, later⟩ := Option.bind_eq_some_iff.mp called
  exact reach_of_goOn (reach.step trivial ⟨sys, exec_iff.mp computed, rfl⟩) later

/-- The call is a seek that fails a check. -/
def Op.refused (d : Dev) : Op → Bool
  | .ioctl cmd arg =>
    match ioctlSeek cmd arg with
    | .error _ => false
    | .ok st => st.lock = .granted ∧
        seekBody d.cb st.beyond st.writeCmd st.writeCmdOffset = .einval
  | _ => false

/-- In the middle of a call: where the process is, the device, the owners of the
    mutexes, the memory of the call, and what has been seen of it. -/
def Observed.midway (w : Observed Pid) (p : Pid) (pc : Pc) (d : Dev)
    (owner : DevMutex → Option (Pid × Nat)) (m : UserMemory)
    (more : List (CallEvent (Pid × Nat) Op CallResult)) : Observed Pid where
  sys := ⟨d, owner, update w.sys.serial p (w.sys.serial p + 1), update w.sys.pc p pc⟩
  memory := update w.memory p m
  history := w.history ++ more

/-- What a step does to the owners. -/
def owners (owner : DevMutex → Option (Pid × Nat)) (me : Pid × Nat) :
    LockOp DevMutex → DevMutex → Option (Pid × Nat)
  | .none => owner
  | .lock l => update owner l (some me)
  | .unlock l => update owner l none

/-- What is seen of a step. -/
def seen (me : Pid × Nat) (pc : Pc) (m : UserMemory) : List (CallEvent (Pid × Nat) Op CallResult) :=
  match pc.returned with
  | none => []
  | some retval => [.reply me ⟨retval, m⟩]

section

variable {f : FixedSizeLlseek} {p : Pid} {w : Observed Pid} {pc pc' : Pc} {d d' : Dev}
  {owner : DevMutex → Option (Pid × Nat)} {m : UserMemory}
  {more : List (CallEvent (Pid × Nat) Op CallResult)} {op : LockOp DevMutex}

theorem goOn_midway (next : Pc.next f pc d = some (op, pc', d'))
    (free : ∀ l, op = .lock l → owner l = none)
    (fuel : Nat) :
    goOn f p (fuel + 1) (w.midway p pc d owner m more) =
      goOn f p fuel (w.midway p pc' d' (owners owner (p, w.sys.serial p + 1) op) (pc.deliver f d m)
        (more ++ seen (p, w.sys.serial p + 1) pc' (pc.deliver f d m))) := by
  have inside : pc.outside = false := by
    cases pc with
    | user => cases next
    | _ => rfl
  have step : exec (driverCode f) (w.midway p pc d owner m more).sys (p, none) =
      some (w.midway p pc' d' (owners owner (p, w.sys.serial p + 1) op) m more).sys := by
    have next' : (driverCode f).next pc d = some (op, pc', d') := next
    cases op with
    | none => simp only [exec, Observed.midway, update_self, next', owners, update_idem]
    | lock l => simp only [exec, Observed.midway, update_self, next', owners, update_idem, free l rfl,
        Option.isNone_none, if_true]
    | unlock l => simp only [exec, Observed.midway, update_self, next', owners, update_idem]
  have after : (w.midway p pc d owner m more).after f
      (w.midway p pc' d' (owners owner (p, w.sys.serial p + 1) op) m more).sys (p, none) =
        w.midway p pc' d' (owners owner (p, w.sys.serial p + 1) op) (pc.deliver f d m)
          (more ++ seen (p, w.sys.serial p + 1) pc' (pc.deliver f d m)) := by
    cases returned : pc'.returned <;>
      simp only [Observed.after, Observed.midway, update_self, update_idem, seen, returned,
        List.append_assoc]
  rw [goOn, step, Option.bind_some, after, if_neg]
  simp only [Observed.midway, update_self, inside, Bool.false_eq_true, not_false_eq_true]

omit [DecidableEq Pid] in
theorem takes_none (l : DevMutex) (locks : LockOp.none = .lock l) : owner l = none := by
  cases locks

omit [DecidableEq Pid] in
theorem takes_unlock (l' l : DevMutex) (locks : LockOp.unlock l' = .lock l) : owner l = none := by
  cases locks

theorem goOn_user (retval : Option Int) (fuel : Nat) :
    goOn f p (fuel + 1) (w.midway p (.user retval) d owner m more) =
      some (w.midway p (.user retval) d owner m more) := by
  rw [goOn, if_pos]
  simp only [Observed.midway, update_self, Pc.outside]

theorem goOn_stuck (inside : pc.outside = false)
    (stuck : exec (driverCode f) (w.midway p pc d owner m more).sys (p, none) = none) (fuel : Nat) :
    goOn f p fuel (w.midway p pc d owner m more) = none := by
  cases fuel with
  | zero => rfl
  | succ fuel =>
      rw [goOn, stuck, Option.bind_none, if_neg]
      simp only [Observed.midway, update_self, inside, Bool.false_eq_true, not_false_eq_true]

theorem wholeCall_midway (out : (w.sys.pc p).outside) (op : Op) :
    wholeCall f p w op = goOn f p 10 (w.midway p (Pc.enter op) w.sys.data w.sys.owner op.memory
      [.invoke (p, w.sys.serial p + 1) op]) := by
  have out' : (driverCode f).outside (w.sys.pc p) = true := out
  simp only [wholeCall, exec, out', if_true, Option.bind_some, Observed.after, update_self]
  rfl

omit [DecidableEq Pid] in
theorem update_back {l : DevMutex} {held : Option (Pid × Nat)} (free : owner l = none) :
    update (update owner l held) l none = owner := by
  rw [update_idem, ← free, update_eq_self]

/-- The owners of the mutexes after a whole call. -/
def Observed.ownersAfter (w : Observed Pid) (p : Pid) (op : Op) : DevMutex → Option (Pid × Nat) :=
  if op.refused w.sys.data then update w.sys.owner .cb (some (p, w.sys.serial p + 1))
  else w.sys.owner

/-- The system after a whole call. -/
def Observed.called (w : Observed Pid) (p : Pid) (op : Op) (r : CallResult) (d : Dev) : Observed Pid :=
  w.midway p (.user (some r.retval)) d (w.ownersAfter p op) r.memory
    [.invoke (p, w.sys.serial p + 1) op, .reply (p, w.sys.serial p + 1) r]

theorem wholeCall_write (out : (w.sys.pc p).outside) (we : w.sys.owner .we = none)
    (cb : w.sys.owner .cb = none) (pos : LoffT) (c : WriteCall) :
    wholeCall f p w (.write pos c) = (w.sys.data.callResult f (.write pos c)).map
      fun (r, d) => w.called p (.write pos c) r d := by
  rw [wholeCall_midway out]
  cases weLock : c.weLock with
  | interrupted =>
      have enter : Pc.next f (.write pos c) w.sys.data =
          some (.none, .user (some (-ERESTARTSYS)), w.sys.data) := by
        simp only [Pc.next, weLock]
      rw [Pc.enter, goOn_midway enter takes_none, goOn_user, callResult_write_interrupted f _ pos weLock]
      rfl
  | granted =>
      have enter : Pc.next f (.write pos c) w.sys.data =
          some (.lock .we, .writeFill pos c, w.sys.data) := by
        simp only [Pc.next, weLock]
      have takes : ∀ l, LockOp.lock DevMutex.we = .lock l → w.sys.owner l = none := by
        rintro _ ⟨⟩
        exact we
      rw [Pc.enter, goOn_midway enter takes]
      rcases staged : w.sys.data.stage pos c with ⟨retval | finished, d', pos'⟩
      · have fill : Pc.next f (.writeFill pos c) w.sys.data = some (.none, .writeOut retval, d') := by
          simp only [Pc.next, staged]
        have leave : Pc.next f (.writeOut retval) d' = some (.unlock .we, .user (some retval), d') := rfl
        rw [goOn_midway fill takes_none, goOn_midway leave (takes_unlock _), goOn_user,
          callResult_write_out f weLock staged]
        simp only [owners, update_back we, Pc.deliver, staged]
        rfl
      · have fill : Pc.next f (.writeFill pos c) w.sys.data =
            some (.none, .writeLock c finished, d') := by
          simp only [Pc.next, staged]
        rw [goOn_midway fill takes_none]
        cases cbLock : c.cbLock with
        | interrupted =>
            have gives : Pc.next f (.writeLock c finished) d' =
                some (.none, .writeOut (-ERESTARTSYS), d') := by
              simp only [Pc.next, cbLock]
            have leave : Pc.next f (.writeOut (-ERESTARTSYS)) d' =
                some (.unlock .we, .user (some (-ERESTARTSYS)), d') := rfl
            rw [goOn_midway gives takes_none, goOn_midway leave (takes_unlock _), goOn_user,
              callResult_write_cbInterrupted f weLock cbLock staged]
            simp only [owners, update_back we, Pc.deliver, staged]
            rfl
        | granted =>
            have gets : Pc.next f (.writeLock c finished) d' =
                some (.lock .cb, .writeInsert c finished, d') := by
              simp only [Pc.next, cbLock]
            have cb' : update w.sys.owner .we (some (p, w.sys.serial p + 1)) .cb = none := by
              rw [update_of_ne (by decide)]
              exact cb
            have takes : ∀ l, LockOp.lock DevMutex.cb = .lock l →
                owners (owners w.sys.owner (p, w.sys.serial p + 1) (.lock .we))
                  (p, w.sys.serial p + 1) .none l = none := by
              rintro _ ⟨⟩
              exact cb'
            rcases replaced : d'.replaceOldest finished with ⟨d₁, oldsize, oldbuffptr⟩
            have insert : Pc.next f (.writeInsert c finished) d' =
                some (.none, .writeAccount c finished oldsize oldbuffptr, d₁) := by
              simp only [Pc.next, replaced]
            have account : Pc.next f (.writeAccount c finished oldsize oldbuffptr) d₁ =
                some (.none, .writeFree c oldbuffptr, d₁.accountSize finished oldsize) := rfl
            have free : ∀ d, Pc.next f (.writeFree c oldbuffptr) d =
                some (.none, .writeUnlock c, d.freeOld oldbuffptr) := fun _ => rfl
            have unlock : ∀ d, Pc.next f (.writeUnlock c) d = some (.unlock .cb, .writeReset c, d) :=
              fun _ => rfl
            have reset : ∀ d, Pc.next f (.writeReset c) d =
                some (.none, .writeOut c.count.toInt, d.resetWorking) := fun _ => rfl
            have leave : ∀ d, Pc.next f (.writeOut c.count.toInt) d =
                some (.unlock .we, .user (some c.count.toInt), d) := fun _ => rfl
            rw [goOn_midway gets takes, goOn_midway insert takes_none, goOn_midway account takes_none,
              goOn_midway (free _) takes_none, goOn_midway (unlock _) (takes_unlock _),
              goOn_midway (reset _) takes_none, goOn_midway (leave _) (takes_unlock _), goOn_user,
              callResult_write_stored f weLock cbLock staged]
            simp only [owners, update_back cb', update_back we, Pc.deliver, staged, Dev.insert,
              replaced]
            rfl

theorem wholeCall_read (out : (w.sys.pc p).outside) (cb : w.sys.owner .cb = none) (pos : LoffT)
    (c : ReadCall) :
    wholeCall f p w (.read pos c) = (w.sys.data.callResult f (.read pos c)).map
      fun (r, d) => w.called p (.read pos c) r d := by
  rw [wholeCall_midway out]
  obtain ⟨count, lock, faults⟩ := c
  cases lock with
  | interrupted =>
      have enter : Pc.next f (.read pos ⟨count, .interrupted, faults⟩) w.sys.data =
          some (.none, .user (some (-ERESTARTSYS)), w.sys.data) := rfl
      rw [Pc.enter, goOn_midway enter takes_none, goOn_user]
      rfl
  | granted =>
      have enter : Pc.next f (.read pos ⟨count, .granted, faults⟩) w.sys.data =
          some (.lock .cb, .readBody pos ⟨count, .granted, faults⟩, w.sys.data) := rfl
      have takes : ∀ l, LockOp.lock DevMutex.cb = .lock l → w.sys.owner l = none := by
        rintro _ ⟨⟩
        exact cb
      rw [Pc.enter, goOn_midway enter takes]
      cases result : aesdRead w.sys.data pos ⟨count, .granted, faults⟩ with
      | none =>
          rw [goOn_stuck rfl, Dev.callResult, result]
          · rfl
          · simp only [exec, Observed.midway, update_self, driverCode, Pc.next, result,
              Option.map_none]
      | some r =>
          have copies : Pc.next f (.readBody pos ⟨count, .granted, faults⟩) w.sys.data =
              some (.none, .readOut r.retval, w.sys.data) := by
            simp only [Pc.next, result, Option.map_some]
          have leave : Pc.next f (.readOut r.retval) w.sys.data =
              some (.unlock .cb, .user (some r.retval), w.sys.data) := rfl
          rw [goOn_midway copies takes_none, goOn_midway leave (takes_unlock _), goOn_user]
          simp only [owners, update_back cb, Pc.deliver, Dev.callResult, result, Option.map_some]
          rfl

theorem wholeCall_ioctl (out : (w.sys.pc p).outside) (cb : w.sys.owner .cb = none) (cmd : UInt32T)
    (arg : Option SeekCall) :
    wholeCall f p w (.ioctl cmd arg) = (w.sys.data.callResult f (.ioctl cmd arg)).map
      fun (r, d) => w.called p (.ioctl cmd arg) r d := by
  rw [wholeCall_midway out]
  cases checked : ioctlSeek cmd arg with
  | error retval =>
      have enter : Pc.next f (.ioctl cmd arg) w.sys.data =
          some (.none, .user (some retval), w.sys.data) := by
        simp only [Pc.next, checked]
      rw [Pc.enter, goOn_midway enter takes_none, goOn_user]
      simp only [Observed.called, Observed.ownersAfter, Op.refused, Dev.callResult, aesdIoctl,
        checked, Option.map_some]
      rfl
  | ok st =>
      have enter : Pc.next f (.ioctl cmd arg) w.sys.data = some (.none, .seek st, w.sys.data) := by
        simp only [Pc.next, checked]
      rw [Pc.enter, goOn_midway enter takes_none]
      cases lock : st.lock with
      | interrupted =>
          have gives : Pc.next f (.seek st) w.sys.data =
              some (.none, .user (some (-ERESTARTSYS)), w.sys.data) := by
            simp only [Pc.next, lock]
          rw [goOn_midway gives takes_none, goOn_user]
          simp only [Observed.called, Observed.ownersAfter, Op.refused, Dev.callResult, aesdIoctl,
            aesdAdjustFileOffset, checked, lock, Option.map_some]
          rfl
      | granted =>
          have gets : Pc.next f (.seek st) w.sys.data = some (.lock .cb, .seekBody st, w.sys.data) := by
            simp only [Pc.next, lock]
          have takes : ∀ l, LockOp.lock DevMutex.cb = .lock l →
              owners w.sys.owner (p, w.sys.serial p + 1) .none l = none := by
            rintro _ ⟨⟩
            exact cb
          rw [goOn_midway gets takes]
          cases outcome : seekBody w.sys.data.cb st.beyond st.writeCmd st.writeCmdOffset with
          | fault | endless =>
              rw [goOn_stuck rfl]
              · simp only [Dev.callResult, aesdIoctl, aesdAdjustFileOffset, checked, lock, outcome,
                  Option.map_none]
              · simp only [exec, Observed.midway, update_self, driverCode, Pc.next, outcome]
          | einval =>
              have returns : Pc.next f (.seekBody st) w.sys.data =
                  some (.none, .user (some (-EINVAL)), w.sys.data) := by
                simp only [Pc.next, outcome]
              rw [goOn_midway returns takes_none, goOn_user]
              simp only [Observed.called, Observed.ownersAfter, Op.refused, Dev.callResult, aesdIoctl,
                aesdAdjustFileOffset, checked, lock, outcome, Option.map_some]
              rfl
          | adjusted fp =>
              have moves : Pc.next f (.seekBody st) w.sys.data =
                  some (.none, .seekOut, { w.sys.data with cbIoctlOffs := fp }) := by
                simp only [Pc.next, outcome]
              have leave : Pc.next f .seekOut { w.sys.data with cbIoctlOffs := fp } =
                  some (.unlock .cb, .user (some 0), { w.sys.data with cbIoctlOffs := fp }) := rfl
              rw [goOn_midway moves takes_none, goOn_midway leave (takes_unlock _), goOn_user]
              simp only [Observed.called, Observed.ownersAfter, Op.refused, Dev.callResult, aesdIoctl,
                aesdAdjustFileOffset, checked, lock, outcome, Option.map_some, owners, update_back cb]
              rfl

/-- With both mutexes free a call is the operation as a whole. -/
theorem wholeCall_eq (out : (w.sys.pc p).outside) (we : w.sys.owner .we = none)
    (cb : w.sys.owner .cb = none) (op : Op) :
    wholeCall f p w op = (w.sys.data.callResult f op).map fun (r, d) => w.called p op r d := by
  cases op with
  | write pos c => exact wholeCall_write out we cb pos c
  | read pos c => exact wholeCall_read out cb pos c
  | ioctl cmd arg => exact wholeCall_ioctl out cb cmd arg
  | llseek pos off whence =>
      have seeks : Pc.next f (.llseek pos off whence) w.sys.data =
          some (.none, .user (some (aesdLlseek f w.sys.data pos off whence).1), w.sys.data) := rfl
      rw [wholeCall_midway out, Pc.enter, goOn_midway seeks takes_none, goOn_user]
      rfl

/-- Without `cb_mutex` a read that no signal ends never comes back. -/
theorem wholeCall_read_taken (out : (w.sys.pc p).outside) (cb : w.sys.owner .cb ≠ none) (pos : LoffT)
    {c : ReadCall} (granted : c.lock = .granted) : wholeCall f p w (.read pos c) = none := by
  have owned : (w.sys.owner .cb).isNone = false := by
    rw [Bool.eq_false_iff, Ne, Option.isNone_iff_eq_none]
    exact cb
  rw [wholeCall_midway out, Pc.enter, goOn_stuck rfl]
  simp only [exec, Observed.midway, update_self, driverCode, Pc.next, granted, owned,
    Bool.false_eq_true, if_false]

end

end Aesd.Driver
