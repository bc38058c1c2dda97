import Aesd.Driver.History

/-! # The driver acts as if each call were one step

Whatever the processes do, the calls of `main.c` can be put in an order in which,
made as whole calls one after another, they return what was seen, and which agrees
with real time.  A write takes effect where it brings `cb_size` up to date, or
where it leaves earlier; every other call while it looks at the device.  So what
is proved of sequences of whole calls holds for every interleaving.
-/

namespace Aesd.Driver

open Aesd.Lib Aesd.Lib.Mutex Function

/-- A call takes effect on `D` in this step, or it does not. -/
inductive TakesEffect (f : FixedSizeLlseek) (D : Dev) : CallStatus → CallStatus → Dev → Prop where
  | no {status} : TakesEffect f D status status D
  | yes {op r D'} (acts : D.callResult f op = some (r, D')) :
      TakesEffect f D (.pending op) (.taken r) D'

/-- What both devices go through while somebody else writes. -/
inductive Aside (D d : Dev) : Dev → Dev → Prop where
  | same : Aside D d D d
  | seek (fp : LoffT) : Aside D d { D with cbIoctlOffs := fp } { d with cbIoctlOffs := fp }

/-- A step of a call, with what it means for everybody else. -/
structure LocalStep (f : FixedSizeLlseek) (D d : Dev) (m : UserMemory) (status : CallStatus)
    (pc : Pc) (D' d' : Dev) (status' : CallStatus) (pc' : Pc) : Prop where
  effect : TakesEffect f D status status' D'
  here : Local D' d' (pc.deliver f d m) status' pc'
  aside : ¬pc.holds .we → ¬pc'.holds .we → Aside D d D' d'
  leaves : pc.holds .we → ¬pc'.holds .we → d' = D'

section

variable {f : FixedSizeLlseek} {D d d' : Dev} {m : UserMemory} {status : CallStatus} {pc pc' : Pc}
  {op : LockOp DevMutex}

theorem LocalStep.quiet {status' : CallStatus} (effect : TakesEffect f D status status' D)
    (here : Local D d (pc.deliver f d m) status' pc')
    (leaves : pc.holds .we → ¬pc'.holds .we → d = D) :
    LocalStep f D d m status pc D d status' pc' :=
  ⟨effect, here, fun _ _ => .same, leaves⟩

theorem LocalStep.inside {D' : Dev} {status' : CallStatus} (effect : TakesEffect f D status status' D')
    (here : Local D' d' (pc.deliver f d m) status' pc') (before : pc.holds .we)
    (after : pc'.holds .we) : LocalStep f D d m status pc D' d' status' pc' :=
  ⟨effect, here, fun free => absurd before free, fun _ left => absurd after left⟩

theorem callResult_write_interrupted (f : FixedSizeLlseek) (D : Dev) (pos : LoffT) {c : WriteCall}
    (weLock : c.weLock = .interrupted) :
    D.callResult f (.write pos c) = some (⟨-ERESTARTSYS, [], some pos⟩, D) := by
  simp only [Dev.callResult, aesdWrite, weLock]

theorem callResult_write_out (f : FixedSizeLlseek) {D : Dev} {pos pos' : LoffT} {c : WriteCall}
    (weLock : c.weLock = .granted) {retval : Int} (staged : D.stage pos c = (.out retval, d, pos')) :
    D.callResult f (.write pos c) = some (⟨retval, [], some pos'⟩, d) := by
  simp only [Dev.callResult, aesdWrite, weLock, staged]

theorem callResult_write_cbInterrupted (f : FixedSizeLlseek) {D : Dev} {pos pos' : LoffT}
    {c : WriteCall} (weLock : c.weLock = .granted) (cbLock : c.cbLock = .interrupted)
    {finished : BufferEntry Nat} (staged : D.stage pos c = (.commit finished, d, pos')) :
    D.callResult f (.write pos c) = some (⟨-ERESTARTSYS, [], some pos'⟩, d) := by
  simp only [Dev.callResult, aesdWrite, weLock, staged, cbLock]

theorem callResult_write_stored (f : FixedSizeLlseek) {D : Dev} {pos pos' : LoffT} {c : WriteCall}
    (weLock : c.weLock = .granted) (cbLock : c.cbLock = .granted) {finished : BufferEntry Nat}
    (staged : D.stage pos c = (.commit finished, d, pos')) :
    D.callResult f (.write pos c) =
      some (⟨c.count.toInt, [], some pos'⟩, (d.insert finished).resetWorking) := by
  simp only [Dev.callResult, aesdWrite, weLock, staged, cbLock]

theorem Local.next_write {pos : LoffT} {c : WriteCall} (here : Local D d m status (.write pos c))
    (taken : Pc.next f (.write pos c) d = some (op, pc', d')) (idle : op = .lock .we → d = D) :
    ∃ D' status', LocalStep f D d m status (.write pos c) D' d' status' pc' := by
  cases here with
  | write own =>
      simp only [Pc.next] at taken
      cases weLock : c.weLock with
      | interrupted =>
          rw [weLock] at taken
          cases taken
          have acts := callResult_write_interrupted f D pos weLock
          rw [← own] at acts
          exact ⟨_, _, .quiet (.yes acts) .user fun held => held.elim⟩
      | granted =>
          rw [weLock] at taken
          cases taken
          exact ⟨_, _, .quiet .no (.writeFill own weLock (idle rfl)) fun held => held.elim⟩

theorem Local.next_writeFill {pos : LoffT} {c : WriteCall}
    (here : Local D d m status (.writeFill pos c))
    (taken : Pc.next f (.writeFill pos c) d = some (op, pc', d')) :
    ∃ D' status', LocalStep f D d m status (.writeFill pos c) D' d' status' pc' := by
  cases here with
  | writeFill own weLock same =>
      subst same own
      simp only [Pc.next] at taken
      split at taken
      · rename_i retval after pos' staged
        cases taken
        have acts := callResult_write_out f weLock staged
        have delivered : Pc.deliver f (.writeFill pos c) d ⟨[], some pos⟩ = ⟨[], some pos'⟩ := by
          simp only [Pc.deliver, staged]
        refine ⟨_, _, .inside (.yes acts) ?_ rfl rfl⟩
        rw [delivered]
        exact .writeOut rfl
      · rename_i finished after pos' staged
        cases taken
        refine ⟨_, _, .inside .no (.writeLock ?_ weLock staged) rfl rfl⟩
        simp only [Pc.deliver, staged]

theorem Local.next_commit (here : Local D d m status pc)
    (taken : Pc.next f pc d = some (op, pc', d'))
    (place : (∃ c finished, pc = .writeLock c finished) ∨
      (∃ c finished, pc = .writeInsert c finished) ∨
        ∃ c finished oldsize oldbuffptr, pc = .writeAccount c finished oldsize oldbuffptr) :
    ∃ D' status', LocalStep f D d m status pc D' d' status' pc' := by
  cases here with
  | @writeLock pos c finished pos' own weLock staged =>
      simp only [Pc.next] at taken
      cases cbLock : c.cbLock with
      | interrupted =>
          rw [cbLock] at taken
          cases taken
          have acts := callResult_write_cbInterrupted f weLock cbLock staged
          rw [← own] at acts
          exact ⟨_, _, .inside (.yes acts) (.writeOut rfl) rfl rfl⟩
      | granted =>
          rw [cbLock] at taken
          cases taken
          exact ⟨_, _, .inside .no (.writeInsert own weLock cbLock staged) rfl trivial⟩
  | @writeInsert pos c finished pos' own weLock cbLock staged =>
      cases taken
      exact ⟨_, _, .inside .no (.writeAccount own weLock cbLock staged rfl) trivial trivial⟩
  | @writeAccount pos c finished pos' before oldsize oldbuffptr own weLock cbLock staged replaced =>
      cases taken
      have acts := callResult_write_stored f weLock cbLock staged
      rw [← own] at acts
      refine ⟨_, _, .inside (.yes acts) (.writeFree ?_) trivial trivial⟩
      rw [Dev.insert, replaced]
  | _ => simp at place

theorem Local.next_written {retval : Int} {m' : UserMemory} (here : Local D d m (.taken ⟨retval, m'⟩) pc)
    (taken : Pc.next f pc d = some (op, pc', d')) (inside : pc.holds .we) :
    ∃ D' status', LocalStep f D d m (.taken ⟨retval, m'⟩) pc D' d' status' pc' := by
  cases here with
  | writeFree ahead =>
      cases taken
      exact ⟨_, _, .inside .no (.writeUnlock ahead) trivial trivial⟩
  | writeUnlock ahead =>
      cases taken
      exact ⟨_, _, .inside .no (.writeReset ahead) trivial rfl⟩
  | writeReset ahead =>
      cases taken
      exact ⟨_, _, .inside .no (.writeOut ahead.symm) rfl rfl⟩
  | writeOut same =>
      cases taken
      exact ⟨_, _, .quiet .no .user fun _ _ => same⟩
  | readOut | seekOut | user => simp [Pc.holds] at inside

theorem Local.next_read {pos : LoffT} {c : ReadCall} (here : Local D d m status (.read pos c))
    (taken : Pc.next f (.read pos c) d = some (op, pc', d')) :
    ∃ D' status', LocalStep f D d m status (.read pos c) D' d' status' pc' := by
  cases here with
  | read own =>
      simp only [Pc.next] at taken
      cases lock : c.lock with
      | interrupted =>
          rw [lock] at taken
          cases taken
          have acts : D.callResult f (.read pos c) = some (⟨-ERESTARTSYS, m⟩, D) := by
            simp only [Dev.callResult, aesdRead, lock, own, Option.map_some]
          exact ⟨_, _, .quiet (.yes acts) .user fun held => held.elim⟩
      | granted =>
          rw [lock] at taken
          cases taken
          exact ⟨_, _, .quiet .no (.readBody own lock) fun held => held.elim⟩

theorem Local.next_readBody {pos : LoffT} {c : ReadCall} (here : Local D d m status (.readBody pos c))
    (taken : Pc.next f (.readBody pos c) d = some (op, pc', d')) (buffer : SameBuffer D d) :
    ∃ D' status', LocalStep f D d m status (.readBody pos c) D' d' status' pc' := by
  cases here with
  | readBody own lock =>
      obtain ⟨r, result, step⟩ := Option.map_eq_some_iff.mp taken
      cases step
      have whole : ({ c with lock := .granted } : ReadCall) = c := by rw [← lock]
      have acts : D.callResult f (.read pos c) = some (⟨r.retval, r.bytes, some r.pos⟩, D) := by
        rw [Dev.callResult, ← buffer.aesdRead, ← whole, result, Option.map_some]
      have delivered : Pc.deliver f (.readBody pos c) d m = ⟨r.bytes, some r.pos⟩ := by
        simp only [Pc.deliver, result]
      refine ⟨_, _, .quiet (.yes acts) ?_ fun held => by cases held⟩
      rw [delivered]
      exact .readOut

theorem Local.next_ioctl {cmd : UInt32T} {arg : Option SeekCall}
    (here : Local D d m status (.ioctl cmd arg))
    (taken : Pc.next f (.ioctl cmd arg) d = some (op, pc', d')) :
    ∃ D' status', LocalStep f D d m status (.ioctl cmd arg) D' d' status' pc' := by
  cases here with
  | ioctl own =>
      simp only [Pc.next] at taken
      split at taken
      · rename_i retval checked
        cases taken
        have acts : D.callResult f (.ioctl cmd arg) = some (⟨retval, m⟩, D) := by
          simp only [Dev.callResult, aesdIoctl, checked, own, Option.map_some]
        exact ⟨_, _, .quiet (.yes acts) .user fun held => held.elim⟩
      · rename_i st checked
        cases taken
        exact ⟨_, _, .quiet .no (.seek own checked) fun held => held.elim⟩

theorem Local.next_seek {st : SeekCall} (here : Local D d m status (.seek st))
    (taken : Pc.next f (.seek st) d = some (op, pc', d')) :
    ∃ D' status', LocalStep f D d m status (.seek st) D' d' status' pc' := by
  cases here with
  | @seek cmd arg st own checked =>
      simp only [Pc.next] at taken
      cases lock : st.lock with
      | interrupted =>
          rw [lock] at taken
          cases taken
          have acts : D.callResult f (.ioctl cmd arg) = some (⟨-ERESTARTSYS, m⟩, D) := by
            simp only [Dev.callResult, aesdIoctl, checked, aesdAdjustFileOffset, lock, own,
              Option.map_some]
          exact ⟨_, _, .quiet (.yes acts) .user fun held => held.elim⟩
      | granted =>
          rw [lock] at taken
          cases taken
          exact ⟨_, _, .quiet .no (.seekBody own checked lock) fun held => held.elim⟩

theorem Local.next_seekBody {st : SeekCall} (here : Local D d m status (.seekBody st))
    (taken : Pc.next f (.seekBody st) d = some (op, pc', d')) (buffer : SameBuffer D d) :
    ∃ D' status', LocalStep f D d m status (.seekBody st) D' d' status' pc' := by
  cases here with
  | @seekBody cmd arg st own checked lock =>
      simp only [Pc.next] at taken
      split at taken
      · cases taken
      · cases taken
      · rename_i refused
        cases taken
        rw [buffer.cb] at refused
        have acts : D.callResult f (.ioctl cmd arg) = some (⟨-EINVAL, m⟩, D) := by
          simp only [Dev.callResult, aesdIoctl, checked, aesdAdjustFileOffset, lock, refused, own,
            Option.map_some]
        exact ⟨_, _, .quiet (.yes acts) .user fun held => by cases held⟩
      · rename_i fp adjusted
        cases taken
        rw [buffer.cb] at adjusted
        have acts : D.callResult f (.ioctl cmd arg) =
            some (⟨0, m⟩, { D with cbIoctlOffs := fp }) := by
          simp only [Dev.callResult, aesdIoctl, checked, aesdAdjustFileOffset, lock, adjusted, own,
            Option.map_some]
        exact ⟨_, _, .yes acts, .seekOut, fun _ _ => .seek fp, fun held => by cases held⟩

theorem Local.next_llseek {pos off : LoffT} {whence : Int}
    (here : Local D d m status (.llseek pos off whence))
    (taken : Pc.next f (.llseek pos off whence) d = some (op, pc', d')) (size : d.cbSize = D.cbSize) :
    ∃ D' status', LocalStep f D d m status (.llseek pos off whence) D' d' status' pc' := by
  cases here with
  | llseek own =>
      cases taken
      have same : aesdLlseek f d pos off whence = aesdLlseek f D pos off whence := by
        simp only [aesdLlseek, size]
      have acts : D.callResult f (.llseek pos off whence) =
          some (⟨(aesdLlseek f d pos off whence).1,
            Pc.deliver f (.llseek pos off whence) d m⟩, D) := by
        rw [Pc.deliver, same, own]
        rfl
      exact ⟨_, _, .quiet (.yes acts) .user fun held => held.elim⟩

theorem Local.next (here : Local D d m status pc) (taken : Pc.next f pc d = some (op, pc', d'))
    (idle : op = .lock .we → d = D) (buffer : pc.holds .cb → ¬pc.holds .we → SameBuffer D d)
    (size : ¬pc.holds .we → d.cbSize = D.cbSize) :
    ∃ D' status', LocalStep f D d m status pc D' d' status' pc' := by
  cases pc with
  | user => cases taken
  | write pos c => exact here.next_write taken idle
  | writeFill pos c => exact here.next_writeFill taken
  | writeLock c finished => exact here.next_commit taken (.inl ⟨c, finished, rfl⟩)
  | writeInsert c finished => exact here.next_commit taken (.inr (.inl ⟨c, finished, rfl⟩))
  | writeAccount c finished oldsize oldbuffptr =>
      exact here.next_commit taken (.inr (.inr ⟨c, finished, oldsize, oldbuffptr, rfl⟩))
  | writeFree | writeUnlock | writeReset | writeOut =>
      cases status with
      | pending op => cases here
      | taken r => exact here.next_written taken (by simp [Pc.holds])
  | read pos c => exact here.next_read taken
  | readBody pos c => exact here.next_readBody taken (buffer rfl fun held => by cases held)
  | readOut retval =>
      cases here with
      | readOut =>
          cases taken
          exact ⟨_, _, .quiet .no .user fun held => by cases held⟩
  | ioctl cmd arg => exact here.next_ioctl taken
  | seek st => exact here.next_seek taken
  | seekBody st => exact here.next_seekBody taken (buffer rfl fun held => by cases held)
  | seekOut =>
      cases here with
      | seekOut =>
          cases taken
          exact ⟨_, _, .quiet .no .user fun held => by cases held⟩
  | llseek pos off whence => exact here.next_llseek taken (size id)

/-- Outside the section of `we_mutex` the devices do not matter. -/
theorem Local.away (here : Local D d m status pc) (away : ¬pc.holds .we) (D' d' : Dev) :
    Local D' d' m status pc := by
  cases here with
  | writeFill | writeLock | writeInsert | writeAccount | writeFree | writeUnlock | writeReset
  | writeOut => simp [Pc.holds] at away
  | write own => exact .write own
  | read own => exact .read own
  | readBody own lock => exact .readBody own lock
  | readOut => exact .readOut
  | ioctl own => exact .ioctl own
  | seek own checked => exact .seek own checked
  | seekBody own checked lock => exact .seekBody own checked lock
  | seekOut => exact .seekOut
  | llseek own => exact .llseek own
  | user => exact .user

/-- A writer is not disturbed. -/
theorem Local.aside {D' d' : Dev} (here : Local D d m status pc) (aside : Aside D d D' d') :
    Local D' d' m status pc := by
  cases aside with
  | same => exact here
  | seek fp =>
      have reseek : ∀ {pos c staged after pos'}, D.stage pos c = (staged, after, pos') →
          Dev.stage { D with cbIoctlOffs := fp } pos c =
            (staged, { after with cbIoctlOffs := fp }, pos') := by
        intro pos c staged after pos' same
        rw [stage_offset_comm, same]
      cases here with
      | writeFill own weLock same => exact .writeFill own weLock (same ▸ rfl)
      | writeLock own weLock staged => exact .writeLock own weLock (reseek staged)
      | writeInsert own weLock cbLock staged => exact .writeInsert own weLock cbLock (reseek staged)
      | writeAccount own weLock cbLock staged replaced =>
          cases replaced
          exact .writeAccount own weLock cbLock (reseek staged) rfl
      | writeFree ahead => exact .writeFree (ahead ▸ rfl)
      | writeUnlock ahead => exact .writeUnlock (ahead ▸ rfl)
      | writeReset ahead => exact .writeReset (ahead ▸ rfl)
      | writeOut same => exact .writeOut (same ▸ rfl)
      | write own => exact .write own
      | read own => exact .read own
      | readBody own lock => exact .readBody own lock
      | readOut => exact .readOut
      | ioctl own => exact .ioctl own
      | seek own checked => exact .seek own checked
      | seekBody own checked lock => exact .seekBody own checked lock
      | seekOut => exact .seekOut
      | llseek own => exact .llseek own
      | user => exact .user

theorem Local.sameBuffer {K : Kernel} {added : List (BufferEntry Nat)}
    {committed : List (List UInt8)} (here : Local D d m status pc)
    (models : Models K D added committed) (inside : pc.holds .we) (away : ¬pc.holds .cb) :
    SameBuffer D d := by
  cases here with
  | writeFill own weLock same | writeOut same =>
      rw [same]
      exact .refl D
  | @writeLock pos c finished pos' own weLock staged =>
      obtain ⟨we, more, frame⟩ := stage_frame models.room pos c
      rw [staged] at frame
      obtain rfl : d = _ := frame
      exact .allocated models we more
  | writeReset ahead =>
      rw [ahead]
      exact .resetWorking d
  | writeInsert | writeAccount | writeFree | writeUnlock => exact absurd trivial away
  | _ => simp [Pc.holds] at inside

theorem Local.cbSize {K : Kernel} {added : List (BufferEntry Nat)} {committed : List (List UInt8)}
    (here : Local D d m status pc) (models : Models K D added committed) (inside : pc.holds .we) :
    d.cbSize = D.cbSize := by
  have staging : ∀ {pos c staged after pos'}, D.stage pos c = (staged, after, pos') →
      after.cbSize = D.cbSize := by
    intro pos c staged after pos' same
    obtain ⟨we, more, frame⟩ := stage_frame models.room pos c
    rw [same] at frame
    have size := congrArg Dev.cbSize frame
    exact size
  cases here with
  | writeFill own weLock same | writeOut same => rw [same]
  | writeLock own weLock staged => exact staging staged
  | writeInsert own weLock cbLock staged => exact staging staged
  | @writeAccount pos c finished pos' before oldsize oldbuffptr own weLock cbLock staged replaced =>
      have size : before.cbSize = D.cbSize := staging staged
      cases replaced
      exact size
  | writeFree ahead | writeUnlock ahead | writeReset ahead =>
      rw [ahead]
      rfl
  | _ => simp [Pc.holds] at inside

end

section

variable {f : FixedSizeLlseek} {K : Kernel} {D : Dev}

theorem after_of_callResult {d d' : Dev} {op : Op} {r : CallResult}
    (acts : d.callResult f op = some (r, d')) : d.after op = some d' := by
  cases op with
  | write pos c => exact congrArg (Option.map Prod.snd) acts
  | read pos c | ioctl cmd arg =>
      obtain ⟨_, result, same⟩ := Option.map_eq_some_iff.mp acts
      cases same
      rw [Dev.after, result, Option.map_some]
  | llseek pos off whence =>
      cases acts
      rfl

theorem Reachable.of_sequential {Id : Type} {order : List (Taken Id Op CallResult)}
    (sequential : Sequential (Dev.callResult f) (Dev.afterInit K) order D) : Reachable K D := by
  refine sequential.induct (Lts.Reach.init rfl) ?_
  intro d op r d' reachable acts
  have taken : (driver K).step d op d' := after_of_callResult acts
  exact reachable.step trivial taken

/-- What is on record of a call: that it has begun, or its result. -/
def Recorded {Id : Type} (history : List (CallEvent Id Op CallResult))
    (order : List (Taken Id Op CallResult)) (id : Id) : CallStatus → Prop
  | .pending op => .invoke id op ∈ history ∧ id ∉ order.map Taken.id
  | .taken r => ∃ op, ⟨id, op, r⟩ ∈ order

theorem Recorded.longer {Id : Type} {history : List (CallEvent Id Op CallResult)}
    {order : List (Taken Id Op CallResult)} {id : Id} {status : CallStatus}
    (recorded : Recorded history order id status) (more : List (CallEvent Id Op CallResult)) :
    Recorded (history ++ more) order id status := by
  cases status with
  | pending op => exact ⟨List.mem_append_left _ recorded.1, recorded.2⟩
  | taken r => exact recorded

/-- Nothing more has taken effect, or the call of that number has, last of all. -/
inductive Grows {Id : Type} (order : List (Taken Id Op CallResult)) (id : Id) :
    List (Taken Id Op CallResult) → Prop where
  | same : Grows order id order
  | more (op : Op) (r : CallResult) : Grows order id (order ++ [⟨id, op, r⟩])

theorem TakesEffect.extend {Id : Type} {history : List (CallEvent Id Op CallResult)}
    {order : List (Taken Id Op CallResult)} {id : Id} {status status' : CallStatus} {D' : Dev}
    (effect : TakesEffect f D status status' D')
    (linearizes : Linearizes (Dev.callResult f) (Dev.afterInit K) history order D)
    (recorded : Recorded history order id status) :
    ∃ order', Grows order id order' ∧
      Linearizes (Dev.callResult f) (Dev.afterInit K) history order' D' ∧
        Recorded history order' id status' ∧ ∀ id' status, id' ≠ id →
          Recorded history order id' status → Recorded history order' id' status := by
  cases effect with
  | no => exact ⟨order, .same, linearizes, recorded, fun _ _ _ before => before⟩
  | @yes op r D' acts =>
      obtain ⟨begun, fresh⟩ := recorded
      refine ⟨order ++ [⟨id, op, r⟩], .more op r, linearizes.act begun fresh acts, ⟨op, ?_⟩, ?_⟩
      · exact List.mem_append_right _ (List.mem_singleton_self _)
      · intro id' status apart before
        cases status with
        | pending op => exact ⟨before.1, by simp [before.2, apart]⟩
        | taken r =>
            obtain ⟨op', member⟩ := before
            exact ⟨op', List.mem_append_left _ member⟩

variable {Pid : Type}

/-- The order of the calls so far, and the device it leads to. -/
structure Ordered (f : FixedSizeLlseek) (K : Kernel) (w : Observed Pid)
    (order : List (Taken (Pid × Nat) Op CallResult)) (D : Dev) : Prop where
  linearizes : Linearizes (Dev.callResult f) (Dev.afterInit K) w.history order D
  numbered : ∀ p n op, .invoke (p, n) op ∈ w.history → n ≤ w.sys.serial p
  calls : ∀ p, ¬(w.sys.pc p).outside → ∃ status,
    Local D w.sys.data (w.memory p) status (w.sys.pc p) ∧
      Recorded w.history order (p, w.sys.serial p) status
  idle : (∀ p, ¬(w.sys.pc p).holds .we) → w.sys.data = D

variable [DecidableEq Pid] {w : Observed Pid} {order : List (Taken (Pid × Nat) Op CallResult)}

theorem Ordered.enter (ordered : Ordered f K w order D) {p : Pid} {op : Op}
    {sys : DriverSystem Pid} (taken : Step (driverCode f) w.sys (p, some op) sys) :
    Ordered f K (w.after f sys (p, some op)) order D := by
  cases taken with
  | enter out =>
      have fresh : (p, w.sys.serial p + 1) ∉ order.map Taken.id := by
        intro member
        obtain ⟨c, inside, own⟩ := List.mem_map.mp member
        have begun := ordered.linearizes.invoked c inside
        rw [own] at begun
        have bound := ordered.numbered _ _ _ begun
        omega
      have holds : ∀ q, ((update w.sys.pc p (Pc.enter op)) q).holds .we → (w.sys.pc q).holds .we := by
        intro q held
        by_cases same : q = p
        · subst same
          rw [update_self] at held
          exact absurd held (not_holds_enter op .we)
        · rwa [update_of_ne same] at held
      constructor
      · have begun := ordered.linearizes.invoke op fresh
        simpa only [Observed.after, update_self] using begun
      · intro q n op' member
        simp only [Observed.after, update_self] at member ⊢
        have grown : w.sys.serial q ≤ update w.sys.serial p (w.sys.serial p + 1) q := by
          by_cases same : q = p
          · subst same
            rw [update_self]
            omega
          · rw [update_of_ne same]
        rcases List.mem_append.mp member with old | new
        · exact (ordered.numbered q n op' old).trans grown
        · cases List.mem_singleton.mp new
          rw [update_self]
      · intro q inside
        simp only [Observed.after, update_self] at inside ⊢
        by_cases same : q = p
        · subst same
          simp only [update_self]
          exact ⟨_, .enter _ _ op, List.mem_append_right _ (List.mem_singleton_self _), fresh⟩
        · simp only [driverCode, update_of_ne same] at inside ⊢
          obtain ⟨status, here, recorded⟩ := ordered.calls q inside
          exact ⟨status, here, recorded.longer _⟩
      · intro nobody
        exact ordered.idle fun q held => nobody q (by
          simp only [Observed.after, driverCode]
          by_cases same : q = p
          · subst same
            exact absurd held (not_holds_of_outside out .we)
          · rwa [update_of_ne same])

/-- A process goes on with its call: the step of the code, and what it does to the system. -/
theorem Ordered.go_on (ordered : Ordered f K w order D) (guarded : Guarded Pc.holds w.sys) {p : Pid}
    {op : LockOp DevMutex} {pc' : Pc} {d' : Dev} {sys : DriverSystem Pid}
    (next : Pc.next f (w.sys.pc p) w.sys.data = some (op, pc', d'))
    (free : op = .lock .we → w.sys.owner .we = none) (data : sys.data = d')
    (pcs : sys.pc = update w.sys.pc p pc') (serial : sys.serial = w.sys.serial) :
    ∃ order' D', Grows order (p, w.sys.serial p) order' ∧
      Ordered f K (w.after f sys (p, none)) order' D' := by
  have inside : ¬(w.sys.pc p).outside := by
    intro out
    cases place : w.sys.pc p with
    | user => simp [place, Pc.next] at next
    | _ => simp [place, Pc.outside] at out
  obtain ⟨status, here, recorded⟩ := ordered.calls p inside
  obtain ⟨added, committed, models⟩ := (Reachable.of_sequential ordered.linearizes.sequential).models
  -- who else may be in the section of `we_mutex`
  have alone : op = .lock .we → ∀ q, ¬(w.sys.pc q).holds .we := by
    intro lock q held
    have owner := guarded .we q held
    rw [free lock] at owner
    cases owner
  have buffer : (w.sys.pc p).holds .cb → ¬(w.sys.pc p).holds .we → SameBuffer D w.sys.data := by
    intro reads away
    by_cases busy : ∃ q, (w.sys.pc q).holds .we
    · obtain ⟨q, held⟩ := busy
      obtain ⟨_, writer, _⟩ :=
        ordered.calls q fun out => not_holds_of_outside out .we held
      refine writer.sameBuffer models held fun both => ?_
      obtain rfl := guarded.exclusive reads both
      exact away held
    · rw [ordered.idle (not_exists.mp busy)]
      exact .refl D
  have size : ¬(w.sys.pc p).holds .we → w.sys.data.cbSize = D.cbSize := by
    intro _
    by_cases busy : ∃ q, (w.sys.pc q).holds .we
    · obtain ⟨q, held⟩ := busy
      obtain ⟨_, writer, _⟩ :=
        ordered.calls q fun out => not_holds_of_outside out .we held
      exact writer.cbSize models held
    · rw [ordered.idle (not_exists.mp busy)]
  obtain ⟨D', status', step⟩ :=
    here.next next (fun lock => ordered.idle (alone lock)) buffer size
  obtain ⟨order', grows, linearizes, mine, others⟩ := step.effect.extend ordered.linearizes recorded
  refine ⟨order', D', grows, ?_, ?_, ?_, ?_⟩
  · -- a call that returns gets what is on record
    simp only [Observed.after, pcs, update_self, serial]
    cases place : pc'.returned with
    | none => simpa only [List.append_nil] using linearizes
    | some retval =>
        obtain rfl : pc' = .user (some retval) := by
          cases pc' with
          | user => exact congrArg Pc.user place
          | _ => cases place
        have here := step.here
        generalize (w.sys.pc p).deliver f w.sys.data (w.memory p) = m' at here ⊢
        cases here with
        | user =>
            obtain ⟨op', taken⟩ := mine
            exact linearizes.reply taken
  · intro q n op' member
    simp only [Observed.after, serial] at member ⊢
    rcases List.mem_append.mp member with old | new
    · exact ordered.numbered q n op' old
    · split at new
      · cases new
      · cases List.mem_singleton.mp new
  · intro q inside
    simp only [Observed.after, pcs, serial, data] at inside ⊢
    by_cases same : q = p
    · subst same
      simp only [update_self]
      exact ⟨status', step.here, mine.longer _⟩
    · simp only [update_of_ne same] at inside ⊢
      obtain ⟨status, here, recorded⟩ := ordered.calls q inside
      have apart : (q, w.sys.serial q) ≠ (p, w.sys.serial p) := fun eq => same (congrArg Prod.fst eq)
      refine ⟨status, ?_, (others _ _ apart recorded).longer _⟩
      by_cases held : (w.sys.pc q).holds .we
      · have before : ¬(w.sys.pc p).holds .we := fun both => same (guarded.exclusive held both)
        refine here.aside (step.aside before fun after => ?_)
        cases op with
        | none => exact before ((driverCode_excludes f).next _ _ _ _ _ next .we after)
        | lock l =>
            rcases (driverCode_excludes f).next _ _ _ _ _ next .we after with rfl | both
            · exact alone rfl q held
            · exact before both
        | unlock l => exact before ((driverCode_excludes f).next _ _ _ _ _ next .we after).2
      · exact here.away held D' d'
  · intro nobody
    simp only [Observed.after, pcs, data] at nobody ⊢
    have gone : ¬pc'.holds .we := by
      have mine := nobody p
      rwa [update_self] at mine
    by_cases held : (w.sys.pc p).holds .we
    · exact step.leaves held gone
    · have idle : w.sys.data = D := by
        refine ordered.idle fun q => ?_
        by_cases same : q = p
        · exact same ▸ held
        · have others := nobody q
          rwa [update_of_ne same] at others
      have aside := step.aside held gone
      rw [idle] at aside
      cases aside <;> rfl

theorem Ordered.step (ordered : Ordered f K w order D) (guarded : Guarded Pc.holds w.sys)
    {label : Pid × Option Op} {sys : DriverSystem Pid}
    (taken : Step (driverCode f) w.sys label sys) :
    ∃ order' D', Grows order (label.1, w.sys.serial label.1) order' ∧
      Ordered f K (w.after f sys label) order' D' := by
  obtain ⟨p, _ | op⟩ := label
  · cases taken with
    | quiet next => exact ordered.go_on guarded next (fun locks => by cases locks) rfl rfl rfl
    | lock next free =>
        refine ordered.go_on guarded next (fun lock => ?_) rfl rfl rfl
        cases lock
        exact free
    | unlock next => exact ordered.go_on guarded next (fun locks => by cases locks) rfl rfl rfl
  · exact ⟨order, D, .same, ordered.enter taken⟩

theorem Ordered.init (initial : (observed Pid f K).init w) : Ordered f K w [] (Dev.afterInit K) := by
  obtain ⟨⟨data, _, out⟩, empty⟩ := initial
  refine ⟨?_, ?_, fun p inside => absurd (out p) inside, fun _ => data⟩
  · rw [empty]
    exact .empty _ _
  · rw [empty]
    exact fun _ _ _ member => absurd member List.not_mem_nil

theorem Ordered.of_reach (reach : (observed Pid f K).Reach Lts.anyStep w) :
    ∃ order D, Ordered f K w order D := by
  obtain ⟨labels, run⟩ := reach
  induction run with
  | nil initial => exact ⟨[], Dev.afterInit K, .init initial⟩
  | snoc run _ taken ih =>
      obtain ⟨sys, step, rfl⟩ := taken
      obtain ⟨order, D, ordered⟩ := ih
      obtain ⟨order', D', _, after⟩ := ordered.step (guarded_users (users_of_observed ⟨_, run⟩)) step
      exact ⟨order', D', after⟩

end

/-- The calls of every interleaving have a sequential order, and the device is the
    one it leads to whenever nobody is inside the driver. -/
theorem users_linearizable {Pid : Type} [DecidableEq Pid] {f : FixedSizeLlseek} {K : Kernel}
    {w : Observed Pid} (reach : (observed Pid f K).Reach Lts.anyStep w) :
    ∃ order D, Linearizes (Dev.callResult f) (Dev.afterInit K) w.history order D ∧
      Reachable K D ∧ ((∀ p, (w.sys.pc p).outside) → w.sys.data = D) := by
  obtain ⟨order, D, ordered⟩ := Ordered.of_reach reach
  exact ⟨order, D, ordered.linearizes, .of_sequential ordered.linearizes.sequential,
    fun out => ordered.idle fun p => not_holds_of_outside (out p) .we⟩

/-- A read and a seek that overlap, both over. -/
theorem users_linearizable_overlap : ∃ (w : Observed Nat) (order : _) (D : Dev),
    w.history.length = 4 ∧
      Linearizes (Dev.callResult fixedSizeLlseek) (Dev.afterInit .pc) w.history order D ∧
        Reachable .pc D ∧ ((∀ p, (w.sys.pc p).outside) → w.sys.data = D) := by
  let start : Observed Nat := ⟨usersStart Nat .pc, fun _ => ⟨[], none⟩, []⟩
  have initially : (observed Nat fixedSizeLlseek .pc).Reach Lts.anyStep start :=
    Lts.Reach.init ⟨usersStart_init fixedSizeLlseek .pc, rfl⟩
  have reads := initially.step trivial
    ⟨_, Step.enter (p := 0) (c := Op.read 0 (⟨1, .granted, false⟩ : ReadCall)) rfl, rfl⟩
  have seeks := reads.step trivial
    ⟨_, Step.enter (p := 1) (c := Op.llseek 0 0 SEEK_END) rfl, rfl⟩
  have locked := seeks.step trivial ⟨_, Step.lock (p := 0) rfl rfl, rfl⟩
  have sought := locked.step trivial ⟨_, Step.quiet (p := 1) rfl, rfl⟩
  have copied := sought.step trivial ⟨_, Step.quiet (p := 0) rfl, rfl⟩
  have returned := copied.step trivial ⟨_, Step.unlock (p := 0) rfl, rfl⟩
  obtain ⟨order, D, linearizes⟩ := users_linearizable returned
  exact ⟨_, order, D, rfl, linearizes⟩

end Aesd.Driver
