import Aesd.Driver.Linearizable
import Aesd.Driver.Readers
import Aesd.Lib.Progress

/-! # Calls that come back, and calls that never do

While no seek fails a check, every call under way ends after a few steps of its
own, in whatever order the processes take theirs.  The first seek that is refused
takes `cb_mutex` with it: from then on the buffer stays as it is, and whoever gets
to `cb_mutex` stands there for ever, with `we_mutex` held if it is a writer.
-/

namespace Aesd.Driver

open Aesd.Lib Aesd.Lib.Mutex Function

variable {Pid : Type} [DecidableEq Pid] {f : FixedSizeLlseek} {K : Kernel}
  {s s' t u : DriverSystem Pid}

namespace Pc

/-- In front of `cb_mutex`, in an attempt to lock it that no signal ends. -/
def atBuffer : Pc → Bool
  | .writeLock c _ => c.cbLock = .granted
  | .read _ c => c.lock = .granted
  | .seek st => st.lock = .granted
  | _ => false

/-- The same for `we_mutex`. -/
def atWorking : Pc → Bool
  | .write _ c => c.weLock = .granted
  | _ => false

end Pc

theorem next_atBuffer {pc : Pc} (waits : pc.atBuffer = true) (f : FixedSizeLlseek) (d : Dev) :
    ∃ pc', Pc.next f pc d = some (.lock .cb, pc', d) := by
  cases pc with
  | writeLock c finished | read pos c | seek st =>
      have granted := of_decide_eq_true waits
      simp only [Pc.next, granted]
      exact ⟨_, rfl⟩
  | _ => cases waits

theorem next_atWorking {pc : Pc} (waits : pc.atWorking = true) (f : FixedSizeLlseek) (d : Dev) :
    ∃ pc', Pc.next f pc d = some (.lock .we, pc', d) := by
  cases pc with
  | write pos c =>
      have granted := of_decide_eq_true waits
      simp only [Pc.next, granted]
      exact ⟨_, rfl⟩
  | _ => cases waits

theorem next_away_cb {pc pc' : Pc} {d d' : Dev} {op : LockOp DevMutex}
    (taken : Pc.next f pc d = some (op, pc', d')) (away : ¬pc.holds .cb)
    (room : ∀ pos c, pc = .writeFill pos c → d.Room) :
    ∃ we more, d' = { d with we, heap := d.heap ++ more } := by
  have same : ∃ we more, d = { d with we, heap := d.heap ++ more } :=
    ⟨d.we, [], by rw [List.append_nil]⟩
  cases pc with
  | user => cases taken
  | writeInsert | writeAccount | writeFree | writeUnlock => exact absurd trivial away
  | readBody | readOut | seekBody | seekOut => exact absurd rfl away
  | writeFill pos c =>
      obtain ⟨we, more, frame⟩ := stage_frame (room pos c rfl) pos c
      simp only [Pc.next] at taken
      split at taken <;> rename_i staged <;> cases taken <;> rw [staged] at frame <;>
        exact ⟨we, more, frame⟩
  | writeReset c =>
      cases taken
      exact ⟨d.resetWorking.we, [], by rw [List.append_nil]; rfl⟩
  | writeOut | llseek =>
      cases taken
      exact same
  | write | writeLock | read | ioctl | seek =>
      simp only [Pc.next] at taken
      split at taken <;> cases taken <;> exact same

theorem next_away {pc pc' : Pc} {d d' : Dev} {op : LockOp DevMutex}
    (taken : Pc.next f pc d = some (op, pc', d')) (noWe : ¬pc.holds .we) (noCb : ¬pc.holds .cb) :
    d' = d := by
  cases pc with
  | user => cases taken
  | writeFill | writeLock | writeReset | writeOut => exact absurd rfl noWe
  | writeInsert | writeAccount | writeFree | writeUnlock => exact absurd trivial noCb
  | readBody | readOut | seekBody | seekOut => exact absurd rfl noCb
  | llseek =>
      cases taken
      rfl
  | write | read | ioctl | seek =>
      simp only [Pc.next] at taken
      split at taken <;> cases taken <;> rfl

/-- What is as it was: the owner of `cb_mutex`, all that a reader looks at, and every
    call that was waiting for `cb_mutex`. -/
structure Frozen (s t : DriverSystem Pid) : Prop where
  owner : t.owner .cb = s.owner .cb
  deserted : ∀ p, ¬(t.pc p).holds .cb
  cb : t.data.cb = s.data.cb
  cbSize : t.data.cbSize = s.data.cbSize
  offset : t.data.cbIoctlOffs = s.data.cbIoctlOffs
  /-- No block has been released. -/
  heap : s.data.heap <+: t.data.heap
  waiting : ∀ p, (s.pc p).atBuffer = true → t.pc p = s.pc p ∧ t.serial p = s.serial p
  /-- Behind a waiting writer, no other writer gets to the working entry. -/
  behind : (∃ p, (s.pc p).holds .we ∧ (s.pc p).atBuffer = true) →
    t.data = s.data ∧ ∀ p, (s.pc p).atWorking = true → t.pc p = s.pc p ∧ t.serial p = s.serial p

omit [DecidableEq Pid] in
theorem Frozen.refl (deserted : ∀ p, ¬(s.pc p).holds .cb) : Frozen s s where
  owner := rfl
  deserted := deserted
  cb := rfl
  cbSize := rfl
  offset := rfl
  heap := List.prefix_rfl
  waiting _ _ := ⟨rfl, rfl⟩
  behind _ := ⟨rfl, fun _ _ => ⟨rfl, rfl⟩⟩

/-- The working entry has room at every program point that copies into it. -/
theorem room_of_reach (reach : (users Pid f K).Reach Lts.anyStep s) {p : Pid} {pos : LoffT}
    {c : WriteCall} (fills : s.pc p = .writeFill pos c) : s.data.Room := by
  obtain ⟨added, committed, phase, _⟩ := (kept_users reach).inside p (by rw [fills]; rfl)
  rw [fills] at phase
  exact phase.1.room

omit [DecidableEq Pid] in
theorem stays_of_not_step [DecidableEq Pid] {p q : Pid} {call : Option Op}
    (taken : Step (driverCode f) s (q, call) t) (inside : (s.pc p).outside = false)
    (stuck : ∀ t, ¬Step (driverCode f) s (p, none) t) : t.pc p = s.pc p ∧ t.serial p = s.serial p := by
  have apart : p ≠ q := by
    rintro rfl
    cases call with
    | none => exact stuck t taken
    | some op =>
        obtain ⟨out, _⟩ := taken.enters
        rw [show (driverCode f).outside (s.pc p) = (s.pc p).outside from rfl, inside] at out
        cases out
  refine ⟨taken.pc_other apart, ?_⟩
  cases taken with
  | enter => exact update_of_ne apart ..
  | quiet | lock | unlock => rfl

theorem Pc.atBuffer_inside {pc : Pc} (waits : pc.atBuffer = true) : pc.outside = false := by
  cases pc with
  | user => cases waits
  | _ => rfl

theorem Pc.atWorking_inside {pc : Pc} (waits : pc.atWorking = true) : pc.outside = false := by
  cases pc with
  | user => cases waits
  | _ => rfl

theorem Frozen.step (frozen : Frozen s t) (reach : (users Pid f K).Reach Lts.anyStep t)
    (lost : Lost Pc.holds .cb t) {label : Pid × Option Op}
    (taken : Step (driverCode f) t label u) : Frozen s u := by
  have guarded := guarded_users reach
  obtain ⟨owner, lost'⟩ := lost.step guarded (driverCode_excludes f) taken
  have guarded' := guarded.step (driverCode_excludes f) taken
  obtain ⟨p, call⟩ := label
  have data : ∃ we more, u.data = { t.data with we, heap := t.data.heap ++ more } := by
    cases call with
    | some op =>
        rw [taken.enters.2.2]
        exact ⟨t.data.we, [], by rw [List.append_nil]⟩
    | none =>
        obtain ⟨op, next⟩ := taken.next
        exact next_away_cb next (frozen.deserted p) fun pos c fills => room_of_reach reach fills
  have stuck : ∀ p, (t.pc p).atBuffer = true → ∀ u, ¬Step (driverCode f) t (p, none) u := by
    intro p waits u
    obtain ⟨pc', next⟩ := next_atBuffer waits f t.data
    have next' : (driverCode f).next (t.pc p) t.data = _ := next
    exact lost.blocks next'
  obtain ⟨we, more, frame⟩ := data
  constructor
  · exact owner.trans frozen.owner
  · exact lost'.deserted guarded'
  · rw [frame]
    exact frozen.cb
  · rw [frame]
    exact frozen.cbSize
  · rw [frame]
    exact frozen.offset
  · rw [frame]
    exact frozen.heap.trans (List.prefix_append _ _)
  · intro q waits
    obtain ⟨place, number⟩ := frozen.waiting q waits
    rw [← place] at waits
    obtain ⟨place', number'⟩ :=
      stays_of_not_step taken (Pc.atBuffer_inside waits) (stuck q waits)
    exact ⟨place'.trans place, number'.trans number⟩
  · rintro ⟨w, held, writes⟩
    obtain ⟨same, others⟩ := frozen.behind ⟨w, held, writes⟩
    obtain ⟨place, _⟩ := frozen.waiting w writes
    rw [← place] at held writes
    have weOwner := guarded .we w held
    constructor
    · -- the only process that could touch the working entry stands still
      rw [← same]
      cases call with
      | some op => exact taken.enters.2.2
      | none =>
          obtain ⟨op, next⟩ := taken.next
          have apart : ¬(t.pc p).holds .we := by
            intro both
            obtain rfl := guarded.exclusive both held
            exact stuck p writes u taken
          exact next_away next apart (frozen.deserted p)
    · intro q waits
      obtain ⟨place, number⟩ := others q waits
      rw [← place] at waits
      have stands : ∀ u, ¬Step (driverCode f) t (q, none) u := by
        intro u other
        obtain ⟨pc', next⟩ := next_atWorking waits f t.data
        cases other with
        | quiet step | unlock step =>
            rw [show (driverCode f).next = Pc.next f from rfl, next] at step
            cases step
        | lock step free =>
            rw [show (driverCode f).next = Pc.next f from rfl, next] at step
            cases step
            rw [weOwner] at free
            cases free
      obtain ⟨place', number'⟩ := stays_of_not_step taken (Pc.atWorking_inside waits) stands
      exact ⟨place'.trans place, number'.trans number⟩

/-- After a seek that failed a check, nothing is ever found different in the buffer,
    and no call that has come to stand in front of `cb_mutex` ever goes on. -/
theorem refused_seek_freezes (reach : (users Pid f K).Reach Lts.anyStep s) {p : Pid}
    (fails : ¬ChecksPass (s.pc p) s.data) (taken : (users Pid f K).step s (p, none) s')
    (later : ((users Pid f K).startingAt s').Reach Lts.anyStep t)
    (still : ((users Pid f K).startingAt t).Reach Lts.anyStep u) : Frozen s' t ∧ Frozen t u := by
  have lost : Lost Pc.holds .cb s' := by
    obtain ⟨op, step⟩ := taken.next
    obtain ⟨st, stands, refused⟩ := seekBody_eq_einval fails step
    have returns : Pc.next f (s.pc p) s.data = some (.none, .user (some (-EINVAL)), s.data) := by
      simp only [stands, Pc.next, refused]
    have owner := guarded_users reach .cb p (by rw [stands]; rfl)
    cases taken with
    | quiet next =>
        rw [show (driverCode f).next = Pc.next f from rfl, returns] at next
        cases next
        refine ⟨p, _, owner, fun inside => ?_⟩
        have held := inside.2
        simp only [update_self] at held
        exact held
    | lock next =>
        rw [show (driverCode f).next = Pc.next f from rfl, returns] at next
        cases next
    | unlock next =>
        rw [show (driverCode f).next = Pc.next f from rfl, returns] at next
        cases next
  -- from any state in which the mutex is lost
  have freezes : ∀ {a b : DriverSystem Pid}, (users Pid f K).Reach Lts.anyStep a →
      Lost Pc.holds .cb a → ((users Pid f K).startingAt a).Reach Lts.anyStep b →
        (users Pid f K).Reach Lts.anyStep b ∧ Lost Pc.holds .cb b ∧ Frozen a b := by
    intro a b reach lost later
    refine Lts.Reach.induct (fun b => (users Pid f K).Reach Lts.anyStep b ∧
      Lost Pc.holds .cb b ∧ Frozen a b) ?_ ?_ later
    · rintro _ rfl
      exact ⟨reach, lost, .refl (lost.deserted (guarded_users reach))⟩
    · rintro b label c ⟨reach, lost, frozen⟩ _ taken
      exact ⟨reach.step trivial taken,
        (lost.step (guarded_users reach) (driverCode_excludes f) taken).2,
        frozen.step reach lost taken⟩
  obtain ⟨reach', lost', frozen⟩ := freezes (reach.step trivial taken) lost later
  exact ⟨frozen, (freezes reach' lost' still).2.2⟩

/-- A seek on the empty buffer, then a read of somebody else, and then a third process. -/
theorem refused_seek_freezes_empty : ∃ s' t u : DriverSystem Nat,
    (t.pc 1).atBuffer = true ∧ (u.pc 2).returned = some 0 ∧ Frozen s' t ∧ Frozen t u := by
  let st : SeekCall := ⟨0, 0, .granted, fun _ => none⟩
  have initially : (users Nat fixedSizeLlseek .pc).Reach Lts.anyStep (usersStart Nat .pc) :=
    Lts.Reach.init (usersStart_init fixedSizeLlseek .pc)
  have called := initially.step trivial
    (Step.enter (p := 0) (c := Op.ioctl AESDCHAR_IOCSEEKTO (some st)) rfl)
  have checked := called.step trivial (Step.quiet (p := 0) rfl)
  have locked := checked.step trivial (Step.lock (p := 0) rfl rfl)
  exact ⟨_, _, _, rfl, rfl, refused_seek_freezes locked
    (by decide) (Step.quiet (p := 0) rfl)
    ((Lts.Reach.init rfl).step trivial
      (Step.enter (p := 1) (c := Op.read 0 (⟨1, .granted, false⟩ : ReadCall)) rfl))
    (((Lts.Reach.init rfl).step trivial (Step.enter (p := 2) (c := Op.llseek 0 0 SEEK_END) rfl)).step
      trivial (Step.quiet (p := 2) rfl))⟩

/-- The steps that a call takes from here, at most. -/
def Pc.left : Pc → Nat
  | .user _ => 0
  | .write _ _ => 9
  | .writeFill _ _ => 8
  | .writeLock _ _ => 7
  | .writeInsert _ _ => 6
  | .writeAccount _ _ _ _ => 5
  | .writeFree _ _ => 4
  | .writeUnlock _ => 3
  | .writeReset _ => 2
  | .writeOut _ => 1
  | .read _ _ => 3
  | .readBody _ _ => 2
  | .readOut _ => 1
  | .ioctl _ _ => 4
  | .seek _ => 3
  | .seekBody _ => 2
  | .seekOut => 1
  | .llseek _ _ _ => 1

/-- A process under the lock of a seek passes the checks, and its loop ends. -/
def SeekReturns (pc : Pc) (d : Dev) : Prop :=
  ∀ st, pc = .seekBody st →
    ∃ fp, seekBody d.cb st.beyond st.writeCmd st.writeCmdOffset = .adjusted fp

/-- The offset that the seek leaves. -/
def SeekOutcome.offset : SeekOutcome → Option LoffT
  | .adjusted fp => some fp
  | _ => none

theorem SeekOutcome.offset_isSome {outcome : SeekOutcome} :
    outcome.offset.isSome ↔ ∃ fp, outcome = .adjusted fp := by
  cases outcome <;> simp [offset]

instance (pc : Pc) (d : Dev) : Decidable (SeekReturns pc d) :=
  decidable_of_iff (∀ st ∈ pc.seeking,
      (seekBody d.cb st.beyond st.writeCmd st.writeCmdOffset).offset.isSome) (by
    simp only [SeekOutcome.offset_isSome]
    cases pc <;> simp [Pc.seeking, SeekReturns])

theorem SeekReturns.checksPass {pc : Pc} {d : Dev} (returns : SeekReturns pc d) :
    ChecksPass pc d := by
  intro st member
  cases pc with
  | seekBody st' =>
      obtain rfl : st' = st := Option.some.inj member
      obtain ⟨fp, adjusted⟩ := returns st' rfl
      cases found : entrySize d.cb st'.beyond st'.writeCmd with
      | none => simp [seekBody, found] at adjusted
      | some size =>
          refine ⟨size, rfl, ?_⟩
          by_contra fails
          rw [(seekBody_einval_iff found).mpr fails] at adjusted
          cases adjusted
  | _ => cases member

theorem next_left {pc pc' : Pc} {d d' : Dev} {op : LockOp DevMutex}
    (taken : Pc.next f pc d = some (op, pc', d')) : pc'.left < pc.left := by
  cases pc with
  | user => cases taken
  | writeInsert | writeAccount | writeFree | writeUnlock | writeReset | writeOut | readOut
  | seekOut | llseek =>
      cases taken
      simp [Pc.left]
  | write | writeFill | writeLock | read | ioctl | seek | seekBody =>
      simp only [Pc.next] at taken
      split at taken <;> cases taken <;> simp [Pc.left]
  | readBody pos c =>
      obtain ⟨r, _, step⟩ := Option.map_eq_some_iff.mp taken
      cases step
      simp [Pc.left]

theorem waits_of_lock {pc pc' : Pc} {d d' : Dev} {l : DevMutex}
    (taken : Pc.next f pc d = some (.lock l, pc', d')) : pc.waits l := by
  cases pc with
  | user | writeInsert | writeAccount | writeFree | writeUnlock | writeReset | writeOut | readOut
  | seekOut | llseek => cases taken
  | write | writeLock | read | seek =>
      simp only [Pc.next] at taken
      split at taken <;> cases taken
      rfl
  | writeFill | ioctl | seekBody =>
      simp only [Pc.next] at taken
      split at taken <;> cases taken
  | readBody pos c =>
      obtain ⟨r, _, step⟩ := Option.map_eq_some_iff.mp taken
      cases step

theorem next_of_returns {pc : Pc} {d : Dev} (inside : pc.outside = false)
    (reads : ∀ pos c, pc = .readBody pos c →
      ∃ r, aesdRead d pos { c with lock := .granted } = some r)
    (seeks : SeekReturns pc d) : ∃ step, Pc.next f pc d = some step := by
  cases pc with
  | user => cases inside
  | writeInsert | writeAccount | writeFree | writeUnlock | writeReset | writeOut | readOut
  | seekOut | llseek => exact ⟨_, rfl⟩
  | write | writeFill | writeLock | read | ioctl | seek =>
      simp only [Pc.next]
      split <;> exact ⟨_, rfl⟩
  | readBody pos c =>
      obtain ⟨r, result⟩ := reads pos c rfl
      simp only [Pc.next, result, Option.map_some]
      exact ⟨_, rfl⟩
  | seekBody st =>
      obtain ⟨fp, adjusted⟩ := seeks st rfl
      simp only [Pc.next, adjusted]
      exact ⟨_, rfl⟩

/-- Every process inside a call has a next step, where no seek is refused. -/
theorem ready_of_reach (reach : (users Pid f K).Reach Lts.anyStep s)
    (returns : ∀ p, SeekReturns (s.pc p) s.data) : Ready (driverCode f) Pc.waits s := by
  intro p inside
  obtain ⟨⟨op, pc', d'⟩, next⟩ : ∃ step, Pc.next f (s.pc p) s.data = some step := by
    refine next_of_returns (Bool.eq_false_iff.mpr inside) (fun pos c place => ?_) (returns p)
    obtain ⟨added, committed, models⟩ := models_of_reading reach place
    have outcome := aesdRead_outcome models pos { c with lock := .granted }
    generalize aesdRead s.data pos { c with lock := .granted } = result at outcome
    cases outcome <;> exact ⟨_, rfl⟩
  refine ⟨op, pc', d', next, fun l same => ?_⟩
  subst same
  exact waits_of_lock next

theorem rank_lt (l : DevMutex) : l.rank < 2 := by
  cases l <;> decide

/-- The calls under way come to an end: they have only so many steps left together,
    and at the end everybody is outside and both mutexes are free. -/
theorem calls_return (reach : (users Pid f K).Reach (within SeekReturns) s) {P : Finset Pid}
    (under : ∀ p, ¬(s.pc p).outside → p ∈ P) {labels : List (Pid × Option Op)}
    (run : ((users Pid f K).startingAt s).Run
      (fun s label => label.2 = none ∧ SeekReturns (s.pc label.1) s.data) labels t) :
    labels.length ≤ ∑ p ∈ P, (s.pc p).left ∧
      ((∀ p, SeekReturns (t.pc p) t.data) →
        ((∀ p, (t.pc p).outside) ∧ ∀ l, t.owner l = none) ∨
          ∃ p t', (users Pid f K).step t (p, none) t') := by
  have outside : ∀ p, p ∉ P → (driverCode f).next (s.pc p) = fun _ => none := by
    intro p away
    have out : (s.pc p).outside := by
      by_contra inside
      exact away (under p inside)
    cases place : s.pc p with
    | user => rfl
    | _ => simp [place, Pc.outside] at out
  have shrinks : ∀ pc data op pc' data', (driverCode f).next pc data = some (op, pc', data') →
      pc'.left < pc.left := fun _ _ _ _ _ => next_left
  have total := (length_le_of_run shrinks outside run).1
  have reach' : (users Pid f K).Reach (within SeekReturns) t := by
    refine Lts.Reach.induct (fun t => (users Pid f K).Reach (within SeekReturns) t) ?_ ?_ ⟨_, run⟩
    · rintro _ rfl
      exact reach
    · intro t label t' before allowed taken
      exact before.step (fun _ => allowed.2) taken
  have owned : Owned Pc.holds t := by
    obtain ⟨labels, run⟩ := reach'
    exact owned_of_reach (driverCode_disciplined f)
      ⟨labels, run.mono fun _ _ returns calls => (returns calls).checksPass⟩
  refine ⟨by omega, fun returns => ?_⟩
  by_cases idle : ∀ p, (t.pc p).outside
  · refine .inl ⟨idle, fun l => ?_⟩
    cases owner : t.owner l with
    | none => rfl
    | some holder =>
        obtain ⟨p, n⟩ := holder
        exact absurd ((owned l p n).mp owner).2 (not_holds_of_outside (idle p) l)
  · obtain ⟨p, inside⟩ := not_forall.mp idle
    obtain ⟨labels, run⟩ := reach'
    have away : ∀ pc l, (driverCode f).outside pc → ¬pc.holds l :=
      fun _ l out => not_holds_of_outside out l
    exact .inr (owned.progress away waits_ascending rank_lt
      (ready_of_reach ⟨labels, run.mono fun _ _ _ => trivial⟩ returns) inside)

/-- One read, from its call to its return. -/
theorem calls_return_read : ∃ (s t : DriverSystem Nat) (labels : List (Nat × Option Op)),
    labels.length = 3 ∧ labels.length ≤ ∑ p ∈ {0}, (s.pc p).left ∧
      ((∀ p, SeekReturns (t.pc p) t.data) →
        ((∀ p, (t.pc p).outside) ∧ ∀ l, t.owner l = none) ∨
          ∃ p t', (users Nat fixedSizeLlseek .pc).step t (p, none) t') := by
  have called : (users Nat fixedSizeLlseek .pc).Reach (within SeekReturns) _ :=
    (Lts.Reach.init (usersStart_init fixedSizeLlseek .pc)).step (fun calls => by cases calls)
      (Step.enter (p := 0) (c := Op.read 0 (⟨1, .granted, false⟩ : ReadCall)) rfl)
  have noSeek : ∀ pc d, (∀ st, pc ≠ .seekBody st) → SeekReturns pc d :=
    fun _ _ other st same => absurd same (other st)
  refine ⟨_, _, _, rfl, calls_return called (fun p inside => ?_)
    ((((Lts.Run.nil rfl).snoc ⟨rfl, noSeek _ _ ?_⟩ (Step.lock (p := 0) rfl rfl)).snoc
      ⟨rfl, noSeek _ _ ?_⟩ (Step.quiet (p := 0) rfl)).snoc ⟨rfl, noSeek _ _ ?_⟩
        (Step.unlock (p := 0) rfl))⟩
  · by_cases same : p = 0
    · exact Finset.mem_singleton.mpr same
    · simp [same, usersStart, Pc.outside] at inside
  all_goals exact fun st same => by cases same

end Aesd.Driver
