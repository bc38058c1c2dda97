import Aesd.Lib.Progress

/-! # Threads that hold a mutex for a while

`start_thread_obtaining_mutex` allocates a `thread_data` and creates a thread, which
sleeps, takes the mutex of its data, sleeps again and releases it.  Any number of them are
started on any mutexes, in any order with their steps, and whoever joins one frees its data.
-/

namespace Aesd.Threading

open Aesd.Lib Aesd.Lib.Mutex Function

/-- `struct thread_data`; an `int` has 32 bits. -/
structure ThreadData (M : Type) where
  mutex : M
  obtainMs : BitVec 32
  releaseMs : BitVec 32
  threadCompleteSuccess : Bool

inductive Block (M : Type) where
  | before
  | allocated (td : ThreadData M)
  | freed

/-- The blocks of `thread_data`, numbered as `malloc` gives them out. -/
abbrev Heap (M : Type) := Nat → Block M

/-- What can be read there. -/
def Block.data {M : Type} : Block M → Option (ThreadData M)
  | .allocated td => some td
  | _ => none

/-- `(useconds_t)(ms * 1000)`, unless the product of two `int` overflows. -/
def microseconds (ms : BitVec 32) : Option (BitVec 32) :=
  if ms.smulOverflow 1000 then none else some (ms * 1000)

theorem microseconds_ne_none {ms : BitVec 32} (small : -2147483 ≤ ms.toInt ∧ ms.toInt ≤ 2147483) :
    microseconds ms ≠ none := by
  have product : (1000 : BitVec 32).toInt = 1000 := by decide
  simp only [microseconds, BitVec.smulOverflow, product]
  split
  · rename_i overflows
    simp only [Bool.or_eq_true, decide_eq_true_eq] at overflows
    omega
  · simp

/-- Places in `threadfunc`; `td` is its parameter. -/
inductive ThreadPc (M : Type) where
  | absent
  | entered (td : Nat)
  | usleepObtain (td : Nat) (obtainTime releaseTime : BitVec 32)
  | mutexLock (td : Nat) (releaseTime : BitVec 32)
  | usleepRelease (td : Nat) (releaseTime : BitVec 32) (locked : M)
  | mutexUnlock (td : Nat) (locked : M)
  | complete (td : Nat)
  | returned (td : Nat)

section

variable {M : Type} [DecidableEq M]

/-- A step; there is none where its behaviour is undefined.  What `usleep` returns is printed only. -/
def ThreadPc.next (heap : Heap M) : ThreadPc M → Option (LockOp M × ThreadPc M × Heap M)
  | .entered td =>
    (heap td).data.bind fun d =>
      (microseconds d.obtainMs).bind fun obtainTime =>
        (microseconds d.releaseMs).map fun releaseTime =>
          (.none, .usleepObtain td obtainTime releaseTime, heap)
  | .usleepObtain td _ releaseTime => some (.none, .mutexLock td releaseTime, heap)
  | .mutexLock td releaseTime =>
    (heap td).data.map fun d => (.lock d.mutex, .usleepRelease td releaseTime d.mutex, heap)
  | .usleepRelease td _ locked => some (.none, .mutexUnlock td locked, heap)
  | .mutexUnlock td locked =>
    -- the mutex is read again; another thread's may not be unlocked
    (heap td).data.bind fun d =>
      if d.mutex = locked then some (.unlock locked, .complete td, heap) else none
  | .complete td =>
    (heap td).data.map fun d =>
      (.none, .returned td, update heap td (.allocated { d with threadCompleteSuccess := true }))
  | .absent | .returned _ => none

/-- `threadfunc`. -/
def threadfunc : Code M (ThreadPc M) Nat (Heap M) where
  outside
    | .absent | .returned _ => true
    | _ => false
  enter td := .entered td
  next pc heap := pc.next heap

/-- Between lock and unlock. -/
def holds : ThreadPc M → M → Prop
  | .usleepRelease _ _ locked, m | .mutexUnlock _ locked, m => m = locked
  | _, _ => False

end

inductive ThreadStep {M : Type} (heap : Heap M) :
    ThreadPc M → LockOp M → ThreadPc M → Heap M → Prop where
  | entered {td d obtainTime releaseTime} (block : heap td = .allocated d)
      (first : microseconds d.obtainMs = some obtainTime)
      (second : microseconds d.releaseMs = some releaseTime) :
      ThreadStep heap (.entered td) .none (.usleepObtain td obtainTime releaseTime) heap
  | usleepObtain (td : Nat) (obtainTime releaseTime : BitVec 32) :
      ThreadStep heap (.usleepObtain td obtainTime releaseTime) .none (.mutexLock td releaseTime) heap
  | mutexLock {td d} (releaseTime : BitVec 32) (block : heap td = .allocated d) :
      ThreadStep heap (.mutexLock td releaseTime) (.lock d.mutex)
        (.usleepRelease td releaseTime d.mutex) heap
  | usleepRelease (td : Nat) (releaseTime : BitVec 32) (locked : M) :
      ThreadStep heap (.usleepRelease td releaseTime locked) .none (.mutexUnlock td locked) heap
  | mutexUnlock {td d} (block : heap td = .allocated d) :
      ThreadStep heap (.mutexUnlock td d.mutex) (.unlock d.mutex) (.complete td) heap
  | complete {td d} (block : heap td = .allocated d) :
      ThreadStep heap (.complete td) .none (.returned td)
        (update heap td (.allocated { d with threadCompleteSuccess := true }))

section

variable {M : Type} [DecidableEq M] {pc pc' : ThreadPc M} {heap heap' : Heap M} {op : LockOp M}

omit [DecidableEq M] in
theorem Block.data_eq_some {block : Block M} {d : ThreadData M} (read : block.data = some d) :
    block = .allocated d := by
  cases block <;> cases read
  rfl

theorem threadStep_of (step : pc.next heap = some (op, pc', heap')) :
    ThreadStep heap pc op pc' heap' := by
  cases pc with
  | absent | returned => cases step
  | entered td =>
      obtain ⟨d, read, step⟩ := Option.bind_eq_some_iff.mp step
      obtain ⟨obtainTime, first, step⟩ := Option.bind_eq_some_iff.mp step
      obtain ⟨releaseTime, second, same⟩ := Option.map_eq_some_iff.mp step
      cases same
      exact .entered (Block.data_eq_some read) first second
  | usleepObtain td obtainTime releaseTime =>
      cases step
      exact .usleepObtain td obtainTime releaseTime
  | mutexLock td releaseTime =>
      obtain ⟨d, read, same⟩ := Option.map_eq_some_iff.mp step
      cases same
      exact .mutexLock releaseTime (Block.data_eq_some read)
  | usleepRelease td releaseTime locked =>
      cases step
      exact .usleepRelease td releaseTime locked
  | mutexUnlock td locked =>
      obtain ⟨d, read, step⟩ := Option.bind_eq_some_iff.mp step
      split at step
      · rename_i same
        subst same
        cases step
        exact .mutexUnlock (Block.data_eq_some read)
      · cases step
  | complete td =>
      obtain ⟨d, read, same⟩ := Option.map_eq_some_iff.mp step
      cases same
      exact .complete (Block.data_eq_some read)

theorem disciplined : Disciplined (threadfunc (M := M)) (fun _ _ => True) holds where
  outside pc l out := by
    cases pc <;> first | exact id | cases out
  enter _ _ := id
  next pc heap op pc' heap' _ step l := by
    cases threadStep_of step with
    | mutexLock releaseTime block => exact or_iff_left id |>.symm
    | mutexUnlock block => exact ⟨False.elim, fun other => other.1 other.2⟩
    | _ => exact Iff.rfl
  unlock pc heap l pc' heap' step := by
    cases threadStep_of step with
    | mutexUnlock block => exact rfl

end

inductive StartOutcome where
  | mallocFails
  | createFails
  | created
  deriving DecidableEq

inductive Event (M : Type) where
  | start (mutex : M) (waitToObtainMs waitToReleaseMs : BitVec 32) (outcome : StartOutcome)
  | run (thread : Nat)
  /-- `pthread_join`, what is read of the data it gives, and `free`. -/
  | join (thread : Nat) (threadCompleteSuccess : Bool)

/-- `calls` are the calls of `start_thread_obtaining_mutex` that have allocated a block: the
data as they have set it up, and what they have returned.  The threads go by their blocks. -/
structure Threads (M : Type) where
  sys : System Nat M (ThreadPc M) (Heap M)
  calls : List (ThreadData M × Bool)

section

variable {M : Type} [DecidableEq M]

def startThreadObtainingMutex (s : Threads M) (td : ThreadData M) : StartOutcome → Option (Threads M)
  | .mallocFails => some s
  | .createFails =>
    some ⟨{ s.sys with data := update s.sys.data s.calls.length (.allocated td) },
      s.calls ++ [(td, false)]⟩
  | .created =>
    let heap := update s.sys.data s.calls.length (.allocated td)
    (exec threadfunc { s.sys with data := heap } (s.calls.length, some s.calls.length)).map
      fun sys => ⟨sys, s.calls ++ [(td, true)]⟩

def join (s : Threads M) (thread : Nat) (success : Bool) : Option (Threads M) :=
  match s.sys.pc thread with
  | .returned td =>
    (s.sys.data td).data.bind fun d =>
      if d.threadCompleteSuccess = success then
        some { s with sys := { s.sys with data := update s.sys.data td .freed } }
      else none
  | _ => none

def Threads.next (s : Threads M) : Event M → Option (Threads M)
  | .start mutex waitToObtainMs waitToReleaseMs outcome =>
    startThreadObtainingMutex s ⟨mutex, waitToObtainMs, waitToReleaseMs, false⟩ outcome
  | .run thread => (exec threadfunc s.sys (thread, none)).map fun sys => { s with sys }
  | .join thread success => join s thread success

end

def Threads.empty (M : Type) : Threads M :=
  ⟨⟨fun _ => .before, fun _ => none, fun _ => 0, fun _ => .absent⟩, []⟩

def threads (M : Type) [DecidableEq M] : Lts (Threads M) (Event M) where
  init := (· = .empty M)
  step s e s' := s.next e = some s'

section

variable {M : Type}

/-- Where the thread of block `t` is that was started with the data `d`, and that block. -/
def Place (t : Nat) (d : ThreadData M) : ThreadPc M → Block M → Prop
  | .absent, _ => False
  | .entered td, block => td = t ∧ block = .allocated d
  | .usleepObtain td obtainTime releaseTime, block => td = t ∧ block = .allocated d ∧
      microseconds d.obtainMs = some obtainTime ∧ microseconds d.releaseMs = some releaseTime
  | .mutexLock td releaseTime, block => td = t ∧ block = .allocated d ∧
      microseconds d.releaseMs = some releaseTime
  | .usleepRelease td releaseTime locked, block => td = t ∧ block = .allocated d ∧
      microseconds d.releaseMs = some releaseTime ∧ locked = d.mutex
  | .mutexUnlock td locked, block => td = t ∧ block = .allocated d ∧ locked = d.mutex
  | .complete td, block => td = t ∧ block = .allocated d
  | .returned td, block => td = t ∧
      (block = .allocated { d with threadCompleteSuccess := true } ∨ block = .freed)

/-- The steps to come. -/
def ThreadPc.left : ThreadPc M → Nat
  | .entered _ => 6
  | .usleepObtain _ _ _ => 5
  | .mutexLock _ _ => 4
  | .usleepRelease _ _ _ => 3
  | .mutexUnlock _ _ => 2
  | .complete _ => 1
  | .absent | .returned _ => 0

def Block.left : Block M → Nat
  | .freed => 0
  | _ => 1

/-- In front of the mutex. -/
def ThreadPc.waits : ThreadPc M → M → Prop
  | .mutexLock _ _, _ => True
  | _, _ => False

/-- Nobody waits with a mutex in hand, so one rank is enough for them all. -/
def rank (_ : M) : Nat := 0

theorem waits_ascending (pc : ThreadPc M) (l m : M) (waiting : pc.waits l) (held : holds pc m) :
    rank m < rank l := by
  cases pc <;> cases waiting
  cases held

variable [DecidableEq M] {t : Nat} {d : ThreadData M} {pc pc' : ThreadPc M} {heap heap' : Heap M}
  {op : LockOp M}

theorem Place.next (place : Place t d pc (heap t)) (step : pc.next heap = some (op, pc', heap')) :
    Place t d pc' (heap' t) ∧ (∀ u, u ≠ t → heap' u = heap u) ∧ (heap' t).left = (heap t).left ∧
      pc'.left < pc.left := by
  cases threadStep_of step with
  | entered block first second =>
      obtain ⟨rfl, own⟩ := place
      rw [block, Block.allocated.injEq] at own
      subst own
      exact ⟨⟨rfl, block, first, second⟩, fun _ _ => rfl, rfl, Nat.lt_succ_self 5⟩
  | usleepObtain td obtainTime releaseTime =>
      obtain ⟨rfl, block, _, second⟩ := place
      exact ⟨⟨rfl, block, second⟩, fun _ _ => rfl, rfl, Nat.lt_succ_self 4⟩
  | mutexLock releaseTime block =>
      obtain ⟨rfl, own, second⟩ := place
      rw [block, Block.allocated.injEq] at own
      subst own
      exact ⟨⟨rfl, block, second, rfl⟩, fun _ _ => rfl, rfl, Nat.lt_succ_self 3⟩
  | usleepRelease td releaseTime locked =>
      obtain ⟨rfl, block, _, own⟩ := place
      exact ⟨⟨rfl, block, own⟩, fun _ _ => rfl, rfl, Nat.lt_succ_self 2⟩
  | mutexUnlock block =>
      obtain ⟨rfl, own, _⟩ := place
      exact ⟨⟨rfl, own⟩, fun _ _ => rfl, rfl, Nat.lt_succ_self 1⟩
  | complete block =>
      obtain ⟨rfl, own⟩ := place
      rw [block, Block.allocated.injEq] at own
      subst own
      refine ⟨⟨rfl, .inl (update_self ..)⟩, fun u apart => update_of_ne apart .., ?_, Nat.lt_succ_self 0⟩
      rw [update_self, block]
      rfl

/-- The thread has a next step, unless a product that it is about to take overflows. -/
theorem Place.stuck (place : Place t d pc (heap t)) (inside : threadfunc.outside pc = false) :
    pc.next heap = none ↔
      pc = .entered t ∧ (microseconds d.obtainMs = none ∨ microseconds d.releaseMs = none) := by
  cases pc with
  | absent | returned => cases inside
  | entered td =>
      obtain ⟨rfl, block⟩ := place
      simp only [ThreadPc.next, block, Block.data, Option.bind_some, true_and]
      cases microseconds d.obtainMs <;> cases microseconds d.releaseMs <;> simp
  | usleepObtain | usleepRelease => exact ⟨by rintro ⟨⟩, fun h => by cases h.1⟩
  | mutexLock td releaseTime =>
      obtain ⟨rfl, block, _⟩ := place
      simp [ThreadPc.next, block, Block.data]
  | mutexUnlock td locked =>
      obtain ⟨rfl, block, rfl⟩ := place
      simp [ThreadPc.next, block, Block.data]
  | complete td =>
      obtain ⟨rfl, block⟩ := place
      simp [ThreadPc.next, block, Block.data]

/-- Inside `threadfunc` the data is there as it was set up. -/
theorem Place.allocated {block : Block M} (place : Place t d pc block)
    (inside : threadfunc.outside pc = false) : block = .allocated d := by
  cases pc with
  | absent | returned => cases inside
  | entered | complete => exact place.2
  | _ => exact place.2.1

end

section

variable {M : Type}

/-- What a call has left of block `t` and of the thread on it. -/
def Held (t : Nat) : Option (ThreadData M × Bool) → ThreadPc M → Block M → Prop
  | none, pc, block => pc = .absent ∧ block = .before
  | some (d, false), pc, block => pc = .absent ∧ block = .allocated d
  | some (d, true), pc, block => Place t d pc block

/-- The invariant. -/
structure Threads.Kept (s : Threads M) : Prop where
  owned : Owned holds s.sys
  each : ∀ t, Held t s.calls[t]? (s.sys.pc t) (s.sys.data t)

theorem Held.place {t : Nat} {call : Option (ThreadData M × Bool)} {pc : ThreadPc M} {block : Block M}
    (held : Held t call pc block) (started : pc ≠ .absent) :
    ∃ d, call = some (d, true) ∧ Place t d pc block := by
  match call, held with
  | none, held => exact absurd held.1 started
  | some (d, false), held => exact absurd held.1 started
  | some (d, true), held => exact ⟨d, rfl, held⟩

theorem Held.inside [DecidableEq M] {t : Nat} {call : Option (ThreadData M × Bool)} {pc : ThreadPc M}
    {block : Block M} (held : Held t call pc block) (inside : threadfunc.outside pc = false) :
    ∃ d, call = some (d, true) ∧ Place t d pc block := by
  refine held.place ?_
  rintro rfl
  cases inside

theorem Threads.Kept.lost {s : Threads M} (kept : s.Kept) (t : Nat) (d : ThreadData M)
    (call : s.calls[t]? = some (d, false)) : s.sys.data t = .allocated d := by
  have held := kept.each t
  rw [call] at held
  exact held.2

theorem Threads.Kept.empty : (Threads.empty M).Kept where
  owned _ _ _ := ⟨by rintro ⟨⟩, fun h => h.2.elim⟩
  each _ := ⟨rfl, rfl⟩

variable [DecidableEq M] {s s' : Threads M} {t : Nat}

omit [DecidableEq M] in
theorem calls_other {calls : List (ThreadData M × Bool)} (apart : t ≠ calls.length)
    (call : ThreadData M × Bool) : (calls ++ [call])[t]? = calls[t]? := by
  rcases Nat.lt_or_gt_of_ne apart with below | above
  · exact List.getElem?_append_left below
  · rw [List.getElem?_eq_none above.le, List.getElem?_eq_none]
    rw [List.length_append, List.length_singleton]
    exact above

omit [DecidableEq M] in
theorem Threads.Kept.allocate (kept : s.Kept) (d : ThreadData M) :
    Threads.Kept ⟨{ s.sys with data := update s.sys.data s.calls.length (.allocated d) },
      s.calls ++ [(d, false)]⟩ where
  owned := kept.owned
  each t := by
    have before := kept.each t
    by_cases last : t = s.calls.length
    · subst last
      rw [List.getElem?_eq_none le_rfl] at before
      simp only [List.getElem?_concat_length, update_self]
      exact ⟨before.1, rfl⟩
    · simpa only [calls_other last, update_of_ne last] using before

theorem run_cases (kept : s.Kept) (taken : s.next (.run t) = some s') :
    ∃ d op, s.calls[t]? = some (d, true) ∧ Place t d (s.sys.pc t) (s.sys.data t) ∧
      (s.sys.pc t).next s.sys.data = some (op, s'.sys.pc t, s'.sys.data) ∧
      (∀ u, u ≠ t → s'.sys.pc u = s.sys.pc u) ∧ s'.calls = s.calls ∧
      Mutex.Step threadfunc s.sys (t, none) s'.sys := by
  obtain ⟨sys, computed, rfl⟩ := Option.map_eq_some_iff.mp taken
  have step := exec_iff.mp computed
  obtain ⟨op, next⟩ := step.next
  obtain ⟨d, call, place⟩ := (kept.each t).place (by
    intro absent
    rw [absent] at next
    cases next)
  exact ⟨d, op, call, place, next, fun u apart => step.pc_other apart, rfl, step⟩

theorem join_cases {success : Bool} (kept : s.Kept) (taken : s.next (.join t success) = some s') :
    ∃ d, s.calls[t]? = some (d, true) ∧ s.sys.pc t = .returned t ∧ success = true ∧
      s.sys.data t = .allocated { d with threadCompleteSuccess := true } ∧
      s' = ⟨{ s.sys with data := update s.sys.data t .freed }, s.calls⟩ := by
  simp only [Threads.next, join] at taken
  split at taken
  · rename_i td here
    obtain ⟨d, call, place⟩ := (kept.each t).place (by rw [here]; rintro ⟨⟩)
    rw [here] at place
    obtain ⟨rfl, block⟩ := place
    rcases block with block | block
    · rw [block] at taken
      simp only [Block.data, Option.bind_some] at taken
      split at taken
      · rename_i same
        cases taken
        exact ⟨d, call, here, same.symm, block, rfl⟩
      · cases taken
    · rw [block] at taken
      cases taken
  · cases taken

theorem Threads.Kept.start (kept : s.Kept) (d : ThreadData M) {outcome : StartOutcome}
    (taken : startThreadObtainingMutex s d outcome = some s') : s'.Kept := by
  cases outcome with
  | mallocFails =>
      cases taken
      exact kept
  | createFails =>
      cases taken
      exact kept.allocate d
  | created =>
      obtain ⟨sys, computed, rfl⟩ := Option.map_eq_some_iff.mp taken
      have step := exec_iff.mp computed
      have allocated := kept.allocate d
      obtain ⟨_, entered, data⟩ := step.enters
      refine ⟨allocated.owned.step disciplined (fun _ => trivial) step, fun t => ?_⟩
      dsimp only
      rw [data]
      by_cases last : t = s.calls.length
      · subst last
        rw [List.getElem?_concat_length, entered]
        exact ⟨rfl, update_self ..⟩
      · have before := allocated.each t
        simp only [calls_other last] at before ⊢
        rw [step.pc_other last]
        exact before

theorem Threads.Kept.step (kept : s.Kept) {e : Event M} (taken : s.next e = some s') : s'.Kept := by
  cases e with
  | start mutex waitToObtainMs waitToReleaseMs outcome => exact kept.start _ taken
  | run t =>
      obtain ⟨d, op, call, place, next, others, calls, step⟩ := run_cases kept taken
      obtain ⟨after, heap, _, _⟩ := place.next next
      refine ⟨kept.owned.step disciplined (fun _ => trivial) step, fun u => ?_⟩
      rw [calls]
      by_cases same : u = t
      · subst same
        rw [call]
        exact after
      · rw [others u same, heap u same]
        exact kept.each u
  | join t success =>
      obtain ⟨d, call, here, _, block, rfl⟩ := join_cases kept taken
      refine ⟨kept.owned, fun u => ?_⟩
      have before := kept.each u
      by_cases same : u = t
      · subst same
        simp only [call, here, update_self]
        exact ⟨rfl, .inr rfl⟩
      · simpa only [update_of_ne same] using before

theorem kept_of_reach (reach : (threads M).Reach Lts.anyStep s) : s.Kept := by
  refine reach.induct Threads.Kept ?_ fun s e s' kept _ taken => kept.step taken
  rintro _ rfl
  exact .empty

end

section

variable {M : Type} [DecidableEq M] {s : Threads M}

structure Threads.Sound (s : Threads M) : Prop where
  /-- The owner of a mutex is the one thread between lock and unlock of it. -/
  exclusive : ∀ m t, (∃ n, s.sys.owner m = some (t, n)) ↔ holds (s.sys.pc t) m
  /-- There is a thread where `start_thread_obtaining_mutex` has returned true. -/
  started : ∀ t, s.sys.pc t ≠ .absent ↔ ∃ d, s.calls[t]? = some (d, true)
  /-- A thread on its way has the data it was started with; the one thing that can be
  undefined about its next step is the product of two `int`. -/
  defined : ∀ t, threadfunc.outside (s.sys.pc t) = false → ∃ d, s.calls[t]? = some (d, true) ∧
    s.sys.data t = .allocated d ∧ ((s.sys.pc t).next s.sys.data = none ↔
      s.sys.pc t = .entered t ∧ (microseconds d.obtainMs = none ∨ microseconds d.releaseMs = none))
  /-- It sleeps for the times it was given, the second one with its mutex. -/
  obtains : ∀ t td obtainTime releaseTime, s.sys.pc t = .usleepObtain td obtainTime releaseTime →
    ∃ d, s.calls[t]? = some (d, true) ∧ microseconds d.obtainMs = some obtainTime
  releases : ∀ t td releaseTime locked, s.sys.pc t = .usleepRelease td releaseTime locked →
    ∃ d, s.calls[t]? = some (d, true) ∧ microseconds d.releaseMs = some releaseTime ∧ locked = d.mutex
  /-- Who joins a thread finds success, whatever `usleep` has returned. -/
  joined : ∀ t success s', s.next (.join t success) = some s' → success = true ∧
    s'.sys.data t = .freed
  /-- Nobody frees the block of a thread that could not be created. -/
  lost : ∀ t d, s.calls[t]? = some (d, false) → s.sys.data t = .allocated d

theorem threads_sound (reach : (threads M).Reach Lts.anyStep s) : s.Sound := by
  have kept := kept_of_reach reach
  constructor
  · intro m t
    constructor
    · rintro ⟨n, owner⟩
      exact ((kept.owned m t n).mp owner).2
    · exact fun held => ⟨_, (kept.owned m t _).mpr ⟨rfl, held⟩⟩
  · intro t
    constructor
    · intro started
      obtain ⟨d, call, _⟩ := (kept.each t).place started
      exact ⟨d, call⟩
    · rintro ⟨d, call⟩ absent
      have place := kept.each t
      rw [call, absent] at place
      exact place
  · intro t inside
    obtain ⟨d, call, place⟩ := (kept.each t).inside inside
    exact ⟨d, call, place.allocated inside, place.stuck inside⟩
  · intro t td obtainTime releaseTime here
    obtain ⟨d, call, place⟩ := (kept.each t).place (by rw [here]; rintro ⟨⟩)
    rw [here] at place
    exact ⟨d, call, place.2.2.1⟩
  · intro t td releaseTime locked here
    obtain ⟨d, call, place⟩ := (kept.each t).place (by rw [here]; rintro ⟨⟩)
    rw [here] at place
    exact ⟨d, call, place.2.2⟩
  · intro t success s' taken
    obtain ⟨d, _, _, success, _, rfl⟩ := join_cases kept taken
    exact ⟨success, update_self ..⟩
  · exact kept.lost

end

/-- Two threads on one mutex, the first of which has it, and one that could not be created. -/
def oneHolds : List (Event Unit) :=
  [.start () 10 20 .created, .start () 5 5 .created, .start () 1 1 .createFails] ++
    [0, 1, 0, 1, 0].map .run

theorem threads_sound_oneHolds : ∃ s : Threads Unit, holds (s.sys.pc 0) () ∧ ¬holds (s.sys.pc 1) () ∧
    s.Sound := by
  obtain ⟨s, runs⟩ : ∃ s, oneHolds.foldlM Threads.next (.empty Unit) = some s := ⟨_, rfl⟩
  have init : (threads Unit).Reach Lts.anyStep (.empty Unit) := .init rfl
  have reach := init.foldlM (fun _ _ _ taken => ⟨trivial, taken⟩) runs
  have places : (oneHolds.foldlM Threads.next (.empty Unit)).map (fun s => (s.sys.pc 0, s.sys.pc 1)) =
      some (.usleepRelease 0 20000 (), .mutexLock 1 5000) := rfl
  rw [runs, Option.map_some, Option.some.injEq, Prod.mk.injEq] at places
  exact ⟨s, by rw [places.1]; exact rfl, by rw [places.2]; exact id, threads_sound reach⟩

section

variable {M : Type} [DecidableEq M] {s s' : Threads M}

def Event.starts : Event M → Bool
  | .start _ _ _ _ => true
  | _ => false

/-- The steps and the joins to come. -/
def Threads.left (s : Threads M) : Nat :=
  ∑ t ∈ Finset.range s.calls.length, ((s.sys.pc t).left + (s.sys.data t).left)

theorem Threads.Kept.left_step (kept : s.Kept) {e : Event M} (going : e.starts = false)
    (taken : s.next e = some s') : s'.calls = s.calls ∧ s'.left < s.left := by
  have member : ∀ {t d}, s.calls[t]? = some (d, true) → t ∈ Finset.range s.calls.length :=
    fun call => Finset.mem_range.mpr (List.getElem?_eq_some_iff.mp call).1
  cases e with
  | start => cases going
  | run t =>
      obtain ⟨d, op, call, place, next, others, calls, _⟩ := run_cases kept taken
      obtain ⟨_, heap, block, fewer⟩ := place.next next
      refine ⟨calls, ?_⟩
      rw [Threads.left, calls]
      refine Finset.sum_lt_sum (fun u _ => ?_) ⟨t, member call, by omega⟩
      by_cases same : u = t
      · subst same
        omega
      · rw [others u same, heap u same]
  | join t success =>
      obtain ⟨d, call, here, _, block, rfl⟩ := join_cases kept taken
      refine ⟨rfl, Finset.sum_lt_sum (fun u _ => ?_) ⟨t, member call, ?_⟩⟩
      · by_cases same : u = t
        · subst same
          simp [block, Block.left]
        · simp [same]
      · simp [block, Block.left]

/-- The times in milliseconds are small enough. -/
def ThreadData.Fits (d : ThreadData M) : Prop :=
  ∀ ms ∈ [d.obtainMs, d.releaseMs], -2147483 ≤ ms.toInt ∧ ms.toInt ≤ 2147483

theorem Threads.Kept.ready (kept : s.Kept) (fits : ∀ d, (d, true) ∈ s.calls → d.Fits) :
    Ready threadfunc ThreadPc.waits s.sys := by
  intro t inside
  rw [Bool.not_eq_true] at inside
  obtain ⟨d, call, place⟩ := (kept.each t).inside inside
  have small := fits d (List.mem_of_getElem? call)
  cases next : (s.sys.pc t).next s.sys.data with
  | none =>
      obtain ⟨_, none⟩ := (place.stuck inside).mp next
      exact absurd none (not_or.mpr ⟨microseconds_ne_none (small _ (by simp)),
        microseconds_ne_none (small _ (by simp))⟩)
  | some result =>
      obtain ⟨op, pc', heap'⟩ := result
      refine ⟨op, pc', heap', next, ?_⟩
      rintro l rfl
      generalize s.sys.pc t = pc at next
      cases threadStep_of next with
      | mutexLock => trivial

/-- Nothing is left to be done. -/
structure Threads.Done (s : Threads M) : Prop where
  unlocked : ∀ m, s.sys.owner m = none
  returned : ∀ t d, s.calls[t]? = some (d, true) → s.sys.pc t = .returned t ∧ s.sys.data t = .freed
  lost : ∀ t d, s.calls[t]? = some (d, false) → s.sys.data t = .allocated d

theorem Threads.Kept.done (kept : s.Kept) (fits : ∀ d, (d, true) ∈ s.calls → d.Fits)
    (still : ∀ e s', e.starts = false → s.next e ≠ some s') : s.Done := by
  have out : ∀ t, threadfunc.outside (s.sys.pc t) := by
    intro t
    by_contra inside
    obtain ⟨u, sys, step⟩ := kept.owned.progress disciplined.outside waits_ascending
      (fun _ => Nat.one_pos) (kept.ready fits) inside
    exact still (.run u) _ rfl (by rw [Threads.next, exec_iff.mpr step, Option.map_some])
  constructor
  · intro m
    cases owner : s.sys.owner m with
    | none => rfl
    | some thread =>
        obtain ⟨t, n⟩ := thread
        exact absurd ((kept.owned m t n).mp owner).2 (disciplined.outside _ m (out t))
  · intro t d call
    have place := kept.each t
    rw [call] at place
    have place : Place t d (s.sys.pc t) (s.sys.data t) := place
    cases here : s.sys.pc t with
    | returned td =>
        rw [here] at place
        obtain ⟨rfl, block⟩ := place
        refine ⟨rfl, block.resolve_left fun there => ?_⟩
        exact still (.join td true) _ rfl (by
          simp only [Threads.next, join, here, there, Block.data, Option.bind_some, if_true]
          rfl)
    | absent =>
        rw [here] at place
        exact place.elim
    | _ =>
        have inside := out t
        rw [here] at inside
        cases inside
  · exact kept.lost

/-- However the threads and those who join them go on. -/
structure Threads.Completes (s : Threads M) : Prop where
  bounded : ∀ labels s', ((threads M).startingAt s).Run (fun _ e => e.starts = false) labels s' →
    labels.length ≤ 7 * s.calls.length
  complete : ∀ labels s', ((threads M).startingAt s).Run (fun _ e => e.starts = false) labels s' →
    (∀ e s'', e.starts = false → s'.next e ≠ some s'') → s'.Done

omit [DecidableEq M] in
theorem Threads.left_le (s : Threads M) : s.left ≤ 7 * s.calls.length := by
  have each : ∀ t ∈ Finset.range s.calls.length, (s.sys.pc t).left + (s.sys.data t).left ≤ 7 := by
    intro t _
    have steps : (s.sys.pc t).left ≤ 6 := by cases s.sys.pc t <;> simp [ThreadPc.left]
    have join : (s.sys.data t).left ≤ 1 := by cases s.sys.data t <;> simp [Block.left]
    omega
  refine (Finset.sum_le_sum each).trans_eq ?_
  rw [Finset.sum_const_nat fun _ _ => rfl, Finset.card_range, Nat.mul_comm]

theorem threads_complete (reach : (threads M).Reach Lts.anyStep s)
    (fits : ∀ d, (d, true) ∈ s.calls → d.Fits) : s.Completes := by
  have further : ∀ labels s', ((threads M).startingAt s).Run (fun _ e => e.starts = false) labels s' →
      (s'.Kept ∧ s'.calls = s.calls) ∧ labels.length + s'.left ≤ s.left := by
    intro labels s' run
    refine run.bounded (fun s' => s'.Kept ∧ s'.calls = s.calls) Threads.left ?_ ?_
    · rintro _ rfl
      exact ⟨⟨kept_of_reach reach, rfl⟩, le_rfl⟩
    · rintro s₁ e s₂ ⟨kept, calls⟩ going taken
      obtain ⟨same, fewer⟩ := kept.left_step going taken
      exact ⟨⟨kept.step taken, same.trans calls⟩, fewer⟩
  constructor
  · intro labels s' run
    have total := (further labels s' run).2
    have most := s.left_le
    omega
  · intro labels s' run still
    obtain ⟨⟨kept, calls⟩, _⟩ := further labels s' run
    exact kept.done (by rwa [calls]) still

end

theorem threads_complete_oneHolds : ∃ s : Threads Unit, s.calls.length = 3 ∧ s.Completes := by
  obtain ⟨s, runs⟩ : ∃ s, oneHolds.foldlM Threads.next (.empty Unit) = some s := ⟨_, rfl⟩
  have init : (threads Unit).Reach Lts.anyStep (.empty Unit) := .init rfl
  have reach := init.foldlM (fun _ _ _ taken => ⟨trivial, taken⟩) runs
  have calls : (oneHolds.foldlM Threads.next (.empty Unit)).map Threads.calls =
      some [(⟨(), 10, 20, false⟩, true), (⟨(), 5, 5, false⟩, true), (⟨(), 1, 1, false⟩, false)] := rfl
  rw [runs, Option.map_some, Option.some.injEq] at calls
  refine ⟨s, by rw [calls]; rfl, threads_complete reach fun d started => ?_⟩
  simp only [calls, List.mem_cons, Prod.mk.injEq, List.not_mem_nil, or_false, Bool.true_eq_false,
    and_true, and_false] at started
  rcases started with rfl | rfl <;> simp [ThreadData.Fits]

end Aesd.Threading
