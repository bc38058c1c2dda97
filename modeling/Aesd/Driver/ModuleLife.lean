import Aesd.Driver.Leak

/-! # Loading and unloading the module

`aesd_init_module` and `aesd_cleanup_module` around the interleaved calls, over
any number of loads.  What the kernel hands to the module and gets back is
counted: the character device region balances always, the working block except
where `cdev_add` fails, and `cdev_del` is called once too often where the working
block is refused.  The entry blocks that a cleanup leaves behind are as many as
attempts on `cb_mutex` were interrupted with a finished entry in hand.
-/

namespace Aesd.Driver

open Aesd.Lib Aesd.Lib.Mutex CircularBuffer

/-- What the module obtains from the kernel and gives back.  A call that obtains
    nothing and a `kfree` of NULL do not count. -/
inductive KernelCall where
  | allocChrdevRegion
  | unregisterChrdevRegion
  | kzallocWorking
  | kfreeWorking
  | cdevAdd
  | cdevDel
  deriving Repr, DecidableEq

/-- What the kernel answers while the module loads.  `alloc_chrdev_region` and
    `cdev_add` return 0 or a negative error number. -/
structure InitCall where
  region : Int
  region_le : region ≤ 0
  working : Bool
  cdev : Int
  cdev_le : cdev ≤ 0

/-- `result`, the calls that were made, and `aesd_device`. -/
structure InitResult where
  result : Int
  calls : List KernelCall
  dev : Dev

/-- `aesd_setup_cdev`. -/
def aesdSetupCdev (c : InitCall) : Int × List KernelCall :=
  (c.cdev, if c.cdev = 0 then [.cdevAdd] else [])

/-- The whole of `aesd_cleanup_module`; `working` tells whether `we.buffptr` is set. -/
def aesdCleanupModuleCalls (working : Bool) (d : Dev) : List KernelCall × Dev :=
  ([.cdevDel] ++ (if working then [.kfreeWorking] else []) ++ [.unregisterChrdevRegion],
    aesdCleanupModule d)

/-- `aesd_init_module`.  The buffer is all zero from the first `memset` on, so
    that a cleanup after the label `fail` finds no entry. -/
def aesdInitModule (K : Kernel) (c : InitCall) : InitResult :=
  if c.region < 0 then ⟨c.region, [], .afterInit K⟩
  else if c.working then
    let (result, calls) := aesdSetupCdev c
    let undo := if result ≠ 0 then [.unregisterChrdevRegion] else []
    ⟨result, [.allocChrdevRegion, .kzallocWorking] ++ calls ++ undo, .afterInit K⟩
  else
    let (calls, d) := aesdCleanupModuleCalls false (.afterInit K)
    ⟨-ENOMEM, .allocChrdevRegion :: calls, d⟩

/-- One attempt on `cb_mutex` that was interrupted with a finished entry in hand. -/
def Pc.interruptions : Pc → Nat
  | .writeLock c _ => match c.cbLock with
    | .granted => 0
    | .interrupted => 1
  | _ => 0

/-- Of a step of the processes, that of the process which takes it. -/
def interruptions {Pid : Type} (s : DriverSystem Pid) : Pid × Option Op → Nat
  | (p, none) => (s.pc p).interruptions
  | (_, some _) => 0

/-- The processes at the device while the module is loaded, all calls since the
    machine started, the devices as earlier loads left them, and how many
    attempts of a write on the second lock were interrupted. -/
structure Machine (Pid : Type) where
  users : Option (DriverSystem Pid)
  calls : List KernelCall
  left : List Dev
  interrupted : Nat

inductive MachineEvent (Pid : Type) where
  | insmod (c : InitCall)
  | users (label : Pid × Option Op)
  | rmmod

namespace Machine

variable {Pid : Type}

def boot : Machine Pid := ⟨none, [], [], 0⟩

/-- `insmod`: the module stays only when `aesd_init_module` returns 0. -/
def insmod (K : Kernel) (m : Machine Pid) (c : InitCall) : Machine Pid :=
  let r := aesdInitModule K c
  if r.result = 0 then { m with users := some (usersStart Pid K), calls := m.calls ++ r.calls }
  else { m with calls := m.calls ++ r.calls, left := m.left ++ [r.dev] }

/-- `rmmod` of a module whose processes are at `s`. -/
def rmmod (m : Machine Pid) (s : DriverSystem Pid) : Machine Pid :=
  let (calls, d) := aesdCleanupModuleCalls true s.data
  { m with users := none, calls := m.calls ++ calls, left := m.left ++ [d] }

/-- 1 while the module is loaded. -/
def loads (m : Machine Pid) : Nat := m.users.toList.length

/-- The entry blocks that earlier loads left unreleased. -/
def leaked (m : Machine Pid) : Nat := (m.left.map fun d => d.outstanding.length).sum

end Machine

section

variable {Pid : Type} [DecidableEq Pid]

/-- The module is loaded and removed, and used in between by any processes in any
    order.  It is not removed while a process is inside the driver. -/
inductive MachineStep (f : FixedSizeLlseek) (K : Kernel) :
    Machine Pid → MachineEvent Pid → Machine Pid → Prop where
  | insmod {m c} (absent : m.users = none) : MachineStep f K m (.insmod c) (m.insmod K c)
  | users {m s label s'} (loaded : m.users = some s) (taken : Step (driverCode f) s label s') :
      MachineStep f K m (.users label)
        { m with users := some s', interrupted := m.interrupted + interruptions s label }
  | rmmod {m s} (loaded : m.users = some s) (quiet : Quiet s) :
      MachineStep f K m .rmmod (m.rmmod s)

def machine (Pid : Type) [DecidableEq Pid] (f : FixedSizeLlseek) (K : Kernel) :
    Lts (Machine Pid) (MachineEvent Pid) where
  init m := m = .boot
  step := MachineStep f K

end

/-- Every block was put into the buffer, is in the writer's hand, or is one of `n`
    that are lost. -/
def Counted (n : Nat) (pc : Pc) (d : Dev) (added : List (BufferEntry Nat)) : Prop :=
  d.heap.length = added.length + pc.finished.toList.length + n

theorem HandStep.counted {n : Nat} {pc pc' : Pc} {d d' : Dev} {added added' : List (BufferEntry Nat)}
    (hand : HandStep pc d added pc' d' added') (gets : GetsSecondLock pc d)
    (counted : Counted n pc d added) : Counted n pc' d' added' := by
  unfold Counted at counted ⊢
  cases hand with
  | keeps same heap => rw [same, heap, counted]
  | obtains empty new ptr heap =>
      rw [empty] at counted
      rw [new, heap, counted]
      simp only [Option.toList_none, Option.toList_some, List.length_nil, List.length_singleton]
      omega
  | drops place lock empty heap =>
      have granted := gets _ _ place
      rw [lock] at granted
      cases granted
  | stores place empty heap =>
      subst place
      rw [empty, heap, counted]
      simp [Pc.finished]

theorem Pc.getsSecondLock_iff {pc : Pc} {d : Dev} : GetsSecondLock pc d ↔ pc.interruptions = 0 := by
  cases pc with
  | writeLock c finished =>
      cases lock : c.cbLock <;> simp [GetsSecondLock, Pc.interruptions, lock]
  | _ => simp [GetsSecondLock, Pc.interruptions]

theorem Pc.interrupted_cases {pc : Pc} (some : pc.interruptions ≠ 0) :
    pc.interruptions = 1 ∧ ∃ c e, pc = .writeLock c e ∧ c.cbLock = .interrupted := by
  cases pc with
  | writeLock c finished =>
      cases lock : c.cbLock with
      | granted => simp [Pc.interruptions, lock] at some
      | interrupted => exact ⟨by simp [Pc.interruptions, lock], c, finished, rfl, lock⟩
  | _ => exact absurd rfl some

theorem carries_counted (K : Kernel) (f : FixedSizeLlseek) (n : Nat) :
    Carries (driverCode f) GetsSecondLock Pc.holds .we (InPhase K (Counted n)) := by
  refine carries_inPhase K f ?_ (fun _ _ _ _ => id) ?_
  · intro pc d added away
    rw [Counted, (Pc.handsFree away).2.1]
    exact Iff.rfl
  · intro pc d op pc' d' added added' committed committed' gets taken phase longer counted
    exact (handStep phase taken longer).counted gets counted

section

variable {Pid : Type} [DecidableEq Pid] {f : FixedSizeLlseek} {K : Kernel} {n : Nat}
  {s s' : DriverSystem Pid}

/-- The writer whose second lock is interrupted leaves with a block unaccounted for. -/
theorem counted_interrupted (guarded : Guarded Pc.holds s)
    (kept : Kept Pc.holds .we (InPhase K (Counted n)) s) {p : Pid}
    (taken : Step (driverCode f) s (p, none) s') {c : WriteCall} {e : BufferEntry Nat}
    (place : s.pc p = .writeLock c e) (lock : c.cbLock = .interrupted) :
    Kept Pc.holds .we (InPhase K (Counted (n + 1))) s' := by
  have guarded' : Guarded Pc.holds s' := guarded.step (driverCode_excludes f) taken
  obtain ⟨op, next⟩ := taken.next
  have left : Pc.next f (s.pc p) s.data = some (.none, .writeOut (-ERESTARTSYS), s.data) := by
    simp only [place, Pc.next, lock]
  have same := next.symm.trans left
  simp only [Option.some.injEq, Prod.mk.injEq] at same
  obtain ⟨-, out, data⟩ := same
  have held : (s.pc p).holds .we := by simp [place, Pc.holds]
  have held' : (s'.pc p).holds .we := by simp [out, Pc.holds]
  obtain ⟨added, committed, ⟨models, blocks⟩, counted⟩ := kept.inside p held
  rw [Option.getD_some, place] at models blocks counted
  constructor
  · intro q inside
    obtain rfl : q = p := guarded'.exclusive inside held'
    rw [data, out]
    refine ⟨added, committed, ⟨models, blocks.forget⟩, ?_⟩
    simp only [Counted, Pc.finished, Option.toList_some, List.length_singleton] at counted
    simp only [Option.getD_some, Counted, Pc.finished, Option.toList_none, List.length_nil]
    omega
  · exact fun nobody => absurd held' (nobody p)

theorem counted_step (guarded : Guarded Pc.holds s)
    (kept : Kept Pc.holds .we (InPhase K (Counted n)) s) {label : Pid × Option Op}
    (taken : Step (driverCode f) s label s') :
    Kept Pc.holds .we (InPhase K (Counted (n + interruptions s label))) s' := by
  obtain ⟨p, call⟩ := label
  by_cases none : interruptions s (p, call) = 0
  · rw [none]
    refine kept.step guarded (driverCode_excludes f) (carries_counted K f n) ?_ taken
    rintro rfl
    exact Pc.getsSecondLock_iff.mpr none
  · cases call with
    | some op => exact absurd rfl none
    | none =>
        obtain ⟨one, c, e, place, lock⟩ := Pc.interrupted_cases none
        rw [interruptions, one]
        exact counted_interrupted guarded kept taken place lock

end

theorem counted_start (Pid : Type) (K : Kernel) :
    Kept Pc.holds .we (InPhase K (Counted 0)) (usersStart Pid K) where
  inside _ held := absurd held (not_holds_of_outside rfl _)
  idle _ := ⟨[], [], Phase.afterInit K, rfl⟩

theorem length_filter_unpointed {ptrs : List (Option Nat)} {n : Nat} (nodup : ptrs.Nodup)
    (inside : ∀ ptr ∈ ptrs, ∃ b, ptr = some b ∧ b < n) :
    ((List.range n).filter fun b => some b ∉ ptrs).length + ptrs.length = n := by
  have pointed : (((List.range n).filter fun b => some b ∈ ptrs).map some).Perm ptrs := by
    refine (List.perm_ext_iff_of_nodup ?_ nodup).mpr fun ptr => ?_
    · exact (List.nodup_range.filter _).map (Option.some_injective _)
    · simp only [List.mem_map, List.mem_filter, List.mem_range, decide_eq_true_eq]
      constructor
      · rintro ⟨b, ⟨_, member⟩, rfl⟩
        exact member
      · intro member
        obtain ⟨b, rfl, short⟩ := inside ptr member
        exact ⟨b, ⟨short, member⟩, rfl⟩
  have parts := List.length_eq_length_filter_add (l := List.range n) fun b => decide (some b ∈ ptrs)
  rw [List.length_range, ← List.length_map (f := some), pointed.length_eq] at parts
  simp only [decide_not]
  omega

section

variable {K : Kernel} {n : Nat} {d : Dev} {added : List (BufferEntry Nat)}
  {committed : List (List UInt8)}

theorem outstanding_eq (ptrs : List (Option Nat))
    (released : ∀ b block, d.heap[b]? = some block → (block.released = 0 ↔ some b ∉ ptrs)) :
    d.outstanding = (List.range d.heap.length).filter fun b => some b ∉ ptrs := by
  refine List.filter_congr fun b member => ?_
  have found := List.getElem?_eq_getElem (List.mem_range.mp member)
  rw [found, Option.any_some, Bool.eq_iff_iff, beq_iff_eq, decide_eq_true_eq]
  exact released b _ found

theorem Phase.ptrs_inside (phase : Phase K (.user none) d added committed) :
    ∀ ptr ∈ added.map BufferEntry.buffptr, ∃ b, ptr = some b ∧ b < d.heap.length :=
  fun _ member => phase.1.ptr_inside member

/-- While nobody is inside, the outstanding blocks are those of the buffer and the lost ones. -/
theorem Phase.length_outstanding (phase : Phase K (.user none) d added committed)
    (counted : Counted n (.user none) d added) :
    d.outstanding.length = d.cb.live.length + n := by
  have outstanding := outstanding_eq (d := d) (gone added) fun b block found => by
    rw [phase.2.released b block found]
    simp [Pc.replaced]
  have nodup : (gone added).Nodup :=
    phase.2.distinct.sublist ((List.take_sublist _ _).map _)
  have parts := length_filter_unpointed nodup fun ptr member =>
    phase.ptrs_inside ptr (Blocks.gone_subset member)
  rw [← outstanding, gone, List.length_map, List.length_take] at parts
  rw [phase.stores.live, Ring.length_rtake]
  simp only [Counted, Pc.finished, Option.toList_none, List.length_nil] at counted
  omega

theorem length_heap_aesdCleanupModule (d : Dev) :
    (aesdCleanupModule d).heap.length = d.heap.length := by
  have each : ∀ (ptrs : List (Option Nat)) (heap : Heap),
      (ptrs.foldl kfree heap).length = heap.length := by
    intro ptrs
    induction ptrs with
    | nil => exact fun _ => rfl
    | cons ptr ptrs ih => exact fun heap => (ih _).trans (length_kfree heap ptr)
  exact each _ _

theorem Phase.length_outstanding_cleanup (phase : Phase K (.user none) d added committed)
    (counted : Counted n (.user none) d added) :
    (aesdCleanupModule d).outstanding.length = n := by
  have outstanding := outstanding_eq (d := aesdCleanupModule d) (added.map BufferEntry.buffptr) ?_
  · have parts := length_filter_unpointed phase.2.distinct phase.ptrs_inside
    rw [outstanding, length_heap_aesdCleanupModule]
    rw [List.length_map] at parts
    simp only [Counted, Pc.finished, Option.toList_none, List.length_nil] at counted
    omega
  · intro b block found
    rw [aesdCleanupModule, getElem?_foldl_kfree] at found
    obtain ⟨before, there, rfl⟩ := Option.map_eq_some_iff.mp found
    have early := phase.2.released b before there
    simp only [Nat.add_eq_zero_iff, List.count_eq_zero]
    constructor
    · rintro ⟨unreleased, slots⟩ stored
      -- an entry that is in no slot has been pushed out and released
      have kept : some b ∉ gone added := by
        intro out
        rw [early, if_pos ⟨out, fun h => by cases h⟩] at unreleased
        cases unreleased
      rw [← List.take_append_drop (added.length - 10) added, List.map_append,
        List.mem_append] at stored
      refine slots (phase.stores.live_ptr_mem_slots ?_)
      rw [phase.stores.live, List.rtake]
      exact stored.resolve_left kept
    · intro never
      refine ⟨?_, fun slots => ?_⟩
      · rw [early, if_neg fun out => never (Blocks.gone_subset out.1)]
      · obtain ⟨i, small, own⟩ := List.mem_map.mp slots
        rcases phase.stores.slot_cases (List.mem_range.mp small) with blank | ⟨m, inside, _, _, slot⟩
        · rw [blank] at own
          cases own
        · exact never (own ▸ slot ▸ List.mem_map_of_mem (List.getElem_mem inside))

end

namespace MachineEvent

variable {Pid : Type}

/-- A load whose working block is refused. -/
def starved : MachineEvent Pid → Bool
  | .insmod c => c.region = 0 && !c.working
  | _ => false

/-- A load whose device cannot be added. -/
def notAdded : MachineEvent Pid → Bool
  | .insmod c => c.region = 0 && c.working && c.cdev ≠ 0
  | _ => false

end MachineEvent

/-- The kernel's side of the books.  Each load without a working block deletes a
    device that was never added; each load whose device is not added keeps the
    working block. -/
structure Balanced {Pid : Type} (events : List (MachineEvent Pid)) (m : Machine Pid) : Prop where
  region : m.calls.count .allocChrdevRegion = m.calls.count .unregisterChrdevRegion + m.loads
  working : m.calls.count .kzallocWorking =
    m.calls.count .kfreeWorking + m.loads + events.countP MachineEvent.notAdded
  cdev : m.calls.count .cdevAdd + events.countP MachineEvent.starved =
    m.calls.count .cdevDel + m.loads

/-- The entry blocks.  None is released twice, none but those of interrupted
    second locks outlives the module, and while nobody is inside the driver only
    those and the buffer's are outstanding. -/
structure EntriesAccounted {Pid : Type} (m : Machine Pid) : Prop where
  once : ∀ d ∈ m.left, ∀ (b : Nat) (block : Block), d.heap[b]? = some block → block.released ≤ 1
  absent : m.users = none → m.leaked = m.interrupted
  loaded : ∀ s, m.users = some s → Quiet s →
    m.leaked + s.data.outstanding.length = s.data.cb.live.length + m.interrupted

section

variable {Pid : Type}

theorem Balanced.boot : Balanced [] (Machine.boot : Machine Pid) := ⟨rfl, rfl, rfl⟩

theorem Balanced.insmod {events : List (MachineEvent Pid)} {m : Machine Pid}
    (balanced : Balanced events m) (absent : m.users = none) (K : Kernel) (c : InitCall) :
    Balanced (events ++ [.insmod c]) (m.insmod K c) := by
  obtain ⟨region, working, cdev⟩ := balanced
  have region_le := c.region_le
  simp only [Machine.loads, absent, Option.toList_none, List.length_nil] at region working cdev
  by_cases refused : c.region < 0
  · have some : c.region ≠ 0 := by omega
    constructor <;> simp [Machine.insmod, aesdInitModule, refused, some, absent, Machine.loads,
      MachineEvent.starved, MachineEvent.notAdded] <;> omega
  · have none : c.region = 0 := by omega
    cases block : c.working with
    | false =>
        constructor <;> simp [Machine.insmod, aesdInitModule, aesdCleanupModuleCalls, none, block,
          absent, Machine.loads, MachineEvent.starved, MachineEvent.notAdded, ENOMEM] <;> omega
    | true =>
        by_cases added : c.cdev = 0
        · constructor <;> simp [Machine.insmod, aesdInitModule, aesdSetupCdev, none, block, added,
            Machine.loads, MachineEvent.starved, MachineEvent.notAdded] <;> omega
        · constructor <;> simp [Machine.insmod, aesdInitModule, aesdSetupCdev, none, block, added,
            absent, Machine.loads, MachineEvent.starved, MachineEvent.notAdded] <;> omega

theorem Balanced.rmmod {events : List (MachineEvent Pid)} {m : Machine Pid}
    (balanced : Balanced events m) {s : DriverSystem Pid} (loaded : m.users = some s) :
    Balanced (events ++ [.rmmod]) (m.rmmod s) := by
  obtain ⟨region, working, cdev⟩ := balanced
  simp only [Machine.loads, loaded, Option.toList_some, List.length_singleton] at region working cdev
  constructor <;> simp [Machine.rmmod, aesdCleanupModuleCalls, Machine.loads,
    MachineEvent.starved, MachineEvent.notAdded] <;> omega

end

/-- The entry blocks between any two steps, calls in progress included. -/
structure EntriesKept {Pid : Type} (K : Kernel) (m : Machine Pid) : Prop where
  once : ∀ d ∈ m.left, ∀ (b : Nat) (block : Block), d.heap[b]? = some block → block.released ≤ 1
  absent : m.users = none → m.leaked = m.interrupted
  loaded : ∀ s, m.users = some s → Guarded Pc.holds s ∧
    ∃ n, Kept Pc.holds .we (InPhase K (Counted n)) s ∧ m.interrupted = m.leaked + n

section

variable {Pid : Type} {f : FixedSizeLlseek} {K : Kernel} {m : Machine Pid} {s : DriverSystem Pid}

theorem EntriesKept.boot : EntriesKept K (Machine.boot : Machine Pid) where
  once _ member := by cases member
  absent _ := rfl
  loaded _ loaded := by cases loaded

theorem heap_aesdInitModule (K : Kernel) (c : InitCall) : (aesdInitModule K c).dev.heap = [] := by
  have cleaned : (aesdCleanupModule (.afterInit K)).heap = [] :=
    List.length_eq_zero_iff.mp (length_heap_aesdCleanupModule _)
  unfold aesdInitModule
  split
  · rfl
  · split
    · rfl
    · exact cleaned

theorem EntriesKept.insmod (entries : EntriesKept K m) (absent : m.users = none) (c : InitCall) :
    EntriesKept K (m.insmod K c) := by
  have accounted := entries.absent absent
  unfold Machine.insmod
  by_cases stays : (aesdInitModule K c).result = 0
  · rw [if_pos stays]
    refine ⟨entries.once, (fun absent => by cases absent), ?_⟩
    rintro _ ⟨⟩
    exact ⟨fun l p held => absurd held (not_holds_of_outside rfl l), 0, counted_start Pid K,
      accounted.symm⟩
  · have empty := heap_aesdInitModule K c
    rw [if_neg stays]
    refine ⟨?_, fun _ => ?_, fun s loaded => ?_⟩
    · intro d member b block found
      rcases List.mem_append.mp member with old | new
      · exact entries.once d old b block found
      · obtain rfl := List.mem_singleton.mp new
        rw [empty] at found
        cases found
    · have none : (aesdInitModule K c).dev.outstanding = [] := by rw [Dev.outstanding, empty]; rfl
      simpa [Machine.leaked, none] using accounted
    · exact absurd (loaded.symm.trans absent) (by simp)

theorem EntriesKept.rmmod (entries : EntriesKept K m) (loaded : m.users = some s) (quiet : Quiet s) :
    EntriesKept K (m.rmmod s) := by
  obtain ⟨_, n, kept, interrupted⟩ := entries.loaded s loaded
  obtain ⟨added, committed, phase, counted⟩ := kept.idle fun p => not_holds_of_outside (quiet p) .we
  refine ⟨?_, fun _ => ?_, fun _ loaded => by cases loaded⟩
  · intro d member b block found
    rcases List.mem_append.mp member with old | new
    · exact entries.once d old b block found
    · obtain rfl := List.mem_singleton.mp new
      exact phase.cleanup_le_one found
  · have lost := phase.length_outstanding_cleanup counted
    simp only [Machine.leaked] at interrupted
    simp [Machine.rmmod, Machine.leaked, aesdCleanupModuleCalls, lost, interrupted]

theorem EntriesKept.accounted (entries : EntriesKept K m) : EntriesAccounted m := by
  refine ⟨entries.once, entries.absent, fun s loaded quiet => ?_⟩
  obtain ⟨_, n, kept, interrupted⟩ := entries.loaded s loaded
  obtain ⟨added, committed, phase, counted⟩ := kept.idle fun p => not_holds_of_outside (quiet p) .we
  rw [interrupted, phase.length_outstanding counted]
  omega

variable [DecidableEq Pid] {m' : Machine Pid} {event : MachineEvent Pid}

theorem EntriesKept.step (entries : EntriesKept K m) (taken : MachineStep f K m event m') :
    EntriesKept K m' := by
  cases taken with
  | insmod absent => exact entries.insmod absent _
  | rmmod loaded quiet => exact entries.rmmod loaded quiet
  | users loaded taken =>
      obtain ⟨guarded, n, kept, interrupted⟩ := entries.loaded _ loaded
      refine ⟨entries.once, (fun absent => by cases absent), ?_⟩
      rintro _ ⟨⟩
      refine ⟨guarded.step (driverCode_excludes f) taken, _, counted_step guarded kept taken, ?_⟩
      simp only [Machine.leaked] at interrupted ⊢
      omega

theorem Balanced.step {events : List (MachineEvent Pid)} (balanced : Balanced events m)
    (taken : MachineStep f K m event m') : Balanced (events ++ [event]) m' := by
  cases taken with
  | insmod absent => exact balanced.insmod absent K _
  | rmmod loaded _ => exact balanced.rmmod loaded
  | users loaded _ =>
      obtain ⟨region, working, cdev⟩ := balanced
      simp only [Machine.loads, loaded] at region working cdev
      constructor <;>
        simpa [Machine.loads, MachineEvent.starved, MachineEvent.notAdded] using by assumption

/-- Over any loads, uses and removals of the module, the books say exactly what
    the kernel and the entry blocks are owed. -/
theorem accounted_of_run {events : List (MachineEvent Pid)}
    (run : (machine Pid f K).Run Lts.anyStep events m) : Balanced events m ∧ EntriesAccounted m := by
  have both : Balanced events m ∧ EntriesKept K m := by
    refine Lts.Run.induct (M := machine Pid f K)
      (fun events m => Balanced events m ∧ EntriesKept K m) ?_ ?_ run
    · rintro _ rfl
      exact ⟨Balanced.boot, EntriesKept.boot⟩
    · rintro events m event m' ⟨balanced, entries⟩ _ taken
      exact ⟨balanced.step taken, entries.step taken⟩
  exact ⟨both.1, both.2.accounted⟩

end

/-- A load and a removal with one write in between that a signal interrupts. -/
theorem accounted_of_run_interrupted :
    ∃ (events : List (MachineEvent Nat)) (m : Machine Nat), m.users = none ∧ m.leaked = 1 ∧
      Balanced events m ∧ EntriesAccounted m := by
  let c : WriteCall := { WriteCall.ofBytes .pc [newline] (by decide) with cbLock := .interrupted }
  let answers : InitCall := ⟨0, le_rfl, true, 0, le_rfl⟩
  have booted : (machine Nat fixedSizeLlseek .pc).Run Lts.anyStep [] .boot := .nil rfl
  have loaded := booted.snoc trivial (MachineStep.insmod (c := answers) rfl)
  have called := loaded.snoc trivial (.users rfl (Step.enter (p := 0) (c := Op.write 0 c) rfl))
  have locked := called.snoc trivial (.users rfl (Step.lock (p := 0) rfl rfl))
  have filled := locked.snoc trivial (.users rfl (Step.quiet (p := 0) rfl))
  have interrupted := filled.snoc trivial (.users rfl (Step.quiet (p := 0) rfl))
  have returned := interrupted.snoc trivial (.users rfl (Step.unlock (p := 0) rfl))
  have removed := returned.snoc trivial (MachineStep.rmmod rfl fun p => by
    by_cases same : p = 0 <;> simp [same, usersStart, Pc.outside])
  have accounted := accounted_of_run removed
  exact ⟨_, _, rfl, accounted.2.absent rfl, accounted⟩

end Aesd.Driver
