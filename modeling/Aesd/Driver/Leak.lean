import Aesd.Driver.Ledger
import Aesd.Driver.Stream

/-! # Entry blocks that get lost

A block is obtained before `cb_mutex` is attempted.  An attempt that is
interrupted leaves the finished entry with nobody: it is not in the buffer, and
nothing releases it any more.  Every other exit hands the block on, so an
interleaving without such an attempt loses nothing, and after one every quiet
state has lost a block.
-/

namespace Aesd.Driver

open Aesd.Lib Aesd.Lib.Mutex CircularBuffer

/-- The blocks that were allocated and not released. -/
def Dev.outstanding (d : Dev) : List Nat :=
  (List.range d.heap.length).filter fun b => (d.heap[b]?).any fun block => block.released == 0

/-- Every outstanding block is the `buffptr` of a live entry, so that there are
    at most ten, and a cleanup releases all of them. -/
structure NothingLost (d : Dev) : Prop where
  owned : ∀ b ∈ d.outstanding, some b ∈ d.cb.live.map BufferEntry.buffptr
  few : d.outstanding.length ≤ 10
  cleaned : (aesdCleanupModule d).outstanding = []

/-- The attempt on `cb_mutex` with a finished entry in hand is not interrupted. -/
def GetsSecondLock (pc : Pc) (_ : Dev) : Prop :=
  ∀ c finished, pc = .writeLock c finished → c.cbLock = .granted

/-- The attempt on `cb_mutex` that a writer with a finished entry is about to make. -/
def Pc.secondLock : Pc → Option LockAttempt
  | .writeLock c _ => some c.cbLock
  | _ => none

instance (pc : Pc) (d : Dev) : Decidable (GetsSecondLock pc d) :=
  decidable_of_iff (∀ lock ∈ pc.secondLock, lock = .granted) (by
    cases pc <;> simp [Pc.secondLock, GetsSecondLock])

/-- No process is inside the driver. -/
def Quiet {Pid : Type} (s : DriverSystem Pid) : Prop := ∀ p, (s.pc p).outside

theorem mem_outstanding {d : Dev} {b : Nat} :
    b ∈ d.outstanding ↔ ∃ block, d.heap[b]? = some block ∧ block.released = 0 := by
  rw [Dev.outstanding, List.mem_filter, List.mem_range]
  constructor
  · rintro ⟨inside, unreleased⟩
    rw [List.getElem?_eq_getElem inside] at unreleased ⊢
    exact ⟨_, rfl, by simpa using unreleased⟩
  · rintro ⟨block, found, unreleased⟩
    exact ⟨(List.getElem?_eq_some_iff.mp found).1, by simp [found, unreleased]⟩

/-- What a step does to the finished entry that a writer has in hand. -/
inductive HandStep (pc : Pc) (d : Dev) (added : List (BufferEntry Nat)) (pc' : Pc) (d' : Dev) :
    List (BufferEntry Nat) → Prop where
  | keeps (same : pc'.finished = pc.finished) (heap : d'.heap.length = d.heap.length) :
      HandStep pc d added pc' d' added
  | obtains {e} (empty : pc.finished = none) (new : pc'.finished = some e)
      (ptr : e.buffptr = some d.heap.length) (heap : d'.heap.length = d.heap.length + 1) :
      HandStep pc d added pc' d' added
  | drops {c e} (place : pc = .writeLock c e) (lock : c.cbLock = .interrupted)
      (empty : pc'.finished = none) (heap : d'.heap.length = d.heap.length) :
      HandStep pc d added pc' d' added
  | stores {c e} (place : pc = .writeInsert c e) (empty : pc'.finished = none)
      (heap : d'.heap.length = d.heap.length) : HandStep pc d added pc' d' (added ++ [e])

theorem length_kfree (heap : Heap) (ptr : Option Nat) : (kfree heap ptr).length = heap.length := by
  cases ptr <;> simp [kfree]

theorem handStep {K : Kernel} {f : FixedSizeLlseek} {pc pc' : Pc} {d d' : Dev}
    {added added' : List (BufferEntry Nat)} {committed committed' : List (List UInt8)}
    {op : LockOp DevMutex} (phase : Phase K pc d added committed)
    (taken : Pc.next f pc d = some (op, pc', d'))
    (longer : Extends pc added added' committed committed') :
    HandStep pc d added pc' d' added' := by
  cases pc with
  | user => cases taken
  | writeFill pos c =>
      obtain ⟨rfl, _⟩ := longer
      have outcome := stage_outcome phase.1.room pos c
      simp only [Pc.settled] at outcome
      simp only [Pc.next] at taken
      generalize d.stage pos c = staged at outcome taken
      cases outcome with
      | refused | short | noLine | noBlock =>
          cases taken
          exact .keeps rfl rfl
      | line fits all fresh line grants =>
          cases taken
          exact .obtains rfl rfl rfl (by simp [Dev.withBlock, Dev.completed, Dev.received,
            Dev.advance, Dev.copyFromUser])
  | writeLock c finished =>
      obtain ⟨rfl, _⟩ := longer
      simp only [Pc.next] at taken
      split at taken <;> cases taken
      · rename_i lock
        exact .drops rfl lock rfl rfl
      · exact .keeps rfl rfl
  | writeInsert c finished =>
      obtain ⟨rfl, _⟩ := longer
      cases taken
      exact .stores rfl rfl rfl
  | writeFree c oldbuffptr =>
      obtain ⟨rfl, _⟩ := longer
      cases taken
      exact .keeps rfl (length_kfree _ _)
  | writeAccount | writeUnlock | writeReset | writeOut | readOut | seekOut | llseek =>
      obtain ⟨rfl, _⟩ := longer
      cases taken
      exact .keeps rfl rfl
  | write | read | ioctl | seek | seekBody =>
      obtain ⟨rfl, _⟩ := longer
      simp only [Pc.next] at taken
      split at taken <;> cases taken <;> exact .keeps rfl rfl
  | readBody pos c =>
      obtain ⟨rfl, _⟩ := longer
      obtain ⟨r, _, step⟩ := Option.map_eq_some_iff.mp taken
      cases step
      exact .keeps rfl rfl

/-- The block is or was the buffer's, or a writer has it in hand. -/
def HasOwner (pc : Pc) (added : List (BufferEntry Nat)) (b : Nat) : Prop :=
  some b ∈ added.map BufferEntry.buffptr ∨ ∃ e, pc.finished = some e ∧ e.buffptr = some b

theorem hasOwner_away {pc : Pc} (away : ¬pc.holds .we) (added : List (BufferEntry Nat)) (b : Nat) :
    HasOwner pc added b ↔ HasOwner (.user none) added b := by
  rw [HasOwner, (Pc.handsFree away).2.1]
  exact Iff.rfl

section

variable {pc pc' : Pc} {d d' : Dev} {added added' : List (BufferEntry Nat)}

/-- Only an interrupted second lock lets go of a block. -/
theorem HandStep.hasOwner (hand : HandStep pc d added pc' d' added') (gets : GetsSecondLock pc d)
    (owned : ∀ b < d.heap.length, HasOwner pc added b) :
    ∀ b < d'.heap.length, HasOwner pc' added' b := by
  intro b inside
  cases hand with
  | keeps same heap => simpa only [HasOwner, same] using owned b (by omega)
  | obtains empty new ptr heap =>
      by_cases last : b = d.heap.length
      · exact .inr ⟨_, new, last ▸ ptr⟩
      · rcases owned b (by omega) with stored | ⟨_, hand, _⟩
        · exact .inl stored
        · rw [empty] at hand
          cases hand
  | drops place lock empty heap =>
      have granted := gets _ _ place
      rw [lock] at granted
      cases granted
  | stores place empty heap =>
      subst place
      rcases owned b (by omega) with stored | ⟨_, ⟨⟩, ptr⟩
      · exact .inl (by simp only [List.map_append, List.mem_append, stored, true_or])
      · exact .inl (by simp [ptr])

theorem HandStep.lost (hand : HandStep pc d added pc' d' added') {b : Nat}
    (lost : b < d.heap.length ∧ ¬HasOwner pc added b) :
    b < d'.heap.length ∧ ¬HasOwner pc' added' b := by
  obtain ⟨inside, lost⟩ := lost
  cases hand with
  | keeps same heap => exact ⟨by omega, by simpa only [HasOwner, same] using lost⟩
  | obtains empty new ptr heap =>
      refine ⟨by omega, ?_⟩
      rintro (stored | ⟨e, hand, own⟩)
      · exact lost (.inl stored)
      · rw [new] at hand
        obtain rfl := Option.some.inj hand
        rw [ptr] at own
        have last := Option.some.inj own
        omega
  | drops place lock empty heap =>
      refine ⟨by omega, ?_⟩
      rintro (stored | ⟨e, hand, _⟩)
      · exact lost (.inl stored)
      · rw [empty] at hand
        cases hand
  | stores place empty heap =>
      refine ⟨by omega, ?_⟩
      rintro (stored | ⟨e, hand, _⟩)
      · rw [List.map_append, List.mem_append] at stored
        rcases stored with old | new
        · exact lost (.inl old)
        · exact lost (.inr ⟨_, by rw [place]; rfl, (List.mem_singleton.mp new).symm⟩)
      · rw [empty] at hand
        cases hand

end

section

variable {K : Kernel} {d : Dev} {added : List (BufferEntry Nat)} {committed : List (List UInt8)}

theorem CircularBuffer.Stores.live_ptr_mem_slots (stores : d.cb.Stores added) {ptr : Option Nat}
    (member : ptr ∈ d.cb.live.map BufferEntry.buffptr) :
    ptr ∈ (List.range 10).map fun i => (d.cb.slot i).buffptr := by
  rw [stores.live_slots, List.map_map] at member
  obtain ⟨k, _, rfl⟩ := List.mem_map.mp member
  exact List.mem_map.mpr ⟨_, List.mem_range.mpr (Nat.mod_lt _ (by decide)), rfl⟩

theorem Phase.nothingLost (phase : Phase K (.user none) d added committed)
    (owned : ∀ b < d.heap.length, HasOwner (.user none) added b) : NothingLost d := by
  have live : ∀ b ∈ d.outstanding, some b ∈ d.cb.live.map BufferEntry.buffptr := by
    intro b member
    obtain ⟨block, found, unreleased⟩ := mem_outstanding.mp member
    rcases owned b (List.getElem?_eq_some_iff.mp found).1 with stored | ⟨_, ⟨⟩, _⟩
    -- an entry that has left the window was released
    have kept : some b ∉ gone added := by
      intro out
      rw [phase.2.released b block found, if_pos ⟨out, nofun⟩] at unreleased
      cases unreleased
    rw [phase.stores.live, List.rtake]
    rw [← List.take_append_drop (added.length - 10) added, List.map_append,
      List.mem_append] at stored
    exact stored.resolve_left kept
  have nodup : d.outstanding.Nodup := List.nodup_range.filter _
  refine ⟨live, ?_, ?_⟩
  · have inside : d.outstanding.map some ⊆ d.cb.live.map BufferEntry.buffptr := by
      simpa [List.subset_def] using live
    have few := (nodup.map (Option.some_injective _)).length_le_of_subset inside
    rw [List.length_map, List.length_map, phase.stores.live, Ring.length_rtake] at few
    omega
  · refine List.eq_nil_iff_forall_not_mem.mpr fun b member => ?_
    obtain ⟨block, found, unreleased⟩ := mem_outstanding.mp member
    rw [aesdCleanupModule, getElem?_foldl_kfree] at found
    obtain ⟨before, there, rfl⟩ := Option.map_eq_some_iff.mp found
    simp only at unreleased
    have slots := phase.stores.live_ptr_mem_slots
      (live b (mem_outstanding.mpr ⟨before, there, by omega⟩))
    have released := List.count_pos_iff.mpr slots
    omega

theorem Phase.not_nothingLost (phase : Phase K (.user none) d added committed) {b : Nat}
    (inside : b < d.heap.length) (lost : ¬HasOwner (.user none) added b) : ¬NothingLost d := by
  intro nothing
  have never : some b ∉ added.map BufferEntry.buffptr := fun stored => lost (.inl stored)
  have found : d.heap[b]? = some d.heap[b] := List.getElem?_eq_getElem inside
  have unreleased : d.heap[b].released = 0 := by
    rw [phase.2.released b _ found, if_neg fun out => never (Blocks.gone_subset out.1)]
  have live := nothing.owned b (mem_outstanding.mpr ⟨_, found, unreleased⟩)
  rw [phase.stores.live] at live
  exact never (List.map_subset _ (List.drop_subset _ _) live)

end

section

variable {Pid : Type} [DecidableEq Pid] {f : FixedSizeLlseek} {K : Kernel}
  {s s' : DriverSystem Pid} {allowed : DriverSystem Pid → Pid × Option Op → Prop}

theorem carries_owned (K : Kernel) (f : FixedSizeLlseek) :
    Carries (driverCode f) GetsSecondLock Pc.holds .we
      (InPhase K fun pc d added => ∀ b < d.heap.length, HasOwner pc added b) := by
  refine carries_inPhase K f ?_ (fun _ _ _ _ => id) ?_
  · intro pc d added away
    simp only [hasOwner_away away]
  · intro pc d op pc' d' added added' committed committed' gets taken phase longer owned
    exact (handStep phase taken longer).hasOwner gets owned

theorem carries_lost (K : Kernel) (f : FixedSizeLlseek) (b : Nat) :
    Carries (driverCode f) (fun _ _ => True) Pc.holds .we
      (InPhase K fun pc d added => b < d.heap.length ∧ ¬HasOwner pc added b) := by
  refine carries_inPhase K f ?_ (fun _ _ _ _ => id) ?_
  · intro pc d added away
    simp only [hasOwner_away away]
  · intro pc d op pc' d' added added' committed committed' _ taken phase longer lost
    exact (handStep phase taken longer).lost lost

theorem kept_owned (reach : (users Pid f K).Reach (within GetsSecondLock) s) :
    Kept Pc.holds .we
      (InPhase K fun pc d added => ∀ b < d.heap.length, HasOwner pc added b) s := by
  refine kept_of_reach (driverCode_excludes f) (carries_owned K f) ?_ (fun _ _ => id) reach
  rintro _ rfl
  exact ⟨[], [], Phase.afterInit K, by simp [Dev.afterInit]⟩

/-- A second lock that is interrupted loses a block for good. -/
theorem lost_for_good (reach : (users Pid f K).Reach (within GetsSecondLock) s) {p : Pid}
    (taken : (users Pid f K).step s (p, none) s') (interrupted : ¬GetsSecondLock (s.pc p) s.data)
    {later : DriverSystem Pid}
    (further : ((users Pid f K).startingAt s').Reach allowed later) (quiet : Quiet later) :
    ¬NothingLost later.data := by
  have guarded := guarded_users reach
  have guarded' : Guarded Pc.holds s' := guarded.step (driverCode_excludes f) taken
  simp only [GetsSecondLock, not_forall] at interrupted
  obtain ⟨c, e, place, refused⟩ := interrupted
  have lock : c.cbLock = .interrupted := by
    cases cbLock : c.cbLock with
    | granted => exact absurd cbLock refused
    | interrupted => rfl
  have next : (driverCode f).next (s.pc p) s.data =
      some (.none, .writeOut (-ERESTARTSYS), s.data) := by
    simp only [driverCode, place, Pc.next, lock]
  have held : (s.pc p).holds .we := by simp [place, Pc.holds]
  obtain ⟨added, committed, ⟨models, blocks⟩, _⟩ := (kept_owned reach).inside p held
  rw [Option.getD_some, place] at models blocks
  obtain ⟨never, line, ⟨b, block, ptr, found, _⟩, _⟩ := blocks.inHand e rfl
  have after : s'.pc p = .writeOut (-ERESTARTSYS) ∧ s'.data = s.data := by
    obtain ⟨op, same⟩ := taken.next
    rw [next] at same
    simp only [Option.some.injEq, Prod.mk.injEq] at same
    exact ⟨same.2.1.symm, same.2.2.symm⟩
  obtain ⟨out, data⟩ := after
  have held' : (s'.pc p).holds .we := by simp [out, Pc.holds]
  have lost : Kept Pc.holds .we
      (InPhase K fun pc d added => b < d.heap.length ∧ ¬HasOwner pc added b) s' := by
    constructor
    · intro q held
      obtain rfl : q = p := guarded'.exclusive held held'
      rw [data, out]
      refine ⟨added, committed, ⟨models, blocks.forget⟩,
        (List.getElem?_eq_some_iff.mp found).1, ?_⟩
      rintro (stored | ⟨_, ⟨⟩, _⟩)
      exact never (ptr ▸ stored)
    · exact fun nobody => absurd held' (nobody p)
  have kept := kept_along (driverCode_excludes f) (carries_lost K f b)
    (fun _ same => same ▸ ⟨guarded', lost⟩) (fun _ _ _ _ => trivial) further
  obtain ⟨_, _, phase, inside, gone⟩ :=
    kept.2.idle fun q => not_holds_of_outside (quiet q) .we
  exact phase.not_nothingLost inside gone

/-- Without an interrupted attempt on the second lock nothing is lost at any
    quiet moment; the first one loses a block for every quiet moment to come. -/
theorem nothing_lost (reach : (users Pid f K).Reach (within GetsSecondLock) s) :
    (Quiet s → NothingLost s.data) ∧
      ∀ p s', (users Pid f K).step s (p, none) s' → ¬GetsSecondLock (s.pc p) s.data →
        ∀ later, ((users Pid f K).startingAt s').Reach Lts.anyStep later → Quiet later →
          ¬NothingLost later.data := by
  constructor
  · intro quiet
    obtain ⟨_, _, phase, owned⟩ :=
      (kept_owned reach).idle fun q => not_holds_of_outside (quiet q) .we
    exact phase.nothingLost owned
  · intro p s' taken interrupted later further quiet
    exact lost_for_good reach taken interrupted further quiet

end

/-- Eleven lines, of which ten are left at a quiet moment; a writer that is then
    interrupted with a twelfth one in hand leaves eleven. -/
theorem nothing_lost_evicting : ∃ s later : DriverSystem (Fin 3),
    s.data.outstanding = (List.range 10).map Nat.succ ∧ NothingLost s.data ∧
      later.data.outstanding = (List.range 11).map Nat.succ ∧ ¬NothingLost later.data := by
  let c : WriteCall := { WriteCall.ofBytes .pc [newline] (by decide) with cbLock := .interrupted }
  let step (s : DriverSystem (Fin 3)) := exec (driverCode fixedSizeLlseek) s
  obtain ⟨s, reach, outstanding, quiet⟩ := users_run (within GetsSecondLock)
    (fun s => s.data.outstanding = (List.range 10).map Nat.succ ∧ ∀ p, (s.pc p).outside) evicting
    (by decide +kernel)
  obtain ⟨t, before, fails, returns⟩ := users_run (within GetsSecondLock)
    (fun t => ¬GetsSecondLock (t.pc 1) t.data ∧ (step t (1, none)).any fun t' =>
      (step t' (1, none)).any fun later =>
        decide (later.data.outstanding = (List.range 11).map Nat.succ ∧ ∀ p, (later.pc p).outside))
    (evicting ++ [(1, some (.write 0 c)), (1, none), (1, none)]) (by decide +kernel)
  obtain ⟨t', interrupted, unlocks⟩ := (Option.any_eq_true _ _).mp returns
  obtain ⟨later, unlocked, found⟩ := (Option.any_eq_true _ _).mp unlocks
  obtain ⟨outstanding', quiet'⟩ := of_decide_eq_true found
  exact ⟨s, later, outstanding, (nothing_lost reach).1 quiet, outstanding',
    (nothing_lost before).2 1 t' (exec_iff.mp interrupted) fails later
      ((Lts.Reach.init rfl).step trivial (exec_iff.mp unlocked)) quiet'⟩

/-- A signal at the second lock of a write of one newline. -/
theorem signal_loses_block :
    ¬∀ (f : FixedSizeLlseek) (K : Kernel) (s : DriverSystem Nat),
      (users Nat f K).Reach Lts.anyStep s → Quiet s → NothingLost s.data := by
  intro claim
  let c : WriteCall := { WriteCall.ofBytes .pc [newline] (by decide) with cbLock := .interrupted }
  have start : (users Nat fixedSizeLlseek .pc).Reach Lts.anyStep (usersStart Nat .pc) :=
    Lts.Reach.init (usersStart_init _ _)
  have called := start.step trivial (Step.enter (p := 0) (c := Op.write 0 c) rfl)
  have locked := called.step trivial (Step.lock (p := 0) rfl rfl)
  have filled := locked.step trivial (Step.quiet (p := 0) rfl)
  have interrupted := filled.step trivial (Step.quiet (p := 0) rfl)
  have returned := interrupted.step trivial (Step.unlock (p := 0) rfl)
  have nothing := claim _ _ _ returned fun p => by
    by_cases same : p = 0 <;> simp [same, usersStart, Pc.outside]
  exact absurd (nothing.owned 0 (by decide)) (by decide)

end Aesd.Driver
