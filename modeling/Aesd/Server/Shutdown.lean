import Aesd.Lib.Progress
import Aesd.Server.Teardown

/-! # From a signal to the exit

Once `flag_accepting_connections` has been cleared every thread passes at most one
more wait, and the echo of a plain data file has an end, so the server comes to its
exit whatever its calls return, as long as they return; only `robustclose` may go
round for ever once a `close` has been interrupted.
-/

namespace Aesd.Server

open Aesd.Lib Function

/-- The steps that a connection can still take when the flag is cleared and the data
    file never holds more than `B` bytes. -/
def AppendPc.left (B : Nat) (passed : Bool) : AppendPc → Nat
  | .start _ => 5
  | .loop _ => if passed then 2 * B + 9 else 4
  | .parse _ _ _ => 2 * B + 7
  | .ioctl _ _ _ => 2 * B + 6
  | .lock _ _ => 2 * B + 8
  | .write _ _ => 2 * B + 7
  | .unlock _ _ _ => 2 * B + 6
  | .echo _ pos => 2 * (B - pos) + 5
  | .send _ pos rc => 2 * (B - (pos + rc)) + 6
  | .close _ => 3
  | .returned _ => 2
  | .undefined => 0

def TimestampPc.left (passed : Bool) : TimestampPc → Nat
  | .sleep => if passed then 7 else 2
  | .lock => 6
  | .format => 5
  | .write _ => 4
  | .unlock _ => 3
  | .returned _ => 1

def TaskPc.left (B : Nat) (t : Task) : TaskPc → Nat
  | .absent | .ended => 0
  | .created => if t = .timestamp then 8 else 6
  | .running (.append pc) passed => pc.left B passed
  | .running (.timestamp pc) passed => pc.left passed
  | .closing => 1

/-- The steps of the main thread, and of the connection that it may still create. -/
def MainPc.left : MainPc → Nat
  | .startserver (.poll _) => 19
  | .startserver (.accept _) => 18
  | .startserver (.malloc _ _) => 17
  | .startserver (.create _ _ _) => 16
  | .startserver (.loop _) | .startserver (.closing _ _) => 9
  | .startserver (.cleanup _ _) => 8
  | .startserver (.returned _) => 7
  | .startserver _ => 0
  | .stopserver .kill => 6
  | .stopserver .join => 5
  | .stopserver .destroy => 4
  | .stopserver .closeSocket => 3
  | .stopserver .deleteDataFile => 2
  | .stopserver .free => 1
  | .exited _ => 0

/-- The bytes that it may still write. -/
def AppendPc.reserve (passed : Bool) : AppendPc → Nat
  | .loop _ => if passed then bufLen else 0
  | .lock _ readcount | .write _ readcount => readcount
  | _ => 0

def TimestampPc.reserve (passed : Bool) : TimestampPc → Nat
  | .sleep => if passed then timestampMaxSize else 0
  | .lock | .format => timestampMaxSize
  | .write tstr => tstr.length
  | _ => 0

def TaskPc.reserve (t : Task) : TaskPc → Nat
  | .created => if t = .timestamp then timestampMaxSize else 0
  | .running (.append pc) passed => pc.reserve passed
  | .running (.timestamp pc) passed => pc.reserve passed
  | _ => 0

section

variable {B : Nat}

theorem left_replyOrNext (buf : Buf) (readcount : Nat) :
    (AppendPc.replyOrNext buf readcount).left B false ≤ 2 * B + 5 := by
  rw [AppendPc.replyOrNext]
  split
  · simp [AppendPc.left]
  · simp [AppendPc.left]

theorem left_advance (buf : Buf) (pos rc : Nat) :
    (AppendPc.advance buf pos rc).left B false ≤ 2 * (B - (pos + rc)) + 5 := by
  rw [AppendPc.advance]
  split
  · simp [AppendPc.left]
  · simp [AppendPc.left]

theorem AppendStep.left {pc pc' : AppendPc} {r : Request} {a : Answer} (step : AppendStep pc r a pc')
    {passed : Bool} (answers : (ThreadPc.append pc).answers passed a = true)
    (reads : ∀ pos data, r = .pread pos → a = .bytes data → data ≠ [] → pos + data.length ≤ B) :
    pc'.left B false < pc.left B passed := by
  cases step with
  | stopped | readFailed | fin | command | data =>
      obtain ⟨rfl, _⟩ := Bool.and_eq_true_iff.mp answers
      simp only [AppendPc.left, if_true]
      omega
  | ioctl buf readcount => exact Nat.lt_succ_of_le (left_replyOrNext buf readcount)
  | unlocked buf readcount => exact Nat.lt_succ_of_le (left_replyOrNext buf readcount)
  | @preadBlock buf pos data nonempty short =>
      have inside := reads pos data rfl rfl nonempty
      have some := List.length_pos_of_ne_nil nonempty
      simp only [AppendPc.left]
      omega
  | sent buf pos rc => exact Nat.lt_succ_of_le (left_advance buf pos rc)
  | _ =>
      simp only [AppendPc.left, Bool.false_eq_true, if_false]
      omega

theorem TimestampStep.left {pc pc' : TimestampPc} {r : Request} {a : Answer}
    (step : TimestampStep pc r a pc') {passed : Bool}
    (answers : (ThreadPc.timestamp pc).answers passed a = true) : pc'.left false < pc.left passed := by
  cases step with
  | awake | stopped | sleepFailed =>
      obtain rfl : passed = true := answers
      simp [TimestampPc.left]
  | _ => simp [TimestampPc.left]

/-- The bytes that a call puts into the data source. -/
def grown : Request → Answer → Nat
  | .writeData _, .count n => n
  | _, _ => 0

theorem act_length {t : Task} {source source' : Source Task} {r : Request} {a : Answer}
    (acts : (dataSource Task false).act source t r a = some source') :
    source'.content.length ≤ source.content.length + grown r a := by
  unfold dataSource at acts
  dsimp only at acts
  split at acts
  · cases acts
    exact Nat.zero_le _
  · split at acts <;> cases acts
    exact Nat.le_add_right _ _
  · cases acts
    exact Nat.le_add_right _ _
  · split at acts <;> cases acts
    simp [grown]
  · split at acts <;> cases acts
    exact Nat.le_add_right _ _
  · cases acts
    exact Nat.le_add_right _ _

theorem act_pread {t : Task} {source source' : Source Task} {pos : Nat} {data : List UInt8}
    (acts : (dataSource Task false).act source t (.pread pos) (.bytes data) = some source')
    (nonempty : data ≠ []) : pos + data.length ≤ source.content.length := by
  simp only [dataSource, Bool.false_eq_true, false_or] at acts
  split at acts <;> cases acts
  rename_i read
  have some := List.length_pos_of_ne_nil nonempty
  have length := congrArg List.length read
  rw [List.length_take, List.length_drop] at length
  omega

theorem AppendStep.reserve {pc pc' : AppendPc} {r : Request} {a : Answer} (step : AppendStep pc r a pc')
    {passed : Bool} (answers : (ThreadPc.append pc).answers passed a = true) :
    grown r a + pc'.reserve false ≤ pc.reserve passed := by
  cases step with
  | command buf nonempty short =>
      obtain ⟨rfl, _⟩ := Bool.and_eq_true_iff.mp answers
      exact Nat.zero_le _
  | data buf nonempty short =>
      obtain ⟨rfl, _⟩ := Bool.and_eq_true_iff.mp answers
      simpa [grown, AppendPc.reserve] using short
  | wrote buf within => simpa [grown, AppendPc.reserve] using within
  | ioctl buf readcount | unlocked buf readcount =>
      simp only [grown, AppendPc.replyOrNext]
      split <;> exact Nat.zero_le _
  | sent buf pos rc =>
      simp only [grown, AppendPc.advance]
      split <;> exact Nat.zero_le _
  | locked buf readcount => exact (Nat.zero_add _).le
  | _ => exact Nat.zero_le _

theorem TimestampStep.reserve {pc pc' : TimestampPc} {r : Request} {a : Answer}
    (step : TimestampStep pc r a pc') {passed : Bool}
    (answers : (ThreadPc.timestamp pc).answers passed a = true) :
    grown r a + pc'.reserve false ≤ pc.reserve passed := by
  cases step with
  | awake =>
      obtain rfl : passed = true := answers
      exact Nat.le_refl _
  | formatted fits => simpa [grown, TimestampPc.reserve] using fits.le
  | wrote within => simpa [grown, TimestampPc.reserve] using within
  | locked => exact (Nat.zero_add _).le
  | _ => exact Nat.zero_le _

/-- A step brings the thread nearer to its end, and takes what it adds to the data
    file from what it may still write. -/
theorem TaskStep.left {t : Task} {source source' : Source Task} {pc pc' : TaskPc}
    (step : TaskStep false false t source pc source' pc') (few : source.content.length ≤ B) :
    pc'.left B t < pc.left B t ∧
      source'.content.length + pc'.reserve t ≤ source.content.length + pc.reserve t := by
  cases step with
  | enter buf => cases t <;> simp [TaskPc.start, TaskPc.left, TaskPc.reserve, AppendPc.left,
      TimestampPc.left, AppendPc.reserve, TimestampPc.reserve]
  | pass _ set => cases set
  | stop looks _ resumes =>
      rcases stopped_cases looks resumes with ⟨_, rfl, rfl⟩ | ⟨rfl, rfl⟩ <;>
        simp [TaskPc.left, TaskPc.reserve, AppendPc.left, TimestampPc.left, AppendPc.reserve,
          TimestampPc.reserve]
  | timeout buf =>
      simp only [TaskPc.left, TaskPc.reserve, AppendPc.left, AppendPc.reserve, Bool.false_eq_true,
        if_false, if_true]
      omega
  | appended | timestamped | closed =>
      simp [TaskPc.left, TaskPc.reserve, AppendPc.left, AppendPc.reserve, TimestampPc.left]
  | @call pc pc' passed r a _ answers asks acts resumes =>
      have length := act_length acts
      cases pc with
      | append pc =>
          obtain ⟨next, goes, rfl⟩ := Option.map_eq_some_iff.mp resumes
          have step := appendStep_of asks goes
          have reads : ∀ pos data, r = .pread pos → a = .bytes data → data ≠ [] →
              pos + data.length ≤ B := by
            rintro pos data rfl rfl nonempty
            exact (act_pread acts nonempty).trans few
          have reserve := step.reserve answers
          refine ⟨step.left answers reads, ?_⟩
          simp only [TaskPc.reserve]
          omega
      | timestamp pc =>
          obtain ⟨next, goes, rfl⟩ := Option.map_eq_some_iff.mp resumes
          have step := timestampStep_of asks goes
          have reserve := step.reserve answers
          refine ⟨step.left answers, ?_⟩
          simp only [TaskPc.reserve]
          omega

end

/-- Behind the assignment in `listenfunc`. -/
def MainPc.listens : MainPc → Bool
  | .startserver .descriptors | .startserver .openDataFile | .startserver .timestampThread
  | .startserver .accepting => false
  | _ => true

/-- The connection that it may still create when the flag is cleared. -/
def MainPc.creates : MainPc → Option Task
  | .startserver (.poll l) | .startserver (.accept l) => some (.connection l.accepted)
  | .startserver (.malloc _ rsfd) | .startserver (.create _ rsfd _) => some (.connection rsfd)
  | _ => none

/-- No position of the echo has left the range of `int`, nor will with the block at hand. -/
def TaskPc.Defined : TaskPc → Prop
  | .running (.append .undefined) _ => False
  | .running (.append (.send _ pos rc)) _ => pos + rc < 2 ^ 31
  | _ => True

/-- On the way to the exit: the threads are in `P`, and `B` bounds the data file. -/
structure Process.Leaving (P : Finset Task) (B : Nat) (s : Process) : Prop where
  cleared : s.acceptingConnections = false
  listens : s.main.listens = true
  others : ∀ t, t ∉ P → s.tasks t = .absent
  creates : ∀ t ∈ s.main.creates, t ∈ P
  room : s.source.content.length + ∑ t ∈ P, (s.tasks t).reserve t ≤ B
  defined : ∀ t, (s.tasks t).Defined

def Process.left (P : Finset Task) (B : Nat) (s : Process) : Nat :=
  s.main.left + ∑ t ∈ P, (s.tasks t).left B t

section

variable {P : Finset Task} {B : Nat} {s s' : Process}

theorem Process.Leaving.goes_on (leaving : s.Leaving P B) {main : MainPc} (mutex socket dataFile : Life)
    (listens : main.listens = true) (creates : ∀ t ∈ main.creates, t ∈ P)
    (less : main.left < s.main.left) :
    ({ s with main, mutex, socket, dataFile } : Process).Leaving P B ∧
      ({ s with main, mutex, socket, dataFile } : Process).left P B < s.left P B :=
  ⟨⟨leaving.cleared, listens, leaving.others, creates, leaving.room, leaving.defined⟩,
    Nat.add_lt_add_right less _⟩

theorem Process.Leaving.main (leaving : s.Leaving P B) (step : MainStep false s s') :
    s'.Leaving P B ∧ s'.left P B < s.left P B := by
  have listens := leaving.listens
  have creates := leaving.creates
  have ends : ∀ t ∈ (none : Option Task), t ∈ P := by rintro _ ⟨⟩
  cases step with
  | descriptors here | openDataFile here | openFailed here | timestamp here | timestampFailed here
  | accepting here =>
      rw [here] at listens
      cases listens
  | looked here =>
      rw [if_neg (Bool.eq_false_iff.mp leaving.cleared)]
      refine leaving.goes_on _ _ _ ?_ ?_ ?_
      · rfl
      · exact ends
      · simp [here, MainPc.left]
  | polled here revents =>
      rw [here] at creates
      split_ifs
      · refine leaving.goes_on _ _ _ ?_ ?_ ?_
        · rfl
        · exact creates
        · simp [here, MainPc.left]
      · refine leaving.goes_on _ _ _ ?_ ?_ ?_
        · rfl
        · exact ends
        · simp [here, MainPc.left]
  | accepted here | malloc here =>
      rw [here] at creates
      refine leaving.goes_on _ _ _ ?_ ?_ ?_
      · rfl
      · exact creates
      · simp [here, MainPc.left]
  | @created l rsfd stale here =>
      rw [here] at creates
      have member := creates _ rfl
      have steps := sum_update member (fun t pc => pc.left B t) s.tasks .created
      have bytes := sum_update member (fun t pc => pc.reserve t) s.tasks .created
      have left : TaskPc.left B (.connection rsfd) .created = 6 := rfl
      have reserve : TaskPc.reserve (.connection rsfd) .created = 0 := rfl
      refine ⟨⟨leaving.cleared, rfl, fun t away => ?_, ends, ?_, fun t => ?_⟩, ?_⟩
      · have apart : t ≠ .connection rsfd := by
          rintro rfl
          exact away member
        dsimp only
        rw [update_of_ne apart]
        exact leaving.others t away
      · have room := leaving.room
        simp only at bytes ⊢
        omega
      · dsimp only
        by_cases same : t = .connection rsfd
        · rw [same, update_self]
          trivial
        · rw [update_of_ne same]
          exact leaving.defined t
      · simp only [Process.left, here, MainPc.left] at steps ⊢
        omega
  | cleaned here | acceptFailed here | mallocFailed here | createFailed here | closed here | failed here
  | stopping here | kill here | join here | destroy here | closeSocket here | closeFailed here
  | deleteDataFile here | deleteFailed here | free here =>
      refine leaving.goes_on _ _ _ ?_ ?_ ?_
      · rfl
      · exact ends
      · simp [here, MainPc.left]

theorem TaskStep.defined {flag : Bool} {t : Task} {source source' : Source Task} {pc pc' : TaskPc}
    (step : TaskStep false flag t source pc source' pc') (few : source.content.length < 2 ^ 31)
    (defined : pc.Defined) : pc'.Defined := by
  cases step with
  | enter buf => cases t <;> trivial
  | @pass pc looks =>
      rcases pc with pc | pc <;> cases pc <;> trivial
  | stop looks _ resumes =>
      rcases stopped_cases looks resumes with ⟨_, rfl, rfl⟩ | ⟨rfl, rfl⟩ <;> trivial
  | timeout | appended | timestamped | closed => trivial
  | @call pc pc' passed r a _ answers asks acts resumes =>
      cases pc with
      | timestamp pc =>
          obtain ⟨next, _, rfl⟩ := Option.map_eq_some_iff.mp resumes
          trivial
      | append pc =>
          obtain ⟨next, goes, rfl⟩ := Option.map_eq_some_iff.mp resumes
          cases appendStep_of asks goes with
          | ioctl buf readcount | unlocked buf readcount =>
              rw [AppendPc.replyOrNext]
              split <;> trivial
          | preadBlock buf pos nonempty short => exact (act_pread acts nonempty).trans_lt few
          | sent buf pos rc =>
              have inRange : pos + rc < 2 ^ 31 := defined
              rw [AppendPc.advance, if_pos inRange]
              trivial
          | _ => trivial

theorem Process.Leaving.task (leaving : s.Leaving P B) (small : B < 2 ^ 31) {t : Task}
    {source : Source Task} {pc : TaskPc}
    (step : TaskStep false s.acceptingConnections t s.source (s.tasks t) source pc) :
    ({ s with source, tasks := update s.tasks t pc } : Process).Leaving P B ∧
      ({ s with source, tasks := update s.tasks t pc } : Process).left P B < s.left P B := by
  have member : t ∈ P := by
    by_contra away
    have present := step.there.1
    rw [leaving.others t away] at present
    cases present
  have room := leaving.room
  have few : s.source.content.length ≤ B := by omega
  have defined := step.defined (few.trans_lt small) (leaving.defined t)
  rw [leaving.cleared] at step
  obtain ⟨less, reserve⟩ := step.left few
  have steps := sum_update member (fun t pc => pc.left B t) s.tasks pc
  have bytes := sum_update member (fun t pc => pc.reserve t) s.tasks pc
  refine ⟨⟨leaving.cleared, leaving.listens, fun u away => ?_, leaving.creates, ?_, fun u => ?_⟩, ?_⟩
  · have apart : u ≠ t := by
      rintro rfl
      exact away member
    dsimp only
    rw [update_of_ne apart]
    exact leaving.others u away
  · simp only at bytes ⊢
    omega
  · dsimp only
    by_cases same : u = t
    · rw [same, update_self]
      exact defined
    · rw [update_of_ne same]
      exact leaving.defined u
  · simp only [Process.left] at steps ⊢
    omega

theorem start_goes_on (dev flag : Bool) {pc : StartPc} (running : ∀ r, pc ≠ .returned r) :
    ∃ outcome pc', outcome ≠ .retry ∧ pc.next dev flag outcome = some pc' := by
  cases pc with
  | descriptors | loop | closing | cleanup => exact ⟨.done, _, nofun, rfl⟩
  | openDataFile | accept => exact ⟨.failed, _, nofun, rfl⟩
  | timestampThread | create => exact ⟨.create 1, _, nofun, rfl⟩
  | accepting => exact ⟨.uninitialised 0, _, nofun, rfl⟩
  | poll => exact ⟨.poll none, _, nofun, rfl⟩
  | malloc => exact ⟨.malloc none, _, nofun, rfl⟩
  | returned r => exact absurd rfl (running r)

theorem mainNext_start {dev : Bool} {pc : StartPc} (here : s.main = .startserver pc)
    (running : ∀ r, pc ≠ .returned r) (joined : s.joined pc = true) (outcome : StartOutcome) :
    s.mainNext dev outcome = (pc.next dev s.acceptingConnections outcome).map fun pc' =>
      { s.started pc outcome with main := .startserver pc' } := by
  unfold Process.mainNext
  rw [here]
  cases pc with
  | returned r => exact absurd rfl (running r)
  | _ => exact if_pos joined

theorem main_goes_on (runs : s.exited = false) (finished : ∀ t, (s.tasks t).finished) :
    ∃ outcome s', outcome ≠ .retry ∧ s.mainNext false outcome = some s' := by
  have forward : StartOutcome.done ≠ .retry := by rintro ⟨⟩
  cases here : s.main with
  | exited r => simp [Process.exited, here] at runs
  | stopserver stop =>
      cases stop with
      | join =>
          exact ⟨.done, _, forward, by simp only [Process.mainNext, here]; exact if_pos (finished .timestamp)⟩
      | _ => exact ⟨.done, _, forward, by simp only [Process.mainNext, here]; rfl⟩
  | startserver start =>
      by_cases running : ∀ r, start ≠ .returned r
      · have joined : s.joined start = true := by
          cases start with
          | cleanup l failed => exact List.all_eq_true.mpr fun d _ => finished _
          | _ => rfl
        obtain ⟨outcome, pc', goes, next⟩ := start_goes_on false s.acceptingConnections running
        exact ⟨outcome, _, goes, by rw [mainNext_start here running joined, next]; rfl⟩
      · obtain ⟨r, returned⟩ := not_forall.mp running
        obtain rfl := not_not.mp returned
        by_cases zero : r ≠ 0
        · exact ⟨.done, _, forward, by simp only [Process.mainNext, here]; exact if_pos zero⟩
        · exact ⟨.done, _, forward, by simp only [Process.mainNext, here]; exact if_neg zero⟩

theorem task_goes_on {t : Task} {pc : TaskPc} {source : Source Task} (present : pc.finished = false)
    (defined : pc.Defined) (open_ : pc.holding = true ∨ source.owner = none) :
    ∃ e result, e ≠ .retry ∧ pc.next false false t source e = some result := by
  cases pc with
  | absent | ended => cases present
  | created => exact ⟨.enter Buf.zero, _, nofun, rfl⟩
  | closing => exact ⟨.leave, _, nofun, rfl⟩
  | running pc passed =>
      cases pc with
      | append pc =>
          cases pc with
          | loop buf => cases passed with
            | false => exact ⟨.look, _, nofun, rfl⟩
            | true => exact ⟨.timeout, _, nofun, rfl⟩
          | start | ioctl | write | echo | send | close =>
              cases passed <;> exact ⟨.call .failed, _, nofun, rfl⟩
          | parse => cases passed <;> exact ⟨.call (.parsed ⟨⟨0, 0⟩, [], []⟩), _, nofun, rfl⟩
          | unlock => cases passed <;> exact ⟨.call .done, _, nofun, rfl⟩
          | lock =>
              obtain ⟨owner, content⟩ := source
              obtain rfl : owner = none := open_.resolve_left (by rintro ⟨⟩)
              cases passed <;> exact ⟨.call .done, _, nofun, rfl⟩
          | returned => cases passed <;> exact ⟨.leave, _, nofun, rfl⟩
          | undefined => exact absurd defined id
      | timestamp pc =>
          cases pc with
          | sleep => cases passed with
            | false => exact ⟨.look, _, nofun, rfl⟩
            | true => exact ⟨.call .done, _, nofun, rfl⟩
          | lock =>
              obtain ⟨owner, content⟩ := source
              obtain rfl : owner = none := open_.resolve_left (by rintro ⟨⟩)
              cases passed <;> exact ⟨.call .done, _, nofun, rfl⟩
          | format | write => cases passed <;> exact ⟨.call .failed, _, nofun, rfl⟩
          | unlock => cases passed <;> exact ⟨.call .done, _, nofun, rfl⟩
          | returned => cases passed <;> exact ⟨.leave, _, nofun, rfl⟩

theorem Process.Leaving.task_event (leaving : s.Leaving P B) (runs : s.exited = false) {t : Task}
    (present : (s.tasks t).finished = false) (open_ : (s.tasks t).holding = true ∨ s.source.owner = none) :
    ∃ e s', e.proceeds ∧ s.next false e = some s' := by
  obtain ⟨e, result, forward, next⟩ := task_goes_on (t := t) present (leaving.defined t) open_
  refine ⟨.task t e, { s with source := result.1, tasks := update s.tasks t result.2 }, ?_, ?_⟩
  · exact ProcessEvent.proceeds_task.mpr forward
  · simp only [Process.next, runs, leaving.cleared, Bool.false_eq_true, if_false, next,
      Option.map_some]

/-- Until the exit there is always a step: the main thread waits for a thread, which
    waits for the mutex at most, and its owner waits for nobody. -/
theorem Process.Leaving.next (leaving : s.Leaving P B) (kept : s.Kept false) (runs : s.exited = false) :
    ∃ e s', e.proceeds ∧ s.next false e = some s' := by
  by_cases finished : ∀ t, (s.tasks t).finished
  · obtain ⟨outcome, s', forward, next⟩ := main_goes_on runs finished
    exact ⟨.main outcome, s', ProcessEvent.proceeds_main.mpr forward, next⟩
  · obtain ⟨t, present⟩ := not_forall.mp finished
    cases owner : s.source.owner with
    | none => exact leaving.task_event runs (Bool.eq_false_iff.mpr present) (.inr owner)
    | some u =>
        have held := (kept.guards u).mpr owner
        have present : (s.tasks u).finished = false := by
          by_contra finished
          rw [TaskPc.not_holding_of_finished (Bool.not_eq_false _ ▸ finished)] at held
          cases held
        exact leaving.task_event runs present (.inl held)

/-- From a state on, while no signal arrives and no `close` is interrupted: there are only so
    many steps, and when none is left the process has ended. -/
structure Process.Exits (s : Process) : Prop where
  bounded : ∃ bound, ∀ labels s',
    ((process false).startingAt s).Run (fun _ e => e.proceeds) labels s' → labels.length ≤ bound
  complete : ∀ labels s', ((process false).startingAt s).Run (fun _ e => e.proceeds) labels s' →
    (∀ e s'', e.proceeds → s'.next false e ≠ some s'') → s'.exited = true

theorem Process.Leaving.of_run (leaving : s.Leaving P B) (small : B < 2 ^ 31) {labels : List ProcessEvent}
    (run : ((process false).startingAt s).Run (fun _ e => e.proceeds) labels s') :
    s'.Leaving P B ∧ labels.length + s'.left P B ≤ s.left P B := by
  refine run.bounded (fun s => s.Leaving P B) (fun s => s.left P B) ?_ ?_
  · rintro _ rfl
    exact ⟨leaving, le_rfl⟩
  · intro s₁ e s₂ leaving proceeds taken
    cases e with
    | signal => cases proceeds
    | main outcome => exact leaving.main (mainStep_of (ProcessEvent.proceeds_main.mp proceeds) taken)
    | task t e =>
        simp only [process, Lts.startingAt, Process.next] at taken
        split at taken
        · cases taken
        · obtain ⟨⟨source, pc⟩, goes, rfl⟩ := Option.map_eq_some_iff.mp taken
          exact leaving.task small (taskStep_of (ProcessEvent.proceeds_task.mp proceeds) goes)

theorem Process.leaving_start (cleared : s.acceptingConnections = false) (listens : s.main.listens = true)
    (others : ∀ t, t ∉ P → s.tasks t = .absent) (defined : ∀ t, (s.tasks t).Defined) :
    ∃ P', s.Leaving P' (s.source.content.length + ∑ t ∈ P, (s.tasks t).reserve t) := by
  cases creates : s.main.creates with
  | none =>
      refine ⟨P, cleared, listens, others, ?_, le_rfl, defined⟩
      rw [creates]
      rintro _ ⟨⟩
  | some t =>
      refine ⟨insert t P, cleared, listens, fun u away => ?_, ?_, ?_, defined⟩
      · exact others u fun inside => away (Finset.mem_insert_of_mem inside)
      · rw [creates]
        rintro _ ⟨⟩
        exact Finset.mem_insert_self t P
      · refine Nat.add_le_add_left (Finset.sum_le_sum_of_ne_zero fun u inside nonzero => ?_) _
        by_contra away
        rw [others u away] at nonzero
        exact nonzero rfl

theorem reserve_le_loop (buf : Buf) (passed : Bool) : (AppendPc.loop buf).reserve passed ≤ bufLen := by
  cases passed
  · exact Nat.zero_le _
  · exact Nat.le_refl _

theorem AppendStep.reserve_le {pc pc' : AppendPc} {r : Request} {a : Answer} (step : AppendStep pc r a pc')
    (before : ∀ passed, pc.reserve passed ≤ bufLen) (passed : Bool) : pc'.reserve passed ≤ bufLen := by
  cases step with
  | opened buf | preadEnd buf => exact reserve_le_loop buf passed
  | data buf nonempty short => exact short
  | locked => exact before passed
  | ioctl buf | unlocked buf =>
      rw [AppendPc.replyOrNext]
      split
      · exact Nat.zero_le _
      · exact reserve_le_loop buf passed
  | sent =>
      rw [AppendPc.advance]
      split <;> exact Nat.zero_le _
  | _ => exact Nat.zero_le _

theorem TimestampStep.reserve_le {pc pc' : TimestampPc} {r : Request} {a : Answer}
    (step : TimestampStep pc r a pc') (passed : Bool) : pc'.reserve passed ≤ bufLen := by
  have stamp : timestampMaxSize ≤ bufLen := by decide
  cases step with
  | awake | locked => exact stamp
  | formatted fits => exact fits.le.trans stamp
  | unlocked =>
      cases passed
      · exact Nat.zero_le _
      · exact stamp
  | _ => exact Nat.zero_le _

/-- A thread has at most one chunk to write. -/
theorem TaskPc.Alone.reserve_le {pc : TaskPc} (alone : pc.Alone) (t : Task) : pc.reserve t ≤ bufLen := by
  have stamp : timestampMaxSize ≤ bufLen := by decide
  have chunk : ∀ pc, (server.alone ThreadPc.entered).Reach Lts.anyStep pc →
      ∀ passed, (TaskPc.running pc passed).reserve t ≤ bufLen := by
    intro pc reach
    refine reach.induct (fun pc => ∀ passed, (TaskPc.running pc passed).reserve t ≤ bufLen) ?_ ?_
    · rintro (pc | pc) enters
      · obtain ⟨buf, rfl⟩ := enters
        exact fun _ => Nat.zero_le _
      · obtain rfl : pc = .sleep := enters
        rintro (_ | _)
        · exact Nat.zero_le _
        · exact stamp
    · rintro (pc | pc) ⟨r, a⟩ pc' before _ ⟨asks, resumes⟩ passed
      · obtain ⟨next, goes, rfl⟩ := Option.map_eq_some_iff.mp resumes
        exact (appendStep_of asks goes).reserve_le before passed
      · obtain ⟨next, goes, rfl⟩ := Option.map_eq_some_iff.mp resumes
        exact (timestampStep_of asks goes).reserve_le passed
  cases pc with
  | created =>
      rw [TaskPc.reserve]
      split
      · exact stamp
      · exact Nat.zero_le _
  | running pc passed => exact chunk pc alone passed
  | absent | closing | ended => exact Nat.zero_le _

/-- On a plain data file: once the flag is cleared behind the assignment in
    `listenfunc`, and while there is room for one more chunk of every thread, the server
    comes to its exit, unless an interrupted `close` keeps it in `robustclose`. -/
theorem process_exits (reach : (process false).Reach Lts.anyStep s) (cleared : s.acceptingConnections = false)
    (listens : s.main.listens = true) (others : ∀ t, t ∉ P → s.tasks t = .absent)
    (defined : ∀ t, (s.tasks t).Defined)
    (room : s.source.content.length + bufLen * P.card < 2 ^ 31) : s.Exits := by
  obtain ⟨P', leaving⟩ := Process.leaving_start cleared listens others defined
  have chunks : ∑ t ∈ P, (s.tasks t).reserve t ≤ bufLen * P.card :=
    (Finset.sum_le_card_nsmul _ _ _ fun t _ => (alone_of_process reach t).reserve_le t).trans_eq
      (Nat.mul_comm P.card bufLen)
  have room : s.source.content.length + ∑ t ∈ P, (s.tasks t).reserve t < 2 ^ 31 := by omega
  constructor
  · refine ⟨s.left P' (s.source.content.length + ∑ t ∈ P, (s.tasks t).reserve t), ?_⟩
    intro labels s' run
    have total := (Process.Leaving.of_run leaving room run).2
    omega
  · intro labels s' run stuck
    have leaving' := (Process.Leaving.of_run leaving room run).1
    have kept : s'.Kept false := by
      refine run.induct (fun _ s => s.Kept false) ?_ ?_
      · rintro _ rfl
        exact kept_of_reach reach
      · intro _ _ _ _ kept _ taken
        exact kept.step (processStep_of taken)
    by_contra runs
    obtain ⟨e, s'', proceeds, next⟩ := leaving'.next kept (Bool.eq_false_iff.mpr runs)
    exact stuck e s'' proceeds next

end

/-- The signal has come when the timestamp thread has just been created. -/
def Process.early : Process where
  main := .startserver (.loop (.start 0))
  acceptingConnections := false
  tasks := update (fun _ => .absent) .timestamp .created
  source := ⟨none, []⟩
  mutex := .present
  socket := .present
  dataFile := .present

theorem early_tasks {t : Task} (other : t ≠ .timestamp) : Process.early.tasks t = .absent := by
  cases t with
  | timestamp => exact absurd rfl other
  | connection rsfd => rfl

theorem process_exits_early : Process.early.Exits := by
  have runs : [.main .done, .main .done, .main (.create 0), .main (.uninitialised 0), .signal].foldlM
      (Process.next false) .installed = some .early := rfl
  have init : (process false).Reach Lts.anyStep .installed :=
    .init ⟨rfl, rfl, fun _ => rfl, rfl, rfl, rfl, rfl⟩
  have reach := init.foldlM (fun _ _ _ taken => ⟨trivial, taken⟩) runs
  refine process_exits (P := {.timestamp}) reach rfl rfl ?_ ?_ ?_
  · intro t away
    rw [Finset.mem_singleton] at away
    exact early_tasks away
  · intro t
    by_cases same : t = .timestamp
    · rw [same]
      trivial
    · rw [early_tasks same]
      trivial
  · decide

def Request.changes : Request → Bool
  | .writeData _ | .ioctl _ => true
  | _ => false

/-- The call changes the data source. -/
def TaskPc.changes : TaskPc → TaskEvent → Nat
  | .running pc _, .call _ => if (server.request pc).any Request.changes then 1 else 0
  | _, _ => 0

def Process.changes (t : Task) (s : Process) : ProcessEvent → Nat
  | .task u e => if u = t then (s.tasks t).changes e else 0
  | _ => 0

/-- The changes that a thread can still make when the flag is cleared. -/
def TaskPc.pending (t : Task) : TaskPc → Nat
  | .created => if t = .timestamp then 1 else 0
  | .running (.append (.loop _)) passed | .running (.timestamp .sleep) passed => if passed then 1 else 0
  | .running (.append (.parse _ _ _)) _ | .running (.append (.ioctl _ _ _)) _
  | .running (.append (.lock _ _)) _ | .running (.append (.write _ _)) _
  | .running (.timestamp .lock) _ | .running (.timestamp .format) _
  | .running (.timestamp (.write _)) _ => 1
  | _ => 0

/-- The server, with the changes that one thread has made. -/
def counting (dev : Bool) (t : Task) : Lts (Process × Nat) ProcessEvent where
  init w := (process dev).init w.1 ∧ w.2 = 0
  step w e w' := (process dev).step w.1 e w'.1 ∧ w'.2 = w.2 + w.1.changes t e

section

variable {dev : Bool} {t : Task} {source source' : Source Task} {pc pc' : TaskPc}

theorem pending_le_one (pc : TaskPc) : pc.pending t ≤ 1 := by
  unfold TaskPc.pending
  split <;> first | split <;> simp | simp

theorem TaskPc.pending_replyOrNext (buf : Buf) (readcount : Nat) :
    TaskPc.pending t (.running (.append (.replyOrNext buf readcount)) false) = 0 := by
  rw [AppendPc.replyOrNext]
  split <;> rfl

theorem TaskPc.pending_advance (buf : Buf) (pos rc : Nat) :
    TaskPc.pending t (.running (.append (.advance buf pos rc)) false) = 0 := by
  rw [AppendPc.advance]
  split <;> rfl

theorem TaskStep.pending {flag : Bool} (step : TaskStep dev flag t source pc source' pc')
    (cleared : flag = false) : pc'.pending t ≤ pc.pending t := by
  cases step with
  | enter buf => cases t <;> exact Nat.le_refl _
  | pass _ set =>
      rw [cleared] at set
      cases set
  | stop looks _ resumes =>
      rcases stopped_cases looks resumes with ⟨_, rfl, rfl⟩ | ⟨rfl, rfl⟩ <;> exact Nat.zero_le _
  | timeout | appended | timestamped | closed => exact Nat.zero_le _
  | @call pc pc' passed r a _ answers asks acts resumes =>
      cases pc with
      | append pc =>
          obtain ⟨next, goes, rfl⟩ := Option.map_eq_some_iff.mp resumes
          cases appendStep_of asks goes with
          | command | data =>
              obtain ⟨rfl, _⟩ := Bool.and_eq_true_iff.mp answers
              exact Nat.le_refl _
          | ioctl buf readcount | unlocked buf readcount =>
              rw [TaskPc.pending_replyOrNext]
              exact Nat.zero_le _
          | sent buf pos rc =>
              rw [TaskPc.pending_advance]
              exact Nat.zero_le _
          | parsed | locked => exact Nat.le_refl _
          | _ => exact Nat.zero_le _
      | timestamp pc =>
          obtain ⟨next, goes, rfl⟩ := Option.map_eq_some_iff.mp resumes
          cases timestampStep_of asks goes with
          | awake =>
              obtain rfl : passed = true := answers
              exact Nat.le_refl _
          | locked | formatted => exact Nat.le_refl _
          | _ => exact Nat.zero_le _

theorem changed_pending {pc pc' : ThreadPc} {passed : Bool} {r : Request} {a : Answer}
    (asks : server.request pc = some r) (changes : r.changes = true)
    (resumes : server.resume pc a = some pc') :
    TaskPc.pending t (.running pc passed) = 1 ∧ TaskPc.pending t (.running pc' false) = 0 := by
  cases pc with
  | append pc =>
      obtain ⟨next, goes, rfl⟩ := Option.map_eq_some_iff.mp resumes
      cases appendStep_of asks goes with
      | ioctl buf readcount => exact ⟨rfl, TaskPc.pending_replyOrNext buf readcount⟩
      | wrote | writeFailed => exact ⟨rfl, rfl⟩
      | _ => cases changes
  | timestamp pc =>
      obtain ⟨next, goes, rfl⟩ := Option.map_eq_some_iff.mp resumes
      cases timestampStep_of asks goes with
      | wrote | writeFailed => exact ⟨rfl, rfl⟩
      | _ => cases changes

theorem changes_pending {e : TaskEvent} (taken : pc.next dev false t source e = some (source', pc')) :
    pc.changes e + pc'.pending t ≤ pc.pending t := by
  by_cases none : pc.changes e = 0
  · rw [none, Nat.zero_add]
    by_cases again : e = .retry
    · subst again
      obtain ⟨rfl, rfl⟩ := task_retried taken
      exact Nat.le_refl _
    · exact (taskStep_of again taken).pending rfl
  · unfold TaskPc.changes at none ⊢
    split at none
    · obtain ⟨r, next, asks, resumes, rfl⟩ := call_cases taken
      rw [asks] at none ⊢
      by_cases changes : r.changes = true
      · obtain ⟨before, after⟩ := changed_pending (t := t) asks changes resumes
        rw [before, after]
        simp [changes]
      · simp [changes] at none
    · exact absurd rfl none

variable {s s' : Process}

theorem pending_next {e : ProcessEvent} (cleared : s.acceptingConnections = false)
    (listens : s.main.listens = true) (taken : s.next dev e = some s') (t : Task) :
    s'.acceptingConnections = false ∧ s'.main.listens = true ∧
      s.changes t e + (s'.tasks t).pending t ≤ (s.tasks t).pending t := by
  cases e with
  | signal =>
      simp only [Process.next] at taken
      split at taken <;> cases taken
      exact ⟨rfl, listens, (Nat.zero_add _).le⟩
  | main outcome =>
      have quiet : s.changes t (.main outcome) = 0 := rfl
      rw [quiet, Nat.zero_add]
      by_cases again : outcome = .retry
      · subst again
        obtain rfl := main_retried taken
        exact ⟨cleared, listens, le_rfl⟩
      cases mainStep_of again taken with
      | descriptors here | openDataFile here | openFailed here | timestamp here
      | timestampFailed here | accepting here =>
          rw [here] at listens
          cases listens
      | @created l rsfd stale here =>
          refine ⟨cleared, rfl, ?_⟩
          dsimp only
          by_cases same : t = .connection rsfd
          · rw [same, update_self]
            exact Nat.zero_le _
          · rw [update_of_ne same]
      | looked | polled =>
          refine ⟨cleared, ?_, le_rfl⟩
          split_ifs <;> rfl
      | _ => exact ⟨cleared, rfl, le_rfl⟩
  | task u e =>
      simp only [Process.next] at taken
      split at taken
      · cases taken
      · obtain ⟨⟨source, pc⟩, goes, rfl⟩ := Option.map_eq_some_iff.mp taken
        refine ⟨cleared, listens, ?_⟩
        rw [cleared] at goes
        by_cases same : u = t
        · subst same
          simp only [Process.changes, update_self, if_true]
          exact changes_pending goes
        · simp only [Process.changes, if_neg same, update_of_ne (Ne.symm same), Nat.zero_add, le_refl]

/-- Behind the signal every thread changes the data source once more at most. -/
theorem changes_once (cleared : s.acceptingConnections = false) (listens : s.main.listens = true)
    (t : Task) {w : Process × Nat}
    (reach : ((counting dev t).startingAt (s, 0)).Reach Lts.anyStep w) : w.2 ≤ 1 := by
  have left : w.1.acceptingConnections = false ∧ w.1.main.listens = true ∧
      w.2 + (w.1.tasks t).pending t ≤ 1 := by
    refine reach.induct (fun w => w.1.acceptingConnections = false ∧ w.1.main.listens = true ∧
      w.2 + (w.1.tasks t).pending t ≤ 1) ?_ ?_
    · rintro _ rfl
      exact ⟨cleared, listens, by simpa using pending_le_one _⟩
    · rintro ⟨s, n⟩ e ⟨s', n'⟩ ⟨cleared, listens, few⟩ _ ⟨taken, rfl⟩
      obtain ⟨cleared', listens', pending⟩ := pending_next cleared listens taken t
      have pending : s.changes t e + (s'.tasks t).pending t ≤ (s.tasks t).pending t := pending
      have total : n + (s.tasks t).pending t ≤ 1 := few
      have next : n + s.changes t e + (s'.tasks t).pending t ≤ 1 := by omega
      exact ⟨cleared', listens', next⟩
  omega

end

/-- One more timestamp. -/
theorem changes_once_timestamp : ∃ w : Process × Nat,
    ((counting false .timestamp).startingAt (.early, 0)).Reach Lts.anyStep w ∧ w.2 = 1 ∧ w.2 ≤ 1 := by
  have runs : ([.enter Buf.zero, .call .done, .call .done, .call (.bytes []), .call (.count 11)].map
      (ProcessEvent.task .timestamp)).foldlM
        (fun w e => (w.1.next false e).map fun s => (s, w.2 + w.1.changes .timestamp e))
          (Process.early, 0) =
            some (_, 1) := rfl
  have init : ((counting false .timestamp).startingAt (.early, 0)).Reach Lts.anyStep (.early, 0) :=
    .init rfl
  have reach := init.foldlM (fun w e w' taken => by
    obtain ⟨s, next, rfl⟩ := Option.map_eq_some_iff.mp taken
    exact ⟨trivial, next, rfl⟩) runs
  exact ⟨_, reach, rfl, changes_once rfl rfl .timestamp reach⟩

end Aesd.Server
