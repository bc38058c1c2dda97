import Aesd.Server.DataFile
import Aesd.Server.Signals

/-! # The server from its first thread to its exit

The main thread goes through `startserver`, `listenfunc` and `stopserver`; beside
it run the connections it creates and, on a plain data file, the timestamp thread.
Each thread looks at `flag_accepting_connections` in front of its waits only, so it
may pass once more after the flag has been cleared.
-/

namespace Aesd.Server

open Aesd.Lib Function

/-- A thread that the main thread creates; a connection goes by its socket. -/
inductive Task where
  | timestamp
  | connection (rsfd : Nat)
  deriving Repr, DecidableEq

/-- Where such a thread is. -/
inductive TaskPc where
  | absent
  | created
  /-- `passed`: it has found the flag set, and is in the wait behind. -/
  | running (pc : ThreadPc) (passed : Bool)
  /-- `closesocket`, behind `appenddata`. -/
  | closing
  | ended
  deriving Repr, DecidableEq

inductive TaskEvent where
  /-- `buf` is what `malloc` finds. -/
  | enter (buf : Buf)
  /-- `while(flag_accepting_connections)`. -/
  | look
  /-- `poll` finds nothing. -/
  | timeout
  | call (a : Answer)
  /-- `robustclose` goes on: a `close` is interrupted, or its loop asks for another one. -/
  | retry
  | leave
  deriving Repr, DecidableEq

namespace ThreadPc

/-- In front of a wait that the flag is looked at for. -/
def looks : ThreadPc → Bool
  | .append (.loop _) | .timestamp .sleep => true
  | _ => false

/-- What a call may return there; it is the flag that stops a connection, and a
    signal as well that stops a sleep. -/
def answers (pc : ThreadPc) (passed : Bool) (a : Answer) : Bool :=
  match pc with
  | .append (.loop _) => passed && a != .stopped
  | .timestamp .sleep => passed
  | _ => true

end ThreadPc

namespace TaskPc

/-- It can be joined without waiting. -/
def finished : TaskPc → Bool
  | .absent | .ended => true
  | _ => false

/-- A thread that begins; the timestamp thread sleeps before it looks. -/
def start (buf : Buf) : Task → TaskPc
  | .timestamp => .running (.timestamp .sleep) true
  | .connection _ => .running (.append (.start buf)) false

def next (dev flag : Bool) (t : Task) (source : Source Task) :
    TaskPc → TaskEvent → Option (Source Task × TaskPc)
  | .created, .enter buf => some (source, start buf t)
  | .running pc false, .look =>
    if ¬pc.looks then none
    else if flag then some (source, .running pc true)
    else (server.resume pc .stopped).map fun pc => (source, .running pc false)
  | .running (.append (.loop buf)) true, .timeout =>
    some (source, .running (.append (.loop buf)) false)
  | .running pc passed, .call a =>
    if ¬pc.answers passed a then none
    else
      (server.request pc).bind fun r =>
        ((dataSource Task dev).act source t r a).bind fun source =>
          (server.resume pc a).map fun pc => (source, .running pc false)
  | .running (.append (.close r)) passed, .retry => some (source, .running (.append (.close r)) passed)
  | .running (.append (.returned _)) _, .leave => some (source, .closing)
  | .running (.timestamp (.returned _)) _, .leave => some (source, .ended)
  | .closing, .retry => some (source, .closing)
  | .closing, .leave => some (source, .ended)
  | _, _ => none

end TaskPc

inductive StopPc where
  /-- `pthread_kill`. -/
  | kill
  /-- `pthread_join` of the timestamp thread. -/
  | join
  /-- The first `pthread_mutex_destroy`. -/
  | destroy
  | closeSocket
  | deleteDataFile
  /-- The second `pthread_mutex_destroy`, and `free`. -/
  | free
  deriving Repr, DecidableEq

inductive MainPc where
  | startserver (pc : StartPc)
  | stopserver (pc : StopPc)
  /-- `main` has returned, and with it the process has ended. -/
  | exited (r : Int)
  deriving Repr, DecidableEq

/-- Of the mutex, the data file and the listening socket. -/
inductive Life where
  | before
  | present
  | gone
  deriving Repr, DecidableEq

structure Process where
  main : MainPc
  acceptingConnections : Bool
  tasks : Task → TaskPc
  source : Source Task
  mutex : Life
  socket : Life
  dataFile : Life

/-- `signal` is `signal_handler` for one of the two signals, in any thread. -/
inductive ProcessEvent where
  | signal
  | main (outcome : StartOutcome)
  | task (t : Task) (e : TaskEvent)
  deriving Repr, DecidableEq

/-- No signal arrives, and `robustclose` comes back. -/
def ProcessEvent.proceeds : ProcessEvent → Prop
  | .signal | .main .retry | .task _ .retry => False
  | _ => True

theorem ProcessEvent.proceeds_main {outcome : StartOutcome} :
    (ProcessEvent.main outcome).proceeds ↔ outcome ≠ .retry := by cases outcome <;> simp [proceeds]

theorem ProcessEvent.proceeds_task {t : Task} {e : TaskEvent} :
    (ProcessEvent.task t e).proceeds ↔ e ≠ .retry := by cases e <;> simp [proceeds]

namespace Process

/-- `pthread_join` does not keep the main thread. -/
def joined (s : Process) : StartPc → Bool
  | .cleanup l _ => l.appendHead.all fun d => (s.tasks (.connection d.thread)).finished
  | _ => true

/-- What a step of `startserver` does beside going on. -/
def started (s : Process) : StartPc → StartOutcome → Process
  | .descriptors, .done => { s with mutex := .present }
  | .openDataFile, .done => { s with source := { s.source with content := [] } }
  | .timestampThread, .create r =>
    if r = 0 then { s with tasks := update s.tasks .timestamp .created } else s
  | .accepting, _ => { s with acceptingConnections := true }
  | .create _ rsfd _, .create r =>
    if r = 0 then { s with tasks := update s.tasks (.connection rsfd) .created } else s
  | _, _ => s

/-- A step of `stopserver`. -/
def stopped (dev : Bool) (s : Process) : StopPc → StartOutcome → Option Process
  | .kill, .done => some { s with main := .stopserver .join }
  | .join, .done =>
    if (s.tasks .timestamp).finished then some { s with main := .stopserver .destroy } else none
  | .destroy, .done => some { s with main := .stopserver .closeSocket, mutex := .gone }
  | .closeSocket, .done =>
    some { s with
      main := .stopserver (if dev then .free else .deleteDataFile)
      socket := .gone }
  | .closeSocket, .failed => some { s with main := .exited 1 }
  | .closeSocket, .retry => some { s with main := .stopserver .closeSocket }
  | .deleteDataFile, .done => some { s with main := .stopserver .free, dataFile := .gone }
  | .deleteDataFile, .failed => some { s with main := .exited 1 }
  | .free, .done => some { s with main := .exited 0 }
  | _, _ => none

/-- A step of the main thread. -/
def mainNext (dev : Bool) (s : Process) (outcome : StartOutcome) : Option Process :=
  match s.main with
  | .startserver (.returned r) =>
    if outcome ≠ .done then none
    else if r ≠ 0 then some { s with main := .exited r }
    else some { s with main := .stopserver (if dev then .destroy else .kill) }
  | .startserver pc =>
    if s.joined pc then
      (pc.next dev s.acceptingConnections outcome).map fun pc' =>
        { s.started pc outcome with main := .startserver pc' }
    else none
  | .stopserver pc => s.stopped dev pc outcome
  | .exited _ => none

def exited (s : Process) : Bool :=
  match s.main with
  | .exited _ => true
  | _ => false

def next (dev : Bool) (s : Process) : ProcessEvent → Option Process
  | .signal => if s.exited then none else some { s with acceptingConnections := false }
  | .main outcome => s.mainNext dev outcome
  | .task t e =>
    if s.exited then none
    else
      ((s.tasks t).next dev s.acceptingConnections t s.source e).map fun (source, pc) =>
        { s with source, tasks := update s.tasks t pc }

/-- The handlers are installed; the data file and the listening socket are there. -/
def Installed (s : Process) : Prop :=
  s.main = .startserver .descriptors ∧ s.acceptingConnections = false ∧
    (∀ t, s.tasks t = .absent) ∧ s.source.owner = none ∧ s.mutex = .before ∧
      s.socket = .present ∧ s.dataFile = .present

end Process

/-- The server, with its threads in any order. -/
def process (dev : Bool) : Lts Process ProcessEvent where
  init := Process.Installed
  step s e s' := s.next dev e = some s'

/-- The steps of a thread beside the main thread, but for a `close` made again. -/
inductive TaskStep (dev flag : Bool) (t : Task) (source : Source Task) :
    TaskPc → Source Task → TaskPc → Prop where
  | enter (buf : Buf) : TaskStep dev flag t source .created source (.start buf t)
  | pass {pc} (looks : pc.looks = true) (set : flag = true) :
      TaskStep dev flag t source (.running pc false) source (.running pc true)
  | stop {pc pc'} (looks : pc.looks = true) (cleared : flag = false)
      (resumes : server.resume pc .stopped = some pc') :
      TaskStep dev flag t source (.running pc false) source (.running pc' false)
  | timeout (buf : Buf) : TaskStep dev flag t source (.running (.append (.loop buf)) true) source
      (.running (.append (.loop buf)) false)
  | call {pc pc' passed r a source'} (answers : pc.answers passed a = true)
      (asks : server.request pc = some r)
      (acts : (dataSource Task dev).act source t r a = some source')
      (resumes : server.resume pc a = some pc') :
      TaskStep dev flag t source (.running pc passed) source' (.running pc' false)
  | appended (r : Int) (passed : Bool) :
      TaskStep dev flag t source (.running (.append (.returned r)) passed) source .closing
  | timestamped (r : Int) (passed : Bool) :
      TaskStep dev flag t source (.running (.timestamp (.returned r)) passed) source .ended
  | closed : TaskStep dev flag t source .closing source .ended

theorem stopped_cases {pc pc' : ThreadPc} (looks : pc.looks = true)
    (resumes : server.resume pc .stopped = some pc') :
    (∃ buf, pc = .append (.loop buf) ∧ pc' = .append (.close 0)) ∨
      pc = .timestamp .sleep ∧ pc' = .timestamp (.returned 0) := by
  rcases pc with pc | pc <;> cases pc <;> cases looks <;> cases resumes
  · exact .inl ⟨_, rfl, rfl⟩
  · exact .inr ⟨rfl, rfl⟩

theorem taskStep_of {dev flag : Bool} {t : Task} {source source' : Source Task} {pc pc' : TaskPc}
    {e : TaskEvent} (proceeds : e ≠ .retry) (taken : pc.next dev flag t source e = some (source', pc')) :
    TaskStep dev flag t source pc source' pc' := by
  unfold TaskPc.next at taken
  split at taken
  · cases taken
    exact .enter _
  · split at taken
    · cases taken
    · rename_i looks
      split at taken
      · rename_i set
        cases taken
        exact .pass (not_not.mp looks) set
      · rename_i cleared
        obtain ⟨pc', resumes, same⟩ := Option.map_eq_some_iff.mp taken
        cases same
        exact .stop (not_not.mp looks) (Bool.eq_false_iff.mpr cleared) resumes
  · cases taken
    exact .timeout _
  · split at taken
    · cases taken
    · rename_i answers
      obtain ⟨r, asks, taken⟩ := Option.bind_eq_some_iff.mp taken
      obtain ⟨source'', acts, taken⟩ := Option.bind_eq_some_iff.mp taken
      obtain ⟨pc', resumes, same⟩ := Option.map_eq_some_iff.mp taken
      cases same
      exact .call (not_not.mp answers) asks acts resumes
  · exact absurd rfl proceeds
  · cases taken
    exact .appended _ _
  · cases taken
    exact .timestamped _ _
  · exact absurd rfl proceeds
  · cases taken
    exact .closed
  · cases taken

theorem task_retried {dev flag : Bool} {t : Task} {source source' : Source Task} {pc pc' : TaskPc}
    (taken : pc.next dev flag t source .retry = some (source', pc')) : source' = source ∧ pc' = pc := by
  cases pc with
  | running pc passed =>
      rcases pc with pc | pc <;> cases pc <;> cases passed <;> cases taken
      · exact ⟨rfl, rfl⟩
      · exact ⟨rfl, rfl⟩
  | closing =>
      cases taken
      exact ⟨rfl, rfl⟩
  | absent | created | ended => cases taken

theorem call_cases {dev flag : Bool} {t : Task} {source source' : Source Task} {pc : ThreadPc}
    {passed : Bool} {a : Answer} {pc' : TaskPc}
    (taken : (TaskPc.running pc passed).next dev flag t source (.call a) = some (source', pc')) :
    ∃ r next, server.request pc = some r ∧ server.resume pc a = some next ∧
      pc' = .running next false := by
  have calls : (TaskPc.running pc passed).next dev flag t source (.call a) =
      if ¬pc.answers passed a then none
      else
        (server.request pc).bind fun r =>
          ((dataSource Task dev).act source t r a).bind fun source =>
            (server.resume pc a).map fun pc => (source, .running pc false) := by
    rcases pc with pc | pc <;> cases pc <;> cases passed <;> rfl
  rw [calls] at taken
  split at taken
  · cases taken
  · obtain ⟨r, asks, taken⟩ := Option.bind_eq_some_iff.mp taken
    obtain ⟨source'', acts, taken⟩ := Option.bind_eq_some_iff.mp taken
    obtain ⟨next, resumes, same⟩ := Option.map_eq_some_iff.mp taken
    cases same
    exact ⟨r, next, asks, resumes, rfl⟩

/-- The steps of the main thread, but for a `close` made again. -/
inductive MainStep (dev : Bool) (s : Process) : Process → Prop where
  | descriptors (here : s.main = .startserver .descriptors) :
      MainStep dev s { s with
        main := .startserver (if dev then .accepting else .openDataFile)
        mutex := .present }
  | openDataFile (here : s.main = .startserver .openDataFile) :
      MainStep dev s { s with
        main := .startserver .timestampThread
        source := { s.source with content := [] } }
  | openFailed (here : s.main = .startserver .openDataFile) :
      MainStep dev s { s with main := .startserver (.returned 1) }
  | timestamp (here : s.main = .startserver .timestampThread) :
      MainStep dev s { s with
        main := .startserver .accepting
        tasks := update s.tasks .timestamp .created }
  | timestampFailed (here : s.main = .startserver .timestampThread) :
      MainStep dev s { s with main := .startserver (.returned (-1)) }
  | accepting (here : s.main = .startserver .accepting) (r : Int) :
      MainStep dev s { s with
        main := .startserver (.loop (.start r))
        acceptingConnections := true }
  | looked {l} (here : s.main = .startserver (.loop l)) :
      MainStep dev s { s with
        main := .startserver
          (if s.acceptingConnections then .poll l else .cleanup { l with r := 0 } false) }
  | polled {l} (here : s.main = .startserver (.poll l)) (revents : Option Bool) :
      MainStep dev s { s with
        main := .startserver
          (if ¬(l.polled revents).revents then .loop (l.polled revents) else .accept (l.polled revents)) }
  | acceptFailed {l} (here : s.main = .startserver (.accept l)) :
      MainStep dev s { s with main := .startserver (.cleanup l true) }
  | accepted {l} (here : s.main = .startserver (.accept l)) :
      MainStep dev s { s with main := .startserver (.malloc l.acceptOne l.accepted) }
  | mallocFailed {l rsfd} (here : s.main = .startserver (.malloc l rsfd)) :
      MainStep dev s { s with main := .startserver (.cleanup l true) }
  | malloc {l rsfd} (here : s.main = .startserver (.malloc l rsfd)) (stale : Nat) :
      MainStep dev s { s with main := .startserver (.create l rsfd stale) }
  | created {l rsfd stale} (here : s.main = .startserver (.create l rsfd stale)) :
      MainStep dev s { s with
        main := .startserver (.loop (l.createThread rsfd stale 0))
        tasks := update s.tasks (.connection rsfd) .created }
  | createFailed {l rsfd stale} (here : s.main = .startserver (.create l rsfd stale)) {r : Int}
      (failed : r ≠ 0) :
      MainStep dev s { s with main := .startserver (.closing (l.createThread rsfd stale r) rsfd) }
  | closed {l rsfd} (here : s.main = .startserver (.closing l rsfd)) :
      MainStep dev s { s with main := .startserver (.cleanup (l.close rsfd) true) }
  | cleaned {l failed} (here : s.main = .startserver (.cleanup l failed))
      (joined : ∀ d ∈ l.appendHead, (s.tasks (.connection d.thread)).finished) :
      MainStep dev s { s with main := .startserver (.returned (if l.r ≠ 0 then 1 else 0)) }
  | failed {r : Int} (here : s.main = .startserver (.returned r)) (nonzero : r ≠ 0) :
      MainStep dev s { s with main := .exited r }
  | stopping (here : s.main = .startserver (.returned 0)) :
      MainStep dev s { s with main := .stopserver (if dev then .destroy else .kill) }
  | kill (here : s.main = .stopserver .kill) : MainStep dev s { s with main := .stopserver .join }
  | join (here : s.main = .stopserver .join) (finished : (s.tasks .timestamp).finished) :
      MainStep dev s { s with main := .stopserver .destroy }
  | destroy (here : s.main = .stopserver .destroy) :
      MainStep dev s { s with main := .stopserver .closeSocket, mutex := .gone }
  | closeSocket (here : s.main = .stopserver .closeSocket) :
      MainStep dev s { s with
        main := .stopserver (if dev then .free else .deleteDataFile)
        socket := .gone }
  | closeFailed (here : s.main = .stopserver .closeSocket) : MainStep dev s { s with main := .exited 1 }
  | deleteDataFile (here : s.main = .stopserver .deleteDataFile) :
      MainStep dev s { s with main := .stopserver .free, dataFile := .gone }
  | deleteFailed (here : s.main = .stopserver .deleteDataFile) :
      MainStep dev s { s with main := .exited 1 }
  | free (here : s.main = .stopserver .free) : MainStep dev s { s with main := .exited 0 }

theorem mainStep_of_start {dev : Bool} {s : Process} {pc pc' : StartPc} {outcome : StartOutcome}
    (here : s.main = .startserver pc) (joined : s.joined pc) (proceeds : outcome ≠ .retry)
    (goes : pc.next dev s.acceptingConnections outcome = some pc') :
    MainStep dev s { s.started pc outcome with main := .startserver pc' } := by
  cases pc with
  | descriptors =>
      cases outcome <;> cases goes
      exact .descriptors here
  | openDataFile =>
      cases outcome <;> cases goes
      · exact .openDataFile here
      · exact .openFailed here
  | timestampThread =>
      cases outcome <;> cases goes
      rename_i r
      by_cases done : r = 0
      · simp only [Process.started, if_pos done]
        exact .timestamp here
      · simp only [Process.started, if_neg done]
        exact .timestampFailed here
  | accepting =>
      cases outcome <;> cases goes
      exact .accepting here _
  | loop l =>
      cases outcome <;> cases goes
      exact .looked here
  | poll l =>
      cases outcome <;> cases goes
      exact .polled here _
  | accept l =>
      cases outcome <;> cases goes
      · exact .accepted here
      · exact .acceptFailed here
  | malloc l rsfd =>
      cases outcome with
      | malloc stale =>
          cases stale <;> cases goes
          · exact .mallocFailed here
          · exact .malloc here _
      | _ => cases goes
  | create l rsfd stale =>
      cases outcome <;> cases goes
      rename_i r
      by_cases done : r = 0
      · subst done
        exact .created here
      · simp only [Process.started, if_neg done, if_pos done]
        exact .createFailed here done
  | closing l rsfd =>
      cases outcome <;> cases goes
      · exact .closed here
      · exact absurd rfl proceeds
  | cleanup l failed =>
      cases outcome <;> cases goes
      exact .cleaned here (List.all_eq_true.mp joined)
  | returned r => cases outcome <;> cases goes

theorem mainStep_of {dev : Bool} {s s' : Process} {outcome : StartOutcome} (proceeds : outcome ≠ .retry)
    (taken : s.mainNext dev outcome = some s') : MainStep dev s s' := by
  unfold Process.mainNext at taken
  split at taken
  · rename_i r here
    split at taken
    · cases taken
    · split at taken
      · rename_i nonzero
        cases taken
        exact .failed here nonzero
      · rename_i zero
        cases taken
        obtain rfl := not_not.mp zero
        exact .stopping here
  · rename_i pc _ here
    split at taken
    · rename_i joined
      obtain ⟨pc', goes, rfl⟩ := Option.map_eq_some_iff.mp taken
      exact mainStep_of_start here joined proceeds goes
    · cases taken
  · rename_i pc here
    cases pc <;> cases outcome <;> simp only [Process.stopped] at taken <;>
      first | cases taken | skip
    · exact .kill here
    · split at taken <;> cases taken
      exact .join here (by assumption)
    · exact .destroy here
    · exact .closeSocket here
    · exact .closeFailed here
    · exact absurd rfl proceeds
    · exact .deleteDataFile here
    · exact .deleteFailed here
    · exact .free here
  · cases taken

theorem start_retried {dev flag : Bool} {pc pc' : StartPc} (goes : pc.next dev flag .retry = some pc') :
    pc' = pc ∧ ∃ l rsfd, pc = .closing l rsfd := by
  cases pc with
  | closing l rsfd =>
      cases goes
      exact ⟨rfl, l, rsfd, rfl⟩
  | _ => cases goes

theorem main_retried {dev : Bool} {s s' : Process} (taken : s.mainNext dev .retry = some s') : s' = s := by
  unfold Process.mainNext at taken
  split at taken
  · cases taken
  · rename_i here
    split at taken
    · obtain ⟨_, goes, rfl⟩ := Option.map_eq_some_iff.mp taken
      obtain ⟨rfl, l, rsfd, rfl⟩ := start_retried goes
      exact congrArg (fun main => { s with main }) here.symm
    · cases taken
  · rename_i pc here
    cases pc <;> cases taken
    exact congrArg (fun main => { s with main }) here.symm
  · cases taken

/-- The steps of the whole server. -/
inductive ProcessStep (dev : Bool) (s : Process) : Process → Prop where
  | retry : ProcessStep dev s s
  | signal (runs : s.exited = false) : ProcessStep dev s { s with acceptingConnections := false }
  | main {s'} (step : MainStep dev s s') : ProcessStep dev s s'
  | task {t source pc} (runs : s.exited = false)
      (step : TaskStep dev s.acceptingConnections t s.source (s.tasks t) source pc) :
      ProcessStep dev s { s with source, tasks := update s.tasks t pc }

theorem processStep_of {dev : Bool} {s s' : Process} {e : ProcessEvent}
    (taken : s.next dev e = some s') : ProcessStep dev s s' := by
  cases e with
  | signal =>
      simp only [Process.next] at taken
      split at taken <;> cases taken
      exact .signal (Bool.eq_false_iff.mpr (by assumption))
  | main outcome =>
      by_cases again : outcome = .retry
      · subst again
        rw [main_retried taken]
        exact .retry
      · exact .main (mainStep_of again taken)
  | task t e =>
      simp only [Process.next] at taken
      split at taken
      · cases taken
      · rename_i runs
        obtain ⟨⟨source, pc⟩, goes, rfl⟩ := Option.map_eq_some_iff.mp taken
        by_cases again : e = .retry
        · subst again
          obtain ⟨rfl, rfl⟩ := task_retried goes
          rw [update_eq_self]
          exact .retry
        · exact .task (Bool.eq_false_iff.mpr runs) (taskStep_of again goes)

/-- A place of a thread that a run of it alone comes to. -/
def TaskPc.Alone : TaskPc → Prop
  | .running pc _ => (server.alone ThreadPc.entered).Reach Lts.anyStep pc
  | _ => True

theorem reach_alone {pc pc' : ThreadPc} {r : Request} {a : Answer}
    (reach : (server.alone ThreadPc.entered).Reach Lts.anyStep pc) (asks : server.request pc = some r)
    (resumes : server.resume pc a = some pc') :
    (server.alone ThreadPc.entered).Reach Lts.anyStep pc' := by
  have taken : (server.alone ThreadPc.entered).step pc (r, a) pc' := ⟨asks, resumes⟩
  exact reach.step trivial taken

theorem TaskStep.alone {dev flag : Bool} {t : Task} {source source' : Source Task} {pc pc' : TaskPc}
    (step : TaskStep dev flag t source pc source' pc') (alone : pc.Alone) : pc'.Alone := by
  cases step with
  | enter buf =>
      cases t with
      | timestamp => exact .init rfl
      | connection rsfd => exact .init ⟨buf, rfl⟩
  | pass | timeout => exact alone
  | stop looks _ resumes =>
      rcases stopped_cases looks resumes with ⟨buf, rfl, rfl⟩ | ⟨rfl, rfl⟩
      · exact reach_alone alone rfl resumes
      · exact reach_alone alone rfl resumes
  | call _ asks _ resumes => exact reach_alone alone asks resumes
  | appended | timestamped | closed => trivial

/-- What holds of one thread in any surroundings holds in the whole server. -/
theorem alone_of_process {dev : Bool} {ok : Process → ProcessEvent → Prop} {s : Process}
    (reach : (process dev).Reach ok s) (t : Task) : (s.tasks t).Alone := by
  refine reach.induct (fun s => ∀ t, (s.tasks t).Alone) ?_ ?_ t
  · rintro s ⟨_, _, absent, _⟩ t
    rw [absent t]
    trivial
  · intro s e s' alone _ taken t
    have created : ∀ u, (update s.tasks u .created t).Alone := by
      intro u
      by_cases same : t = u
      · rw [same, update_self]
        trivial
      · rw [update_of_ne same]
        exact alone t
    cases processStep_of taken with
    | retry | signal => exact alone t
    | main step =>
        cases step with
        | timestamp | created => exact created _
        | _ => exact alone t
    | @task u source pc _ step =>
        by_cases same : t = u
        · subst same
          simp only [update_self]
          exact step.alone (alone t)
        · simp only [update_of_ne same]
          exact alone t

end Aesd.Server
