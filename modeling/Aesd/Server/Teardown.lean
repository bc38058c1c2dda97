import Aesd.Server.Process

/-! # In what order the server is taken down

`stopserver` destroys the mutex and deletes the data file that the other threads
use.  By then all of them have ended, whatever was answered and in whatever order
they ran: the connections are joined by `listenfunc`, the timestamp thread by
`stopserver`.
-/

namespace Aesd.Server

open Aesd.Lib Function

/-- Between lock and unlock. -/
def TaskPc.holding : TaskPc → Bool
  | .running pc _ => pc.holding
  | _ => false

/-- The owner of the mutex is the thread between lock and unlock. -/
def Process.Guards (s : Process) : Prop := ∀ t, (s.tasks t).holding = true ↔ s.source.owner = some t

theorem TaskPc.not_holding_of_finished {pc : TaskPc} (finished : pc.finished = true) :
    pc.holding = false := by
  cases pc <;> first | rfl | cases finished

theorem not_holding_of_looks {pc : ThreadPc} (looks : pc.looks = true) : pc.holding = false := by
  rcases pc with pc | pc <;> cases pc <;> first | rfl | cases looks

theorem holding_of_lock {pc pc' : ThreadPc} {a : Answer} (asks : server.request pc = some .lock)
    (resumes : server.resume pc a = some pc') : a = .done ∧ pc'.holding = true := by
  cases pc with
  | append pc =>
      obtain ⟨_, goes, rfl⟩ := Option.map_eq_some_iff.mp resumes
      cases appendStep_of asks goes
      exact ⟨rfl, rfl⟩
  | timestamp pc =>
      obtain ⟨_, goes, rfl⟩ := Option.map_eq_some_iff.mp resumes
      cases timestampStep_of asks goes
      exact ⟨rfl, rfl⟩

theorem holding_stays {pc pc' : ThreadPc} {r : Request} {a : Answer}
    (asks : server.request pc = some r) (resumes : server.resume pc a = some pc')
    (inside : pc.holding = true) (stays : r ≠ .unlock) : pc'.holding = true := by
  cases pc with
  | append pc =>
      obtain ⟨_, goes, rfl⟩ := Option.map_eq_some_iff.mp resumes
      cases appendStep_of asks goes with
      | wrote | writeFailed => rfl
      | unlocked | unlockedFailed => exact absurd rfl stays
      | _ => cases inside
  | timestamp pc =>
      obtain ⟨_, goes, rfl⟩ := Option.map_eq_some_iff.mp resumes
      cases timestampStep_of asks goes with
      | formatFailed | formatted | wrote | writeFailed => rfl
      | unlocked => exact absurd rfl stays
      | _ => cases inside

theorem done_of_unlock {pc pc' : ThreadPc} {a : Answer} (asks : server.request pc = some .unlock)
    (resumes : server.resume pc a = some pc') : a = .done := by
  cases pc with
  | append pc =>
      obtain ⟨_, goes, rfl⟩ := Option.map_eq_some_iff.mp resumes
      cases appendStep_of asks goes <;> rfl
  | timestamp pc =>
      obtain ⟨_, goes, rfl⟩ := Option.map_eq_some_iff.mp resumes
      cases timestampStep_of asks goes
      rfl

theorem not_holding_stopped {pc pc' : ThreadPc} (looks : pc.looks = true)
    (resumes : server.resume pc .stopped = some pc') : pc'.holding = false := by
  rcases stopped_cases looks resumes with ⟨_, rfl, rfl⟩ | ⟨rfl, rfl⟩ <;> rfl

theorem TaskStep.guards {dev flag : Bool} {t : Task} {source source' : Source Task} {pc pc' : TaskPc}
    (step : TaskStep dev flag t source pc source' pc')
    (guards : pc.holding = true ↔ source.owner = some t) :
    (pc'.holding = true ↔ source'.owner = some t) ∧
      ∀ u, u ≠ t → (source'.owner = some u ↔ source.owner = some u) := by
  cases step with
  | enter buf => cases t <;> exact ⟨guards, fun _ _ => Iff.rfl⟩
  | pass | timeout | appended | timestamped | closed => exact ⟨guards, fun _ _ => Iff.rfl⟩
  | stop looks cleared resumes =>
      have outside := not_holding_of_looks looks
      have outside' := not_holding_stopped looks resumes
      refine ⟨?_, fun _ _ => Iff.rfl⟩
      simpa only [TaskPc.holding, outside, outside'] using guards
  | @call pc pc' passed r a _ answers asks acts resumes =>
      simp only [TaskPc.holding] at guards ⊢
      by_cases locks : r = .lock
      · subst locks
        obtain ⟨rfl, inside⟩ := holding_of_lock asks resumes
        obtain ⟨free, owned⟩ := act_lock acts
        refine ⟨by simp [inside, owned], fun u apart => ?_⟩
        rw [owned, free]
        simp [Ne.symm apart]
      · by_cases unlocks : r = .unlock
        · subst unlocks
          have held := guards.mp (holding_of_unlock asks)
          have outside : ¬pc'.holding = true := by
            intro inside
            rcases holding_step asks resumes inside with ⟨other, _⟩ | ⟨_, other⟩
            · cases other
            · exact other rfl
          obtain rfl := done_of_unlock asks resumes
          obtain rfl := Option.some.inj acts
          refine ⟨by simp [outside], fun u apart => ?_⟩
          rw [held]
          simp [Ne.symm apart]
        · have owner := act_owner acts (fun both => locks both.1) unlocks
          rw [owner, ← guards]
          refine ⟨⟨fun inside => ?_, fun inside => holding_stays asks resumes inside unlocks⟩,
            fun _ _ => Iff.rfl⟩
          rcases holding_step asks resumes inside with ⟨other, _⟩ | ⟨before, _⟩
          · exact absurd other locks
          · exact before

theorem TaskStep.there {dev flag : Bool} {t : Task} {source source' : Source Task} {pc pc' : TaskPc}
    (step : TaskStep dev flag t source pc source' pc') : pc.finished = false ∧ pc' ≠ .absent := by
  cases step with
  | enter buf => cases t <;> exact ⟨rfl, by rintro ⟨⟩⟩
  | _ => exact ⟨rfl, by rintro ⟨⟩⟩

/-- The connections that exist are nodes of the list, and were accepted before `n`. -/
def Tracks (tasks : Task → TaskPc) (l : Listening) (n : Nat) : Prop :=
  ∀ k, tasks (.connection k) ≠ .absent → k < n ∧ conn k ∈ l.appendHead

/-- What the main thread knows of the connections. -/
def Connections (tasks : Task → TaskPc) : MainPc → Prop
  | .startserver (.loop l) | .startserver (.poll l) | .startserver (.accept l) =>
    Tracks tasks l l.accepted
  | .startserver (.malloc l rsfd) | .startserver (.create l rsfd _) =>
    Tracks tasks l rsfd ∧ rsfd < l.accepted
  | .startserver (.closing l _) | .startserver (.cleanup l _) => ∃ n, Tracks tasks l n
  | .startserver (.returned _) | .stopserver _ | .exited _ => ∀ k, (tasks (.connection k)).finished
  | .startserver _ => ∀ k, tasks (.connection k) = .absent

/-- What it knows of the timestamp thread. -/
def Timestamps (dev : Bool) (timestamp : TaskPc) (main : MainPc) : Prop :=
  (dev = true → timestamp = .absent) ∧
    match main with
    | .startserver .descriptors => timestamp = .absent
    | .startserver .openDataFile | .startserver .timestampThread => dev = false ∧ timestamp = .absent
    | .stopserver .destroy | .stopserver .closeSocket | .stopserver .deleteDataFile
    | .stopserver .free => timestamp.finished
    | _ => True

/-- How far it has come with the mutex, the listening socket and the data file. -/
def Resources (dev : Bool) (mutex socket dataFile : Life) (timestamp : TaskPc) : MainPc → Prop
  | .startserver .descriptors => mutex = .before ∧ socket = .present ∧ dataFile = .present
  | .startserver _ | .stopserver .kill | .stopserver .join | .stopserver .destroy =>
    mutex = .present ∧ socket = .present ∧ dataFile = .present
  | .stopserver .closeSocket => mutex = .gone ∧ socket = .present ∧ dataFile = .present
  | .stopserver .deleteDataFile => mutex = .gone ∧ socket = .gone ∧ dataFile = .present
  | .stopserver .free => mutex = .gone ∧ socket = .gone ∧ (dev = false → dataFile = .gone)
  | .exited r =>
    if r = 0 then mutex = .gone ∧ socket = .gone ∧ (dev = false → dataFile = .gone) ∧ timestamp.finished
    else dataFile = .present ∧ (mutex = .present ∨ mutex = .gone ∧ timestamp.finished)

/-- The invariant. -/
structure Process.Kept (dev : Bool) (s : Process) : Prop where
  guards : s.Guards
  connections : Connections s.tasks s.main
  timestamps : Timestamps dev (s.tasks .timestamp) s.main
  resources : Resources dev s.mutex s.socket s.dataFile (s.tasks .timestamp) s.main

section

variable {dev : Bool} {s s' : Process}

theorem Tracks.mono {tasks : Task → TaskPc} {l l' : Listening} {n m : Nat} (tracks : Tracks tasks l n)
    (more : l.appendHead ⊆ l'.appendHead) (le : n ≤ m) : Tracks tasks l' m := by
  intro k there
  obtain ⟨less, node⟩ := tracks k there
  exact ⟨Nat.lt_of_lt_of_le less le, more node⟩

theorem Tracks.created {tasks : Task → TaskPc} {l : Listening} {rsfd : Nat} (tracks : Tracks tasks l rsfd)
    (less : rsfd < l.accepted) (stale : Nat) :
    Tracks (update tasks (.connection rsfd) .created) (l.createThread rsfd stale 0)
      (l.createThread rsfd stale 0).accepted := by
  intro k there
  by_cases same : k = rsfd
  · subst same
    exact ⟨less, by simp [Listening.createThread, conn]⟩
  · rw [update_of_ne (by simpa using same)] at there
    obtain ⟨before, node⟩ := tracks k there
    exact ⟨Nat.lt_trans before less, List.mem_append_left _ node⟩

theorem Tracks.finished {tasks : Task → TaskPc} {l : Listening} {n : Nat} (tracks : Tracks tasks l n)
    (joined : ∀ d ∈ l.appendHead, (tasks (.connection d.thread)).finished) (k : Nat) :
    (tasks (.connection k)).finished := by
  by_cases there : tasks (.connection k) = .absent
  · rw [there]
    rfl
  · exact joined (conn k) (tracks k there).2

theorem connections_main (connections : Connections s.tasks s.main) (step : MainStep dev s s') :
    Connections s'.tasks s'.main := by
  cases step with
  | descriptors here =>
      rw [here] at connections
      cases dev <;> exact connections
  | openDataFile here =>
      rw [here] at connections
      exact connections
  | openFailed here | timestampFailed here =>
      rw [here] at connections
      intro k
      rw [connections k]
      rfl
  | timestamp here =>
      rw [here] at connections
      intro k
      exact connections k
  | accepting here r =>
      rw [here] at connections
      intro k there
      exact absurd (connections k) there
  | looked here =>
      rw [here] at connections
      dsimp only
      split
      · exact connections
      · exact ⟨_, connections⟩
  | polled here revents =>
      rw [here] at connections
      dsimp only
      split <;> exact connections
  | acceptFailed here =>
      rw [here] at connections
      exact ⟨_, connections⟩
  | accepted here =>
      rw [here] at connections
      exact ⟨connections, Nat.lt_succ_self _⟩
  | mallocFailed here =>
      rw [here] at connections
      exact ⟨_, connections.1⟩
  | malloc here stale =>
      rw [here] at connections
      exact connections
  | created here =>
      rw [here] at connections
      exact connections.1.created connections.2 _
  | createFailed here failed =>
      rw [here] at connections
      exact ⟨_, connections.1.mono (List.subset_append_left _ _) le_rfl⟩
  | closed here =>
      rw [here] at connections
      exact connections
  | cleaned here joined =>
      rw [here] at connections
      obtain ⟨_, tracks⟩ := connections
      exact tracks.finished joined
  | failed here | stopping here | kill here | join here | destroy here | closeSocket here
  | closeFailed here | deleteDataFile here | deleteFailed here | free here =>
      rw [here] at connections
      exact connections

theorem timestamps_main (timestamps : Timestamps dev (s.tasks .timestamp) s.main)
    (step : MainStep dev s s') : Timestamps dev (s'.tasks .timestamp) s'.main := by
  obtain ⟨device, timestamps⟩ := timestamps
  cases step with
  | descriptors here =>
      rw [here] at timestamps
      refine ⟨device, ?_⟩
      cases dev
      · exact ⟨rfl, timestamps⟩
      · trivial
  | openDataFile here =>
      rw [here] at timestamps
      exact ⟨device, timestamps⟩
  | timestamp here =>
      rw [here] at timestamps
      refine ⟨fun onDevice => ?_, trivial⟩
      rw [timestamps.1] at onDevice
      cases onDevice
  | looked | polled =>
      refine ⟨device, ?_⟩
      dsimp only
      split_ifs <;> trivial
  | created => exact ⟨device, trivial⟩
  | stopping here =>
      refine ⟨device, ?_⟩
      cases dev
      · trivial
      · change (s.tasks .timestamp).finished = true
        rw [device rfl]
        rfl
  | join here finished => exact ⟨device, finished⟩
  | destroy here | deleteDataFile here =>
      rw [here] at timestamps
      exact ⟨device, timestamps⟩
  | closeSocket here =>
      rw [here] at timestamps
      refine ⟨device, ?_⟩
      cases dev <;> exact timestamps
  | openFailed | timestampFailed | accepting | acceptFailed | accepted | mallocFailed | malloc
  | createFailed | closed | cleaned | failed | kill | closeFailed | deleteFailed | free =>
      exact ⟨device, trivial⟩

theorem resources_main (timestamps : Timestamps dev (s.tasks .timestamp) s.main)
    (resources : Resources dev s.mutex s.socket s.dataFile (s.tasks .timestamp) s.main)
    (step : MainStep dev s s') :
    Resources dev s'.mutex s'.socket s'.dataFile (s'.tasks .timestamp) s'.main := by
  have timestamps := timestamps.2
  cases step with
  | descriptors here =>
      rw [here] at resources
      cases dev <;> exact ⟨rfl, resources.2⟩
  | looked here | polled here revents =>
      rw [here] at resources
      dsimp only
      split <;> exact resources
  | failed here nonzero =>
      rw [here] at resources
      rw [Resources, if_neg nonzero]
      exact ⟨resources.2.2, .inl resources.1⟩
  | stopping here =>
      rw [here] at resources
      cases dev <;> exact resources
  | destroy here =>
      rw [here] at resources
      exact ⟨rfl, resources.2⟩
  | closeSocket here =>
      rw [here] at resources
      cases dev
      · exact ⟨resources.1, rfl, resources.2.2⟩
      · exact ⟨resources.1, rfl, fun plain => by cases plain⟩
  | closeFailed here =>
      rw [here] at resources timestamps
      exact ⟨resources.2.2, .inr ⟨resources.1, timestamps⟩⟩
  | deleteDataFile here =>
      rw [here] at resources
      exact ⟨resources.1, resources.2.1, fun _ => rfl⟩
  | deleteFailed here =>
      rw [here] at resources timestamps
      exact ⟨resources.2.2, .inr ⟨resources.1, timestamps⟩⟩
  | free here =>
      rw [here] at resources timestamps
      exact ⟨resources.1, resources.2.1, resources.2.2, timestamps⟩
  | openDataFile here | openFailed here | timestamp here | timestampFailed here | accepting here
  | acceptFailed here | accepted here | mallocFailed here | malloc here | created here
  | createFailed here | closed here | cleaned here | kill here | join here =>
      rw [here] at resources
      exact resources

theorem Tracks.task {tasks : Task → TaskPc} {l : Listening} {n : Nat} (tracks : Tracks tasks l n)
    {t : Task} (present : (tasks t).finished = false) (pc : TaskPc) : Tracks (update tasks t pc) l n := by
  intro k there
  refine tracks k fun absent => ?_
  by_cases same : .connection k = t
  · rw [← same, absent] at present
    cases present
  · rw [update_of_ne same] at there
    exact there absent

theorem finished_task {tasks : Task → TaskPc} {t u : Task} (present : (tasks t).finished = false)
    (finished : (tasks u).finished = true) (pc : TaskPc) : update tasks t pc u = tasks u := by
  refine update_of_ne ?_ pc tasks
  rintro rfl
  rw [finished] at present
  cases present

theorem connections_task {tasks : Task → TaskPc} {main : MainPc} (connections : Connections tasks main)
    {t : Task} (present : (tasks t).finished = false) (pc : TaskPc) :
    Connections (update tasks t pc) main := by
  have none : (∀ k, tasks (.connection k) = .absent) →
      ∀ k, update tasks t pc (.connection k) = .absent := by
    intro absent k
    rw [finished_task present (by rw [absent k]; rfl)]
    exact absent k
  have finished : (∀ k, (tasks (.connection k)).finished) →
      ∀ k, (update tasks t pc (.connection k)).finished := by
    intro finished k
    rw [finished_task present (finished k)]
    exact finished k
  cases main with
  | startserver start =>
      cases start with
      | descriptors | openDataFile | timestampThread | accepting => exact none connections
      | loop | poll | accept => exact connections.task present pc
      | malloc | create => exact ⟨connections.1.task present pc, connections.2⟩
      | closing | cleanup =>
          obtain ⟨n, tracks⟩ := connections
          exact ⟨n, tracks.task present pc⟩
      | returned => exact finished connections
  | stopserver | exited => exact finished connections

theorem timestamps_task {tasks : Task → TaskPc} {main : MainPc}
    (timestamps : Timestamps dev (tasks .timestamp) main) {t : Task}
    (present : (tasks t).finished = false) (pc : TaskPc) :
    Timestamps dev (update tasks t pc .timestamp) main := by
  by_cases finished : (tasks .timestamp).finished = true
  · rw [finished_task present finished]
    exact timestamps
  · have running : tasks .timestamp ≠ .absent := fun absent => finished (by rw [absent]; rfl)
    obtain ⟨device, timestamps⟩ := timestamps
    refine ⟨fun onDevice => absurd (device onDevice) running, ?_⟩
    cases main with
    | startserver start =>
        cases start with
        | descriptors => exact absurd timestamps running
        | openDataFile | timestampThread => exact absurd timestamps.2 running
        | _ => trivial
    | stopserver stop =>
        cases stop with
        | kill | join => trivial
        | _ => exact absurd timestamps finished
    | exited => trivial

theorem resources_task {main : MainPc} {mutex socket dataFile : Life} {timestamp : TaskPc}
    (resources : Resources dev mutex socket dataFile timestamp main) (runs : ∀ r, main ≠ .exited r)
    (timestamp' : TaskPc) : Resources dev mutex socket dataFile timestamp' main := by
  cases main with
  | startserver start => cases start <;> exact resources
  | stopserver stop => cases stop <;> exact resources
  | exited r => exact absurd rfl (runs r)

theorem guards_created {t : Task} (guards : s.Guards) (absent : s.tasks t = .absent) (u : Task) :
    (update s.tasks t .created u).holding = true ↔ s.source.owner = some u := by
  by_cases same : u = t
  · subst same
    rw [update_self, ← guards u, absent]
    rfl
  · rw [update_of_ne same]
    exact guards u

theorem guards_main (guards : s.Guards) (connections : Connections s.tasks s.main)
    (timestamps : Timestamps dev (s.tasks .timestamp) s.main) (step : MainStep dev s s') : s'.Guards := by
  cases step with
  | timestamp here =>
      rw [here] at timestamps
      exact guards_created guards timestamps.2.2
  | @created l rsfd stale here =>
      rw [here] at connections
      refine guards_created guards ?_
      by_contra there
      exact Nat.lt_irrefl _ (connections.1 rsfd there).1
  | _ => exact guards

theorem Process.Kept.step (kept : s.Kept dev) (step : ProcessStep dev s s') : s'.Kept dev := by
  cases step with
  | retry => exact kept
  | signal => exact ⟨kept.guards, kept.connections, kept.timestamps, kept.resources⟩
  | main step =>
      exact ⟨guards_main kept.guards kept.connections kept.timestamps step,
        connections_main kept.connections step, timestamps_main kept.timestamps step,
        resources_main kept.timestamps kept.resources step⟩
  | @task t source pc runs step =>
      have present := step.there.1
      constructor
      · intro u
        obtain ⟨own, others⟩ := step.guards (kept.guards t)
        by_cases same : u = t
        · subst same
          dsimp only
          rw [update_self]
          exact own
        · dsimp only
          rw [update_of_ne same, others u same]
          exact kept.guards u
      · exact connections_task kept.connections present pc
      · exact timestamps_task kept.timestamps present pc
      · refine resources_task kept.resources (fun r here => ?_) _
        rw [Process.exited, here] at runs
        cases runs

theorem kept_of_reach {ok : Process → ProcessEvent → Prop} (reach : (process dev).Reach ok s) :
    s.Kept dev := by
  refine reach.induct (Process.Kept dev) ?_ fun _ _ _ kept _ taken => kept.step (processStep_of taken)
  rintro s ⟨here, _, absent, free, mutex, socket, dataFile⟩
  constructor
  · intro t
    rw [absent t, free]
    simp [TaskPc.holding]
  · rw [here]
    exact fun k => absent (.connection k)
  · rw [here]
    exact ⟨fun _ => absent .timestamp, absent .timestamp⟩
  · rw [here]
    exact ⟨mutex, socket, dataFile⟩

/-- `startserver` has returned. -/
def MainPc.started : MainPc → Bool
  | .startserver (.returned _) | .stopserver _ | .exited _ => true
  | .startserver _ => false

/-- Nothing is taken down that a thread may still use. -/
structure Process.Orderly (dev : Bool) (s : Process) : Prop where
  /-- Behind `startserver`, whether it failed or not, no connection is left. -/
  joined : s.main.started → ∀ rsfd, (s.tasks (.connection rsfd)).finished
  /-- A thread finds the mutex initialised, and nobody has it when it is destroyed. -/
  mutex : s.mutex ≠ .present → (∀ t, (s.tasks t).finished) ∧ s.source.owner = none
  /-- The data file is not created once more by a thread that opens it. -/
  dataFile : s.dataFile ≠ .present → ∀ t, (s.tasks t).finished
  /-- The exit status 0 tells that nothing is left. -/
  success : s.main = .exited 0 → (∀ t, (s.tasks t).finished) ∧ s.mutex = .gone ∧ s.socket = .gone ∧
    (dev = false → s.dataFile = .gone)

theorem Process.Kept.joined (kept : s.Kept dev) (started : s.main.started) (rsfd : Nat) :
    (s.tasks (.connection rsfd)).finished := by
  have connections := kept.connections
  revert connections started
  cases s.main with
  | startserver start =>
      cases start with
      | returned => exact fun _ finished => finished rsfd
      | _ => rintro ⟨⟩
  | stopserver | exited => exact fun _ finished => finished rsfd

theorem Process.Kept.finished (kept : s.Kept dev) (started : s.main.started)
    (timestamp : (s.tasks .timestamp).finished) (t : Task) : (s.tasks t).finished := by
  cases t with
  | timestamp => exact timestamp
  | connection rsfd => exact kept.joined started rsfd

/-- While the mutex is not there, neither is a thread. -/
theorem Process.Kept.finished_of_mutex (kept : s.Kept dev) (taken : s.mutex ≠ .present) (t : Task) :
    (s.tasks t).finished := by
  have resources := kept.resources
  have timestamps := kept.timestamps.2
  have connections := kept.connections
  have started := kept.finished
  cases here : s.main with
  | startserver start =>
      rw [here] at resources timestamps connections
      cases start with
      | descriptors =>
          have absent : s.tasks t = .absent := by
            cases t with
            | timestamp => exact timestamps
            | connection rsfd => exact connections rsfd
          rw [absent]
          rfl
      | _ => exact absurd resources.1 taken
  | stopserver stop =>
      rw [here] at resources timestamps started
      cases stop with
      | kill | join | destroy => exact absurd resources.1 taken
      | closeSocket | deleteDataFile | free => exact started rfl timestamps t
  | exited r =>
      rw [here] at resources started
      rw [Resources] at resources
      split at resources
      · exact started rfl resources.2.2.2 t
      · exact started rfl (resources.2.resolve_left taken).2 t

theorem Process.Kept.mutex_of_dataFile (kept : s.Kept dev) (taken : s.dataFile ≠ .present) :
    s.mutex ≠ .present := by
  have resources := kept.resources
  intro present
  revert resources
  cases s.main with
  | startserver start =>
      cases start with
      | descriptors => exact fun resources => taken resources.2.2
      | _ => exact fun resources => taken resources.2.2
  | stopserver stop =>
      cases stop with
      | kill | join | destroy | closeSocket | deleteDataFile => exact fun resources => taken resources.2.2
      | free =>
          intro resources
          rw [present] at resources
          cases resources.1
  | exited r =>
      rw [Resources, present]
      split
      · rintro ⟨⟨⟩, _⟩
      · exact fun resources => taken resources.1

/-- In every state of every run, whatever the calls return. -/
theorem orderly_of_reach (reach : (process dev).Reach Lts.anyStep s) : s.Orderly dev where
  joined started rsfd := (kept_of_reach reach).joined started rsfd
  mutex taken := by
    have kept := kept_of_reach reach
    refine ⟨kept.finished_of_mutex taken, ?_⟩
    cases owner : s.source.owner with
    | none => rfl
    | some t =>
        have held := (kept.guards t).mpr owner
        rw [TaskPc.not_holding_of_finished (kept.finished_of_mutex taken t)] at held
        cases held
  dataFile taken := by
    have kept := kept_of_reach reach
    exact kept.finished_of_mutex (kept.mutex_of_dataFile taken)
  success ended := by
    have kept := kept_of_reach reach
    have resources := kept.resources
    rw [ended, Resources, if_pos rfl] at resources
    obtain ⟨mutex, socket, dataFile, _⟩ := resources
    exact ⟨kept.finished_of_mutex (by rw [mutex]; rintro ⟨⟩), mutex, socket, dataFile⟩

end

/-- The handlers are just installed. -/
def Process.installed : Process where
  main := .startserver .descriptors
  acceptingConnections := false
  tasks _ := .absent
  source := ⟨none, []⟩
  mutex := .before
  socket := .present
  dataFile := .present

/-- On a plain data file: one connection, and a signal while it is served. -/
def oneConnection : List ProcessEvent :=
  let t := Task.connection 0
  [.main .done, .main .done, .main (.create 0), .main (.uninitialised 0), .main .done,
    .task .timestamp (.enter Buf.zero), .main (.poll (some true)), .main .done,
    .main (.malloc (some 0)), .main (.create 0), .task t (.enter Buf.zero), .task t (.call .done),
    .task t .look, .signal, .task t (.call (.bytes [newline])), .task t (.call .done),
    .task t (.call (.count 1)), .task t (.call .done), .task t (.call (.bytes [newline])),
    .task t (.call (.count 1)), .task t (.call (.bytes [])), .main .done, .task t .look,
    .task t (.call .done), .task t .leave, .task t .leave, .main .done, .main .done, .main .done,
    .task .timestamp (.call .stopped), .task .timestamp .leave, .main .done, .main .done, .main .done,
    .main .done, .main .done]

theorem orderly_oneConnection : ∃ s : Process, s.main = .exited 0 ∧ s.Orderly false := by
  obtain ⟨s, runs⟩ : ∃ s, oneConnection.foldlM (Process.next false) .installed = some s := by
    apply Option.isSome_iff_exists.mp
    decide +kernel
  have init : (process false).Reach Lts.anyStep .installed :=
    .init ⟨rfl, rfl, fun _ => rfl, rfl, rfl, rfl, rfl⟩
  have reach := init.foldlM (fun _ _ _ taken => ⟨trivial, taken⟩) runs
  have result : (oneConnection.foldlM (Process.next false) .installed).map Process.main =
      some (.exited 0) := by
    decide +kernel
  rw [runs] at result
  exact ⟨s, Option.some.inj result, orderly_of_reach reach⟩

end Aesd.Server
