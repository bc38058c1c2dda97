import Aesd.Lib.Lts
import Aesd.Server.Listen
import Mathlib.Data.Fintype.Basic
import Mathlib.Logic.Function.Basic

/-! # Signals against the start of the server

`signal_handler` stops the server by clearing `flag_accepting_connections`, which
`listenfunc` sets as the first thing it does.  From the moment both handlers are
installed a signal may arrive in front of every step of `startserver` and
`listenfunc`, and its handler may run in any thread, so step by step beside them.  What
arrives before that assignment is forgotten.
-/

namespace Aesd.Server

open Aesd.Lib

def SIGINT : Int := 2
def SIGTERM : Int := 15

/-- The signals that the handler is installed for. -/
def Stops (signo : Int) : Prop := signo = SIGTERM ∨ signo = SIGINT

instance (signo : Int) : Decidable (Stops signo) := inferInstanceAs (Decidable (_ ∨ _))

/-- Where the main thread is, from the installed handlers on. -/
inductive StartPc where
  /-- `malloc` of the descriptors, and the mutex. -/
  | descriptors
  | openDataFile
  | timestampThread
  /-- `flag_accepting_connections = true`, in `listenfunc`. -/
  | accepting
  /-- In front of the test of `while(flag_accepting_connections)`. -/
  | loop (l : Listening)
  | poll (l : Listening)
  | accept (l : Listening)
  | malloc (l : Listening) (rsfd : Nat)
  | create (l : Listening) (rsfd stale : Nat)
  /-- `robustclose`, for the connection that got no thread. -/
  | closing (l : Listening) (rsfd : Nat)
  | cleanup (l : Listening) (failed : Bool)
  /-- `startserver` has returned. -/
  | returned (r : Int)
  deriving Repr, DecidableEq

/-- What the call made there returns. -/
inductive StartOutcome where
  | done
  | failed
  /-- `r` as `listenfunc` happens to find it. -/
  | uninitialised (r : Int)
  | poll (revents : Option Bool)
  | malloc (stale : Option Nat)
  | create (r : Int)
  /-- `robustclose` goes on: a `close` is interrupted, or its loop asks for another one. -/
  | retry
  deriving Repr, DecidableEq

/-- The locals of `listenfunc` in front of its loop. -/
def Listening.start (r : Int) : Listening := ⟨r, false, 0, [], []⟩

/-- One step of `startserver` and `listenfunc`, with the flag as it is found. -/
def StartPc.next (dev flag : Bool) : StartPc → StartOutcome → Option StartPc
  | .descriptors, .done => some (if dev then .accepting else .openDataFile)
  | .openDataFile, .done => some .timestampThread
  | .openDataFile, .failed => some (.returned 1)
  | .timestampThread, .create r => some (if r = 0 then .accepting else .returned (-1))
  | .accepting, .uninitialised r => some (.loop (.start r))
  | .loop l, .done => some (if flag then .poll l else .cleanup { l with r := 0 } false)
  | .poll l, .poll revents =>
    let l := l.polled revents
    some (if ¬l.revents then .loop l else .accept l)
  | .accept l, .failed => some (.cleanup l true)
  | .accept l, .done => some (.malloc l.acceptOne l.accepted)
  | .malloc l _, .malloc none => some (.cleanup l true)
  | .malloc l rsfd, .malloc (some stale) => some (.create l rsfd stale)
  | .create l rsfd stale, .create r =>
    let l := l.createThread rsfd stale r
    some (if r ≠ 0 then .closing l rsfd else .loop l)
  | .closing l rsfd, .retry => some (.closing l rsfd)
  | .closing l rsfd, .done => some (.cleanup (l.close rsfd) true)
  | .cleanup l _, .done => some (.returned (if l.r ≠ 0 then 1 else 0))
  | _, _ => none

/-- Where the handler is for one delivery of a signal. -/
inductive HandlerPc where
  | pending
  | entered (signo : Int)
  /-- In front of `flag_idling_main_thread = false`. -/
  | idle (signo : Int)
  /-- In front of `last_signal_caught = signo`. -/
  | last (signo : Int)
  | returned (signo : Int)
  deriving Repr, DecidableEq

/-- The main thread, the flags, and the handler for each delivery there may be. -/
structure Starting (Delivery : Type) where
  pc : StartPc
  acceptingConnections : Bool
  idlingMainThread : Bool
  lastSignalCaught : Int
  handlers : Delivery → HandlerPc

inductive StartLabel (Delivery : Type) where
  | main (outcome : StartOutcome)
  | deliver (d : Delivery) (signo : Int)
  | handler (d : Delivery)

namespace Starting

variable {Delivery : Type} [DecidableEq Delivery]

/-- The next statement of `signal_handler` for a delivery. -/
def handle (s : Starting Delivery) (d : Delivery) : Option (Starting Delivery) :=
  match s.handlers d with
  | .pending => none
  | .entered signo =>
    some (if Stops signo then
        { s with
          acceptingConnections := false
          handlers := Function.update s.handlers d (.idle signo) }
      else { s with handlers := Function.update s.handlers d (.last signo) })
  | .idle signo =>
    some { s with
      idlingMainThread := false
      handlers := Function.update s.handlers d (.last signo) }
  | .last signo =>
    some { s with
      lastSignalCaught := signo
      handlers := Function.update s.handlers d (.returned signo) }
  | .returned _ => none

def next (dev : Bool) (s : Starting Delivery) : StartLabel Delivery → Option (Starting Delivery)
  | .main outcome =>
    (s.pc.next dev s.acceptingConnections outcome).map fun pc =>
      { s with
        pc := pc
        acceptingConnections := if s.pc = .accepting then true else s.acceptingConnections }
  | .deliver d signo =>
    if s.handlers d = .pending ∧ Stops signo then
      some { s with handlers := Function.update s.handlers d (.entered signo) }
    else none
  | .handler d => s.handle d

/-- Both handlers are installed. -/
def Installed (s : Starting Delivery) : Prop :=
  s.pc = .descriptors ∧ s.acceptingConnections = false ∧ s.idlingMainThread = false ∧
    ∀ d, s.handlers d = .pending

end Starting

/-- The start of the server and the signals, in any order. -/
def starting (Delivery : Type) [DecidableEq Delivery] (dev : Bool) :
    Lts (Starting Delivery) (StartLabel Delivery) where
  init := Starting.Installed
  step s label s' := s.next dev label = some s'

/-- The handler has cleared `flag_accepting_connections`. -/
def HandlerPc.Cleared : HandlerPc → Prop
  | .pending | .entered _ => False
  | .idle signo | .last signo | .returned signo => Stops signo

instance (pc : HandlerPc) : Decidable pc.Cleared :=
  match pc with
  | .pending | .entered _ => inferInstanceAs (Decidable False)
  | .idle signo | .last signo | .returned signo => inferInstanceAs (Decidable (Stops signo))

namespace Starting

variable {Delivery : Type} {dev : Bool} {s s' : Starting Delivery}

/-- `signal_handler` has run for one of the two signals. -/
def Handled (s : Starting Delivery) : Prop := ∃ d signo, Stops signo ∧ s.handlers d = .returned signo

/-- Once the handler has run the flag is false, no iteration of the accept loop
    begins, and both stay so. -/
structure StopHeard [DecidableEq Delivery] (dev : Bool) (s : Starting Delivery) : Prop where
  flag : s.Handled → s.acceptingConnections = false
  noIteration : s.Handled → ∀ l outcome s', s.pc = .loop l → s.next dev (.main outcome) = some s' →
    s'.pc = .cleanup { l with r := 0 } false
  stays : s.Handled → ∀ label s', s.next dev label = some s' → s'.Handled

/-- The flag is not set behind a handler that has cleared it. -/
def inTime (s : Starting Delivery) : StartLabel Delivery → Prop
  | .main _ => s.pc = .accepting → ∀ d, ¬(s.handlers d).Cleared
  | _ => True

instance [Fintype Delivery] (s : Starting Delivery) (label : StartLabel Delivery) :
    Decidable (s.inTime label) :=
  match label with
  | .main _ => inferInstanceAs (Decidable (_ → _))
  | .deliver _ _ | .handler _ => inferInstanceAs (Decidable True)

theorem Handled.cleared (handled : s.Handled) : ∃ d, (s.handlers d).Cleared := by
  obtain ⟨d, signo, stops, here⟩ := handled
  refine ⟨d, ?_⟩
  rw [here]
  exact stops

/-- Where a step of the handler for `d` takes it, and the flag afterwards. -/
inductive Handles (s : Starting Delivery) (d : Delivery) : HandlerPc → Bool → Prop where
  | clears {signo} (here : s.handlers d = .entered signo) (stops : Stops signo) :
      Handles s d (.idle signo) false
  | skips {signo} (here : s.handlers d = .entered signo) (other : ¬Stops signo) :
      Handles s d (.last signo) s.acceptingConnections
  | idles {signo} (here : s.handlers d = .idle signo) :
      Handles s d (.last signo) s.acceptingConnections
  | stores {signo} (here : s.handlers d = .last signo) :
      Handles s d (.returned signo) s.acceptingConnections

theorem Handles.unreturned {d : Delivery} {there : HandlerPc} {flag : Bool}
    (handles : Handles s d there flag) (signo : Int) : s.handlers d ≠ .returned signo := by
  cases handles with
  | clears here | skips here | idles here | stores here =>
      rw [here]
      nofun

theorem Handles.cleared {d : Delivery} {there : HandlerPc} {flag : Bool}
    (handles : Handles s d there flag) (cleared : there.Cleared) :
    flag = false ∨ (s.handlers d).Cleared := by
  cases handles with
  | clears => exact .inl rfl
  | skips here other => exact absurd cleared other
  | idles here | stores here =>
      rw [here]
      exact .inr cleared

theorem Handles.flag {d : Delivery} {there : HandlerPc} {flag : Bool}
    (handles : Handles s d there flag) : flag = false ∨ flag = s.acceptingConnections := by
  cases handles with
  | clears => exact .inl rfl
  | skips | idles | stores => exact .inr rfl

variable [DecidableEq Delivery]

theorem next_main {outcome : StartOutcome} (taken : s.next dev (.main outcome) = some s') :
    ∃ pc, s.pc.next dev s.acceptingConnections outcome = some pc ∧ s' =
      { s with
        pc := pc
        acceptingConnections := if s.pc = .accepting then true else s.acceptingConnections } := by
  obtain ⟨pc, goes, rfl⟩ := Option.map_eq_some_iff.mp taken
  exact ⟨pc, goes, rfl⟩

theorem next_handler {d : Delivery} (taken : s.next dev (.handler d) = some s') :
    ∃ there flag, Handles s d there flag ∧ s'.pc = s.pc ∧ s'.acceptingConnections = flag ∧
      s'.handlers = Function.update s.handlers d there := by
  change s.handle d = some s' at taken
  unfold handle at taken
  cases here : s.handlers d with
  | pending | returned =>
      rw [here] at taken
      cases taken
  | entered signo =>
      rw [here] at taken
      obtain rfl := Option.some.inj taken
      by_cases stops : Stops signo
      · rw [if_pos stops]
        exact ⟨_, _, .clears here stops, rfl, rfl, rfl⟩
      · rw [if_neg stops]
        exact ⟨_, _, .skips here stops, rfl, rfl, rfl⟩
  | idle signo =>
      rw [here] at taken
      obtain rfl := Option.some.inj taken
      exact ⟨_, _, .idles here, rfl, rfl, rfl⟩
  | last signo =>
      rw [here] at taken
      obtain rfl := Option.some.inj taken
      exact ⟨_, _, .stores here, rfl, rfl, rfl⟩

theorem next_deliver {d : Delivery} {signo : Int} (taken : s.next dev (.deliver d signo) = some s') :
    s.handlers d = .pending ∧
      s' = { s with handlers := Function.update s.handlers d (.entered signo) } := by
  change (if _ then _ else _) = _ at taken
  split at taken
  · rename_i free
    exact ⟨free.1, (Option.some.inj taken).symm⟩
  · cases taken

/-- What a step makes of the handler for a delivery: nothing, or it is entered, or it
    takes a step. -/
theorem handlers_next (d : Delivery) {label : StartLabel Delivery}
    (taken : s.next dev label = some s') :
    s'.handlers d = s.handlers d ∨
      (s.handlers d = .pending ∧ ∃ signo, s'.handlers d = .entered signo) ∨
      Handles s d (s'.handlers d) s'.acceptingConnections := by
  cases label with
  | main outcome =>
      obtain ⟨pc, _, rfl⟩ := next_main taken
      exact .inl rfl
  | deliver d' signo =>
      obtain ⟨free, rfl⟩ := next_deliver taken
      by_cases same : d = d'
      · subst same
        exact .inr (.inl ⟨free, signo, Function.update_self ..⟩)
      · exact .inl (Function.update_of_ne same _ _)
  | handler d' =>
      obtain ⟨there, flag, handles, _, rfl, handlers⟩ := next_handler taken
      rw [handlers]
      by_cases same : d = d'
      · subst same
        rw [Function.update_self]
        exact .inr (.inr handles)
      · exact .inl (Function.update_of_ne same _ _)

theorem flag_next {label : StartLabel Delivery} (taken : s.next dev label = some s') :
    s'.acceptingConnections = false ∨ s'.acceptingConnections = s.acceptingConnections ∨
      ∃ outcome, label = .main outcome ∧ s.pc = .accepting := by
  cases label with
  | main outcome =>
      obtain ⟨pc, _, rfl⟩ := next_main taken
      by_cases here : s.pc = .accepting
      · exact .inr (.inr ⟨outcome, rfl, here⟩)
      · exact .inr (.inl (if_neg here))
  | deliver d signo =>
      obtain ⟨_, rfl⟩ := next_deliver taken
      exact .inr (.inl rfl)
  | handler d =>
      obtain ⟨there, flag, handles, _, rfl, _⟩ := next_handler taken
      rcases handles.flag with off | kept
      · exact .inl off
      · exact .inr (.inl kept)

theorem returned_next {d : Delivery} {signo : Int} (here : s.handlers d = .returned signo)
    {label : StartLabel Delivery} (taken : s.next dev label = some s') :
    s'.handlers d = .returned signo := by
  rcases handlers_next d taken with kept | ⟨free, _⟩ | handles
  · rw [kept, here]
  · rw [here] at free
    cases free
  · exact absurd here (handles.unreturned signo)

theorem cleared_next {d : Delivery} {label : StartLabel Delivery}
    (taken : s.next dev label = some s') (cleared : (s'.handlers d).Cleared) :
    s'.acceptingConnections = false ∨ (s.handlers d).Cleared := by
  rcases handlers_next d taken with kept | ⟨_, signo, entered⟩ | handles
  · rw [kept] at cleared
    exact .inr cleared
  · rw [entered] at cleared
    cases cleared
  · exact handles.cleared cleared

theorem Handled.next (handled : s.Handled) {label : StartLabel Delivery}
    (taken : s.next dev label = some s') : s'.Handled := by
  obtain ⟨d, signo, stops, here⟩ := handled
  exact ⟨d, signo, stops, returned_next here taken⟩

/-- It is enough that the flag is false behind a handler that has cleared it. -/
theorem stopHeard_of_cleared (quiet : (∃ d, (s.handlers d).Cleared) → s.acceptingConnections = false) :
    StopHeard dev s where
  flag handled := quiet handled.cleared
  noIteration := by
    intro handled l outcome s' here taken
    obtain ⟨pc, goes, rfl⟩ := next_main taken
    rw [here, quiet handled.cleared] at goes
    cases outcome with
    | done => exact (Option.some.inj goes).symm
    | _ => cases goes
  stays handled _ _ taken := handled.next taken

theorem quiet_next (quiet : (∃ d, (s.handlers d).Cleared) → s.acceptingConnections = false)
    {label : StartLabel Delivery} (timely : s.inTime label) (taken : s.next dev label = some s') :
    (∃ d, (s'.handlers d).Cleared) → s'.acceptingConnections = false := by
  rintro ⟨d, cleared⟩
  rcases cleared_next taken cleared with off | before
  · exact off
  · rcases flag_next taken with off | kept | ⟨outcome, rfl, here⟩
    · exact off
    · exact kept.trans (quiet ⟨d, before⟩)
    · exact absurd before (timely here d)

theorem next_idle (dev : Bool) {d : Delivery} {signo : Int} (here : s.handlers d = .idle signo) :
    s.next dev (.handler d) = some { s with
      idlingMainThread := false
      handlers := Function.update s.handlers d (.last signo) } := by
  change s.handle d = _
  unfold handle
  rw [here]

theorem next_last (dev : Bool) {d : Delivery} {signo : Int} (here : s.handlers d = .last signo) :
    s.next dev (.handler d) = some { s with
      lastSignalCaught := signo
      handlers := Function.update s.handlers d (.returned signo) } := by
  change s.handle d = _
  unfold handle
  rw [here]

/-- A handler that has cleared a flag that is set again goes on to its end. -/
theorem forgotten {d : Delivery} (cleared : (s.handlers d).Cleared)
    (set : s.acceptingConnections = true) :
    ∃ s', ((starting Delivery dev).startingAt s).Reach Lts.anyStep s' ∧ ¬StopHeard dev s' := by
  have unheard : ∀ (s : Starting Delivery) signo, Stops signo → s.handlers d = .returned signo →
      s.acceptingConnections = true → ¬StopHeard dev s := by
    intro s signo stops here set heard
    rw [heard.flag ⟨d, signo, stops, here⟩] at set
    cases set
  have start : ((starting Delivery dev).startingAt s).Reach Lts.anyStep s := .init rfl
  cases here : s.handlers d with
  | pending | entered =>
      rw [here] at cleared
      cases cleared
  | returned signo =>
      rw [here] at cleared
      exact ⟨s, start, unheard s signo cleared here set⟩
  | last signo =>
      rw [here] at cleared
      have reach := start.step trivial (next_last dev here)
      exact ⟨_, reach, unheard _ signo cleared (Function.update_self ..) set⟩
  | idle signo =>
      rw [here] at cleared
      have between := start.step trivial (next_idle dev here)
      have reach := between.step trivial (next_last dev (Function.update_self ..))
      exact ⟨_, reach, unheard _ signo cleared (Function.update_self ..) set⟩

/-- The flag is false behind every handler that has cleared it, in every state of a
    run that sets it in time. -/
theorem quiet_of_reach (reach : (starting Delivery dev).Reach inTime s) :
    (∃ d, (s.handlers d).Cleared) → s.acceptingConnections = false := by
  refine reach.induct (fun s => (∃ d, (s.handlers d).Cleared) → s.acceptingConnections = false) ?_ ?_
  · rintro s ⟨_, off, _⟩ _
    exact off
  · intro s label s' quiet timely taken
    exact quiet_next quiet timely taken

/-- In every state of a run whose steps set the flag only while no handler has
    cleared it, a signal that has been handled is heard; the first step that sets it
    behind a handler leads to a state in which one is not. -/
theorem stop_heard (reach : (starting Delivery dev).Reach inTime s) :
    StopHeard dev s ∧ ∀ label s', s.next dev label = some s' → ¬s.inTime label →
      ∃ s'', ((starting Delivery dev).startingAt s').Reach Lts.anyStep s'' ∧ ¬StopHeard dev s'' := by
  refine ⟨stopHeard_of_cleared (quiet_of_reach reach), ?_⟩
  intro label s' taken late
  cases label with
  | deliver | handler => exact absurd trivial late
  | main outcome =>
      simp only [inTime, Classical.not_imp, not_forall, not_not] at late
      obtain ⟨here, d, cleared⟩ := late
      obtain ⟨pc, _, rfl⟩ := next_main taken
      exact forgotten cleared (if_pos here)

/-- With the handlers just installed. -/
def installed : Starting Unit := ⟨.descriptors, false, false, 0, fun _ => .pending⟩

theorem installed_init : (starting Unit true).init installed := ⟨rfl, rfl, rfl, fun _ => rfl⟩

/-- `SIGTERM` arrives inside the loop, between `poll` and `accept`, and is handled while
    the connection gets its thread. -/
def loopSignal : List (StartLabel Unit) :=
  [.main .done, .main (.uninitialised 0), .main .done, .main (.poll (some true)), .deliver () SIGTERM,
    .main .done, .handler (), .main (.malloc (some 0)), .main (.create 0), .handler (), .handler ()]

theorem stop_heard_loop : ∃ (s : Starting Unit) (l : Listening), s.pc = .loop l ∧
    l.appendHead = [⟨0, 0⟩] ∧ s.handlers () = .returned SIGTERM ∧ StopHeard true s ∧
      ∀ label s', s.next true label = some s' → ¬s.inTime label →
        ∃ s'', ((starting Unit true).startingAt s').Reach Lts.anyStep s'' ∧ ¬StopHeard true s'' := by
  let l : Listening := ⟨0, true, 1, [⟨0, 0⟩], [.accepted 0, .created ⟨0, 0⟩, .inserted ⟨0, 0⟩]⟩
  obtain ⟨s, run, here, handled⟩ : ∃ s, (starting Unit true).Run inTime loopSignal s ∧
      s.pc = .loop l ∧ s.handlers () = .returned SIGTERM :=
    Lts.exists_run (fun _ _ _ => id) installed_init loopSignal (by decide +kernel)
  exact ⟨s, l, here, rfl, handled, stop_heard ⟨_, run⟩⟩

/-- `SIGTERM` arrives, and is handled, before `listenfunc` is called. -/
def earlySignal : List (StartLabel Unit) :=
  [.deliver () SIGTERM, .handler (), .handler (), .handler (), .main .done,
    .main (.uninitialised 0)]

/-- The server runs on as if the signal had not come. -/
theorem signal_forgotten :
    ¬∀ s : Starting Unit, (starting Unit true).Reach Lts.anyStep s → StopHeard true s := by
  intro claim
  obtain ⟨s, runs⟩ : ∃ s, earlySignal.foldlM (next true) installed = some s := by
    apply Option.isSome_iff_exists.mp
    rfl
  have init : (starting Unit true).Reach Lts.anyStep installed := .init installed_init
  have heard := claim s (init.foldlM (fun _ _ _ taken => ⟨trivial, taken⟩) runs)
  have result : (earlySignal.foldlM (next true) installed).map
      (fun s => (s.handlers (), s.acceptingConnections)) = some (.returned SIGTERM, true) := rfl
  rw [runs] at result
  obtain ⟨here, set⟩ := Prod.mk.inj (Option.some.inj result)
  rw [heard.flag ⟨(), SIGTERM, .inl rfl, here⟩] at set
  cases set

end Starting

/-- Rounds that lead the loop from its start to `l`. -/
def Follows (r : Int) (outcomes : List ListenRound) (l : Listening) : Prop :=
  ∀ later, listenLoop (.start r) (outcomes ++ later) = listenLoop l later

/-- The places in the loop, with the rounds that led there. -/
inductive StartPc.Serving : StartPc → Prop where
  | before {pc} (outside : pc = .descriptors ∨ pc = .openDataFile ∨ pc = .timestampThread ∨
      pc = .accepting) : Serving pc
  | loop {r outcomes l} (follows : Follows r outcomes l) : Serving (.loop l)
  | poll {r outcomes l} (follows : Follows r outcomes l) : Serving (.poll l)
  | accept {r outcomes l revents} (follows : Follows r outcomes l)
      (ready : (l.polled revents).revents = true) : Serving (.accept (l.polled revents))
  | malloc {r outcomes l revents} (follows : Follows r outcomes l)
      (ready : (l.polled revents).revents = true) :
      Serving (.malloc (l.polled revents).acceptOne (l.polled revents).accepted)
  | create {r outcomes l revents} (stale : Nat) (follows : Follows r outcomes l)
      (ready : (l.polled revents).revents = true) :
      Serving (.create (l.polled revents).acceptOne (l.polled revents).accepted stale)
  | closing {r outcomes l rsfd} (ends : listenLoop (.start r) outcomes = (l.close rsfd, true)) :
      Serving (.closing l rsfd)
  | cleanup {r outcomes l failed} (ends : listenLoop (.start r) outcomes = (l, failed)) :
      Serving (.cleanup l failed)
  | returned (r : Int) : Serving (.returned r)

theorem Follows.ends {r : Int} {outcomes : List ListenRound} {l l' : Listening} {failed : Bool}
    (follows : Follows r outcomes l) {o : ListenRound} (last : listenLoop l [o] = (l', failed)) :
    (StartPc.cleanup l' failed).Serving := .cleanup ((follows [o]).trans last)

theorem Follows.goes_on {r : Int} {outcomes : List ListenRound} {l l' : Listening}
    (follows : Follows r outcomes l) {o : ListenRound}
    (next : ∀ later, listenLoop l (o :: later) = listenLoop l' later) : (StartPc.loop l').Serving := by
  have longer : Follows r (outcomes ++ [o]) l' := by
    intro later
    rw [List.append_assoc, follows]
    exact next later
  exact .loop longer

theorem StartPc.Serving.next {pc pc' : StartPc} {dev flag : Bool} {outcome : StartOutcome}
    (serving : pc.Serving) (taken : pc.next dev flag outcome = some pc') : pc'.Serving := by
  cases serving with
  | before outside =>
      rcases outside with rfl | rfl | rfl | rfl <;> cases outcome <;> cases taken
      · cases dev
        · exact .before (.inr (.inl rfl))
        · exact .before (.inr (.inr (.inr rfl)))
      · exact .before (.inr (.inr (.inl rfl)))
      · exact .returned 1
      · split
        · exact .before (.inr (.inr (.inr rfl)))
        · exact .returned (-1)
      · exact @Serving.loop _ [] _ fun _ => rfl
  | @loop r outcomes l follows =>
      cases outcome <;> cases taken
      cases flag with
      | true => exact .poll follows
      | false =>
          have ends := follows []
          rw [List.append_nil] at ends
          exact .cleanup ends
  | @poll r outcomes l follows =>
      cases outcome <;> cases taken
      rename_i revents
      by_cases ready : (l.polled revents).revents = true
      · rw [if_neg (not_not.mpr ready)]
        exact .accept follows ready
      · rw [if_pos ready]
        refine follows.goes_on (o := ⟨revents, true, none, 0⟩) fun later => ?_
        rw [listenLoop, if_pos ready]
  | @accept r outcomes l revents follows ready =>
      cases outcome <;> cases taken
      · exact .malloc follows ready
      · refine follows.ends (o := ⟨revents, false, none, 0⟩) ?_
        rw [listenLoop, if_neg (not_not.mpr ready), if_pos (by simp)]
  | @malloc r outcomes l revents follows ready =>
      cases outcome with
      | malloc stale =>
          cases stale <;> cases taken
          · refine follows.ends (o := ⟨revents, true, none, 0⟩) ?_
            rw [listenLoop, if_neg (not_not.mpr ready), if_neg (by simp)]
          · exact .create _ follows ready
      | _ => cases taken
  | @create r outcomes l revents stale follows ready =>
      cases outcome <;> cases taken
      rename_i status
      by_cases failed : status ≠ 0
      · rw [if_pos failed]
        refine .closing ((follows [⟨revents, true, some stale, status⟩]).trans ?_)
        rw [listenLoop, if_neg (not_not.mpr ready), if_neg (by simp)]
        exact if_pos failed
      · rw [if_neg failed]
        refine follows.goes_on (o := ⟨revents, true, some stale, status⟩) fun later => ?_
        rw [listenLoop, if_neg (not_not.mpr ready), if_neg (by simp)]
        exact if_neg failed
  | closing ends =>
      cases outcome <;> cases taken
      · exact .cleanup ends
      · exact .closing ends
  | cleanup =>
      cases outcome <;> cases taken
      exact .returned _
  | returned r => cases outcome <;> cases taken

/-- What `listenfunc` comes to among signals is what it comes to by itself, for the
    rounds made until the flag was found cleared or a call failed. -/
theorem listenfunc_of_reach {Delivery : Type} [DecidableEq Delivery] {dev : Bool}
    {ok : Starting Delivery → StartLabel Delivery → Prop} {s : Starting Delivery}
    (reach : (starting Delivery dev).Reach ok s) {l : Listening} {failed : Bool}
    (here : s.pc = .cleanup l failed) :
    ∃ r outcomes, listenfunc r outcomes = ⟨l.r, failed, l.events ++ cleanup l.appendHead⟩ := by
  have serving : s.pc.Serving := by
    refine reach.induct (fun s => s.pc.Serving) ?_ ?_
    · rintro s ⟨start, _⟩
      exact .before (.inl start)
    · intro s label s' serving _ taken
      cases label with
      | main outcome =>
          obtain ⟨pc, goes, rfl⟩ := Starting.next_main taken
          exact serving.next goes
      | deliver d signo =>
          obtain ⟨_, rfl⟩ := Starting.next_deliver taken
          exact serving
      | handler d =>
          obtain ⟨_, _, _, same, _⟩ := Starting.next_handler taken
          rwa [same]
  rw [here] at serving
  cases serving with
  | before outside => simp at outside
  | @cleanup r outcomes _ _ ends =>
      refine ⟨r, outcomes, ?_⟩
      unfold listenfunc
      change listenLoop ⟨r, false, 0, [], []⟩ outcomes = (l, failed) at ends
      rw [ends]

end Aesd.Server
