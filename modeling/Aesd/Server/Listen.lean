import Mathlib.Data.List.Basic
import Mathlib.Data.List.Range
import Mathlib.Data.List.Nodup

/-! # The thread that accepts connections

`listenfunc` of `aesdsocket.c` over whatever its system calls return, and the end
of the threads it creates.  The three calls that may fail in a round leave the loop
with more and more of the new connection set up; the cleanup behind the loop joins
and frees every node of the list, and nothing else.
-/

namespace Aesd.Server

/-- What the calls of one round return; the list of them ends where
    `flag_accepting_connections` is found cleared. -/
structure ListenRound where
  /-- `revents & (POLLIN|POLLPRI)`; a `poll` that fails leaves it as it was. -/
  poll : Option Bool
  /-- `accept` does not return -1. -/
  accept : Bool
  /-- What the field `thread` holds in the block that `malloc` returns. -/
  malloc : Option Nat
  /-- `pthread_create`: 0, or an error number with the field left alone. -/
  create : Int
  deriving Repr, DecidableEq

/-- `struct append_t`.  Sockets are numbered as they are accepted, and a thread
    goes by the number of its socket. -/
structure AppendT where
  rsfd : Nat
  thread : Nat
  deriving Repr, DecidableEq

inductive ListenEvent where
  | accepted (rsfd : Nat)
  | created (d : AppendT)
  | inserted (d : AppendT)
  | joined (thread : Nat)
  | freed (d : AppendT)
  | shutdown (rsfd : Nat)
  | closed (rsfd : Nat)
  deriving Repr, DecidableEq

/-- The locals of `listenfunc`, and what has happened. -/
structure Listening where
  r : Int
  revents : Bool
  accepted : Nat
  appendHead : List AppendT
  events : List ListenEvent
  deriving Repr, DecidableEq

namespace Listening

def polled (l : Listening) (poll : Option Bool) : Listening := { l with revents := poll.getD l.revents }

def acceptOne (l : Listening) : Listening :=
  { l with accepted := l.accepted + 1, events := l.events ++ [.accepted l.accepted] }

/-- `pthread_create` and `TAILQ_INSERT_TAIL`, in that order. -/
def createThread (l : Listening) (rsfd stale : Nat) (create : Int) : Listening :=
  let d : AppendT := ⟨rsfd, if create = 0 then rsfd else stale⟩
  { l with
    r := create
    appendHead := l.appendHead ++ [d]
    events := l.events ++ (if create = 0 then [.created d] else []) ++ [.inserted d] }

/-- `robustclose(rsfd)` on the failing path. -/
def close (l : Listening) (rsfd : Nat) : Listening := { l with events := l.events ++ [.closed rsfd] }

end Listening

/-- The loop, and whether it was left by a `goto errorcleanup`. -/
def listenLoop : Listening → List ListenRound → Listening × Bool
  | l, [] => ({ l with r := 0 }, false)
  | l, o :: later =>
    let l := l.polled o.poll
    if ¬l.revents then listenLoop l later
    else if ¬o.accept then (l, true)
    else
      let rsfd := l.accepted
      let l := l.acceptOne
      match o.malloc with
      | none => (l, true)
      | some stale =>
        let l := l.createThread rsfd stale o.create
        if o.create ≠ 0 then (l.close rsfd, true)
        else listenLoop l later

/-- `errorcleanup`: every node is joined, then every node is freed. -/
def cleanup (appendHead : List AppendT) : List ListenEvent :=
  (appendHead.map fun d => .joined d.thread) ++ appendHead.map .freed

structure ListenResult where
  r : Int
  failed : Bool
  events : List ListenEvent
  deriving Repr, DecidableEq

/-- `listenfunc`; `r` starts as it happens to be. -/
def listenfunc (r : Int) (outcomes : List ListenRound) : ListenResult :=
  let (l, failed) := listenLoop ⟨r, false, 0, [], []⟩ outcomes
  ⟨l.r, failed, l.events ++ cleanup l.appendHead⟩

/-- `closesocket`. -/
def closesocket (rsfd : Nat) : List ListenEvent := [.shutdown rsfd, .closed rsfd]

/-- `appenddatathread`, once `appenddata` has returned. -/
def appenddatathread (d : AppendT) : List ListenEvent := closesocket d.rsfd

def acceptedOf (events : List ListenEvent) : List Nat :=
  events.filterMap fun | .accepted rsfd => some rsfd | _ => none

def createdOf (events : List ListenEvent) : List AppendT :=
  events.filterMap fun | .created d => some d | _ => none

def insertedOf (events : List ListenEvent) : List AppendT :=
  events.filterMap fun | .inserted d => some d | _ => none

def joinedOf (events : List ListenEvent) : List Nat :=
  events.filterMap fun | .joined thread => some thread | _ => none

def freedOf (events : List ListenEvent) : List AppendT :=
  events.filterMap fun | .freed d => some d | _ => none

def closedOf (events : List ListenEvent) : List Nat :=
  events.filterMap fun | .closed rsfd => some rsfd | _ => none

/-- What the threads that were created do in the end. -/
def threadEvents (events : List ListenEvent) : List ListenEvent :=
  (createdOf events).flatMap appenddatathread

/-- Threads, nodes and sockets are disposed of exactly once, and a failure is reported. -/
structure CleansUp (result : ListenResult) : Prop where
  distinct : ((createdOf result.events).map AppendT.thread).Nodup ∧ (insertedOf result.events).Nodup ∧
    (acceptedOf result.events).Nodup
  joins : (joinedOf result.events).Perm ((createdOf result.events).map AppendT.thread)
  frees : (freedOf result.events).Perm (insertedOf result.events)
  joinsFirst : ∀ before d after, result.events = before ++ .freed d :: after →
    .joined d.thread ∈ before
  closes : (closedOf (result.events ++ threadEvents result.events)).Perm (acceptedOf result.events)
  reports : result.r ≠ 0 ↔ result.failed

/-- Rounds none of which fails, from one value of `revents` to another, that serve
    a number of connections. -/
inductive Passes : Bool → List ListenRound → Bool → Nat → Prop where
  | nil (revents : Bool) : Passes revents [] revents 0
  | idle {revents o later revents' n} (quiet : o.poll.getD revents = false)
      (rest : Passes false later revents' n) : Passes revents (o :: later) revents' n
  | served {revents o later revents' n stale} (ready : o.poll.getD revents = true)
      (accept : o.accept = true) (malloc : o.malloc = some stale) (create : o.create = 0)
      (rest : Passes true later revents' n) : Passes revents (o :: later) revents' (n + 1)

/-- No call fails before the flag is cleared. -/
def NothingFails (outcomes : List ListenRound) : Prop := ∃ revents n, Passes false outcomes revents n

/-- The very first `accept` fails. -/
def FirstAcceptFails (outcomes : List ListenRound) : Prop :=
  ∃ before o after revents, outcomes = before ++ o :: after ∧ Passes false before revents 0 ∧
    o.poll.getD revents = true ∧ o.accept = false

/-- The node of connection `k`, once its thread is there. -/
def conn (k : Nat) : AppendT := ⟨k, k⟩

/-- What serving connection `k` adds. -/
def setUp (k : Nat) : List ListenEvent := [.accepted k, .created (conn k), .inserted (conn k)]

/-- `n` more connections. -/
def Listening.served (l : Listening) (revents : Bool) (n : Nat) : Listening where
  r := if n = 0 then l.r else 0
  revents := revents
  accepted := l.accepted + n
  appendHead := l.appendHead ++ (List.range' l.accepted n).map conn
  events := l.events ++ (List.range' l.accepted n).flatMap setUp

theorem listenLoop_passes {revents revents' : Bool} {before : List ListenRound} {n : Nat}
    (passes : Passes revents before revents' n) (l : Listening) (here : l.revents = revents)
    (later : List ListenRound) :
    listenLoop l (before ++ later) = listenLoop (l.served revents' n) later := by
  induction passes generalizing l with
  | nil revents =>
      subst here
      simp [Listening.served]
  | @idle revents o before revents' n quiet _ ih =>
      subst here
      have off : (l.polled o.poll).revents = false := quiet
      rw [List.cons_append, listenLoop, if_pos (by simp [off]), ih _ off]
      rfl
  | @served revents o before revents' n stale ready accept malloc create _ ih =>
      subst here
      have on : (l.polled o.poll).revents = true := ready
      rw [List.cons_append, listenLoop, if_neg (by simp [on]), if_neg (by simp [accept])]
      simp only [malloc, create, ne_eq, not_true_eq_false, if_false]
      rw [ih ((l.polled o.poll).acceptOne.createThread (l.polled o.poll).accepted stale 0) on]
      congr 1
      simp only [Listening.served, Listening.createThread, Listening.acceptOne, Listening.polled,
        List.range'_succ, List.map_cons, List.flatMap_cons, setUp, conn, if_true, ite_self,
        List.append_assoc, List.cons_append, List.nil_append, Nat.add_assoc, Nat.add_comm 1,
        Nat.add_one_ne_zero, if_false]

/-- A call that fails, in a round that gets as far. -/
inductive RoundFails (o : ListenRound) : Prop where
  | accept (fails : o.accept = false)
  | malloc (accept : o.accept = true) (fails : o.malloc = none)
  | create {stale : Nat} (accept : o.accept = true) (malloc : o.malloc = some stale) (fails : o.create ≠ 0)

theorem passes_or_fails (revents : Bool) (outcomes : List ListenRound) :
    (∃ revents' n, Passes revents outcomes revents' n) ∨
      ∃ before o after revents' n, outcomes = before ++ o :: after ∧ Passes revents before revents' n ∧
        o.poll.getD revents' = true ∧ RoundFails o := by
  induction outcomes generalizing revents with
  | nil => exact .inl ⟨revents, 0, .nil revents⟩
  | cons o later ih =>
      cases ready : o.poll.getD revents with
      | false =>
          rcases ih false with ⟨revents', n, passes⟩ | ⟨before, o', after, revents', n, rfl, passes, rest⟩
          · exact .inl ⟨revents', n, .idle ready passes⟩
          · exact .inr ⟨o :: before, o', after, revents', n, rfl, .idle ready passes, rest⟩
      | true =>
          have failing : RoundFails o → ∃ before o' after revents' n, o :: later = before ++ o' :: after ∧
              Passes revents before revents' n ∧ o'.poll.getD revents' = true ∧ RoundFails o' :=
            fun fails => ⟨[], o, later, revents, 0, rfl, .nil revents, ready, fails⟩
          cases accept : o.accept with
          | false => exact .inr (failing (.accept accept))
          | true =>
              cases malloc : o.malloc with
              | none => exact .inr (failing (.malloc accept malloc))
              | some stale =>
                  by_cases create : o.create = 0
                  · rcases ih true with
                      ⟨revents', n, passes⟩ | ⟨before, o', after, revents', n, rfl, passes, rest⟩
                    · exact .inl ⟨revents', n + 1, .served ready accept malloc create passes⟩
                    · exact .inr ⟨o :: before, o', after, revents', n + 1, rfl,
                        .served ready accept malloc create passes, rest⟩
                  · exact .inr (failing (.create accept malloc create))

/-- The nodes of `n` connections, and what serving them has added. -/
def conns (n : Nat) : List AppendT := (List.range' 0 n).map conn

def setUps (n : Nat) : List ListenEvent := (List.range' 0 n).flatMap setUp

section

variable {outcomes before after : List ListenRound} {o : ListenRound} {revents : Bool} {n : Nat}

theorem listenfunc_passes (r : Int) (passes : Passes false outcomes revents n) :
    listenfunc r outcomes = ⟨0, false, setUps n ++ cleanup (conns n)⟩ := by
  have loop := listenLoop_passes passes ⟨r, false, 0, [], []⟩ rfl []
  rw [List.append_nil] at loop
  unfold listenfunc
  rw [loop]
  rfl

/-- The state in front of the first round that fails. -/
def reached (r : Int) (revents : Bool) (n : Nat) : Listening :=
  ⟨if n = 0 then r else 0, revents, n, conns n, setUps n⟩

theorem listenLoop_reaches (r : Int) (passes : Passes false before revents n) :
    listenLoop ⟨r, false, 0, [], []⟩ (before ++ o :: after) =
      listenLoop (reached r revents n) (o :: after) := by
  rw [listenLoop_passes passes ⟨r, false, 0, [], []⟩ rfl]
  simp [Listening.served, reached, conns, setUps]

theorem listenfunc_acceptFails (r : Int) (passes : Passes false before revents n)
    (ready : o.poll.getD revents = true) (fails : o.accept = false) :
    listenfunc r (before ++ o :: after) =
      ⟨if n = 0 then r else 0, true, setUps n ++ cleanup (conns n)⟩ := by
  have on : ((reached r revents n).polled o.poll).revents = true := ready
  unfold listenfunc
  rw [listenLoop_reaches r passes, listenLoop, if_neg (by simp [on]), if_pos (by simp [fails])]
  rfl

theorem listenfunc_mallocFails (r : Int) (passes : Passes false before revents n)
    (ready : o.poll.getD revents = true) (accept : o.accept = true) (fails : o.malloc = none) :
    (listenfunc r (before ++ o :: after)).events = setUps n ++ [.accepted n] ++ cleanup (conns n) := by
  have on : ((reached r revents n).polled o.poll).revents = true := ready
  unfold listenfunc
  rw [listenLoop_reaches r passes, listenLoop, if_neg (by simp [on]), if_neg (by simp [accept])]
  simp only [fails]
  rfl

theorem listenfunc_createFails (r : Int) (passes : Passes false before revents n)
    (ready : o.poll.getD revents = true) (accept : o.accept = true) {stale : Nat}
    (malloc : o.malloc = some stale) (fails : o.create ≠ 0) :
    (listenfunc r (before ++ o :: after)).events =
      setUps n ++ [.accepted n, .inserted ⟨n, stale⟩, .closed n] ++
        cleanup (conns n ++ [⟨n, stale⟩]) := by
  have on : ((reached r revents n).polled o.poll).revents = true := ready
  unfold listenfunc
  rw [listenLoop_reaches r passes, listenLoop, if_neg (by simp [on]), if_neg (by simp [accept])]
  simp [malloc, fails, reached, Listening.polled, Listening.createThread, Listening.acceptOne,
    Listening.close]

end

/-- Serving connections opens and creates, and disposes of nothing. -/
theorem setUps_counts (n : Nat) :
    acceptedOf (setUps n) = List.range' 0 n ∧ createdOf (setUps n) = conns n ∧
      insertedOf (setUps n) = conns n ∧ joinedOf (setUps n) = [] ∧ freedOf (setUps n) = [] ∧
        closedOf (setUps n) = [] := by
  unfold setUps conns
  induction List.range' 0 n with
  | nil => exact ⟨rfl, rfl, rfl, rfl, rfl, rfl⟩
  | cons k ks ih =>
      obtain ⟨accepted, created, inserted, joined, freed, closed⟩ := ih
      exact ⟨congrArg (k :: ·) accepted, congrArg (conn k :: ·) created,
        congrArg (conn k :: ·) inserted, joined, freed, closed⟩

theorem cleanup_counts (appendHead : List AppendT) :
    acceptedOf (cleanup appendHead) = [] ∧ createdOf (cleanup appendHead) = [] ∧
      insertedOf (cleanup appendHead) = [] ∧
        joinedOf (cleanup appendHead) = appendHead.map AppendT.thread ∧
          freedOf (cleanup appendHead) = appendHead ∧ closedOf (cleanup appendHead) = [] := by
  simp [acceptedOf, createdOf, insertedOf, joinedOf, freedOf, closedOf, cleanup, List.filterMap_map]

theorem counts_append (a b : List ListenEvent) :
    acceptedOf (a ++ b) = acceptedOf a ++ acceptedOf b ∧ createdOf (a ++ b) = createdOf a ++ createdOf b ∧
      insertedOf (a ++ b) = insertedOf a ++ insertedOf b ∧ joinedOf (a ++ b) = joinedOf a ++ joinedOf b ∧
        freedOf (a ++ b) = freedOf a ++ freedOf b ∧ closedOf (a ++ b) = closedOf a ++ closedOf b := by
  simp [acceptedOf, createdOf, insertedOf, joinedOf, freedOf, closedOf]

theorem closedOf_threads (ds : List AppendT) :
    closedOf (ds.flatMap appenddatathread) = ds.map AppendT.rsfd := by
  induction ds with
  | nil => rfl
  | cons d ds ih => exact congrArg (d.rsfd :: ·) ih

theorem map_thread_conns (n : Nat) : (conns n).map AppendT.thread = List.range' 0 n := by
  simp [conns, Function.comp_def, conn]

theorem map_rsfd_conns (n : Nat) : (conns n).map AppendT.rsfd = List.range' 0 n := by
  simp [conns, Function.comp_def, conn]

theorem mem_front_of_append {α : Type*} {a b before after : List α} {x y : α}
    (split : a ++ b = before ++ x :: after) (later : x ∉ a) (early : y ∈ a) : y ∈ before := by
  rcases List.append_eq_append_iff.mp split with ⟨c, rfl, _⟩ | ⟨c, rfl, rest⟩
  · exact List.mem_append_left c early
  · cases c with
    | nil => simpa using early
    | cons z c =>
        obtain rfl : x = z := (List.cons.inj rest).1
        simp at later

theorem joined_before_freed {events before after : List ListenEvent} {appendHead : List AppendT}
    {d : AppendT} (clean : freedOf events = [])
    (split : events ++ cleanup appendHead = before ++ .freed d :: after) : .joined d.thread ∈ before := by
  unfold cleanup at split
  rw [← List.append_assoc] at split
  have notYet : ListenEvent.freed d ∉ events ++ appendHead.map fun d => .joined d.thread := by
    simp only [List.mem_append, List.mem_map, reduceCtorEq, and_false, exists_false, or_false]
    intro member
    have freed : d ∈ freedOf events := List.mem_filterMap.mpr ⟨_, member, rfl⟩
    rw [clean] at freed
    cases freed
  have node : d ∈ appendHead := by
    have member : ListenEvent.freed d ∈
        (events ++ appendHead.map fun d => .joined d.thread) ++ appendHead.map .freed := by
      rw [split]
      simp
    rcases List.mem_append.mp member with early | late
    · exact absurd early notYet
    · obtain ⟨_, inside, same⟩ := List.mem_map.mp late
      cases same
      exact inside
  apply mem_front_of_append split notYet
  exact List.mem_append_right _ (List.mem_map.mpr ⟨d, node, rfl⟩)

theorem cleansUp_served (n : Nat) {r : Int} {failed : Bool} (reports : r ≠ 0 ↔ failed) :
    CleansUp ⟨r, failed, setUps n ++ cleanup (conns n)⟩ := by
  have distinct : (List.range' 0 n).Nodup := List.nodup_range'
  have nodes : (conns n).Nodup := by
    apply List.Nodup.of_map AppendT.thread
    rwa [map_thread_conns]
  constructor
  · simpa [counts_append, setUps_counts, cleanup_counts, map_thread_conns] using ⟨distinct, nodes, distinct⟩
  · simp [counts_append, setUps_counts, cleanup_counts]
  · simp [counts_append, setUps_counts, cleanup_counts]
  · intro before d after split
    exact joined_before_freed (setUps_counts n).2.2.2.2.1 split
  · simp [counts_append, setUps_counts, cleanup_counts, threadEvents, closedOf_threads, map_rsfd_conns]
  · exact reports

theorem not_cleansUp_malloc {result : ListenResult} {n : Nat}
    (events : result.events = setUps n ++ [.accepted n] ++ cleanup (conns n)) : ¬CleansUp result := by
  intro clean
  have accepted : acceptedOf result.events = List.range' 0 n ++ [n] := by
    simp only [events, counts_append, setUps_counts, cleanup_counts, List.append_nil]
    rfl
  have created : createdOf result.events = conns n := by
    simp only [events, counts_append, setUps_counts, cleanup_counts, List.append_nil]
    exact List.append_nil _
  have byTheLoop : closedOf result.events = [] := by
    simp only [events, counts_append, setUps_counts, cleanup_counts, List.append_nil]
    rfl
  have closes := clean.closes
  rw [threadEvents, (counts_append _ _).2.2.2.2.2, byTheLoop, created, closedOf_threads,
    map_rsfd_conns, accepted] at closes
  have lengths := closes.length_eq
  simp at lengths

theorem not_cleansUp_create {result : ListenResult} {n stale : Nat}
    (events : result.events = setUps n ++ [.accepted n, .inserted ⟨n, stale⟩, .closed n] ++
      cleanup (conns n ++ [⟨n, stale⟩])) : ¬CleansUp result := by
  intro clean
  have created : createdOf result.events = conns n := by
    simp only [events, counts_append, setUps_counts, cleanup_counts, List.append_nil]
    exact List.append_nil _
  have joined : joinedOf result.events = List.range' 0 n ++ [stale] := by
    simp only [events, counts_append, setUps_counts, cleanup_counts, List.nil_append, List.map_append,
      map_thread_conns]
    rfl
  have joins := clean.joins
  rw [joined, created, map_thread_conns] at joins
  have lengths := joins.length_eq
  simp at lengths

/-- Everything is disposed of exactly once and the result tells whether the loop
    was left by a failure exactly when no call fails, or the first connection is not
    even accepted and `r` happens not to start as 0. -/
theorem cleansUp_iff (r : Int) (outcomes : List ListenRound) :
    CleansUp (listenfunc r outcomes) ↔
      NothingFails outcomes ∨ (FirstAcceptFails outcomes ∧ r ≠ 0) := by
  constructor
  · intro clean
    rcases passes_or_fails false outcomes with
      passes | ⟨before, o, after, revents, n, rfl, passes, ready, fails⟩
    · exact .inl passes
    · cases fails with
      | accept fails =>
          have result : listenfunc r (before ++ o :: after) = _ :=
            listenfunc_acceptFails r passes ready fails
          have reports := clean.reports
          rw [result] at reports
          by_cases first : n = 0
          · subst first
            exact .inr ⟨⟨before, o, after, revents, rfl, passes, ready, fails⟩, reports.mpr rfl⟩
          · rw [if_neg first] at reports
            exact absurd rfl (reports.mpr rfl)
      | malloc accept fails =>
          exact absurd clean (not_cleansUp_malloc (listenfunc_mallocFails r passes ready accept fails))
      | create accept malloc fails =>
          exact absurd clean
            (not_cleansUp_create (listenfunc_createFails r passes ready accept malloc fails))
  · intro condition
    rcases condition with ⟨revents, n, passes⟩ | ⟨⟨before, o, after, revents, rfl, passes, ready, fails⟩, start⟩
    · rw [listenfunc_passes r passes]
      exact cleansUp_served n (by simp)
    · rw [listenfunc_acceptFails r passes ready fails]
      exact cleansUp_served 0 (by simp [start])

/-- The block for the first connection cannot be allocated: its socket stays open. -/
theorem socket_left_open : ¬∀ (r : Int) (outcomes : List ListenRound), CleansUp (listenfunc r outcomes) := by
  intro claim
  have clean := claim 1 [⟨some true, true, none, 0⟩]
  have result : (listenfunc 1 ([] ++ ⟨some true, true, none, 0⟩ :: [])).events = _ :=
    listenfunc_mallocFails 1 (.nil false) rfl rfl rfl
  exact not_cleansUp_malloc result clean

end Aesd.Server
