import Aesd.Server.AppendData

/-! # The threads of the server and the data source they share

Connections and the timestamp thread, in any number and in any order, over one
data source and the mutex that guards its writes.  The plain data file is
truncated by every `opendatafile`; the character device is not, and here it is
the bytes that its `write` has accepted.
-/

namespace Aesd.Server

open Aesd.Lib Function

/-- `TIMESTAMP_MAX_SIZE`. -/
def timestampMaxSize : Nat := 100

/-- `TIMESTAMP_FMT`, with the date and time in the middle as `strftime` fills them in. -/
def timestampText (date : List UInt8) : List UInt8 :=
  [116, 105, 109, 101, 115, 116, 97, 109, 112, 58] ++ date ++ [newline]

/-- Where the timestamp thread is. -/
inductive TimestampPc where
  | sleep
  | lock
  | format
  | write (tstr : List UInt8)
  | unlock (r : Int)
  | returned (ret : Int)
  deriving Repr, DecidableEq

namespace TimestampPc

def request : TimestampPc → Option Request
  | .sleep => some .sleep
  | .lock => some .lock
  | .format => some .strftime
  | .write tstr => some (.writeData tstr)
  | .unlock _ => some .unlock
  | .returned _ => none

/-- `writecount < tstr_size` compares as `size_t`, where -1 is not less than anything. -/
def resume : TimestampPc → Answer → Option TimestampPc
  | .sleep, .done => some .lock
  | .sleep, .stopped => some (.returned 0)
  | .sleep, .count errno => if errno ≠ 0 then some (.returned errno) else none
  | .lock, .done => some .format
  | .format, .failed => some (.unlock (-1))
  | .format, .bytes date =>
    if (timestampText date).length < timestampMaxSize then some (.write (timestampText date)) else none
  | .write tstr, .count writecount =>
    if writecount ≤ tstr.length then
      some (.unlock (if writecount < tstr.length then -1 else 0))
    else none
  | .write _, .failed => some (.unlock 0)
  | .unlock _, .done => some .sleep
  | _, _ => none

end TimestampPc

/-- The steps of the timestamp thread. -/
inductive TimestampStep : TimestampPc → Request → Answer → TimestampPc → Prop where
  | awake : TimestampStep .sleep .sleep .done .lock
  | stopped : TimestampStep .sleep .sleep .stopped (.returned 0)
  | sleepFailed {errno : Nat} (nonzero : errno ≠ 0) :
      TimestampStep .sleep .sleep (.count errno) (.returned errno)
  | locked : TimestampStep .lock .lock .done .format
  | formatFailed : TimestampStep .format .strftime .failed (.unlock (-1))
  | formatted {date : List UInt8} (fits : (timestampText date).length < timestampMaxSize) :
      TimestampStep .format .strftime (.bytes date) (.write (timestampText date))
  | wrote {tstr : List UInt8} {n : Nat} (within : n ≤ tstr.length) :
      TimestampStep (.write tstr) (.writeData tstr) (.count n)
        (.unlock (if n < tstr.length then -1 else 0))
  | writeFailed (tstr : List UInt8) :
      TimestampStep (.write tstr) (.writeData tstr) .failed (.unlock 0)
  | unlocked (r : Int) : TimestampStep (.unlock r) .unlock .done .sleep

theorem timestampStep_of {pc pc' : TimestampPc} {r : Request} {a : Answer}
    (asks : pc.request = some r) (resumes : pc.resume a = some pc') : TimestampStep pc r a pc' := by
  cases pc with
  | returned => cases asks
  | sleep =>
      cases asks
      cases a with
      | failed | bytes | parsed => cases resumes
      | done => cases resumes; exact .awake
      | stopped => cases resumes; exact .stopped
      | count errno =>
          rw [TimestampPc.resume] at resumes
          split at resumes <;> cases resumes
          exact .sleepFailed (by assumption)
  | lock =>
      cases asks
      cases a <;> cases resumes
      exact .locked
  | format =>
      cases asks
      cases a with
      | done | stopped | count | parsed => cases resumes
      | failed => cases resumes; exact .formatFailed
      | bytes date =>
          rw [TimestampPc.resume] at resumes
          split at resumes <;> cases resumes
          exact .formatted (by assumption)
  | write tstr =>
      cases asks
      cases a with
      | done | stopped | bytes | parsed => cases resumes
      | failed => cases resumes; exact .writeFailed tstr
      | count n =>
          rw [TimestampPc.resume] at resumes
          split at resumes <;> cases resumes
          exact .wrote (by assumption)
  | unlock r =>
      cases asks
      cases a <;> cases resumes
      exact .unlocked r

/-- A thread of the server. -/
inductive ThreadPc where
  | append (pc : AppendPc)
  | timestamp (pc : TimestampPc)
  deriving Repr, DecidableEq

def server : Machine ThreadPc Request Answer where
  request
    | .append pc => pc.request
    | .timestamp pc => pc.request
  resume
    | .append pc, a => (pc.resume a).map .append
    | .timestamp pc, a => (pc.resume a).map .timestamp

namespace ThreadPc

/-- A thread that has just been created. -/
def entered : ThreadPc → Prop
  | .append pc => pc.entered
  | .timestamp pc => pc = .sleep

/-- Between lock and unlock. -/
def holding : ThreadPc → Bool
  | .append (.write _ _) | .append (.unlock _ _ _) => true
  | .timestamp .format | .timestamp (.write _) | .timestamp (.unlock _) => true
  | _ => false

end ThreadPc

/-- The bytes in the data source, and who has locked the mutex. -/
structure Source (Pid : Type) where
  owner : Option Pid
  content : List UInt8
  deriving Repr, DecidableEq

variable {Pid : Type}

/-- What a call does to the data source; a locked mutex lets nobody in.  What a
    `pread` of the character device delivers is left to the driver. -/
def dataSource (Pid : Type) (useAesdCharDevice : Bool) : Object Pid (Source Pid) Request Answer where
  act s p
    | .openDataFile, .done => some (if useAesdCharDevice then s else { s with content := [] })
    | .lock, .done => if s.owner.isNone then some { s with owner := some p } else none
    | .unlock, .done => some { s with owner := none }
    | .writeData bytes, .count n =>
      if n ≤ bytes.length then some { s with content := s.content ++ bytes.take n } else none
    | .pread pos, .bytes data =>
      if useAesdCharDevice ∨ data = (s.content.drop pos).take bufLen then some s else none
    | _, _ => some s

/-- The server once `startserver` has set it up: the data source is empty and free. -/
def threads (Pid : Type) [DecidableEq Pid] (useAesdCharDevice : Bool) :
    Lts (World Pid ThreadPc (Source Pid)) (Pid × Request × Answer) :=
  server.threads (dataSource Pid useAesdCharDevice) (fun s => s.owner = none ∧ s.content = [])
    ThreadPc.entered

theorem connection_of_server {ok : Request → Answer → Prop} {pc : ThreadPc}
    {labels : List (Request × Answer)}
    (run : (server.alone ThreadPc.entered).Run (fun _ label => ok label.1 label.2) labels pc) :
    (∃ timestampPc, pc = .timestamp timestampPc) ∨ ∃ appendPc, pc = .append appendPc ∧
      connection.Run (fun _ label => ok label.1 label.2) labels appendPc := by
  refine run.induct (fun labels pc => (∃ timestampPc, pc = .timestamp timestampPc) ∨
    ∃ appendPc, pc = .append appendPc ∧
      connection.Run (fun _ label => ok label.1 label.2) labels appendPc) ?_ ?_
  · rintro (pc | pc) enters
    · exact .inr ⟨pc, rfl, .nil enters⟩
    · exact .inl ⟨pc, rfl⟩
  · rintro labels pc ⟨r, a⟩ pc' (⟨before, rfl⟩ | ⟨before, rfl, run⟩) allowed ⟨asks, resumes⟩
    · obtain ⟨after, _, rfl⟩ := Option.map_eq_some_iff.mp resumes
      exact .inl ⟨after, rfl⟩
    · obtain ⟨after, goes, rfl⟩ := Option.map_eq_some_iff.mp resumes
      exact .inr ⟨after, rfl, .snoc run allowed ⟨asks, goes⟩⟩

/-- The calls that a connection makes among other threads are those of a
    connection by itself. -/
theorem connection_of_threads [DecidableEq Pid] {dev : Bool} {ok : Pid → Request → Answer → Prop}
    {labels : List (Pid × Request × Answer)} {w : World Pid ThreadPc (Source Pid)}
    (run : (threads Pid dev).Run (fun _ label => ok label.1 label.2.1 label.2.2) labels w) {p : Pid}
    {pc : AppendPc} (here : w.pc p = .append pc) :
    connection.Run (fun _ label => ok p label.1 label.2) (Machine.share p labels) pc := by
  rcases connection_of_server (Machine.alone_of_run run p) with ⟨_, there⟩ | ⟨_, there, run⟩
  · rw [here] at there
    cases there
  · rw [here] at there
    cases there
    exact run

section

variable {dev : Bool} {s s' : Source Pid} {p : Pid} {r : Request} {a : Answer}

theorem act_lock (acts : (dataSource Pid dev).act s p .lock .done = some s') :
    s.owner = none ∧ s'.owner = some p := by
  simp only [dataSource] at acts
  split at acts <;> cases acts
  rename_i free
  exact ⟨Option.isNone_iff_eq_none.mp free, rfl⟩

theorem act_owner (acts : (dataSource Pid dev).act s p r a = some s')
    (notLock : ¬(r = .lock ∧ a = .done)) (notUnlock : r ≠ .unlock) : s'.owner = s.owner := by
  unfold dataSource at acts
  dsimp only at acts
  split at acts
  · split at acts <;> cases acts <;> rfl
  · exact absurd ⟨rfl, rfl⟩ notLock
  · exact absurd rfl notUnlock
  · split at acts <;> cases acts
    rfl
  · split at acts <;> cases acts
    rfl
  · cases acts
    rfl

end

@[simp] theorem holding_replyOrNext (buf : Buf) (readcount : Nat) :
    (ThreadPc.append (.replyOrNext buf readcount)).holding = false := by
  rw [AppendPc.replyOrNext]
  split <;> rfl

@[simp] theorem holding_advance (buf : Buf) (pos rc : Nat) :
    (ThreadPc.append (.advance buf pos rc)).holding = false := by
  rw [AppendPc.advance]
  split <;> rfl

theorem append_holding {pc pc' : AppendPc} {r : Request} {a : Answer} (step : AppendStep pc r a pc')
    (inside : (ThreadPc.append pc').holding) :
    (r = .lock ∧ a = .done) ∨ ((ThreadPc.append pc).holding ∧ r ≠ .unlock) := by
  cases step with
  | locked => exact .inl ⟨rfl, rfl⟩
  | wrote | writeFailed => exact .inr ⟨rfl, Request.noConfusion⟩
  | ioctl | unlocked | sent => simp at inside
  | _ => cases inside

theorem timestamp_holding {pc pc' : TimestampPc} {r : Request} {a : Answer}
    (step : TimestampStep pc r a pc') (inside : (ThreadPc.timestamp pc').holding) :
    (r = .lock ∧ a = .done) ∨ ((ThreadPc.timestamp pc).holding ∧ r ≠ .unlock) := by
  cases step with
  | locked => exact .inl ⟨rfl, rfl⟩
  | formatFailed | formatted | wrote | writeFailed => exact .inr ⟨rfl, Request.noConfusion⟩
  | _ => cases inside

theorem holding_step {pc pc' : ThreadPc} {r : Request} {a : Answer}
    (asks : server.request pc = some r) (resumes : server.resume pc a = some pc')
    (inside : pc'.holding) : (r = .lock ∧ a = .done) ∨ (pc.holding ∧ r ≠ .unlock) := by
  cases pc with
  | append pc =>
      obtain ⟨_, goes, rfl⟩ := Option.map_eq_some_iff.mp resumes
      exact append_holding (appendStep_of asks goes) inside
  | timestamp pc =>
      obtain ⟨_, goes, rfl⟩ := Option.map_eq_some_iff.mp resumes
      exact timestamp_holding (timestampStep_of asks goes) inside

theorem holding_of_unlock {pc : ThreadPc} (asks : server.request pc = some .unlock) : pc.holding := by
  rcases pc with pc | pc <;> cases pc <;> first | rfl | cases asks

/-- A thread between lock and unlock owns the mutex. -/
def Protected (w : World Pid ThreadPc (Source Pid)) : Prop :=
  ∀ p, (w.pc p).holding → w.shared.owner = some p

section

variable [DecidableEq Pid] {dev : Bool} {w w' : World Pid ThreadPc (Source Pid)}

theorem Protected.step {label : Pid × Request × Answer} (kept : Protected w)
    (taken : (threads Pid dev).step w label w') : Protected w' := by
  obtain ⟨p, r, a⟩ := label
  obtain ⟨shared, pc, asks, acts, resumes, rfl⟩ := Machine.next_cases taken
  intro q inside
  dsimp only at asks acts resumes inside ⊢
  by_cases same : q = p
  · subst same
    rw [update_self] at inside
    by_cases locks : r = .lock ∧ a = .done
    · obtain ⟨rfl, rfl⟩ := locks
      exact (act_lock acts).2
    · obtain ⟨before, stays⟩ := (holding_step asks resumes inside).resolve_left locks
      rw [act_owner acts locks stays, kept q before]
  · rw [update_of_ne same] at inside
    have owner := kept q inside
    by_cases locks : r = .lock ∧ a = .done
    · obtain ⟨rfl, rfl⟩ := locks
      rw [(act_lock acts).1] at owner
      cases owner
    · by_cases unlocks : r = .unlock
      · subst unlocks
        rw [kept p (holding_of_unlock asks)] at owner
        exact absurd (Option.some.inj owner).symm same
      · rw [act_owner acts locks unlocks, owner]

theorem protected_of_reach {ok : World Pid ThreadPc (Source Pid) → Pid × Request × Answer → Prop}
    (reach : (threads Pid dev).Reach ok w) : Protected w := by
  refine reach.induct Protected ?_ fun _ _ _ kept _ taken => kept.step taken
  rintro w ⟨_, enters⟩ p inside
  have entered := enters p
  revert inside entered
  rcases w.pc p with pc | pc
  · rintro inside ⟨buf, rfl⟩
    cases inside
  · rintro inside rfl
    cases inside

end

end Aesd.Server
