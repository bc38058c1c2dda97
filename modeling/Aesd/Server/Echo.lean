import Aesd.Driver.Readers
import Aesd.Server.AppendData

/-! # One echo among the other users of the device

The echo loop of `appenddata` on the character device: successive `pread`s at
growing positions, each of them a call of `aesd_read`, while any other processes
run any driver calls of theirs, step by step.  No lock is held from one `pread`
to the next, so what is sent need not be what the device held at any moment.
-/

namespace Aesd.Server

open Aesd.Lib Aesd.Lib.Mutex Aesd.Driver

/-- What the present `pread` has come to. -/
inductive Fetch where
  | idle
  | called
  /-- `aesd_read` has put these bytes into `buf`. -/
  | copied (bytes : List UInt8)
  deriving Repr, DecidableEq

def Fetch.bytes : Fetch → List UInt8
  | .copied bytes => bytes
  | _ => []

/-- The driver, the thread that echoes, what it has sent, and the devices it went
    through from its first `aesd_read` to its last, the latest first. -/
structure Echo (Pid : Type) where
  sys : DriverSystem Pid
  pc : AppendPc
  fetch : Fetch
  sent : List UInt8
  moments : List Dev

/-- A step of the other processes, or of the thread: into `pread`, inside it,
    into it once more after a signal, back from it, and through `write`. -/
inductive EchoEvent (Pid : Type) where
  | other (q : Pid) (op : Option Op)
  | call (c : ReadCall)
  | inside
  | restart
  | back
  | send (a : Answer)

def AppendPc.echoing : AppendPc → Bool
  | .echo _ _ | .send _ _ _ => true
  | _ => false

/-- What the next step of a process puts into the reader's buffer. -/
def copiedOut : Pc → Dev → Option (List UInt8)
  | .readBody pos c, d => (aesdRead d pos { c with lock := .granted }).map ReadResult.bytes
  | _, _ => none

namespace Echo

variable {Pid : Type}

/-- Between the first `aesd_read` and the one that finds nothing more. -/
def watching (w : Echo Pid) : Bool :=
  w.pc.echoing && !w.moments.isEmpty && w.fetch != .copied []

/-- The driver has taken a step. -/
def record (w : Echo Pid) (sys : DriverSystem Pid) : Echo Pid :=
  { w with sys, moments := if w.watching then sys.data :: w.moments else w.moments }

def next [DecidableEq Pid] (f : FixedSizeLlseek) (me : Pid) (w : Echo Pid) :
    EchoEvent Pid → Option (Echo Pid)
  | .other q op => if q = me then none else (exec (driverCode f) w.sys (q, op)).map w.record
  | .call c =>
    match w.pc, w.fetch with
    | .echo _ pos, .idle =>
      if c.count = BitVec.ofNat 64 bufLen then
        (exec (driverCode f) w.sys (me, some (.read (BitVec.ofNat 64 pos) c))).map fun sys =>
          { w.record sys with fetch := .called }
      else none
    | _, _ => none
  | .inside =>
    (exec (driverCode f) w.sys (me, none)).map fun sys =>
      match copiedOut (w.sys.pc me) w.sys.data with
      | none => w.record sys
      | some bytes => { w with sys, fetch := .copied bytes, moments := w.sys.data :: w.moments }
  | .restart =>
    match w.fetch, w.sys.pc me with
    | .called, .user (some retval) =>
      if retval = -ERESTARTSYS then some { w with fetch := .idle } else none
    | _, _ => none
  | .back =>
    match w.fetch, w.sys.pc me with
    | .idle, _ => none
    | fetch, .user (some retval) =>
      (w.pc.resume (if retval < 0 then .failed else .bytes fetch.bytes)).map fun pc =>
        { w with pc, fetch := .idle }
    | _, _ => none
  | .send a =>
    match w.pc with
    | .send buf _ rc =>
      (w.pc.resume a).map fun pc =>
        { w with pc, sent := w.sent ++ match a with
          | .count n => (buf.bytes.take rc).take n
          | _ => [] }
    | _ => none

/-- The thread stands before its first `pread`, and the driver in any state that
    its users can bring about. -/
def Start [DecidableEq Pid] (f : FixedSizeLlseek) (K : Kernel) (me : Pid) (w : Echo Pid) : Prop :=
  (users Pid f K).Reach Lts.anyStep w.sys ∧ (w.sys.pc me).outside ∧
    (∃ buf, w.pc = .echo buf 0) ∧ w.fetch = .idle ∧ w.sent = [] ∧ w.moments = []

end Echo

def echo (Pid : Type) [DecidableEq Pid] (f : FixedSizeLlseek) (K : Kernel) (me : Pid) :
    Lts (Echo Pid) (EchoEvent Pid) where
  init := Echo.Start f K me
  step w e w' := w.next f me e = some w'

/-- No seek acts while the echo is under way. -/
def noSeek {Pid : Type} (w : Echo Pid) : EchoEvent Pid → Bool
  | .other q none => !(w.watching && (w.sys.pc q).seeks)
  | _ => true

/-- No entry is pushed out while the echo is under way. -/
def noEviction {Pid : Type} (w : Echo Pid) : EchoEvent Pid → Bool
  | .other q none => !(w.watching && (w.sys.pc q).evicts w.sys.data)
  | _ => true

namespace Echo

section

variable {Pid : Type} {w : Echo Pid} {bytes : List UInt8}

/-- The bytes are the first of those that can be read now. -/
structure Covers (w : Echo Pid) (bytes : List UInt8) : Prop where
  first : bytes <+: w.sys.data.fromOffset
  fresh : w.moments = [] → bytes = []

/-- What has been sent is all that could be read at the last `aesd_read`. -/
def Agrees (w : Echo Pid) : Prop := ∃ d, w.moments.head? = some d ∧ w.sent = d.fromOffset

/-- What a `pread` that has been through `aesd_read` will return. -/
inductive Fetched (w : Echo Pid) : Int → List UInt8 → Prop where
  | failed {retval : Int} (negative : retval < 0) : Fetched w retval []
  | ended (agrees : w.Agrees) : Fetched w 0 []
  | block {bytes : List UInt8} (nonempty : bytes ≠ []) (short : bytes.length ≤ bufLen)
      (covers : w.Covers (w.sent ++ bytes)) : Fetched w bytes.length bytes

/-- On the way to `aesd_read`, or back from an interrupted lock. -/
inductive Asks (pos : Nat) : Pc → Prop where
  | entered {c : ReadCall} (count : c.count = BitVec.ofNat 64 bufLen) :
      Asks pos (.read (BitVec.ofNat 64 pos) c)
  | locked {c : ReadCall} (count : c.count = BitVec.ofNat 64 bufLen) :
      Asks pos (.readBody (BitVec.ofNat 64 pos) c)
  | interrupted : Asks pos (.user (some (-ERESTARTSYS)))

/-- On the way back with a return value. -/
inductive Leaves (retval : Int) : Pc → Prop where
  | unlocking : Leaves retval (.readOut retval)
  | returned : Leaves retval (.user (some retval))

/-- The thread, its `pread` and its place in the driver, with what holds there. -/
inductive Progress (w : Echo Pid) : AppendPc → Fetch → Pc → Prop where
  | before (buf : Buf) {returned : Option Int} (small : w.sent.length < 2 ^ 31)
      (covers : w.Covers w.sent) :
      Progress w (.echo buf w.sent.length) .idle (.user returned)
  | asking (buf : Buf) {pc : Pc} (small : w.sent.length < 2 ^ 31) (asks : Asks w.sent.length pc)
      (covers : w.Covers w.sent) : Progress w (.echo buf w.sent.length) .called pc
  | copied (buf : Buf) {bytes : List UInt8} {retval : Int} {pc : Pc} (small : w.sent.length < 2 ^ 31)
      (leaves : Leaves retval pc) (fetched : w.Fetched retval bytes) :
      Progress w (.echo buf w.sent.length) (.copied bytes) pc
  | sending (buf : Buf) {rc : Nat} {returned : Option Int} (room : rc ≤ bufLen)
      (covers : w.Covers (w.sent ++ buf.bytes.take rc)) :
      Progress w (.send buf w.sent.length rc) .idle (.user returned)
  | complete (buf : Buf) {returned : Option Int} (agrees : w.Agrees) :
      Progress w (.loop buf) .idle (.user returned)
  | failed (r : Int) {returned : Option Int} : Progress w (.close r) .idle (.user returned)
  | overflow {returned : Option Int} : Progress w .undefined .idle (.user returned)

/-- The invariant of an echo. -/
structure Kept [DecidableEq Pid] (f : FixedSizeLlseek) (K : Kernel) (me : Pid) (w : Echo Pid) :
    Prop where
  reach : (users Pid f K).Reach Lts.anyStep w.sys
  progress : Progress w w.pc w.fetch (w.sys.pc me)

theorem watching_of (echoing : w.pc.echoing = true) (more : w.fetch ≠ .copied []) :
    w.watching = true ∨ w.moments = [] := by
  simp [watching, echoing, more, or_comm, em]

theorem Covers.record {sys : DriverSystem Pid} (covers : w.Covers bytes)
    (echoing : w.pc.echoing = true) (more : w.fetch ≠ .copied [])
    (grows : w.watching = true → w.sys.data.fromOffset <+: sys.data.fromOffset) :
    (w.record sys).Covers bytes := by
  rcases watching_of echoing more with watching | fresh
  · exact ⟨covers.first.trans (grows watching), by simp [Echo.record, watching]⟩
  · have none := covers.fresh fresh
    subst none
    exact ⟨List.nil_prefix, fun _ => rfl⟩

theorem Agrees.record {sys : DriverSystem Pid} (agrees : w.Agrees) (complete : w.watching = false) :
    (w.record sys).Agrees := by
  simpa [Agrees, Echo.record, complete] using agrees

theorem Fetched.record {sys : DriverSystem Pid} {retval : Int} (fetched : w.Fetched retval bytes)
    (echoing : w.pc.echoing = true) (fetching : w.fetch = .copied bytes)
    (grows : w.watching = true → w.sys.data.fromOffset <+: sys.data.fromOffset) :
    (w.record sys).Fetched retval bytes := by
  cases fetched with
  | failed negative => exact .failed negative
  | ended agrees => exact .ended (agrees.record (by simp [watching, fetching]))
  | block nonempty short covers =>
      refine .block nonempty short (covers.record echoing ?_ grows)
      simpa [fetching] using nonempty

theorem Progress.record {sys : DriverSystem Pid} {pc : Pc} (progress : Progress w w.pc w.fetch pc)
    (grows : w.watching = true → w.sys.data.fromOffset <+: sys.data.fromOffset) :
    Progress (w.record sys) w.pc w.fetch pc := by
  generalize thread : w.pc = at_ at progress ⊢
  generalize fetching : w.fetch = fetch at progress ⊢
  cases progress with
  | before buf small covers =>
      exact .before buf small (covers.record (by rw [thread]; rfl) (by simp [fetching]) grows)
  | asking buf small asks covers =>
      exact .asking buf small asks (covers.record (by rw [thread]; rfl) (by simp [fetching]) grows)
  | sending buf room covers =>
      exact .sending buf room (covers.record (by rw [thread]; rfl) (by simp [fetching]) grows)
  | copied buf small leaves fetched =>
      exact .copied buf small leaves (fetched.record (by rw [thread]; rfl) fetching grows)
  | complete buf agrees =>
      exact .complete buf (agrees.record (by simp [watching, thread, AppendPc.echoing]))
  | failed r => exact .failed r
  | overflow => exact .overflow

end

section

variable {Pid : Type} [DecidableEq Pid] {f : FixedSizeLlseek} {K : Kernel} {me : Pid}
  {w w' : Echo Pid}

theorem Kept.stands (kept : Kept f K me w) :
    ∃ at_ fetch pc, w.pc = at_ ∧ w.fetch = fetch ∧ w.sys.pc me = pc ∧ Progress w at_ fetch pc :=
  ⟨_, _, _, rfl, rfl, rfl, kept.progress⟩

theorem Kept.other (kept : Kept f K me w) {q : Pid} {op : Option Op}
    (noSeek : Server.noSeek w (.other q op)) (noEviction : Server.noEviction w (.other q op))
    (taken : w.next f me (.other q op) = some w') : Kept f K me w' := by
  simp only [next] at taken
  split at taken
  · cases taken
  · rename_i apart
    obtain ⟨sys, computed, rfl⟩ := Option.map_eq_some_iff.mp taken
    have step := exec_iff.mp computed
    refine ⟨kept.reach.step trivial step, ?_⟩
    have progress := kept.progress
    change Progress (w.record sys) w.pc w.fetch (sys.pc me)
    rw [← step.pc_other (Ne.symm apart)] at progress
    refine progress.record fun watching => ?_
    cases op with
    | some op => rw [step.enters.2.2]
    | none =>
        simp only [Server.noSeek, watching, Bool.true_and, Bool.not_eq_true'] at noSeek
        simp only [Server.noEviction, watching, Bool.true_and, Bool.not_eq_true'] at noEviction
        exact fromOffset_step kept.reach step noSeek noEviction

theorem Kept.call (kept : Kept f K me w) {c : ReadCall}
    (taken : w.next f me (.call c) = some w') : Kept f K me w' := by
  obtain ⟨_, _, _, thread, fetching, place, progress⟩ := kept.stands
  cases progress with
  | before buf small covers =>
      simp only [next, thread, fetching] at taken
      split at taken
      · rename_i count
        obtain ⟨sys, computed, rfl⟩ := Option.map_eq_some_iff.mp taken
        have step := exec_iff.mp computed
        obtain ⟨_, entered, same⟩ := step.enters
        refine ⟨kept.reach.step trivial step, ?_⟩
        change Progress _ w.pc .called (sys.pc me)
        rw [thread, entered]
        have covers' : (w.record sys).Covers w.sent :=
          covers.record (by rw [thread]; rfl) (by simp [fetching]) fun _ => same ▸ List.prefix_rfl
        exact .asking buf small (.entered count) ⟨covers'.first, covers'.fresh⟩
      · cases taken
  | asking | copied | sending | complete | failed | overflow => simp [next, thread, fetching] at taken

theorem Kept.fetch (kept : Kept f K me w) {c : ReadCall} {r : ReadResult} {sys : DriverSystem Pid}
    (reads : w.sys.pc me = .readBody (BitVec.ofNat 64 w.sent.length) c)
    (count : c.count = BitVec.ofNat 64 bufLen) (small : w.sent.length < 2 ^ 31)
    (covers : w.Covers w.sent) (same : sys.data = w.sys.data)
    (result : aesdRead w.sys.data (BitVec.ofNat 64 w.sent.length) { c with lock := .granted } = some r) :
    Fetched { w with sys, fetch := .copied r.bytes, moments := w.sys.data :: w.moments }
      r.retval r.bytes := by
  obtain ⟨added, committed, models⟩ := models_of_reading kept.reach reads
  have place : (BitVec.ofNat 64 w.sent.length).toNat = w.sent.length := by
    rw [BitVec.toNat_ofNat, Nat.mod_eq_of_lt (by omega)]
  have asked : c.count.toNat = bufLen := by rw [count]; rfl
  have continues := models.continues place (by omega) covers.first (by simp [asked, bufLen]) result
  simp only [asked] at continues
  generalize r.retval = retval at continues ⊢
  generalize r.bytes = bytes at continues ⊢
  cases continues with
  | failed negative => exact .failed negative
  | ended all => exact .ended ⟨w.sys.data, rfl, all⟩
  | block nonempty short next =>
      exact .block nonempty short ⟨same.symm ▸ next, fun none => absurd none (List.cons_ne_nil _ _)⟩

theorem Kept.inside (kept : Kept f K me w) (taken : w.next f me .inside = some w') :
    Kept f K me w' := by
  obtain ⟨_, _, _, thread, fetching, place, progress⟩ := kept.stands
  simp only [next] at taken
  obtain ⟨sys, computed, rfl⟩ := Option.map_eq_some_iff.mp taken
  have step := exec_iff.mp computed
  obtain ⟨op, next⟩ := step.next
  have reach := kept.reach.step trivial step
  simp only [driverCode, place] at next
  cases progress with
  | before | sending | complete | failed | overflow => cases next
  | asking buf small asks covers =>
      cases asks with
      | interrupted => cases next
      | @entered c count =>
          have same : sys.data = w.sys.data ∧ Asks w.sent.length (sys.pc me) := by
            simp only [Pc.next] at next
            split at next <;> simp only [Option.some.injEq, Prod.mk.injEq] at next <;>
              obtain ⟨_, place, same⟩ := next <;> rw [← place, same]
            · exact ⟨rfl, .interrupted⟩
            · exact ⟨rfl, .locked count⟩
          have covers' : (w.record sys).Covers w.sent :=
            covers.record (by rw [thread]; rfl) (by simp [fetching]) fun _ => same.1 ▸ List.prefix_rfl
          simp only [place, copiedOut]
          refine ⟨reach, ?_⟩
          change Progress _ w.pc w.fetch (sys.pc me)
          rw [thread, fetching]
          exact .asking buf small same.2 covers'
      | @locked c count =>
          obtain ⟨r, result, stepped⟩ := Option.map_eq_some_iff.mp next
          simp only [Prod.mk.injEq] at stepped
          obtain ⟨_, left, same⟩ := stepped
          have fetched := kept.fetch place count small covers same.symm result
          have progress := Progress.copied
            (w := { w with sys, fetch := .copied r.bytes, moments := w.sys.data :: w.moments })
            buf small .unlocking fetched
          rw [← thread, left] at progress
          simp only [place, copiedOut, result, Option.map_some]
          exact ⟨reach, progress⟩
  | @copied buf bytes retval pc small leaves fetched =>
      cases leaves with
      | returned => cases next
      | unlocking =>
          simp only [Pc.next, Option.some.injEq, Prod.mk.injEq] at next
          obtain ⟨_, left, same⟩ := next
          have fetched' : (w.record sys).Fetched retval bytes :=
            fetched.record (by rw [thread]; rfl) fetching fun _ => same ▸ List.prefix_rfl
          simp only [place, copiedOut]
          refine ⟨reach, ?_⟩
          change Progress _ w.pc w.fetch (sys.pc me)
          rw [thread, fetching, ← left]
          exact .copied buf small .returned fetched'

theorem Kept.restart (kept : Kept f K me w) (taken : w.next f me .restart = some w') :
    Kept f K me w' := by
  obtain ⟨_, _, _, thread, fetching, place, progress⟩ := kept.stands
  simp only [next, fetching, place] at taken
  cases progress with
  | before | copied | sending | complete | failed | overflow => cases taken
  | asking buf small asks covers =>
      cases asks with
      | entered | locked => cases taken
      | interrupted =>
          simp only [if_true] at taken
          cases taken
          refine ⟨kept.reach, ?_⟩
          simp only [thread, place]
          exact .before buf small ⟨covers.first, covers.fresh⟩

theorem Kept.back (kept : Kept f K me w) (taken : w.next f me .back = some w') :
    Kept f K me w' := by
  obtain ⟨_, _, _, thread, fetching, place, progress⟩ := kept.stands
  simp only [next, fetching, place, thread] at taken
  cases progress with
  | before | sending | complete | failed | overflow => cases taken
  | asking buf small asks covers =>
      cases asks with
      | entered | locked => cases taken
      | interrupted =>
          cases taken
          refine ⟨kept.reach, ?_⟩
          simp only [place]
          exact .failed _
  | @copied buf bytes retval pc small leaves fetched =>
      cases leaves with
      | unlocking => cases taken
      | returned =>
          cases fetched with
          | failed negative =>
              simp only [if_pos negative] at taken
              cases taken
              refine ⟨kept.reach, ?_⟩
              simp only [place]
              exact .failed _
          | ended agrees =>
              cases taken
              refine ⟨kept.reach, ?_⟩
              simp only [place]
              exact .complete buf agrees
          | block nonempty short covers =>
              have nonneg : ¬((bytes.length : Int) < 0) := by omega
              simp only [if_neg nonneg, Fetch.bytes, AppendPc.resume, if_pos short, if_neg nonempty,
                Option.map_some, Option.some.injEq] at taken
              subst taken
              refine ⟨kept.reach, ?_⟩
              simp only [place]
              refine .sending (buf.fill bytes) short ?_
              rw [Buf.take_fill buf short]
              exact ⟨covers.first, covers.fresh⟩

theorem Kept.send (kept : Kept f K me w) {a : Answer} (taken : w.next f me (.send a) = some w') :
    Kept f K me w' := by
  obtain ⟨_, _, _, thread, fetching, place, progress⟩ := kept.stands
  simp only [next, thread] at taken
  cases progress with
  | before | asking | copied | complete | failed | overflow => cases taken
  | @sending buf rc _ room covers =>
      obtain ⟨pc, resumes, rfl⟩ := Option.map_eq_some_iff.mp taken
      refine ⟨kept.reach, ?_⟩
      simp only [fetching, place]
      cases appendStep_of rfl resumes with
      | sendFailed | sendShort => exact .failed _
      | sent =>
          have length : (buf.bytes.take rc).length = rc := by
            rw [List.length_take, buf.length_eq]
            simp only [bufLen] at room
            omega
          have total : w.sent.length + rc = (w.sent ++ buf.bytes.take rc).length := by
            rw [List.length_append, length]
          have whole : (buf.bytes.take rc).take rc = buf.bytes.take rc :=
            List.take_of_length_le (Nat.le_of_eq length)
          simp only [whole, AppendPc.advance]
          split
          · rename_i small
            rw [total] at small ⊢
            exact .before buf small ⟨covers.first, covers.fresh⟩
          · exact .overflow

/-- Before its first `pread` nothing is sent, and nothing can be out of date. -/
theorem Start.kept (start : Start f K me w) : Kept f K me w := by
  obtain ⟨reach, out, ⟨buf, thread⟩, fetching, sent, moments⟩ := start
  refine ⟨reach, ?_⟩
  have covers : w.Covers w.sent := ⟨sent ▸ List.nil_prefix, fun _ => sent⟩
  have none : w.sent.length = 0 := by rw [sent]; rfl
  have before : ∀ returned, Progress w (.echo buf w.sent.length) .idle (.user returned) :=
    fun _ => .before buf (by omega) covers
  generalize w.sys.pc me = pc at out ⊢
  cases pc with
  | user returned =>
      rw [thread, fetching, ← none]
      exact before returned
  | _ => cases out

theorem Kept.step (kept : Kept f K me w) {e : EchoEvent Pid} (noSeek : Server.noSeek w e)
    (noEviction : Server.noEviction w e) (taken : w.next f me e = some w') : Kept f K me w' := by
  cases e with
  | other q op => exact kept.other noSeek noEviction taken
  | call c => exact kept.call taken
  | inside => exact kept.inside taken
  | restart => exact kept.restart taken
  | back => exact kept.back taken
  | send a => exact kept.send taken

end

end Echo

/-- A step that neither seeks nor pushes an entry out, while the echo is under way. -/
def undisturbed {Pid : Type} (w : Echo Pid) (e : EchoEvent Pid) : Bool :=
  noSeek w e && noEviction w e

/-- A complete echo during which no seek acts and nothing is pushed out has sent
    what the device held, from the seek offset on, at its last `aesd_read`. -/
theorem echo_at_last_pread {Pid : Type} [DecidableEq Pid] {f : FixedSizeLlseek} {K : Kernel}
    {me : Pid} {w : Echo Pid} (reach : (echo Pid f K me).Reach (undisturbed · ·) w) {buf : Buf}
    (complete : w.pc = .loop buf) :
    ∃ d, w.moments.head? = some d ∧ w.sent = d.fromOffset := by
  have kept : Echo.Kept f K me w := by
    refine reach.induct (Echo.Kept f K me) (fun _ => Echo.Start.kept) ?_
    intro w e w' kept quiet taken
    obtain ⟨noSeek, noEviction⟩ := Bool.and_eq_true_iff.mp quiet
    exact kept.step noSeek noEviction taken
  obtain ⟨_, _, _, thread, _, _, progress⟩ := kept.stands
  rw [complete] at thread
  subst thread
  cases progress with
  | complete buf agrees => exact agrees

namespace Echo

/-- Events one after another that all meet `ok`. -/
def play {Pid : Type} [DecidableEq Pid] (f : FixedSizeLlseek) (me : Pid)
    (ok : Echo Pid → EchoEvent Pid → Bool) (w : Echo Pid) (events : List (EchoEvent Pid)) :
    Option (Echo Pid) :=
  events.foldlM (fun w e => if ok w e then w.next f me e else none) w

theorem reach_of_play {Pid : Type} [DecidableEq Pid] {f : FixedSizeLlseek} {K : Kernel} {me : Pid}
    {ok : Echo Pid → EchoEvent Pid → Bool} {w w' : Echo Pid} {events : List (EchoEvent Pid)}
    (start : Start f K me w) (plays : play f me ok w events = some w') :
    (echo Pid f K me).Reach (ok · ·) w' := by
  refine Lts.Reach.foldlM ?_ (Lts.Reach.init start) plays
  intro w e w' computed
  split at computed
  · exact ⟨by assumption, computed⟩
  · cases computed

/-- Right after module init, before the first `pread`. -/
def atInit : Echo Nat := ⟨usersStart Nat .pc, .echo Buf.zero 0, .idle, [], []⟩

theorem atInit_start : Start fixedSizeLlseek .pc 0 atInit :=
  ⟨.init (usersStart_init _ _), rfl, ⟨_, rfl⟩, rfl, rfl, rfl⟩

/-- A whole `aesd_write` of process 1. -/
def wholeWrite (data : List UInt8) (fits : data.length < 2 ^ 64) : List (EchoEvent Nat) :=
  .other 1 (some (.write 0 (.ofBytes .pc data fits))) :: List.replicate 9 (.other 1 none)

/-- A whole `pread`, and the `write` of what it delivered. -/
def wholePread (delivered : Nat) : List (EchoEvent Nat) :=
  [.call ⟨BitVec.ofNat 64 bufLen, .granted, false⟩, .inside, .inside, .inside, .back] ++
    if delivered = 0 then [] else [.send (.count delivered)]

theorem loop_of_request {pc : AppendPc} (asks : pc.request = some .readSocket) :
    ∃ buf, pc = .loop buf := by
  cases pc with
  | loop buf => exact ⟨buf, rfl⟩
  | _ => cases asks

end Echo

/-- An echo that starts with one line on the device and ends with two. -/
theorem echo_at_last_pread_two_lines :
    ∃ w : Echo Nat, (echo Nat fixedSizeLlseek .pc 0).Reach (undisturbed · ·) w ∧
      w.sent = [97, 10, 98, 10] ∧ ∃ d, w.moments.head? = some d ∧ w.sent = d.fromOffset := by
  have played : ((Echo.play fixedSizeLlseek 0 undisturbed Echo.atInit
      (Echo.wholeWrite [97, 10] (by decide) ++ Echo.wholePread 2 ++
        Echo.wholeWrite [98, 10] (by decide) ++ Echo.wholePread 2 ++ Echo.wholePread 0)).map
      fun w => (w.pc.request, w.sent)) = some (some .readSocket, [97, 10, 98, 10]) := by
    decide +kernel
  obtain ⟨w, plays, seen⟩ := Option.map_eq_some_iff.mp played
  obtain ⟨asks, sent⟩ := Prod.mk.inj seen
  obtain ⟨buf, complete⟩ := Echo.loop_of_request asks
  have reach := Echo.reach_of_play Echo.atInit_start plays
  exact ⟨w, reach, sent, echo_at_last_pread reach complete⟩

/-- Ten lines, of which the first has ten bytes, and an eleventh that pushes it
    out between the two `pread`s of an echo: only the first line is sent. -/
theorem echo_mixes_moments :
    ¬∀ (f : FixedSizeLlseek) (K : Kernel) (w : Echo Nat) (buf : Buf),
      (echo Nat f K 0).Reach (noSeek · ·) w → w.pc = .loop buf →
        ∃ d ∈ w.moments, w.sent = d.fromOffset := by
  intro claim
  have played : ((Echo.play fixedSizeLlseek 0 noSeek Echo.atInit
      (Echo.wholeWrite (List.replicate 9 97 ++ [10]) (by decide) ++
        (List.replicate 9 (Echo.wholeWrite [10] (by decide))).flatten ++ Echo.wholePread 10 ++
          Echo.wholeWrite [10] (by decide) ++ Echo.wholePread 0)).map
      fun w => (w.pc.request, w.moments.all fun d => w.sent != d.fromOffset)) =
        some (some .readSocket, true) := by
    decide +kernel
  obtain ⟨w, plays, seen⟩ := Option.map_eq_some_iff.mp played
  obtain ⟨asks, apart⟩ := Prod.mk.inj seen
  obtain ⟨buf, complete⟩ := Echo.loop_of_request asks
  obtain ⟨d, member, same⟩ :=
    claim _ .pc w buf (Echo.reach_of_play Echo.atInit_start plays) complete
  exact absurd same (by simpa using List.all_eq_true.mp apart d member)

end Aesd.Server
