import Aesd.Lib.Machine
import Aesd.Server.Command

/-! # The thread of a connection

`appenddata` of `aesdsocket.c` as a machine: its system calls are requests, and
everything between two of them is one step.  The one buffer that it receives
into and echoes from is never cleared, so it is passed on with all its bytes.
-/

namespace Aesd.Server

open Aesd.Lib

/-- What the threads of the server ask of the kernel. -/
inductive Request where
  /-- `opendatafile`. -/
  | openDataFile
  /-- `poll` until there is something to `read(rsfd, buf, buf_len)`, unless
      `flag_accepting_connections` is found cleared. -/
  | readSocket
  /-- The `malloc` of `parse_ioc_command`. -/
  | mallocSeekto
  /-- `ioctl(dfd, AESDCHAR_IOCSEEKTO, seekto)`. -/
  | ioctl (seekto : Seekto)
  /-- `pthread_mutex_timedlock`, until it returns 0. -/
  | lock
  | writeData (bytes : List UInt8)
  | unlock
  /-- `pread(dfd, buf, buf_len, pos)`. -/
  | pread (pos : Nat)
  | writeSocket (bytes : List UInt8)
  | closeDataFile
  /-- `clock_nanosleep`, and the flag behind it. -/
  | sleep
  /-- `time`, `gmtime` and `strftime`. -/
  | strftime
  deriving Repr, DecidableEq

inductive Answer where
  /-- -1. -/
  | failed
  /-- 0, or a new descriptor. -/
  | done
  /-- `flag_accepting_connections` is cleared, or a signal ended the sleep. -/
  | stopped
  | bytes (data : List UInt8)
  | count (n : Nat)
  | parsed (env : ParseEnv)
  deriving Repr, DecidableEq

/-- `buf_len`. -/
def bufLen : Nat := 1024

/-- The `buf_len+1` bytes of `buf`. -/
structure Buf where
  bytes : List UInt8
  length_eq : bytes.length = 1025
  deriving Repr, DecidableEq

namespace Buf

/-- Overwrite the start of the buffer. -/
def fill (buf : Buf) (data : List UInt8) : Buf where
  bytes := (data ++ buf.bytes.drop data.length).take 1025
  length_eq := by
    simp only [List.length_take, List.length_append, List.length_drop, buf.length_eq]
    omega

theorem fill_bytes (buf : Buf) {data : List UInt8} (short : data.length ≤ bufLen) :
    (buf.fill data).bytes = data ++ buf.bytes.drop data.length := by
  apply List.take_of_length_le
  simp only [bufLen] at short
  simp only [List.length_append, List.length_drop, buf.length_eq]
  omega

theorem take_fill (buf : Buf) {data : List UInt8} (short : data.length ≤ bufLen) :
    (buf.fill data).bytes.take data.length = data := by
  rw [fill_bytes buf short, List.take_left']
  rfl

end Buf

/-- Where `appenddata` is, with the locals that are still needed there. -/
inductive AppendPc where
  | start (buf : Buf)
  | loop (buf : Buf)
  | parse (buf : Buf) (readcount : Nat) (ioccmdpos : Int)
  | ioctl (buf : Buf) (readcount : Nat) (seekto : Seekto)
  | lock (buf : Buf) (readcount : Nat)
  | write (buf : Buf) (readcount : Nat)
  | unlock (buf : Buf) (readcount : Nat) (failed : Bool)
  | echo (buf : Buf) (pos : Nat)
  | send (buf : Buf) (pos rc : Nat)
  | close (r : Int)
  | returned (r : Int)
  /-- `pos += rc` has left the range of `int`. -/
  | undefined
  deriving Repr, DecidableEq

namespace AppendPc

def request : AppendPc → Option Request
  | .start _ => some .openDataFile
  | .loop _ => some .readSocket
  | .parse _ _ _ => some .mallocSeekto
  | .ioctl _ _ seekto => some (.ioctl seekto)
  | .lock _ _ => some .lock
  | .write buf readcount => some (.writeData (buf.bytes.take readcount))
  | .unlock _ _ _ => some .unlock
  | .echo _ pos => some (.pread pos)
  | .send buf _ rc => some (.writeSocket (buf.bytes.take rc))
  | .close _ => some .closeDataFile
  | .returned _ => none
  | .undefined => none

/-- From the received bytes to the command or data branch. -/
def received (buf : Buf) (data : List UInt8) : AppendPc :=
  if data = [] then .close 0
  else
    let buf := buf.fill data
    let ioccmdpos := findIocCommand buf.bytes bufLen
    if ioccmdpos ≥ 0 then .parse buf data.length ioccmdpos else .lock buf data.length

/-- `if(readcount < buf_len)` in front of the echo. -/
def replyOrNext (buf : Buf) (readcount : Nat) : AppendPc :=
  if readcount < bufLen then .echo buf 0 else .loop buf

/-- `pos += rc`. -/
def advance (buf : Buf) (pos rc : Nat) : AppendPc :=
  if pos + rc < 2 ^ 31 then .echo buf (pos + rc) else .undefined

def resume : AppendPc → Answer → Option AppendPc
  | .start buf, .done => some (.loop buf)
  | .start _, .failed => some (.returned (-1))
  | .loop _, .stopped => some (.close 0)
  | .loop _, .failed => some (.close (-1))
  | .loop buf, .bytes data => if data.length ≤ bufLen then some (received buf data) else none
  | .parse buf readcount pos, .parsed env =>
    some (.ioctl buf readcount (parseIocCommand env buf.bytes pos))
  | .ioctl buf readcount _, .done => some (replyOrNext buf readcount)
  | .ioctl buf readcount _, .failed => some (replyOrNext buf readcount)
  | .lock buf readcount, .done => some (.write buf readcount)
  | .write buf readcount, .count n => if n ≤ readcount then some (.unlock buf readcount false) else none
  | .write buf readcount, .failed => some (.unlock buf readcount true)
  | .unlock buf readcount failed, .done =>
    some (if failed then .close (-1) else replyOrNext buf readcount)
  | .echo _ _, .failed => some (.close (-1))
  | .echo buf pos, .bytes data =>
    if data.length ≤ bufLen then
      some (if data = [] then .loop buf else .send (buf.fill data) pos data.length)
    else none
  | .send _ _ _, .failed => some (.close (-1))
  | .send buf pos rc, .count wc =>
    if wc ≤ rc then some (if wc < rc then .close (-1) else advance buf pos rc) else none
  | .close r, .done => some (.returned r)
  | .close r, .failed => some (.returned r)
  | _, _ => none

/-- Not in the middle of a chunk. -/
def idle : AppendPc → Bool
  | .start _ | .loop _ | .close _ | .returned _ => true
  | _ => false

end AppendPc

def appenddata : Machine AppendPc Request Answer where
  request := AppendPc.request
  resume := AppendPc.resume

/-- A new connection: the buffer holds what `malloc` found there. -/
def AppendPc.entered (pc : AppendPc) : Prop := ∃ buf, pc = .start buf

/-- The steps of `appenddata`, one constructor for each exit of a call. -/
inductive AppendStep : AppendPc → Request → Answer → AppendPc → Prop where
  | opened (buf : Buf) : AppendStep (.start buf) .openDataFile .done (.loop buf)
  | openFailed (buf : Buf) : AppendStep (.start buf) .openDataFile .failed (.returned (-1))
  | stopped (buf : Buf) : AppendStep (.loop buf) .readSocket .stopped (.close 0)
  | readFailed (buf : Buf) : AppendStep (.loop buf) .readSocket .failed (.close (-1))
  | fin (buf : Buf) : AppendStep (.loop buf) .readSocket (.bytes []) (.close 0)
  | command (buf : Buf) {data : List UInt8} (nonempty : data ≠ []) (short : data.length ≤ bufLen)
      (word : iocString <+: (buf.fill data).bytes) :
      AppendStep (.loop buf) .readSocket (.bytes data) (.parse (buf.fill data) data.length 0)
  | data (buf : Buf) {data : List UInt8} (nonempty : data ≠ []) (short : data.length ≤ bufLen)
      (plain : ¬iocString <+: (buf.fill data).bytes) :
      AppendStep (.loop buf) .readSocket (.bytes data) (.lock (buf.fill data) data.length)
  | parsed (buf : Buf) (readcount : Nat) (pos : Int) (env : ParseEnv) :
      AppendStep (.parse buf readcount pos) .mallocSeekto (.parsed env)
        (.ioctl buf readcount (parseIocCommand env buf.bytes pos))
  | ioctl (buf : Buf) (readcount : Nat) (seekto : Seekto) {a : Answer}
      (ignored : a = .done ∨ a = .failed) :
      AppendStep (.ioctl buf readcount seekto) (.ioctl seekto) a (.replyOrNext buf readcount)
  | locked (buf : Buf) (readcount : Nat) :
      AppendStep (.lock buf readcount) .lock .done (.write buf readcount)
  | wrote (buf : Buf) {readcount n : Nat} (within : n ≤ readcount) :
      AppendStep (.write buf readcount) (.writeData (buf.bytes.take readcount)) (.count n)
        (.unlock buf readcount false)
  | writeFailed (buf : Buf) (readcount : Nat) :
      AppendStep (.write buf readcount) (.writeData (buf.bytes.take readcount)) .failed
        (.unlock buf readcount true)
  | unlocked (buf : Buf) (readcount : Nat) :
      AppendStep (.unlock buf readcount false) .unlock .done (.replyOrNext buf readcount)
  | unlockedFailed (buf : Buf) (readcount : Nat) :
      AppendStep (.unlock buf readcount true) .unlock .done (.close (-1))
  | preadFailed (buf : Buf) (pos : Nat) :
      AppendStep (.echo buf pos) (.pread pos) .failed (.close (-1))
  | preadEnd (buf : Buf) (pos : Nat) : AppendStep (.echo buf pos) (.pread pos) (.bytes []) (.loop buf)
  | preadBlock (buf : Buf) (pos : Nat) {data : List UInt8} (nonempty : data ≠ [])
      (short : data.length ≤ bufLen) :
      AppendStep (.echo buf pos) (.pread pos) (.bytes data) (.send (buf.fill data) pos data.length)
  | sendFailed (buf : Buf) (pos rc : Nat) :
      AppendStep (.send buf pos rc) (.writeSocket (buf.bytes.take rc)) .failed (.close (-1))
  | sendShort (buf : Buf) (pos : Nat) {rc wc : Nat} (short : wc < rc) :
      AppendStep (.send buf pos rc) (.writeSocket (buf.bytes.take rc)) (.count wc) (.close (-1))
  | sent (buf : Buf) (pos rc : Nat) :
      AppendStep (.send buf pos rc) (.writeSocket (buf.bytes.take rc)) (.count rc)
        (.advance buf pos rc)
  | closed (r : Int) {a : Answer} (ignored : a = .done ∨ a = .failed) :
      AppendStep (.close r) .closeDataFile a (.returned r)

theorem AppendStep.received (buf : Buf) {data : List UInt8} (short : data.length ≤ bufLen) :
    AppendStep (.loop buf) .readSocket (.bytes data) (.received buf data) := by
  by_cases empty : data = []
  · rw [AppendPc.received, if_pos empty, empty]
    exact .fin buf
  · have room : iocString.length < bufLen := by decide
    have decides : findIocCommand (buf.fill data).bytes bufLen =
        if iocString <+: (buf.fill data).bytes then 0 else -ENOENT := findIocCommand_eq room
    rw [AppendPc.received, if_neg empty]
    by_cases word : iocString <+: (buf.fill data).bytes
    · rw [if_pos word] at decides
      simp only [decides, ge_iff_le, Int.le_refl, if_true]
      exact .command buf empty short word
    · rw [if_neg word] at decides
      simp only [decides, ENOENT]
      exact .data buf empty short word

/-- Everything that a step of `appenddata` can do. -/
theorem appendStep_of {pc pc' : AppendPc} {r : Request} {a : Answer} (asks : pc.request = some r)
    (resumes : pc.resume a = some pc') : AppendStep pc r a pc' := by
  cases pc with
  | returned | undefined => cases asks
  | start buf =>
      cases asks
      cases a <;> cases resumes
      · exact .openFailed buf
      · exact .opened buf
  | loop buf =>
      cases asks
      cases a with
      | done | count | parsed => cases resumes
      | failed => cases resumes; exact .readFailed buf
      | stopped => cases resumes; exact .stopped buf
      | bytes data =>
          rw [AppendPc.resume] at resumes
          split at resumes <;> cases resumes
          exact .received buf (by assumption)
  | parse buf readcount pos =>
      cases asks
      cases a <;> cases resumes
      exact .parsed buf readcount pos _
  | ioctl buf readcount seekto =>
      cases asks
      cases a <;> cases resumes
      · exact .ioctl buf readcount seekto (.inr rfl)
      · exact .ioctl buf readcount seekto (.inl rfl)
  | lock buf readcount =>
      cases asks
      cases a <;> cases resumes
      exact .locked buf readcount
  | write buf readcount =>
      cases asks
      cases a with
      | done | stopped | bytes | parsed => cases resumes
      | failed => cases resumes; exact .writeFailed buf readcount
      | count n =>
          rw [AppendPc.resume] at resumes
          split at resumes <;> cases resumes
          exact .wrote buf (by assumption)
  | unlock buf readcount failed =>
      cases asks
      cases a <;> cases resumes
      cases failed with
      | false => exact .unlocked buf readcount
      | true => exact .unlockedFailed buf readcount
  | echo buf pos =>
      cases asks
      cases a with
      | done | stopped | count | parsed => cases resumes
      | failed => cases resumes; exact .preadFailed buf pos
      | bytes data =>
          rw [AppendPc.resume] at resumes
          split at resumes <;> cases resumes
          rename_i short
          by_cases ended : data = []
          · subst ended
            exact .preadEnd buf pos
          · rw [if_neg ended]
            exact .preadBlock buf pos ended short
  | send buf pos rc =>
      cases asks
      cases a with
      | done | stopped | bytes | parsed => cases resumes
      | failed => cases resumes; exact .sendFailed buf pos rc
      | count wc =>
          rw [AppendPc.resume] at resumes
          split at resumes <;> cases resumes
          rename_i within
          by_cases less : wc < rc
          · rw [if_pos less]
            exact .sendShort buf pos less
          · obtain rfl : wc = rc := by omega
            rw [if_neg less]
            exact .sent buf pos wc
  | close r =>
      cases asks
      cases a <;> cases resumes
      · exact .closed r (.inr rfl)
      · exact .closed r (.inl rfl)

/-- An I/O error, or a shutdown.  What `ioctl` and `close` return is not looked at. -/
def trouble : Request → Answer → Bool
  | _, .stopped => true
  | .ioctl _, .failed => false
  | .closeDataFile, .failed => false
  | _, .failed => true
  | .writeSocket bytes, .count n => n < bytes.length
  | _, _ => false

/-- A connection in any surroundings. -/
abbrev connection : Lts AppendPc (Request × Answer) := appenddata.alone AppendPc.entered

/-- Steps without I/O errors and without a shutdown. -/
def untroubled (_ : AppendPc) (label : Request × Answer) : Prop := trouble label.1 label.2 = false

/-- A buffer that `malloc` has found zeroed. -/
def Buf.zero : Buf := ⟨List.replicate 1025 0, List.length_replicate⟩

theorem connection_start : connection.Run untroubled [] (.start Buf.zero) := .nil ⟨Buf.zero, rfl⟩

theorem untroubled_run {answers : List Answer} {labels : List (Request × Answer)} {pc : AppendPc}
    (follows : appenddata.follow (.start Buf.zero) answers = some (labels, pc))
    (calm : (labels.all fun label => !trouble label.1 label.2) = true) :
    connection.Run untroubled labels pc := by
  refine Machine.run_of_follow connection_start follows fun label member _ => ?_
  exact (Bool.not_eq_true' _).mp (List.all_eq_true.mp calm label member)

/-- A run from answers, with what can be seen of its labels, when it is between
    two chunks at its end. -/
theorem untroubled_run_seen {α : Type} (answers : List Answer)
    {view : List (Request × Answer) → α} {seen : α}
    (follows : ((appenddata.follow (.start Buf.zero) answers).map fun (labels, pc) =>
      (view labels, pc.idle, labels.all fun label => !trouble label.1 label.2)) =
        some (seen, true, true)) :
    ∃ labels pc, connection.Run untroubled labels pc ∧ pc.idle ∧ view labels = seen := by
  obtain ⟨⟨labels, pc⟩, run, result⟩ := Option.map_eq_some_iff.mp follows
  simp only [Prod.mk.injEq] at result
  obtain ⟨viewed, idle, calm⟩ := result
  exact ⟨labels, pc, untroubled_run run calm, idle, viewed⟩

end Aesd.Server
