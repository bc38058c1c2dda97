import Aesd.Driver.Linearizable
import Aesd.Server.Conversation

/-! # Several clients at once

Any number of connections on the character device, their driver calls interleaved
step by step and undisturbed.  Each client sends packets, each of which a single `read`
gets whole, whatever becomes of its socket meanwhile.  The packets of all of them make
up one sequence, and the device is the store that it leaves; a block that a thread is
about to send was read from the store that an initial part of it leaves, the client's
own packets included.
-/

namespace Aesd.Server

open Aesd.Lib Aesd.Lib.Mutex Aesd.Driver Function

/-- `calling`: the thread is in a driver call, or has not looked at its result yet.
    `inbox` is what its next calls of `read` find in the socket, block by block, however the
    stream of the client is cut; `owner` is that of `dfdmutex`. -/
structure Clients (Pid : Type) where
  driver : Observed Pid
  pc : Pid → AppendPc
  calling : Pid → Bool
  inbox : Pid → List (List UInt8)
  owner : Option Pid

inductive ClientEvent where
  /-- A driver call begins. -/
  | call
  /-- A step of the driver call. -/
  | inside
  /-- Back with the result. -/
  | back
  /-- Any other call of the thread, which may fail. -/
  | answer (a : Answer)
  deriving Repr, DecidableEq

namespace Clients

variable {Pid : Type} [DecidableEq Pid]

/-- What a call that is not the driver's does, if it can be answered so. -/
def answered (w : Clients Pid) (p : Pid) : Request → Answer → Option (Clients Pid)
  | .readSocket, .bytes data =>
    match w.inbox p with
    | [] => if data = [] then some w else none
    | block :: later => if data = block then some { w with inbox := update w.inbox p later } else none
  | .lock, .done => if w.owner.isNone then some { w with owner := some p } else none
  | .unlock, .done => some { w with owner := none }
  | .lock, _ | .unlock, _ => none
  | _, _ => some w

def next (f : FixedSizeLlseek) (K : Kernel) (beyond : Nat → Option SizeT) (w : Clients Pid) (p : Pid) :
    ClientEvent → Option (Clients Pid)
  | .call =>
    if w.calling p then none
    else
      ((w.pc p).request.bind (deviceOp K beyond)).bind fun op =>
        (exec (driverCode f) w.driver.sys (p, some op)).map fun sys =>
          { w with driver := w.driver.after f sys (p, some op), calling := update w.calling p true }
  | .inside =>
    if w.calling p then
      (exec (driverCode f) w.driver.sys (p, none)).map fun sys =>
        { w with driver := w.driver.after f sys (p, none) }
    else none
  | .back =>
    if w.calling p then
      (w.pc p).request.bind fun r =>
        (w.driver.sys.pc p).returned.bind fun retval =>
          ((w.pc p).resume (deviceAnswer r retval (w.driver.memory p))).map fun pc =>
            { w with pc := update w.pc p pc, calling := update w.calling p false }
    else none
  | .answer a =>
    if w.calling p then none
    else
      (w.pc p).request.bind fun r =>
        if (deviceOp K beyond r).isSome then none
        else
          (w.answered p r a).bind fun w' =>
            ((w.pc p).resume a).map fun pc => { w' with pc := update w.pc p pc }

end Clients

/-- Every thread is at its start, with the packets of its client ahead; each of its calls of
    `read` will find exactly one of them. -/
structure Clients.Start {Pid : Type} [DecidableEq Pid] (f : FixedSizeLlseek) (K : Kernel)
    (packets : Pid → List Packet) (w : Clients Pid) : Prop where
  driver : (observed Pid f K).init w.driver
  pc : ∀ p, (w.pc p).entered
  calling : ∀ p, w.calling p = false
  inbox : ∀ p, w.inbox p = (packets p).map Packet.text
  owner : w.owner = none

def clients (Pid : Type) [DecidableEq Pid] (f : FixedSizeLlseek) (K : Kernel)
    (beyond : Nat → Option SizeT) (packets : Pid → List Packet) :
    Lts (Clients Pid) (Pid × ClientEvent) where
  init := Clients.Start f K packets
  step w label w' := w.next f K beyond label.1 label.2 = some w'

/-- What a command asks of the store. -/
def Seekto.asks (st : Seekto) : LineStore.Asked :=
  .seek st.writeCmd.toNat st.writeCmdOffset.toNat

def Packet.asks : Packet → LineStore.Asked
  | .line body => .store (body ++ [newline])
  | .seek _ _ st => st.asks

/-- What a thread has read of a packet and not passed on.  A command is complete, so
    that it does not matter what `malloc` finds. -/
def AppendPc.inHand : AppendPc → List LineStore.Asked
  | .lock buf readcount | .write buf readcount => [.store (buf.bytes.take readcount)]
  | .parse buf _ ioccmdpos =>
    [(parseIocCommand ⟨⟨0, 0⟩, [], []⟩ buf.bytes ioccmdpos).asks]
  | .ioctl _ _ seekto => [seekto.asks]
  | _ => []

/-- Of all that is asked, what one client asks. -/
def ofClient {Pid : Type} [DecidableEq Pid] (p : Pid) (merge : List (Pid × LineStore.Asked)) :
    List LineStore.Asked := (merge.filter fun a => a.1 = p).map Prod.snd

/-- Of the packets of a client those that have not been passed on are in its inbox, a
    block each. -/
def Ahead (packets : List Packet) (inbox : List (List UInt8)) (passed : List LineStore.Asked) : Prop :=
  ∃ later, later <:+ packets ∧ inbox = later.map Packet.text ∧
    passed ++ later.map Packet.asks = packets.map Packet.asks

/-- Bytes that the store gives at a position at some moment, when it has got all that
    the client has sent up to now. -/
def ReadFrom {Pid : Type} [DecidableEq Pid] (merge : List (Pid × LineStore.Asked)) (p : Pid)
    (pos : Nat) (bytes : List UInt8) : Prop :=
  ∃ before, before <+: merge ∧ ofClient p before = ofClient p merge ∧
    bytes <+: (LineStore.since (before.map Prod.snd)).reply.drop pos

/-- The packets of all clients in one sequence: of each client, those in front of what
    is still to be passed on, in order and once each.  Between the driver calls of a
    thread all of them are accounted for; with nobody inside the driver the device is
    the store that the sequence leaves, with no part of a line in it. -/
structure Merges {Pid : Type} [DecidableEq Pid] (K : Kernel) (packets : Pid → List Packet)
    (w : Clients Pid) (merge : List (Pid × LineStore.Asked)) : Prop where
  inOrder : ∀ p, ofClient p merge <+: (packets p).map Packet.asks
  complete : ∀ p, w.calling p = false →
    Ahead (packets p) (w.inbox p) (ofClient p merge ++ (w.pc p).inHand)
  stored : (∀ p, (w.driver.sys.pc p).outside) →
    Presents K (LineStore.since (merge.map Prod.snd)) w.driver.sys.data
  blocks : ∀ p buf pos rc, w.pc p = .send buf pos rc → ReadFrom merge p pos (buf.bytes.take rc)

section

variable {Pid : Type} [DecidableEq Pid] {f : FixedSizeLlseek} {K : Kernel}
  {beyond : Nat → Option SizeT} {w w' : Clients Pid} {p : Pid}

/-- What a step of a thread can be. -/
inductive ClientStep (f : FixedSizeLlseek) (K : Kernel) (beyond : Nat → Option SizeT)
    (w : Clients Pid) (p : Pid) : Clients Pid → Prop where
  | call {r op sys} (free : w.calling p = false) (asks : (w.pc p).request = some r)
      (device : deviceOp K beyond r = some op)
      (taken : Step (driverCode f) w.driver.sys (p, some op) sys) :
      ClientStep f K beyond w p
        { w with driver := w.driver.after f sys (p, some op), calling := update w.calling p true }
  | inside {sys} (busy : w.calling p = true) (taken : Step (driverCode f) w.driver.sys (p, none) sys) :
      ClientStep f K beyond w p { w with driver := w.driver.after f sys (p, none) }
  | back {r retval pc} (busy : w.calling p = true) (asks : (w.pc p).request = some r)
      (returned : (w.driver.sys.pc p).returned = some retval)
      (step : AppendStep (w.pc p) r (deviceAnswer r retval (w.driver.memory p)) pc) :
      ClientStep f K beyond w p
        { w with pc := update w.pc p pc, calling := update w.calling p false }
  | read {block later pc} (free : w.calling p = false) (more : w.inbox p = block :: later)
      (step : AppendStep (w.pc p) .readSocket (.bytes block) pc) :
      ClientStep f K beyond w p
        { w with pc := update w.pc p pc, inbox := update w.inbox p later }
  | other {r a pc owner} (free : w.calling p = false) (device : deviceOp K beyond r = none)
      (nothing : r = .readSocket → ∀ data, a = .bytes data → data = [])
      (step : AppendStep (w.pc p) r a pc) :
      ClientStep f K beyond w p { w with pc := update w.pc p pc, owner := owner }

theorem answered_cases {r : Request} {a : Answer} (answers : w.answered p r a = some w') :
    (∃ block later, r = .readSocket ∧ a = .bytes block ∧ w.inbox p = block :: later ∧
        w' = { w with inbox := update w.inbox p later }) ∨
      (r = .readSocket → ∀ data, a = .bytes data → data = []) ∧
        ∃ owner, w' = { w with owner := owner } := by
  unfold Clients.answered at answers
  split at answers
  · cases inbox : w.inbox p with
    | nil =>
        simp only [inbox] at answers
        split at answers <;> cases answers
        rename_i empty
        refine .inr ⟨fun _ data same => ?_, w.owner, rfl⟩
        cases same
        exact empty
    | cons block later =>
        simp only [inbox] at answers
        split at answers <;> cases answers
        rename_i same
        exact .inl ⟨block, later, rfl, congrArg Answer.bytes same, rfl, rfl⟩
  · split at answers <;> cases answers
    exact .inr ⟨(by rintro ⟨⟩), _, rfl⟩
  · cases answers
    exact .inr ⟨(by rintro ⟨⟩), _, rfl⟩
  · cases answers
  · cases answers
  · rename_i noBytes _ _
    cases answers
    exact .inr ⟨fun reads data same => absurd same (noBytes data reads), w.owner, rfl⟩

theorem answer_cases {a : Answer} (taken : w.next f K beyond p (.answer a) = some w') :
    w.calling p = false ∧ ∃ r w₁ pc, (w.pc p).request = some r ∧ deviceOp K beyond r = none ∧
      w.answered p r a = some w₁ ∧ (w.pc p).resume a = some pc ∧
        w' = { w₁ with pc := update w.pc p pc } := by
  simp only [Clients.next] at taken
  split at taken
  · cases taken
  · rename_i free
    obtain ⟨r, asks, taken⟩ := Option.bind_eq_some_iff.mp taken
    split at taken
    · cases taken
    · rename_i device
      obtain ⟨w₁, answers, taken⟩ := Option.bind_eq_some_iff.mp taken
      obtain ⟨pc, resumes, rfl⟩ := Option.map_eq_some_iff.mp taken
      exact ⟨Bool.eq_false_iff.mpr free, r, w₁, pc, asks, by simpa using device, answers, resumes, rfl⟩

theorem clientStep_of {e : ClientEvent} (taken : w.next f K beyond p e = some w') :
    ClientStep f K beyond w p w' := by
  cases e with
  | call =>
      simp only [Clients.next] at taken
      split at taken
      · cases taken
      · rename_i free
        obtain ⟨op, asks, taken⟩ := Option.bind_eq_some_iff.mp taken
        obtain ⟨r, asks, device⟩ := Option.bind_eq_some_iff.mp asks
        obtain ⟨sys, computed, rfl⟩ := Option.map_eq_some_iff.mp taken
        exact .call (Bool.eq_false_iff.mpr free) asks device (exec_iff.mp computed)
  | inside =>
      simp only [Clients.next] at taken
      split at taken
      · rename_i busy
        obtain ⟨sys, computed, rfl⟩ := Option.map_eq_some_iff.mp taken
        exact .inside busy (exec_iff.mp computed)
      · cases taken
  | back =>
      simp only [Clients.next] at taken
      split at taken
      · rename_i busy
        obtain ⟨r, asks, taken⟩ := Option.bind_eq_some_iff.mp taken
        obtain ⟨retval, returned, taken⟩ := Option.bind_eq_some_iff.mp taken
        obtain ⟨pc, resumes, rfl⟩ := Option.map_eq_some_iff.mp taken
        exact .back busy asks returned (appendStep_of asks resumes)
      · cases taken
  | answer a =>
      obtain ⟨free, r, w₁, pc, asks, device, answers, resumes, rfl⟩ := answer_cases taken
      have step := appendStep_of asks resumes
      rcases answered_cases answers with ⟨block, later, rfl, rfl, more, rfl⟩ | ⟨nothing, owner, rfl⟩
      · exact .read free more step
      · exact .other free device nothing step

end

end Aesd.Server
