import Aesd.Driver.LineStore
import Aesd.Server.EchoLoop
import Aesd.Server.Rounds

/-! # A client, the server and the driver together

One connection on the character device, which nobody else uses, with a client that
sends packets: lines, and complete seek commands, each of which a single `read` of the
socket gets whole.  The steps are those of `appenddata`, of the driver with its mutexes,
and of the kernel between them, and no call fails but for what the driver refuses.  What
the client gets is what a store of lines gives: after each line the kept lines from
the offset on, after each accepted seek the same from the new offset.  A seek that
is refused is never answered, and the thread never comes back.
-/

namespace Aesd.Server

open Aesd.Lib Aesd.Lib.Mutex Aesd.Driver Function

/-- The driver, and what the next calls of `read` find in the socket, block by block,
    however the stream is cut; behind the last block the client closes its side. -/
structure Session where
  driver : Observed Unit
  inbox : List (List UInt8)

/-- The driver call behind a request, undisturbed; where the file stands does not
    matter to a write. -/
def deviceOp (K : Kernel) (beyond : Nat → Option SizeT) : Request → Option Op
  | .ioctl st =>
    some (.ioctl AESDCHAR_IOCSEEKTO (some ⟨st.writeCmd, st.writeCmdOffset, .granted, beyond⟩))
  | .writeData bytes =>
    if fits : bytes.length < 2 ^ 64 then some (.write 0 (.ofBytes K bytes fits)) else none
  | .pread pos => some (.read (BitVec.ofNat 64 pos) (plainRead (BitVec.ofNat 64 bufLen)))
  | _ => none

/-- What the thread is told of a driver call. -/
def deviceAnswer (r : Request) (retval : Int) (memory : UserMemory) : Answer :=
  if retval < 0 then .failed
  else match r with
    | .writeData _ => .count retval.toNat
    | .pread _ => .bytes memory.bytes
    | _ => .done

/-- What the thread is answered while no call fails and nobody clears the flag. -/
def session (f : FixedSizeLlseek) (K : Kernel) (beyond : Nat → Option SizeT) :
    Object Unit Session Request Answer where
  act s _ r a :=
    match deviceOp K beyond r with
    | some op =>
      (wholeCall f () s.driver op).bind fun w =>
        if a = deviceAnswer r ((w.sys.pc ()).returned.getD 0) (w.memory ()) then
          some { s with driver := w }
        else none
    | none =>
      match r, a with
      | .readSocket, .bytes data =>
        match s.inbox with
        | [] => if data = [] then some s else none
        | block :: later => if data = block then some { s with inbox := later } else none
      | .mallocSeekto, .parsed _ => some s
      | .writeSocket bytes, .count n => if n = bytes.length then some s else none
      | .openDataFile, .done | .lock, .done | .unlock, .done | .closeDataFile, .done => some s
      | _, _ => none

/-- A line, or a seek with the digits of its two numbers. -/
inductive Packet where
  | line (body : List UInt8)
  | seek (writeCmd writeCmdOffset : List UInt8) (st : Seekto)

namespace Packet

def text : Packet → List UInt8
  | .line body => body ++ [newline]
  | .seek writeCmd writeCmdOffset _ => commandText writeCmd writeCmdOffset

/-- The packet fits into one `read` with room to spare, and is what it says it is. -/
def WellFormed : Packet → Prop
  | .line body => newline ∉ body ∧ body.length + 1 < bufLen ∧ ¬iocString <+: body ++ [newline]
  | .seek writeCmd writeCmdOffset st => IsNumeral writeCmd st.writeCmd ∧
      IsNumeral writeCmdOffset st.writeCmdOffset ∧ (commandText writeCmd writeCmdOffset).length < bufLen

/-- The store behind the packet, unless it is a seek that is refused. -/
def effect (s : LineStore) : Packet → Option LineStore
  | .line body => some (s.store (body ++ [newline]))
  | .seek _ _ st => s.seek st.writeCmd.toNat st.writeCmdOffset.toNat

end Packet

/-- The replies of a store to a client, and the store at the end; behind a refused
    seek there is neither. -/
def replies : LineStore → List Packet → List (List UInt8) × Option LineStore
  | s, [] => ([], some s)
  | s, packet :: later =>
    match packet.effect s with
    | none => ([[]], none)
    | some s =>
      let (others, final) := replies s later
      (s.reply :: others, final)

/-- Packets that have been answered, with the replies so far and the store behind them. -/
inductive Answered (s₀ : LineStore) : List Packet → List (List UInt8) → LineStore → Prop where
  | nil : Answered s₀ [] [] s₀
  | snoc {packets rs s packet s'} (before : Answered s₀ packets rs s)
      (effect : packet.effect s = some s') :
      Answered s₀ (packets ++ [packet]) (rs ++ [s'.reply]) s'

theorem Answered.replies {s₀ s : LineStore} {packets : List Packet} {rs : List (List UInt8)}
    (answered : Answered s₀ packets rs s) (later : List Packet) :
    replies s₀ (packets ++ later) = (rs ++ (replies s later).1, (replies s later).2) := by
  induction answered generalizing later with
  | nil => rfl
  | @snoc packets rs s packet s' _ effect ih =>
      rw [List.append_assoc, ih, List.singleton_append, Server.replies, effect]
      simp

/-- Nobody is inside the driver, both mutexes are free, and it is a store of short lines. -/
structure AtRest (K : Kernel) (s : LineStore) (w : Observed Unit) : Prop where
  outside : (w.sys.pc ()).outside
  we : w.sys.owner .we = none
  cb : w.sys.owner .cb = none
  presents : Presents K s w.sys.data
  short : ∀ line ∈ s.lines, line.length ≤ bufLen

section

variable {K : Kernel} {f : FixedSizeLlseek} {s : LineStore} {w : Observed Unit}

theorem AtRest.reply_lt (rest : AtRest K s w) : s.reply.length < 2 ^ 31 :=
  (LineStore.reply_le rest.short).trans_lt (by decide)

theorem AtRest.called (rest : AtRest K s w) {op : Op} {r : CallResult} {d : Dev} {s' : LineStore}
    (acts : w.sys.data.callResult f op = some (r, d)) (passes : op.refused w.sys.data = false)
    (presents : Presents K s' d) (short : ∀ line ∈ s'.lines, line.length ≤ bufLen) :
    ∃ w', wholeCall f () w op = some w' ∧ (w'.sys.pc ()).returned = some r.retval ∧
      w'.memory () = r.memory ∧ AtRest K s' w' := by
  refine ⟨w.called () op r d, ?_, ?_, ?_, ?_⟩
  · rw [wholeCall_eq rest.outside rest.we rest.cb, acts, Option.map_some]
  · simp [Observed.called, Observed.midway, Pc.returned]
  · simp [Observed.called, Observed.midway]
  · have owners : w.ownersAfter () op = w.sys.owner := by
      simp only [Observed.ownersAfter, passes, Bool.false_eq_true, if_false]
    constructor
    · simp [Observed.called, Observed.midway, Pc.outside]
    · simp only [Observed.called, Observed.midway, owners, rest.we]
    · simp only [Observed.called, Observed.midway, owners, rest.cb]
    · exact presents
    · exact short

theorem session_act {beyond : Nat → Option SizeT} {r : Request} {op : Op} {w' : Observed Unit}
    {retval : Int} {inbox : List (List UInt8)} (device : deviceOp K beyond r = some op)
    (called : wholeCall f () w op = some w') (returned : (w'.sys.pc ()).returned = some retval)
    (a : Answer) (s' : Session) :
    (session f K beyond).act ⟨w, inbox⟩ () r a = some s' ↔
      a = deviceAnswer r retval (w'.memory ()) ∧ s' = ⟨w', inbox⟩ := by
  simp only [session, device, called, Option.bind_some, returned, Option.getD_some]
  split
  · rename_i same
    constructor
    · rintro ⟨⟩
      exact ⟨same, rfl⟩
    · rintro ⟨_, rfl⟩
      rfl
  · rename_i other
    constructor
    · rintro ⟨⟩
    · rintro ⟨same, _⟩
      exact absurd same other

theorem AtRest.write (rest : AtRest K s w) (f : FixedSizeLlseek) (beyond : Nat → Option SizeT)
    (room : bufLen ≤ K.kmallocMaxSize.toNat) {body : List UInt8} (fresh : newline ∉ body)
    (short : body.length + 1 < bufLen) :
    ∃ w', AtRest K (s.store (body ++ [newline])) w' ∧ ∀ inbox a s',
      (session f K beyond).act ⟨w, inbox⟩ () (.writeData (body ++ [newline])) a = some s' ↔
        a = .count (body ++ [newline]).length ∧ s' = ⟨w', inbox⟩ := by
  have length : (body ++ [newline]).length = body.length + 1 := by simp
  have fits : (body ++ [newline]).length < 2 ^ 64 := by
    simp only [bufLen] at short
    omega
  have small : (body ++ [newline]).length + 1 ≤ K.kmallocMaxSize.toNat := by omega
  have whole : WholeLine K (.ofBytes K (body ++ [newline]) fits) body :=
    ⟨rfl, fresh, small, WriteCall.ofBytes_undisturbed _ _ _⟩
  obtain ⟨d', pos', acts, presents⟩ := rest.presents.write 0 whole
  have lines : ∀ line ∈ (s.store (body ++ [newline])).lines, line.length ≤ bufLen := by
    intro line member
    rcases List.mem_append.mp member with old | new
    · exact rest.short line old
    · rw [List.mem_singleton.mp new]
      omega
  obtain ⟨w', called, returned, memory, rest'⟩ := rest.called (f := f) acts rfl presents lines
  refine ⟨w', rest', fun inbox a s' => ?_⟩
  have device : deviceOp K beyond (.writeData (body ++ [newline])) = some _ := dif_pos fits
  have all : (w'.sys.pc ()).returned = some ((body ++ [newline]).length : Int) := returned
  have positive : ¬((body ++ [newline]).length : Int) < 0 := by omega
  rw [session_act device called all, deviceAnswer, if_neg positive]
  rfl

theorem AtRest.pread (rest : AtRest K s w) (f : FixedSizeLlseek) (beyond : Nat → Option SizeT)
    {pos : Nat} (small : pos < 2 ^ 63) :
    ∃ bytes w', AtRest K s w' ∧ Serves s.reply (.pread pos, .bytes bytes) ∧ ∀ inbox a s',
      (session f K beyond).act ⟨w, inbox⟩ () (.pread pos) a = some s' ↔
        a = .bytes bytes ∧ s' = ⟨w', inbox⟩ := by
  have size : (BitVec.ofNat 64 bufLen).toNat = bufLen := rfl
  have positive : 0 < (BitVec.ofNat 64 bufLen).toNat := by decide
  obtain ⟨bytes, pos', acts, short, next, ended⟩ := rest.presents.read (f := f) small positive
  obtain ⟨w', called, returned, memory, rest'⟩ := rest.called (f := f) acts rfl rest.presents rest.short
  refine ⟨bytes, w', rest', ⟨size ▸ short, next, ended⟩, fun inbox a s' => ?_⟩
  have some : ¬(bytes.length : Int) < 0 := by omega
  rw [session_act rfl called returned, memory, deviceAnswer, if_neg some]

/-- The mutex is gone. -/
structure Gone (w : Observed Unit) : Prop where
  outside : (w.sys.pc ()).outside
  cb : w.sys.owner .cb ≠ none

theorem Gone.pread (gone : Gone w) (f : FixedSizeLlseek) (beyond : Nat → Option SizeT) (pos : Nat)
    (inbox : List (List UInt8)) (a : Answer) :
    (session f K beyond).act ⟨w, inbox⟩ () (.pread pos) a = none := by
  have stuck := wholeCall_read_taken (f := f) gone.outside gone.cb (BitVec.ofNat 64 pos)
    (c := plainRead (BitVec.ofNat 64 bufLen)) rfl
  simp only [session, deviceOp, stuck, Option.bind_none]

theorem AtRest.seek (rest : AtRest K s w) (f : FixedSizeLlseek) (beyond : Nat → Option SizeT)
    (st : Seekto) :
    match s.seek st.writeCmd.toNat st.writeCmdOffset.toNat with
    | some s' => ∃ w', AtRest K s' w' ∧ ∀ inbox a s'',
        (session f K beyond).act ⟨w, inbox⟩ () (.ioctl st) a = some s'' ↔
          a = .done ∧ s'' = ⟨w', inbox⟩
    | none => ∀ inbox a s'', (session f K beyond).act ⟨w, inbox⟩ () (.ioctl st) a = some s'' →
        ∃ w', s'' = ⟨w', inbox⟩ ∧ Gone w' := by
  have granted : (SeekCall.mk st.writeCmd st.writeCmdOffset .granted beyond).lock = .granted := rfl
  have outcome := rest.presents.seek (f := f) granted
  cases sought : s.seek st.writeCmd.toNat st.writeCmdOffset.toNat with
  | some s' =>
      simp only [sought] at outcome ⊢
      obtain ⟨d', passes, acts, presents⟩ := outcome
      have lines : ∀ line ∈ s'.lines, line.length ≤ bufLen := by
        rw [LineStore.seek] at sought
        split at sought
        · cases sought
          exact rest.short
        · cases sought
      obtain ⟨w', called, returned, _, rest'⟩ := rest.called (f := f) acts passes presents lines
      refine ⟨w', rest', fun inbox a s'' => ?_⟩
      rw [session_act rfl called returned]
      rfl
  | none =>
      simp only [sought] at outcome ⊢
      intro inbox a s'' taken
      have whole := wholeCall_eq (f := f) rest.outside rest.we rest.cb
        (.ioctl AESDCHAR_IOCSEEKTO (some ⟨st.writeCmd, st.writeCmdOffset, .granted, beyond⟩))
      rcases outcome with never | ⟨refused, acts⟩
      · rw [never, Option.map_none] at whole
        simp [session, deviceOp, whole] at taken
      · rw [acts, Option.map_some] at whole
        have returned : ((w.called () (.ioctl AESDCHAR_IOCSEEKTO
            (some ⟨st.writeCmd, st.writeCmdOffset, .granted, beyond⟩)) ⟨-EINVAL, [], none⟩
              w.sys.data).sys.pc ()).returned = some (-EINVAL) := by
          simp [Observed.called, Observed.midway, Pc.returned]
        rw [session_act rfl whole returned] at taken
        refine ⟨_, taken.2, ?_, ?_⟩
        · simp [Observed.called, Observed.midway, Pc.outside]
        · simp [Observed.called, Observed.midway, Observed.ownersAfter, refused]

end

end Aesd.Server
