import Aesd.Server.AppendData

/-! # What a connection does with its chunks

A run of `appenddata` falls into rounds, one for each chunk that it receives.
`rounds` reads them off the calls the thread has made; `Handled` says what a
round is once the thread is back in front of `read`, whatever the buffer held
before and whatever the surroundings answered, as long as no call failed.
-/

namespace Aesd.Server

open Aesd.Lib

/-- A chunk and what was done with it. -/
structure Round where
  chunk : List UInt8
  /-- The seeks sent to the data source. -/
  commands : List Seekto
  /-- The bytes handed to `write` on the data source. -/
  handed : List UInt8
  /-- The bytes read back from the data source. -/
  fetched : List UInt8
  /-- The bytes that the client's socket accepted. -/
  sent : List UInt8
  /-- The data source was read to its end. -/
  echoed : Bool
  deriving Repr, DecidableEq

/-- A chunk that nothing has been done with yet. -/
def Round.received (chunk : List UInt8) : Round := ⟨chunk, [], [], [], [], false⟩

/-- One more call, and its answer. -/
def note : List Round → Request × Answer → List Round
  | rounds, (.readSocket, .bytes data) =>
    if data = [] then rounds else Round.received data :: rounds
  | r :: rounds, (.ioctl seekto, _) => { r with commands := r.commands ++ [seekto] } :: rounds
  | r :: rounds, (.writeData bytes, _) => { r with handed := r.handed ++ bytes } :: rounds
  | r :: rounds, (.pread _, .bytes data) =>
    { r with fetched := r.fetched ++ data, echoed := data = [] } :: rounds
  | r :: rounds, (.writeSocket bytes, .count n) => { r with sent := r.sent ++ bytes.take n } :: rounds
  | rounds, _ => rounds

/-- The rounds of a run, the latest first. -/
def rounds (labels : List (Request × Answer)) : List Round := labels.foldl note []

/-- The chunks of a run, in the order they were read. -/
def chunks (labels : List (Request × Answer)) : List (List UInt8) :=
  (rounds labels).reverse.map Round.chunk

/-- The seeks that a run has sent. -/
def commands (labels : List (Request × Answer)) : List Seekto :=
  (rounds labels).reverse.flatMap Round.commands

/-- The bytes that a run has handed to `write` on the data source. -/
def handed (labels : List (Request × Answer)) : List UInt8 :=
  (rounds labels).reverse.flatMap Round.handed

theorem rounds_append (labels : List (Request × Answer)) (label : Request × Answer) :
    rounds (labels ++ [label]) = note (rounds labels) label := by
  rw [rounds, List.foldl_append]
  rfl

/-- A chunk is taken as a command when it, with the bytes that the buffer holds
    behind it, starts with the word. -/
inductive Effect (chunk : List UInt8) : List Seekto → List UInt8 → Prop where
  | command (behind : List UInt8) (env : ParseEnv) (word : iocString <+: chunk ++ behind) :
      Effect chunk [parseIocCommand env (chunk ++ behind) 0] []
  | data (behind : List UInt8) (plain : ¬iocString <+: chunk ++ behind) : Effect chunk [] chunk

/-- A round whose chunk has had its effect. -/
structure Stored (r : Round) : Prop where
  nonempty : r.chunk ≠ []
  short : r.chunk.length ≤ bufLen
  effect : Effect r.chunk r.commands r.handed

/-- A round that is over. -/
structure Handled (r : Round) : Prop extends Stored r where
  sent : r.sent = r.fetched
  echoed : r.echoed = true ↔ r.chunk.length < bufLen
  silent : ¬r.chunk.length < bufLen → r.sent = []

/-- A round that has not been answered. -/
structure Unanswered (r : Round) : Prop extends Stored r where
  fetched : r.fetched = []
  sent : r.sent = []
  echoed : r.echoed = false

/-- A chunk just received: it stands at the start of the buffer. -/
structure Fresh (buf : Buf) (readcount : Nat) (r : Round) : Prop where
  chunk : buf.bytes.take readcount = r.chunk
  readcount : readcount = r.chunk.length
  nonempty : r.chunk ≠ []
  short : r.chunk.length ≤ bufLen
  untouched : r = Round.received r.chunk

/-- The latest round is as `now` says; the earlier ones are over. -/
structure Latest (now : Round → Prop) (rs : List Round) : Prop where
  split : ∃ r earlier, rs = r :: earlier ∧ now r ∧ ∀ r ∈ earlier, Handled r

/-- What the rounds of a run look like at a program point. -/
def Handling : AppendPc → List Round → Prop
  | .start _, rs => rs = []
  | .loop _, rs | .close _, rs | .returned _, rs => ∀ r ∈ rs, Handled r
  | .parse buf readcount pos, rs =>
    Latest (fun r => Fresh buf readcount r ∧ iocString <+: buf.bytes ∧ pos = 0) rs
  | .ioctl buf readcount seekto, rs =>
    Latest (fun r => Fresh buf readcount r ∧ iocString <+: buf.bytes ∧
      ∃ env, seekto = parseIocCommand env buf.bytes 0) rs
  | .lock buf readcount, rs | .write buf readcount, rs =>
    Latest (fun r => Fresh buf readcount r ∧ ¬iocString <+: buf.bytes) rs
  | .unlock _ readcount failed, rs =>
    failed = false ∧ Latest (fun r => Unanswered r ∧ readcount = r.chunk.length) rs
  | .echo _ _, rs =>
    Latest (fun r => Stored r ∧ r.chunk.length < bufLen ∧ r.sent = r.fetched) rs
  | .send buf _ rc, rs =>
    Latest (fun r => Stored r ∧ r.chunk.length < bufLen ∧
      r.sent ++ buf.bytes.take rc = r.fetched) rs ∧ rc ≤ bufLen
  | .undefined, _ => True

section

variable {buf : Buf} {readcount : Nat} {r : Round} {rs : List Round}

theorem Fresh.bytes (fresh : Fresh buf readcount r) :
    buf.bytes = r.chunk ++ buf.bytes.drop readcount := by
  rw [← fresh.chunk, List.take_append_drop]

theorem Latest.imp {now now' : Round → Prop} (latest : Latest now rs)
    (weaker : ∀ r, now r → now' r) : Latest now' rs := by
  obtain ⟨r, earlier, rfl, here, others⟩ := latest.split
  exact ⟨r, earlier, rfl, weaker r here, others⟩

theorem Latest.note {now now' : Round → Prop} (latest : Latest now rs) {label : Request × Answer}
    (step : ∀ r earlier, now r → ∃ r', note (r :: earlier) label = r' :: earlier ∧ now' r') :
    Latest now' (note rs label) := by
  obtain ⟨r, earlier, rfl, here, others⟩ := latest.split
  obtain ⟨r', same, there⟩ := step r earlier here
  exact ⟨r', earlier, same, there, others⟩

theorem Latest.finished {now : Round → Prop} (latest : Latest now rs)
    (finished : ∀ r, now r → Handled r) : ∀ r ∈ rs, Handled r := by
  obtain ⟨r, earlier, rfl, here, others⟩ := latest.split
  exact List.forall_mem_cons.mpr ⟨finished r here, others⟩

theorem handling_replyOrNext (buf : Buf)
    (latest : Latest (fun r => Unanswered r ∧ readcount = r.chunk.length) rs) :
    Handling (AppendPc.replyOrNext buf readcount) rs := by
  rw [AppendPc.replyOrNext]
  split
  · rename_i less
    refine latest.imp ?_
    rintro r ⟨unanswered, rfl⟩
    exact ⟨unanswered.toStored, less, by rw [unanswered.sent, unanswered.fetched]⟩
  · rename_i full
    refine latest.finished ?_
    rintro r ⟨unanswered, rfl⟩
    exact ⟨unanswered.toStored, by rw [unanswered.sent, unanswered.fetched],
      by simp [unanswered.echoed, full], fun _ => unanswered.sent⟩

theorem fresh_fill (buf : Buf) {data : List UInt8} (nonempty : data ≠ [])
    (short : data.length ≤ bufLen) : Fresh (buf.fill data) data.length (Round.received data) :=
  ⟨buf.take_fill short, rfl, nonempty, short, rfl⟩

theorem unanswered_ioctl {env : ParseEnv} (fresh : Fresh buf readcount r)
    (word : iocString <+: buf.bytes) :
    Unanswered { r with commands := r.commands ++ [parseIocCommand env buf.bytes 0] } := by
  have bytes := fresh.bytes
  obtain ⟨_, _, nonempty, short, untouched⟩ := fresh
  have effect : Effect r.chunk [parseIocCommand env buf.bytes 0] [] := by
    rw [bytes] at word ⊢
    exact .command _ env word
  rw [untouched]
  exact ⟨⟨nonempty, short, effect⟩, rfl, rfl, rfl⟩

theorem unanswered_write (fresh : Fresh buf readcount r) (plain : ¬iocString <+: buf.bytes) :
    Unanswered { r with handed := r.handed ++ buf.bytes.take readcount } := by
  have bytes := fresh.bytes
  obtain ⟨chunk, _, nonempty, short, untouched⟩ := fresh
  have effect : Effect r.chunk [] r.chunk := by
    rw [bytes] at plain
    exact .data _ plain
  rw [chunk, untouched]
  exact ⟨⟨nonempty, short, effect⟩, rfl, rfl, rfl⟩

theorem handled_echoed (stored : Stored r) (less : r.chunk.length < bufLen)
    (sent : r.sent = r.fetched) : Handled { r with fetched := r.fetched ++ [], echoed := true } :=
  ⟨⟨stored.nonempty, stored.short, stored.effect⟩, by rw [sent, List.append_nil], by simp [less],
    fun full => absurd less full⟩

end

theorem handling_step {pc pc' : AppendPc} {rs : List Round} {r : Request} {a : Answer}
    (handling : Handling pc rs) (calm : trouble r a = false) (step : AppendStep pc r a pc') :
    Handling pc' (note rs (r, a)) := by
  cases step with
  | openFailed | stopped | readFailed | writeFailed | preadFailed | sendFailed => cases calm
  | opened buf =>
      obtain rfl : rs = [] := handling
      exact List.forall_mem_nil _
  | fin buf => exact handling
  | command buf nonempty short word =>
      rw [note, if_neg nonempty]
      exact ⟨_, rs, rfl, ⟨fresh_fill buf nonempty short, word, rfl⟩, handling⟩
  | data buf nonempty short plain =>
      rw [note, if_neg nonempty]
      exact ⟨_, rs, rfl, ⟨fresh_fill buf nonempty short, plain⟩, handling⟩
  | parsed buf readcount pos env =>
      refine Latest.note handling fun r earlier here => ⟨r, rfl, here.1, here.2.1, env, ?_⟩
      rw [here.2.2]
  | ioctl buf readcount seekto _ =>
      refine handling_replyOrNext buf (Latest.note handling fun r earlier here => ⟨_, rfl, ?_⟩)
      obtain ⟨fresh, word, env, rfl⟩ := here
      exact ⟨unanswered_ioctl fresh word, fresh.readcount⟩
  | locked buf readcount => exact Latest.note handling fun r earlier here => ⟨r, rfl, here⟩
  | wrote buf _ =>
      refine ⟨rfl, Latest.note handling fun r earlier here => ⟨_, rfl, ?_⟩⟩
      exact ⟨unanswered_write here.1 here.2, here.1.readcount⟩
  | unlocked buf readcount =>
      exact handling_replyOrNext buf
        (Latest.note handling.2 fun r earlier here => ⟨r, rfl, here⟩)
  | unlockedFailed buf readcount => cases handling.1
  | preadEnd buf pos =>
      have finished : Latest Handled (note rs (.pread pos, .bytes [])) :=
        Latest.note handling fun r earlier here =>
          ⟨_, rfl, handled_echoed here.1 here.2.1 here.2.2⟩
      exact finished.finished fun _ => id
  | preadBlock buf pos nonempty short =>
      refine ⟨Latest.note handling fun r earlier here => ⟨_, rfl, ?_⟩, short⟩
      obtain ⟨stored, less, sent⟩ := here
      refine ⟨⟨stored.nonempty, stored.short, stored.effect⟩, less, ?_⟩
      rw [buf.take_fill short, sent]
  | sendShort buf pos short =>
      have whole := of_decide_eq_false calm
      rw [List.length_take, buf.length_eq] at whole
      have block := handling.2
      simp only [bufLen] at block
      omega
  | sent buf pos rc =>
      have here : Latest (fun r => Stored r ∧ r.chunk.length < bufLen ∧ r.sent = r.fetched)
          (note rs (.writeSocket (buf.bytes.take rc), .count rc)) := by
        refine Latest.note handling.1 fun r earlier here => ⟨_, rfl, ?_⟩
        obtain ⟨stored, less, rest⟩ := here
        refine ⟨⟨stored.nonempty, stored.short, stored.effect⟩, less, ?_⟩
        simp only [List.take_take, Nat.min_self, rest]
      rw [AppendPc.advance]
      split
      · exact here
      · trivial
  | closed r _ =>
      simp only [note]
      exact handling

/-- The rounds of every run without trouble. -/
theorem handling_of_run {labels : List (Request × Answer)} {pc : AppendPc}
    (run : connection.Run untroubled labels pc) : Handling pc (rounds labels) := by
  refine run.induct (fun labels pc => Handling pc (rounds labels)) ?_ ?_
  · rintro _ ⟨buf, rfl⟩
    rfl
  · rintro labels pc ⟨r, a⟩ pc' handling calm ⟨asks, resumes⟩
    rw [rounds_append]
    exact handling_step handling calm (appendStep_of asks resumes)

/-- Between chunks, all rounds are over. -/
theorem handled_of_run {labels : List (Request × Answer)} {pc : AppendPc}
    (run : connection.Run untroubled labels pc) (idle : pc.idle) :
    ∀ r ∈ rounds labels, Handled r := by
  have handling := handling_of_run run
  cases pc with
  | start buf =>
      rw [show rounds labels = [] from handling]
      exact List.forall_mem_nil _
  | loop | close | returned => exact handling
  | _ => cases idle

end Aesd.Server
