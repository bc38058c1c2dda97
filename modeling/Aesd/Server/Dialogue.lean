import Aesd.Server.Conversation

/-! # A conversation from the connection to its end

The client waits for each reply before it sends more, so that a `read` gets one
packet.  Between two packets the driver is at rest and is a store of lines; `Talk`
says how far the thread is inside a packet, and what it has sent by then.
-/

namespace Aesd.Server

open Aesd.Lib Aesd.Lib.Mutex Aesd.Driver Function

/-- The bytes that the client has got after each packet. -/
def sents (labels : List (Request × Answer)) : List (List UInt8) :=
  (rounds labels).reverse.map Round.sent

/-- A bound for the calls that the replies take: two for each byte, five more around it. -/
def calls (rs : List (List UInt8)) : Nat := (rs.map fun r => 5 + 2 * r.length).sum

/-- The thread and the driver, from a driver at rest on. -/
abbrev dialogue (f : FixedSizeLlseek) (beyond : Nat → Option SizeT) (K : Kernel) (s₀ : LineStore)
    (packets : List Packet) : Lts (World Unit AppendPc Session) (Unit × Request × Answer) :=
  appenddata.threads (session f K beyond)
    (fun s => AtRest K s₀ s.driver ∧ s.inbox = packets.map Packet.text) AppendPc.entered

theorem sents_append (labels : List (Request × Answer)) (label : Request × Answer) :
    sents (labels ++ [label]) = ((note (rounds labels) label).map Round.sent).reverse := by
  rw [sents, rounds_append, List.map_reverse]

theorem sents_received (labels : List (Request × Answer)) {data : List UInt8} (nonempty : data ≠ []) :
    sents (labels ++ [(.readSocket, .bytes data)]) = sents labels ++ [[]] := by
  rw [sents_append, note, if_neg nonempty, sents, List.map_reverse]
  simp [Round.received]

theorem sents_fin (labels : List (Request × Answer)) :
    sents (labels ++ [(.readSocket, .bytes [])]) = sents labels := by
  rw [sents_append, note, if_pos rfl, sents, List.map_reverse]

theorem sents_closed (labels : List (Request × Answer)) (a : Answer) :
    sents (labels ++ [(.closeDataFile, a)]) = sents labels := by
  rw [sents_append, sents, List.map_reverse]
  rfl

/-- Inside a packet only what is delivered counts. -/
theorem sents_inside {labels : List (Request × Answer)} {rs : List (List UInt8)} {sent : List UInt8}
    (before : sents labels = rs ++ [sent]) {r : Request} (inside : r ≠ .readSocket) (a : Answer) :
    sents (labels ++ [(r, a)]) = rs ++ [sent ++ delivered (r, a)] := by
  rw [sents_append]
  rw [sents, List.map_reverse] at before
  cases shape : rounds labels with
  | nil => simp [shape] at before
  | cons round earlier =>
      rw [shape] at before
      simp only [List.map_cons, List.reverse_cons] at before
      obtain ⟨rfl, last⟩ := List.append_inj' before rfl
      obtain rfl := List.singleton_inj.mp last
      cases r with
      | readSocket => exact absurd rfl inside
      | pread pos | writeSocket bytes => cases a <;> simp [note, delivered]
      | _ => simp [note, delivered]

theorem calls_snoc (rs : List (List UInt8)) (r : List UInt8) :
    calls (rs ++ [r]) = calls rs + (5 + 2 * r.length) := by
  simp [calls]

/-- All packets so far are answered. -/
structure Idle (s₀ : LineStore) (packets later : List Packet) (s : LineStore)
    (labels : List (Request × Answer)) (n : Nat) : Prop where
  split : ∃ done, packets = done ++ later ∧ Answered s₀ done (sents labels) s
  few : labels.length ≤ calls (sents labels) + n

/-- A packet has been read, and so much of its reply has been sent. -/
structure Turn (s₀ : LineStore) (packets : List Packet) (packet : Packet) (later : List Packet)
    (s : LineStore) (labels : List (Request × Answer)) (sent : List UInt8) (n : Nat) : Prop where
  split : ∃ done rs, packets = done ++ packet :: later ∧ Answered s₀ done rs s ∧
    sents labels = rs ++ [sent] ∧ labels.length ≤ calls rs + n

inductive Talk (K : Kernel) (s₀ : LineStore) (packets : List Packet)
    (labels : List (Request × Answer)) : AppendPc → Session → Prop where
  | start {buf w} (first : labels = []) (rest : AtRest K s₀ w) :
      Talk K s₀ packets labels (.start buf) ⟨w, packets.map Packet.text⟩
  | loop {later s buf w} (idle : Idle s₀ packets later s labels 1) (rest : AtRest K s w) :
      Talk K s₀ packets labels (.loop buf) ⟨w, later.map Packet.text⟩
  | parse {x y st later s buf readcount w} (turn : Turn s₀ packets (.seek x y st) later s labels [] 2)
      (rest : AtRest K s w) (formed : (Packet.seek x y st).WellFormed)
      (text : commandText x y <+: buf.bytes) (short : readcount < bufLen) :
      Talk K s₀ packets labels (.parse buf readcount 0) ⟨w, later.map Packet.text⟩
  | ioctl {x y st later s buf readcount w} (turn : Turn s₀ packets (.seek x y st) later s labels [] 3)
      (rest : AtRest K s w) (short : readcount < bufLen) :
      Talk K s₀ packets labels (.ioctl buf readcount st) ⟨w, later.map Packet.text⟩
  | lock {body later s buf readcount w} (turn : Turn s₀ packets (.line body) later s labels [] 2)
      (rest : AtRest K s w) (formed : (Packet.line body).WellFormed)
      (text : buf.bytes.take readcount = body ++ [newline]) (short : readcount < bufLen) :
      Talk K s₀ packets labels (.lock buf readcount) ⟨w, later.map Packet.text⟩
  | write {body later s buf readcount w} (turn : Turn s₀ packets (.line body) later s labels [] 3)
      (rest : AtRest K s w) (formed : (Packet.line body).WellFormed)
      (text : buf.bytes.take readcount = body ++ [newline]) (short : readcount < bufLen) :
      Talk K s₀ packets labels (.write buf readcount) ⟨w, later.map Packet.text⟩
  | unlock {body later s buf readcount w} (turn : Turn s₀ packets (.line body) later s labels [] 4)
      (rest : AtRest K (s.store (body ++ [newline])) w) (short : readcount < bufLen) :
      Talk K s₀ packets labels (.unlock buf readcount false) ⟨w, later.map Packet.text⟩
  | echo {packet later s s' echoes pc w}
      (turn : Turn s₀ packets packet later s labels (echoes.flatMap delivered) (5 + echoes.length))
      (effect : packet.effect s = some s') (rest : AtRest K s' w)
      (echoing : Echoing s'.reply echoes pc) (busy : pc.idle = false) :
      Talk K s₀ packets labels pc ⟨w, later.map Packet.text⟩
  | hung {packet later s buf w} (turn : Turn s₀ packets packet later s labels [] 4)
      (effect : packet.effect s = none) (gone : Gone w) :
      Talk K s₀ packets labels (.echo buf 0) ⟨w, later.map Packet.text⟩
  | close {s w} (idle : Idle s₀ packets [] s labels 2) (rest : AtRest K s w) :
      Talk K s₀ packets labels (.close 0) ⟨w, []⟩
  | returned {s w} (idle : Idle s₀ packets [] s labels 3) (rest : AtRest K s w) :
      Talk K s₀ packets labels (.returned 0) ⟨w, []⟩

section

variable {K : Kernel} {f : FixedSizeLlseek} {beyond : Nat → Option SizeT} {s₀ s s' : LineStore}
  {packets later : List Packet} {packet : Packet} {labels : List (Request × Answer)}
  {sent : List UInt8} {n : Nat} {r : Request} {a : Answer}

theorem Turn.call (turn : Turn s₀ packets packet later s labels sent n) (inside : r ≠ .readSocket) :
    Turn s₀ packets packet later s (labels ++ [(r, a)]) (sent ++ delivered (r, a)) (n + 1) := by
  obtain ⟨done, rs, split, answered, sents, few⟩ := turn.split
  refine ⟨done, rs, split, answered, sents_inside sents inside a, ?_⟩
  rw [List.length_append, List.length_singleton]
  omega

theorem Idle.read (idle : Idle s₀ packets (packet :: later) s labels 1) (nonempty : packet.text ≠ []) :
    Turn s₀ packets packet later s (labels ++ [(.readSocket, .bytes packet.text)]) [] 2 := by
  obtain ⟨⟨done, split, answered⟩, few⟩ := idle
  refine ⟨done, _, split, answered, sents_received labels nonempty, ?_⟩
  rw [List.length_append, List.length_singleton]
  omega

theorem Turn.answered (turn : Turn s₀ packets packet later s labels s'.reply (6 + 2 * s'.reply.length))
    (effect : packet.effect s = some s') : Idle s₀ packets later s' labels 1 := by
  obtain ⟨done, rs, split, answered, sents, few⟩ := turn.split
  constructor
  · refine ⟨done ++ [packet], ?_, ?_⟩
    · rw [split, List.append_assoc, List.singleton_append]
    · rw [sents]
      exact answered.snoc effect
  · rw [sents, calls_snoc]
    omega

theorem replyOrNext_short {buf : Buf} {readcount : Nat} (short : readcount < bufLen) :
    AppendPc.replyOrNext buf readcount = .echo buf 0 := if_pos short

theorem Echoing.start (D : List UInt8) (buf : Buf) : Echoing D [] (.echo buf 0) :=
  .echo (Nat.zero_le _) rfl (Nat.zero_le _)

theorem session_read {w : Observed Unit} {inbox : List (List UInt8)} {there : Session}
    (acts : (session f K beyond).act ⟨w, inbox⟩ () .readSocket a = some there) :
    (inbox = [] ∧ a = .bytes [] ∧ there = ⟨w, []⟩) ∨
      ∃ data later, inbox = data :: later ∧ a = .bytes data ∧ there = ⟨w, later⟩ := by
  cases a with
  | bytes data =>
      cases inbox with
      | nil =>
          simp only [session, deviceOp] at acts
          split at acts <;> cases acts
          rename_i empty
          exact .inl ⟨rfl, congrArg Answer.bytes empty, rfl⟩
      | cons packet later =>
          simp only [session, deviceOp] at acts
          split at acts <;> cases acts
          rename_i same
          exact .inr ⟨packet, later, rfl, congrArg Answer.bytes same, rfl⟩
  | _ => cases acts

theorem not_word_of_line {body behind : List UInt8} (plain : ¬iocString <+: body ++ [newline]) :
    ¬iocString <+: (body ++ [newline]) ++ behind := by
  intro word
  rcases List.prefix_or_prefix_of_prefix word (List.prefix_append _ _) with inside | short
  · exact plain inside
  · have fresh : newline ∉ iocString := by decide
    exact fresh (short.subset (by simp))

theorem Packet.text_ne_nil (packet : Packet) : packet.text ≠ [] := by
  cases packet <;> simp [Packet.text, commandText]

theorem Packet.WellFormed.short (formed : packet.WellFormed) : packet.text.length < bufLen := by
  cases packet with
  | line body => simpa [Packet.text] using formed.2.1
  | seek x y st => exact formed.2.2

theorem received_packet (formed : packet.WellFormed) {buf : Buf} {pc' : AppendPc}
    {a : Answer} (step : AppendStep (.loop buf) .readSocket a pc')
    (reads : a = .bytes packet.text) {w : Observed Unit} (rest : AtRest K s w)
    (turn : Turn s₀ packets packet later s labels [] 2) :
    Talk K s₀ packets labels pc' ⟨w, later.map Packet.text⟩ := by
  have short := formed.short
  have bytes := buf.fill_bytes short.le
  cases step with
  | stopped | readFailed => cases reads
  | fin => exact absurd (Answer.bytes.inj reads).symm packet.text_ne_nil
  | command _ nonempty fits word =>
      obtain rfl := Answer.bytes.inj reads
      rw [bytes] at word
      cases packet with
      | line body => exact absurd word (not_word_of_line formed.2.2)
      | seek x y st => exact .parse turn rest formed (bytes ▸ List.prefix_append _ _) short
  | data _ nonempty fits plain =>
      obtain rfl := Answer.bytes.inj reads
      rw [bytes] at plain
      cases packet with
      | line body => exact .lock turn rest formed (buf.take_fill short.le) short
      | seek x y st =>
          refine absurd ?_ plain
          simp only [Packet.text, commandText, List.append_assoc]
          exact List.prefix_append _ _

theorem Turn.mono (turn : Turn s₀ packets packet later s labels sent n) {m : Nat} (le : n ≤ m) :
    Turn s₀ packets packet later s labels sent m := by
  obtain ⟨done, rs, split, answered, sents, few⟩ := turn.split
  exact ⟨done, rs, split, answered, sents, by omega⟩

theorem Turn.echo (turn : Turn s₀ packets packet later s labels [] 5) (effect : packet.effect s = some s')
    {w : Observed Unit} (rest : AtRest K s' w) (buf : Buf) :
    Talk K s₀ packets labels (.echo buf 0) ⟨w, later.map Packet.text⟩ :=
  .echo turn effect rest (.start _ buf) rfl

theorem Turn.echoed {echoes : List (Request × Answer)} {pc pc' : AppendPc} {w : Observed Unit}
    (turn : Turn s₀ packets packet later s labels (echoes.flatMap delivered) (5 + echoes.length))
    (effect : packet.effect s = some s') (rest : AtRest K s' w) (echoing : Echoing s'.reply echoes pc)
    (serves : Serves s'.reply (r, a)) (step : echoLoop.step pc (r, a) pc') :
    Talk K s₀ packets (labels ++ [(r, a)]) pc' ⟨w, later.map Packet.text⟩ := by
  have apart : r ≠ .readSocket := by
    rintro rfl
    cases a <;> exact serves
  have further := echoing.step rest.reply_lt serves step
  have turn' := turn.call (a := a) apart
  rw [← flatMap_delivered_append] at turn'
  have one : 5 + echoes.length + 1 = 5 + (echoes ++ [(r, a)]).length := by
    rw [List.length_append, List.length_singleton, Nat.add_assoc]
  rw [one] at turn'
  cases further with
  | echo inside sent few => exact .echo turn' effect rest (.echo inside sent few) rfl
  | send some inside block sent few => exact .echo turn' effect rest (.send some inside block sent few) rfl
  | done sent few =>
      rw [sent] at turn'
      exact .loop ((turn'.mono (by omega)).answered effect) rest

theorem Talk.step {pc pc' : AppendPc} {here there : Session} (room : bufLen ≤ K.kmallocMaxSize.toNat)
    (formed : ∀ p ∈ packets, p.WellFormed) (talk : Talk K s₀ packets labels pc here)
    (acts : (session f K beyond).act here () r a = some there) (taken : echoLoop.step pc (r, a) pc') :
    Talk K s₀ packets (labels ++ [(r, a)]) pc' there := by
  have step := appendStep_of taken.1 taken.2
  cases talk with
  | start first rest =>
      subst first
      cases step with
      | openFailed => cases acts
      | opened =>
          cases acts
          exact .loop ⟨⟨[], rfl, .nil⟩, Nat.le_refl 1⟩ rest
  | @loop later s buf w idle rest =>
      obtain rfl : r = .readSocket := by cases step <;> rfl
      rcases session_read acts with ⟨empty, rfl, rfl⟩ | ⟨data, others, more, rfl, rfl⟩
      · obtain rfl := List.map_eq_nil_iff.mp empty
        obtain ⟨⟨done, split, answered⟩, few⟩ := idle
        cases step with
        | command _ nonempty | data _ nonempty => exact absurd rfl nonempty
        | fin =>
            refine .close ⟨⟨done, split, ?_⟩, ?_⟩ rest
            · rwa [sents_fin]
            · rw [sents_fin, List.length_append, List.length_singleton]
              omega
      · obtain ⟨packet, later, rfl, rfl, rfl⟩ := List.map_eq_cons_iff.mp more
        have member : packet ∈ packets := by
          obtain ⟨⟨done, rfl, _⟩, _⟩ := idle
          simp
        exact received_packet (formed packet member) step rfl rest (idle.read packet.text_ne_nil)
  | parse turn rest formed text short =>
      cases step with
      | parsed _ _ _ env =>
          cases acts
          obtain ⟨behind, text⟩ := text
          rw [← text, parseIocCommand_commandText formed.1 formed.2.1]
          exact .ioctl (turn.call (by rintro ⟨⟩)) rest short
  | @ioctl x y st later s buf readcount w turn rest short =>
      cases step with
      | ioctl _ _ _ ignored =>
          rw [replyOrNext_short short]
          have outcome := rest.seek f beyond st
          cases sought : s.seek st.writeCmd.toNat st.writeCmdOffset.toNat with
          | some s' =>
              simp only [sought] at outcome
              obtain ⟨w', rest', answers⟩ := outcome
              obtain ⟨rfl, rfl⟩ := (answers _ _ _).mp acts
              have more := turn.call (a := .done) (r := .ioctl st) (by rintro ⟨⟩)
              exact (more.mono (Nat.le_succ _)).echo sought rest' buf
          | none =>
              simp only [sought] at outcome
              obtain ⟨w', rfl, gone⟩ := outcome _ _ _ acts
              have more := turn.call (a := a) (r := .ioctl st) (by rintro ⟨⟩)
              rw [show delivered (.ioctl st, a) = [] by rcases ignored with rfl | rfl <;> rfl] at more
              exact .hung more sought gone
  | lock turn rest formed text short =>
      cases step with
      | locked =>
          cases acts
          exact .write (turn.call (by rintro ⟨⟩)) rest formed text short
  | @write body later s buf readcount w turn rest formed text short =>
      obtain ⟨w', rest', answers⟩ := rest.write f beyond room formed.1 formed.2.1
      cases step with
      | writeFailed =>
          rw [text] at acts
          cases ((answers _ _ _).mp acts).1
      | @wrote _ _ n within =>
          rw [text] at acts ⊢
          obtain ⟨rfl, rfl⟩ := (answers _ _ _).mp acts |>.imp_left Answer.count.inj
          have more := turn.call (a := .count (body ++ [newline]).length)
            (r := .writeData (body ++ [newline])) (by rintro ⟨⟩)
          exact .unlock more rest' short
  | @unlock body later s buf readcount w turn rest short =>
      cases step with
      | unlocked =>
          cases acts
          have more := turn.call (a := .done) (r := .unlock) (by rintro ⟨⟩)
          rw [replyOrNext_short short]
          exact more.echo rfl rest buf
  | @echo packet later s s' echoes pc w turn effect rest echoing busy =>
      cases echoing with
      | done => cases busy
      | @echo buf pos inside sent few =>
          have total := rest.reply_lt
          have small : pos < 2 ^ 63 := by omega
          obtain ⟨bytes, w', rest', serves, answers⟩ := rest.pread f beyond small
          obtain rfl : r = .pread pos := by cases step <;> rfl
          obtain ⟨rfl, rfl⟩ := (answers _ _ _).mp acts
          exact turn.echoed effect rest' (.echo inside sent few) serves taken
      | @send buf pos rc some inside block sent few =>
          obtain rfl : r = .writeSocket (buf.bytes.take rc) := by cases step <;> rfl
          obtain ⟨n, rfl⟩ : ∃ n, a = .count n := by
            cases step with
            | sendFailed => cases acts
            | sendShort | sent => exact ⟨_, rfl⟩
          simp only [session, deviceOp] at acts
          split at acts <;> cases acts
          rename_i all
          exact turn.echoed effect rest (.send some inside block sent few) all taken
  | hung turn effect gone =>
      cases step <;> rw [gone.pread] at acts <;> cases acts
  | close idle rest =>
      obtain ⟨⟨done, split, answered⟩, few⟩ := idle
      cases step with
      | closed _ ignored =>
          cases a <;> cases acts
          refine .returned ⟨⟨done, split, ?_⟩, ?_⟩ rest
          · rwa [sents_closed]
          · rw [sents_closed, List.length_append, List.length_singleton]
            omega
  | returned => cases step

/-- The calls are few, and what has been sent is a beginning of what the store replies. -/
structure Within (s₀ : LineStore) (packets : List Packet) (labels : List (Request × Answer)) : Prop where
  few : labels.length ≤ calls (replies s₀ packets).1 + 3
  sent : (sents labels).flatten <+: (replies s₀ packets).1.flatten

theorem calls_append (rs rs' : List (List UInt8)) : calls (rs ++ rs') = calls rs + calls rs' := by
  simp [calls]

theorem Idle.within (idle : Idle s₀ packets later s labels n) (few : n ≤ 3) :
    Within s₀ packets labels := by
  obtain ⟨⟨done, rfl, answered⟩, total⟩ := idle
  constructor
  · rw [answered.replies, calls_append]
    omega
  · rw [answered.replies, List.flatten_append]
    exact List.prefix_append _ _

theorem Turn.within (turn : Turn s₀ packets packet later s labels sent n)
    (accepted : ∀ s', packet.effect s = some s' → sent <+: s'.reply ∧ n ≤ 6 + 2 * s'.reply.length)
    (refused : packet.effect s = none → sent = [] ∧ n ≤ 6) : Within s₀ packets labels := by
  obtain ⟨done, rs, rfl, answered, sents, total⟩ := turn.split
  cases effect : packet.effect s with
  | none =>
      obtain ⟨rfl, few⟩ := refused effect
      have shape : (replies s (packet :: later)).1 = [[]] := by simp [replies, effect]
      have one : calls [[]] = 5 := rfl
      constructor
      · rw [answered.replies, calls_append, shape, one]
        omega
      · rw [answered.replies, shape, sents]
  | some s' =>
      obtain ⟨start, few⟩ := accepted s' effect
      have shape : (replies s (packet :: later)).1 = s'.reply :: (replies s' later).1 := by
        simp [replies, effect]
      constructor
      · rw [answered.replies, calls_append, shape, ← List.singleton_append, calls_append]
        simp only [calls, List.map_singleton, List.sum_singleton] at total ⊢
        omega
      · rw [answered.replies, shape, sents]
        simp only [List.flatten_append, List.flatten_cons, List.flatten_nil, List.append_nil]
        exact (List.prefix_append_right_inj _).mpr (start.trans (List.prefix_append _ _))

theorem Turn.early (turn : Turn s₀ packets packet later s labels [] n) (few : n ≤ 6) :
    Within s₀ packets labels :=
  turn.within (fun _ _ => ⟨List.nil_prefix, by omega⟩) fun _ => ⟨rfl, few⟩

theorem Talk.within {pc : AppendPc} {here : Session} (talk : Talk K s₀ packets labels pc here) :
    Within s₀ packets labels := by
  cases talk with
  | start first rest =>
      subst first
      exact ⟨Nat.zero_le _, List.nil_prefix⟩
  | loop idle | close idle | returned idle => exact idle.within (by omega)
  | parse turn | ioctl turn | lock turn | write turn | unlock turn | hung turn =>
      exact turn.early (by omega)
  | @echo packet later s s' echoes pc w turn effect rest echoing busy =>
      refine turn.within (fun s'' same => ?_) fun refused => ?_
      · obtain rfl := Option.some.inj (effect.symm.trans same)
        cases echoing with
        | done => cases busy
        | echo inside sent few | send _ inside _ sent few =>
            rw [sent]
            exact ⟨List.take_prefix _ _, by omega⟩
      · rw [effect] at refused
        cases refused

/-- What is left to say when nothing more can happen. -/
def Ended (K : Kernel) (s₀ : LineStore) (packets : List Packet) (labels : List (Request × Answer))
    (pc : AppendPc) (driver : Observed Unit) : Prop :=
  sents labels = (replies s₀ packets).1 ∧
    match (replies s₀ packets).2 with
    | some s => pc = .returned 0 ∧ AtRest K s driver
    | none => ∀ r, pc ≠ .returned r

theorem Idle.ended (idle : Idle s₀ packets [] s labels n) {w : Observed Unit} (rest : AtRest K s w) :
    Ended K s₀ packets labels (.returned 0) w := by
  obtain ⟨⟨done, rfl, answered⟩, _⟩ := idle
  rw [Ended, answered.replies]
  exact ⟨(List.append_nil _).symm, rfl, rest⟩

theorem Turn.ended (turn : Turn s₀ packets packet later s labels [] n) (effect : packet.effect s = none)
    {pc : AppendPc} (busy : ∀ r, pc ≠ .returned r) (w : Observed Unit) :
    Ended K s₀ packets labels pc w := by
  obtain ⟨done, rs, rfl, answered, sents, _⟩ := turn.split
  rw [Ended, answered.replies]
  simp only [replies, effect]
  exact ⟨sents, busy⟩

/-- Wherever the conversation is, it goes on or has ended. -/
theorem Talk.ended {pc : AppendPc} {here : Session} (room : bufLen ≤ K.kmallocMaxSize.toNat)
    (formed : ∀ p ∈ packets, p.WellFormed) (talk : Talk K s₀ packets labels pc here)
    (stuck : ∀ r a there pc', (session f K beyond).act here () r a = some there →
      ¬echoLoop.step pc (r, a) pc') : Ended K s₀ packets labels pc here.driver := by
  cases talk with
  | start => exact absurd ⟨rfl, rfl⟩ (stuck .openDataFile .done _ _ rfl)
  | @loop later s buf w idle rest =>
      cases later with
      | nil =>
          exact absurd ⟨rfl, rfl⟩ (stuck .readSocket (.bytes []) _ _ rfl)
      | cons packet later =>
          have member : packet ∈ packets := by
            obtain ⟨⟨done, rfl, _⟩, _⟩ := idle
            simp
          have given : (session f K beyond).act ⟨w, (packet :: later).map Packet.text⟩ () .readSocket
              (.bytes packet.text) = some ⟨w, later.map Packet.text⟩ := if_pos rfl
          exact absurd ⟨rfl, if_pos (formed packet member).short.le⟩ (stuck _ _ _ _ given)
  | parse => exact absurd ⟨rfl, rfl⟩ (stuck .mallocSeekto (.parsed ⟨⟨0, 0⟩, [], []⟩) _ _ rfl)
  | @ioctl x y st later s buf readcount w turn rest short =>
      have outcome := rest.seek f beyond st
      cases sought : s.seek st.writeCmd.toNat st.writeCmdOffset.toNat with
      | some s' =>
          simp only [sought] at outcome
          obtain ⟨w', _, answers⟩ := outcome
          exact absurd ⟨rfl, rfl⟩ (stuck _ _ _ _ ((answers _ _ _).mpr ⟨rfl, rfl⟩))
      | none => exact turn.ended sought (fun r same => by cases same) w
  | lock => exact absurd ⟨rfl, rfl⟩ (stuck .lock .done _ _ rfl)
  | @write body later s buf readcount w turn rest formed' text short =>
      obtain ⟨w', _, answers⟩ := rest.write f beyond room formed'.1 formed'.2.1
      have all : (body ++ [newline]).length ≤ readcount := by
        rw [← text]
        exact List.length_take_le _ _
      rw [← text] at answers all
      exact absurd ⟨rfl, if_pos all⟩ (stuck _ _ _ _ ((answers _ _ _).mpr ⟨rfl, rfl⟩))
  | unlock => exact absurd ⟨rfl, rfl⟩ (stuck .unlock .done _ _ rfl)
  | @echo packet later s s' echoes pc w turn effect rest echoing busy =>
      cases echoing with
      | done => cases busy
      | @echo buf pos inside =>
          have total := rest.reply_lt
          have small : pos < 2 ^ 63 := by omega
          obtain ⟨bytes, w', _, serves, answers⟩ := rest.pread f beyond small
          exact absurd ⟨rfl, if_pos serves.1⟩ (stuck _ _ _ _ ((answers _ _ _).mpr ⟨rfl, rfl⟩))
      | @send buf pos rc some inside block =>
          have all : (buf.bytes.take rc).length ≤ rc := List.length_take_le _ _
          have given : (session f K beyond).act ⟨w, later.map Packet.text⟩ ()
              (.writeSocket (buf.bytes.take rc)) (.count (buf.bytes.take rc).length) =
                Option.some ⟨w, later.map Packet.text⟩ := if_pos rfl
          exact absurd ⟨rfl, if_pos all⟩ (stuck _ _ _ _ given)
  | hung turn effect gone => exact turn.ended effect (fun r same => by cases same) _
  | close => exact absurd ⟨rfl, rfl⟩ (stuck .closeDataFile .done _ _ rfl)
  | returned idle rest => exact idle.ended rest

/-- What a client is promised. -/
structure Converses (f : FixedSizeLlseek) (beyond : Nat → Option SizeT) (K : Kernel) (s₀ : LineStore)
    (packets : List Packet) : Prop where
  /-- The conversation ends. -/
  bounded : ∀ labels w, (dialogue f beyond K s₀ packets).Run Lts.anyStep labels w →
    labels.length ≤ calls (replies s₀ packets).1 + 3
  /-- At any time the client has got a beginning of what the store replies. -/
  safe : ∀ labels w, (dialogue f beyond K s₀ packets).Run Lts.anyStep labels w →
    (sents (Machine.share () labels)).flatten <+: (replies s₀ packets).1.flatten
  /-- When nothing more can happen it has got all of it, and the thread has returned
      unless a seek was refused. -/
  complete : ∀ labels w, (dialogue f beyond K s₀ packets).Run Lts.anyStep labels w →
    (∀ label w', ¬(dialogue f beyond K s₀ packets).step w label w') →
      Ended K s₀ packets (Machine.share () labels) (w.pc ()) w.shared.driver

theorem talk_of_run (room : bufLen ≤ K.kmallocMaxSize.toNat) (formed : ∀ p ∈ packets, p.WellFormed)
    {labels : List (Unit × Request × Answer)} {w : World Unit AppendPc Session}
    (run : (dialogue f beyond K s₀ packets).Run Lts.anyStep labels w) :
    Talk K s₀ packets (Machine.share () labels) (w.pc ()) w.shared := by
  refine run.induct (fun labels w =>
    Talk K s₀ packets (Machine.share () labels) (w.pc ()) w.shared) ?_ ?_
  · rintro ⟨⟨driver, inbox⟩, pc⟩ ⟨⟨rest, sent⟩, enters⟩
    obtain ⟨buf, entered⟩ := enters ()
    obtain rfl : inbox = _ := sent
    rw [entered]
    exact .start rfl rest
  · rintro labels w ⟨p, r, a⟩ w' talk _ taken
    change appenddata.next (session f K beyond) w p a = some (r, w') at taken
    obtain ⟨there, pc, asks, acts, resumes, rfl⟩ := Machine.next_cases taken
    simp only [Machine.share_append, Machine.share_self, update_self]
    exact talk.step room formed acts ⟨asks, resumes⟩

end

/-- The driver after `insmod`, which a first client finds. -/
def loaded (K : Kernel) : Observed Unit := ⟨usersStart Unit K, fun _ => ⟨[], none⟩, []⟩

theorem AtRest.loaded (K : Kernel) : AtRest K ⟨[], 0⟩ (loaded K) where
  outside := rfl
  we := rfl
  cb := rfl
  presents := Presents.afterInit K
  short := List.forall_mem_nil _

/-- Two lines, and a seek to the second byte of the second. -/
def linesAndSeek : List Packet :=
  [.line [97], .line [98, 99], .seek [49] [49] ⟨1, 1⟩]

example : replies ⟨[], 0⟩ linesAndSeek =
    ([[97, 10], [97, 10, 98, 99, 10], [99, 10]], some ⟨[[97, 10], [98, 99, 10]], 3⟩) := by
  decide +kernel

theorem formed_linesAndSeek : ∀ packet ∈ linesAndSeek, packet.WellFormed := by
  intro packet member
  have one : IsNumeral [49] 1 := ⟨List.cons_ne_nil _ _, List.forall_mem_singleton.mpr rfl, rfl⟩
  simp only [linesAndSeek, List.mem_cons, List.not_mem_nil, or_false] at member
  rcases member with rfl | rfl | rfl
  · exact ⟨by decide, by decide, by decide⟩
  · exact ⟨by decide, by decide, by decide⟩
  · exact ⟨one, one, by decide⟩

/-- What the thread is answered: the second reply takes two `pread`s, the last one begins at
    the third byte of the device. -/
def linesAndSeekAnswers : List Answer :=
  [.done, .bytes [97, newline], .done, .count 2, .done, .bytes [97, newline], .count 2, .bytes [],
    .bytes [98, 99, newline], .done, .count 3, .done, .bytes [97, newline], .count 2,
    .bytes [98, 99, newline], .count 3, .bytes [], .bytes (commandText [49] [49]),
    .parsed ⟨⟨7, 7⟩, [], []⟩, .done, .bytes [99, newline], .count 2, .bytes [], .bytes [], .done]

end Aesd.Server
