import Aesd.Server.Clients
import Aesd.Server.Dialogue

/-! # The packets of all clients in one sequence

The order in which the driver calls take effect, `Ordered`, is followed through a run
of the threads.  `Gathered` says how much it holds of each client's packets: the call
that a thread has begun adds to it when it takes effect, and not before.
-/

namespace Aesd.Server

open Aesd.Lib Aesd.Lib.Mutex Aesd.Driver Function

/-- The driver calls that the threads make. -/
inductive ThreadCall (K : Kernel) : Op → Prop where
  | write {pos c body} (whole : WholeLine K c body) : ThreadCall K (.write pos c)
  | read {pos} (small : pos < 2 ^ 31) :
      ThreadCall K (.read (BitVec.ofNat 64 pos) (plainRead (BitVec.ofNat 64 bufLen)))
  | seek {st} (granted : st.lock = .granted) : ThreadCall K (.ioctl AESDCHAR_IOCSEEKTO (some st))

/-- What a call asks of the store. -/
def Op.asks : Op → Option LineStore.Asked
  | .write _ c => some (.store c.data)
  | .ioctl _ (some st) => some (.seek st.writeCmd.toNat st.writeCmdOffset.toNat)
  | _ => none

section

variable {Pid : Type}

/-- What the calls ask of the store, and who asks. -/
def mergeOf (order : List (Taken (Pid × Nat) Op CallResult)) : List (Pid × LineStore.Asked) :=
  order.filterMap fun c => (Op.asks c.op).map (Prod.mk c.id.1)

theorem mergeOf_append (order more : List (Taken (Pid × Nat) Op CallResult)) :
    mergeOf (order ++ more) = mergeOf order ++ mergeOf more := List.filterMap_append

theorem mergeOf_concat (order : List (Taken (Pid × Nat) Op CallResult))
    (c : Taken (Pid × Nat) Op CallResult) :
    mergeOf (order ++ [c]) = mergeOf order ++ ((Op.asks c.op).map (Prod.mk c.id.1)).toList := by
  rw [mergeOf_append]
  cases asks : Op.asks c.op <;> simp [mergeOf, asks]

theorem mergeOf_prefix {first order : List (Taken (Pid × Nat) Op CallResult)} (front : first <+: order) :
    mergeOf first <+: mergeOf order := front.filterMap _

variable {f : FixedSizeLlseek} {K : Kernel} {D : Dev}
  {order : List (Taken (Pid × Nat) Op CallResult)}

theorem presents_of_sequential
    (sequential : Sequential (Dev.callResult f) (Dev.afterInit K) order D)
    (plain : ∀ c ∈ order, ThreadCall K c.op) :
    Presents K (LineStore.since ((mergeOf order).map Prod.snd)) D := by
  induction sequential with
  | nil => exact Presents.afterInit K
  | @snoc calls d c d' before acts ih =>
      have presents := ih fun c member => plain c (List.mem_append_left _ member)
      have own := plain c (List.mem_append_right _ (List.mem_singleton_self _))
      obtain ⟨id, op, r⟩ := c
      rw [mergeOf_concat, List.map_append]
      cases own with
      | write whole =>
          obtain ⟨d'', pos', acts', presents'⟩ := presents.write (f := f) _ whole
          rw [acts'] at acts
          cases acts
          exact LineStore.since_concat _ _ ▸ presents'
      | read small =>
          obtain ⟨_, _, same⟩ := Option.map_eq_some_iff.mp acts
          cases same
          exact (List.append_nil _).symm ▸ presents
      | @seek st granted =>
          have outcome := presents.seek (f := f) granted
          refine LineStore.since_concat _ _ ▸ ?_
          cases sought : (LineStore.since ((mergeOf calls).map Prod.snd)).seek st.writeCmd.toNat
              st.writeCmdOffset.toNat with
          | some s' =>
              simp only [sought] at outcome
              obtain ⟨d'', _, acts', presents'⟩ := outcome
              rw [acts'] at acts
              cases acts
              simpa only [LineStore.perform, sought, Option.getD_some] using presents'
          | none =>
              simp only [sought] at outcome
              rcases outcome with never | ⟨_, acts'⟩
              · rw [never] at acts
                cases acts
              · rw [acts'] at acts
                cases acts
                simpa only [LineStore.perform, sought, Option.getD_none] using presents

theorem block_of_sequential {first second : List (Taken (Pid × Nat) Op CallResult)} {pos : Nat}
    {c : Taken (Pid × Nat) Op CallResult}
    (sequential : Sequential (Dev.callResult f) (Dev.afterInit K) order D)
    (plain : ∀ c ∈ order, ThreadCall K c.op) (split : order = first ++ c :: second) (small : pos < 2 ^ 31)
    (reads : c.op = .read (BitVec.ofNat 64 pos) (plainRead (BitVec.ofNat 64 bufLen))) :
    c.reply.memory.bytes <+: (LineStore.since ((mergeOf first).map Prod.snd)).reply.drop pos := by
  obtain ⟨d, d', before, acts⟩ := sequential.split split
  have presents := presents_of_sequential before fun c' member =>
    plain c' (split ▸ List.mem_append_left _ member)
  have positive : 0 < (BitVec.ofNat 64 bufLen).toNat := by decide
  obtain ⟨bytes, pos', acts', _, from_, _⟩ :=
    presents.read (f := f) (show pos < 2 ^ 63 by omega) positive
  rw [reads, acts'] at acts
  obtain ⟨reply, -⟩ := Prod.mk.inj (Option.some.inj acts)
  rw [← reply]
  exact from_

end

/-- What is in hand is a packet, and positions stay in the range of `int`. -/
def AppendPc.Sound : AppendPc → Prop
  | .lock buf readcount | .write buf readcount =>
    ∃ body, (Packet.line body).WellFormed ∧ buf.bytes.take readcount = body ++ [newline]
  | .parse buf _ ioccmdpos => ioccmdpos = 0 ∧
    ∃ x y st, (Packet.seek x y st).WellFormed ∧ commandText x y <+: buf.bytes
  | .echo _ pos => pos < 2 ^ 31
  | _ => True

theorem sound_replyOrNext (buf : Buf) (readcount : Nat) :
    (AppendPc.replyOrNext buf readcount).Sound := by
  unfold AppendPc.replyOrNext
  split
  · exact Nat.two_pow_pos 31
  · trivial

theorem inHand_replyOrNext (buf : Buf) (readcount : Nat) :
    (AppendPc.replyOrNext buf readcount).inHand = [] := by
  unfold AppendPc.replyOrNext
  split <;> rfl

theorem parse_of_prefix {x y bytes : List UInt8} {st : Seekto}
    (formed : (Packet.seek x y st).WellFormed) (text : commandText x y <+: bytes) (env : ParseEnv) :
    parseIocCommand env bytes 0 = st := by
  obtain ⟨behind, rfl⟩ := text
  exact parseIocCommand_commandText formed.1 formed.2.1 env behind 0

theorem inHand_of_read {pc pc' : AppendPc} {packet : Packet} (formed : packet.WellFormed)
    (step : AppendStep pc .readSocket (.bytes packet.text) pc') :
    pc.inHand = [] ∧ pc'.inHand = [packet.asks] ∧ pc'.Sound := by
  have short := formed.short
  generalize reads : Answer.bytes packet.text = a at step
  cases step with
  | stopped | readFailed => cases reads
  | fin => exact absurd (Answer.bytes.inj reads) packet.text_ne_nil
  | command buf _ _ word =>
      obtain rfl := Answer.bytes.inj reads
      rw [buf.fill_bytes short.le] at word
      cases packet with
      | line body => exact absurd word (not_word_of_line formed.2.2)
      | seek x y st =>
          have text : commandText x y <+: (buf.fill (Packet.seek x y st).text).bytes :=
            buf.fill_bytes short.le ▸ List.prefix_append _ _
          refine ⟨rfl, ?_, rfl, x, y, st, formed, text⟩
          rw [AppendPc.inHand, parse_of_prefix formed text]
          rfl
  | data buf _ _ plain =>
      obtain rfl := Answer.bytes.inj reads
      rw [buf.fill_bytes short.le] at plain
      cases packet with
      | line body =>
          have text := buf.take_fill short.le
          exact ⟨rfl, congrArg (fun bytes => [LineStore.Asked.store bytes]) text, body, formed, text⟩
      | seek x y st =>
          refine absurd ?_ plain
          simp only [Packet.text, commandText, List.append_assoc]
          exact List.prefix_append _ _

section

variable {K : Kernel} {beyond : Nat → Option SizeT} {pc pc' : AppendPc} {r : Request} {a : Answer}
  {op : Op}

theorem asks_of_device (sound : pc.Sound) (room : bufLen ≤ K.kmallocMaxSize.toNat)
    (asks : pc.request = some r) (device : deviceOp K beyond r = some op) :
    ThreadCall K op ∧ (Op.asks op).toList = pc.inHand := by
  cases pc with
  | returned | undefined => cases asks
  | start | loop | parse | lock | unlock | send | close =>
      cases asks
      cases device
  | ioctl =>
      cases asks
      cases device
      exact ⟨.seek rfl, rfl⟩
  | write buf readcount =>
      cases asks
      obtain ⟨body, formed, text⟩ := sound
      simp only [deviceOp] at device
      split at device <;> cases device
      rename_i fits
      have small := formed.2.1
      have length := congrArg List.length text
      rw [List.length_append, List.length_singleton] at length
      have whole : WholeLine K (.ofBytes K (buf.bytes.take readcount) fits) body :=
        ⟨text, formed.1, (show (buf.bytes.take readcount).length + 1 ≤ _ by omega),
          WriteCall.ofBytes_undisturbed _ _ _⟩
      exact ⟨.write whole, rfl⟩
  | echo buf pos =>
      cases asks
      cases device
      exact ⟨.read sound, rfl⟩

theorem inHand_of_device (step : AppendStep pc r a pc') (device : deviceOp K beyond r = some op) :
    pc'.inHand = [] ∧ pc'.Sound := by
  cases step with
  | ioctl buf readcount => exact ⟨inHand_replyOrNext _ _, sound_replyOrNext _ _⟩
  | wrote | writeFailed | preadFailed | preadEnd | preadBlock => exact ⟨rfl, trivial⟩
  | _ => cases device

theorem of_send {buf : Buf} {pos rc : Nat} (step : AppendStep pc r a (.send buf pos rc)) :
    ∃ buf₀ data, pc = .echo buf₀ pos ∧ r = .pread pos ∧ a = .bytes data ∧
      buf.bytes.take rc = data := by
  generalize same : AppendPc.send buf pos rc = pc' at step
  cases step with
  | preadBlock buf₀ _ nonempty short =>
      cases same
      exact ⟨buf₀, _, rfl, rfl, rfl, buf₀.take_fill short⟩
  | ioctl | unlocked =>
      unfold AppendPc.replyOrNext at same
      split at same <;> cases same
  | sent =>
      unfold AppendPc.advance at same
      split at same <;> cases same
  | _ => cases same

theorem inHand_of_other (sound : pc.Sound) (device : deviceOp K beyond r = none)
    (nothing : r = .readSocket → ∀ data, a = .bytes data → data = [])
    (step : AppendStep pc r a pc') :
    pc'.inHand = pc.inHand ∧ pc'.Sound ∧ ∀ buf pos rc, pc' ≠ .send buf pos rc := by
  cases step with
  | command _ nonempty | data _ nonempty => exact absurd (nothing rfl _ rfl) nonempty
  | ioctl | preadFailed | preadEnd | preadBlock => cases device
  | wrote | writeFailed =>
      obtain ⟨body, formed, text⟩ := sound
      have short := formed.2.1
      have length := congrArg List.length text
      simp only [List.length_append, List.length_singleton, bufLen] at length short
      rw [deviceOp, dif_pos (by omega)] at device
      cases device
  | locked => exact ⟨rfl, sound, by rintro _ _ _ ⟨⟩⟩
  | parsed buf readcount pos env =>
      obtain ⟨rfl, x, y, st, formed, text⟩ := sound
      refine ⟨?_, trivial, by rintro _ _ _ ⟨⟩⟩
      rw [AppendPc.inHand, AppendPc.inHand, parse_of_prefix formed text, parse_of_prefix formed text]
  | unlocked =>
      refine ⟨inHand_replyOrNext _ _, sound_replyOrNext _ _, ?_⟩
      unfold AppendPc.replyOrNext
      split <;> rintro _ _ _ ⟨⟩
  | sent buf pos rc =>
      unfold AppendPc.advance
      split
      · rename_i inside
        exact ⟨rfl, inside, by rintro _ _ _ ⟨⟩⟩
      · exact ⟨rfl, trivial, by rintro _ _ _ ⟨⟩⟩
  | _ => exact ⟨rfl, trivial, by rintro _ _ _ ⟨⟩⟩

end

section

variable {Pid : Type} [DecidableEq Pid]

theorem ofClient_append (p : Pid) (merge more : List (Pid × LineStore.Asked)) :
    ofClient p (merge ++ more) = ofClient p merge ++ ofClient p more := by
  rw [ofClient, List.filter_append, List.map_append]
  rfl

theorem ofClient_mergeOf_own (order : List (Taken (Pid × Nat) Op CallResult))
    (p : Pid) (n : Nat) (op : Op) (r : CallResult) :
    ofClient p (mergeOf (order ++ [⟨(p, n), op, r⟩])) =
      ofClient p (mergeOf order) ++ (Op.asks op).toList := by
  rw [mergeOf_concat, ofClient_append]
  cases Op.asks op <;> simp [ofClient]

theorem ofClient_mergeOf_other (order : List (Taken (Pid × Nat) Op CallResult)) {p q : Pid}
    (apart : q ≠ p) (n : Nat) (op : Op) (r : CallResult) :
    ofClient q (mergeOf (order ++ [⟨(p, n), op, r⟩])) = ofClient q (mergeOf order) := by
  rw [mergeOf_concat, ofClient_append]
  cases Op.asks op <;> simp [ofClient, Ne.symm apart]

theorem ofClient_mergeOf_nil {order : List (Taken (Pid × Nat) Op CallResult)} {p : Pid}
    (none : ∀ c ∈ order, c.id.1 ≠ p) : ofClient p (mergeOf order) = [] := by
  rw [ofClient, List.map_eq_nil_iff, List.filter_eq_nil_iff]
  intro a member
  obtain ⟨c, inside, asks⟩ := List.mem_filterMap.mp member
  obtain ⟨asked, _, rfl⟩ := Option.map_eq_some_iff.mp asks
  simpa using none c inside

/-- What is in hand, unless the call that passes it on has taken effect. -/
def Clients.unwritten (w : Clients Pid) (order : List (Taken (Pid × Nat) Op CallResult)) (p : Pid) :
    List LineStore.Asked :=
  if w.calling p = true ∧ (p, w.driver.sys.serial p) ∈ order.map Taken.id then []
  else (w.pc p).inHand

/-- A run of the threads, with the order in which their driver calls take effect. -/
structure Gathered (f : FixedSizeLlseek) (K : Kernel) (beyond : Nat → Option SizeT)
    (packets : Pid → List Packet) (w : Clients Pid) (order : List (Taken (Pid × Nat) Op CallResult))
    (D : Dev) : Prop where
  ordered : Ordered f K w.driver order D
  guarded : Guarded Pc.holds w.driver.sys
  sound : ∀ p, (w.pc p).Sound
  plain : ∀ id op, .invoke id op ∈ w.driver.history → ThreadCall K op
  current : ∀ p, w.calling p = true → ∃ r op, (w.pc p).request = some r ∧
    deviceOp K beyond r = some op ∧
      ∀ op', .invoke (p, w.driver.sys.serial p) op' ∈ w.driver.history → op' = op
  replied : ∀ p retval, w.calling p = true → (w.driver.sys.pc p).returned = some retval →
    .reply (p, w.driver.sys.serial p) ⟨retval, w.driver.memory p⟩ ∈ w.driver.history
  ahead : ∀ p, Ahead (packets p) (w.inbox p) (ofClient p (mergeOf order) ++ w.unwritten order p)
  latest : ∀ p, w.calling p = true → ∀ first c second, order = first ++ c :: second →
    c.id = (p, w.driver.sys.serial p) → ∀ c' ∈ second, c'.id.1 ≠ p
  blocks : ∀ p buf pos rc, w.pc p = .send buf pos rc →
    ReadFrom (mergeOf order) p pos (buf.bytes.take rc)

variable {f : FixedSizeLlseek} {K : Kernel} {beyond : Nat → Option SizeT}
  {packets : Pid → List Packet} {w : Clients Pid} {order : List (Taken (Pid × Nat) Op CallResult)}
  {D : Dev} {p : Pid}

theorem Pc.enter_returned (op : Op) : (Pc.enter op).returned = none := by cases op <;> rfl

theorem Gathered.fresh (gathered : Gathered f K beyond packets w order D) (p : Pid) :
    (p, w.driver.sys.serial p + 1) ∉ order.map Taken.id := by
  intro member
  obtain ⟨c, inside, own⟩ := List.mem_map.mp member
  have begun := gathered.ordered.linearizes.invoked c inside
  rw [own] at begun
  have bound := gathered.ordered.numbered _ _ _ begun
  omega

theorem Gathered.call (gathered : Gathered f K beyond packets w order D)
    (room : bufLen ≤ K.kmallocMaxSize.toNat) {r : Request} {op : Op} {sys : DriverSystem Pid}
    (free : w.calling p = false) (asks : (w.pc p).request = some r)
    (device : deviceOp K beyond r = some op)
    (taken : Step (driverCode f) w.driver.sys (p, some op) sys) :
    Gathered f K beyond packets
      { w with driver := w.driver.after f sys (p, some op), calling := update w.calling p true }
      order D := by
  have ordered := gathered.ordered.enter taken
  have guarded := gathered.guarded.step (driverCode_excludes f) taken
  have fresh := gathered.fresh p
  cases taken with
  | enter out =>
      constructor
      · exact ordered
      · rw [Observed.after_sys]
        exact guarded
      · exact gathered.sound
      · intro id op' member
        rcases List.mem_append.mp member with old | new
        · exact gathered.plain id op' old
        · cases List.mem_singleton.mp new
          exact (asks_of_device (gathered.sound p) room asks device).1
      · intro q busy
        by_cases same : q = p
        · subst same
          refine ⟨r, op, asks, device, fun op' member => ?_⟩
          simp only [Observed.after, update_self] at member
          rcases List.mem_append.mp member with old | new
          · have bound := gathered.ordered.numbered _ _ _ old
            omega
          · cases List.mem_singleton.mp new
            rfl
        · simp only [update_of_ne same] at busy
          obtain ⟨r', op', asks', device', only⟩ := gathered.current q busy
          refine ⟨r', op', asks', device', fun op'' member => ?_⟩
          simp only [Observed.after, update_of_ne same] at member
          rcases List.mem_append.mp member with old | new
          · exact only op'' old
          · have id := (CallEvent.invoke.inj (List.mem_singleton.mp new)).1
            exact absurd (congrArg Prod.fst id) same
      · intro q retval busy returned
        by_cases same : q = p
        · subst same
          simp only [Observed.after, update_self] at returned
          rw [driverCode, Pc.enter_returned] at returned
          cases returned
        · simp only [Observed.after, update_of_ne same] at busy returned ⊢
          exact List.mem_append_left _ (gathered.replied q retval busy returned)
      · intro q
        have ahead := gathered.ahead q
        by_cases same : q = p
        · subst same
          simpa [Clients.unwritten, Observed.after, fresh, free] using ahead
        · simpa [Clients.unwritten, Observed.after, same] using ahead
      · intro q busy first c second split own
        by_cases same : q = p
        · subst same
          simp only [Observed.after, update_self] at own
          exact absurd (List.mem_map.mpr ⟨c, by simp [split], own⟩) fresh
        · simp only [Observed.after, update_of_ne same] at busy own
          exact gathered.latest q busy first c second split own
      · exact gathered.blocks

theorem invoked_after {w : Observed Pid} {sys : DriverSystem Pid} {id : Pid × Nat} {op : Op}
    (member : .invoke id op ∈ (w.after f sys (p, none)).history) : .invoke id op ∈ w.history := by
  rcases List.mem_append.mp member with old | new
  · exact old
  · split at new
    · cases new
    · cases List.mem_singleton.mp new

theorem serial_inside {s s' : DriverSystem Pid} (taken : Step (driverCode f) s (p, none) s') :
    s'.serial = s.serial := by
  cases taken <;> rfl

omit [DecidableEq Pid] in
theorem fresh_of_once {c : Taken (Pid × Nat) Op CallResult}
    (once : ((order ++ [c]).map Taken.id).Nodup) : c.id ∉ order.map Taken.id := by
  rw [List.map_append, List.map_singleton, List.nodup_append] at once
  exact fun member => once.2.2 _ member _ (List.mem_singleton_self _) rfl

/-- The call that takes effect is the one that the thread has begun. -/
theorem Gathered.own (gathered : Gathered f K beyond packets w order D) (busy : w.calling p = true)
    (room : bufLen ≤ K.kmallocMaxSize.toNat) {op : Op}
    (begun : .invoke (p, w.driver.sys.serial p) op ∈ w.driver.history) :
    (Op.asks op).toList = (w.pc p).inHand := by
  obtain ⟨r, op', asks, device, only⟩ := gathered.current p busy
  rw [only op begun]
  exact (asks_of_device (gathered.sound p) room asks device).2

theorem Gathered.not_send (gathered : Gathered f K beyond packets w order D)
    (busy : w.calling p = true) {buf : Buf} {pos rc : Nat} : w.pc p ≠ .send buf pos rc := by
  intro place
  obtain ⟨r, op, asks, device, _⟩ := gathered.current p busy
  rw [place] at asks
  cases asks
  cases device

theorem ReadFrom.longer {merge more : List (Pid × LineStore.Asked)} {pos : Nat} {bytes : List UInt8}
    (reads : ReadFrom merge p pos bytes) (others : ofClient p (merge ++ more) = ofClient p merge) :
    ReadFrom (merge ++ more) p pos bytes := by
  obtain ⟨before, front, mine, from_⟩ := reads
  exact ⟨before, front.trans (List.prefix_append _ _), mine.trans others.symm, from_⟩

theorem Gathered.inside (gathered : Gathered f K beyond packets w order D)
    (room : bufLen ≤ K.kmallocMaxSize.toNat) {sys : DriverSystem Pid} (busy : w.calling p = true)
    (taken : Step (driverCode f) w.driver.sys (p, none) sys) :
    ∃ order' D', Gathered f K beyond packets { w with driver := w.driver.after f sys (p, none) }
      order' D' := by
  obtain ⟨order', D', grows, ordered⟩ := gathered.ordered.step gathered.guarded taken
  have serial := serial_inside taken
  refine ⟨order', D', ordered, ?_, gathered.sound, ?_, ?_, ?_, ?_, ?_, ?_⟩
  · rw [Observed.after_sys]
    exact gathered.guarded.step (driverCode_excludes f) taken
  · exact fun id op member => gathered.plain id op (invoked_after member)
  · intro q calling
    obtain ⟨r, op, asks, device, only⟩ := gathered.current q calling
    refine ⟨r, op, asks, device, fun op' member => only op' ?_⟩
    rw [Observed.after_sys, serial] at member
    exact invoked_after member
  · intro q retval calling returned
    rw [Observed.after_sys] at returned
    simp only [Observed.after]
    by_cases same : q = p
    · subst same
      rw [returned]
      exact List.mem_append_right _ (by simp)
    · rw [taken.pc_other same] at returned
      rw [serial, update_of_ne same]
      exact List.mem_append_left _ (gathered.replied q retval calling returned)
  · intro q
    have ahead := gathered.ahead q
    simp only [Clients.unwritten, Observed.after_sys, serial] at ahead ⊢
    cases grows with
    | same => exact ahead
    | more op r =>
        by_cases same : q = p
        · subst same
          have begun := ordered.linearizes.invoked ⟨(q, w.driver.sys.serial q), op, r⟩ (by simp)
          have stored := gathered.own busy room (invoked_after begun)
          have fresh := fresh_of_once ordered.linearizes.once
          rw [if_neg (fun both => fresh both.2)] at ahead
          rwa [ofClient_mergeOf_own, stored, if_pos (And.intro busy (by simp)), List.append_nil]
        · rw [ofClient_mergeOf_other order same]
          simpa only [List.map_append, List.mem_append, List.map_singleton, List.mem_singleton,
            Prod.mk.injEq, same, false_and, or_false] using ahead
  · intro q calling first c second split own
    rw [Observed.after_sys, serial] at own
    cases grows with
    | same => exact gathered.latest q calling first c second split own
    | more op r =>
        rcases List.eq_nil_or_concat second with rfl | ⟨second, last, rfl⟩
        · exact fun c' member => by cases member
        · rw [List.concat_eq_append, ← List.cons_append, ← List.append_assoc] at split
          obtain ⟨earlier, last'⟩ := List.append_inj' split rfl
          obtain rfl := List.singleton_inj.mp last'
          intro c' member
          rw [List.concat_eq_append] at member
          rcases List.mem_append.mp member with old | new
          · exact gathered.latest q calling first c second earlier own c' old
          · obtain rfl := List.mem_singleton.mp new
            -- the call of that number took effect before
            rintro rfl
            refine fresh_of_once ordered.linearizes.once ?_
            exact List.mem_map.mpr ⟨c, by simp [earlier], own⟩
  · intro q buf pos rc place
    have reads := gathered.blocks q buf pos rc place
    cases grows with
    | same => exact reads
    | more op r =>
        have apart : q ≠ p := by
          rintro rfl
          exact gathered.not_send busy place
        have others := ofClient_mergeOf_other order apart (w.driver.sys.serial p) op r
        rw [mergeOf_concat] at others ⊢
        exact reads.longer others

theorem Gathered.found (gathered : Gathered f K beyond packets w order D) (busy : w.calling p = true)
    {r : Request} {retval : Int} (asks : (w.pc p).request = some r)
    (returned : (w.driver.sys.pc p).returned = some retval) :
    ∃ op, deviceOp K beyond r = some op ∧
      ⟨(p, w.driver.sys.serial p), op, ⟨retval, w.driver.memory p⟩⟩ ∈ order := by
  obtain ⟨r', op, asks', device, only⟩ := gathered.current p busy
  rw [asks] at asks'
  obtain rfl := Option.some.inj asks'
  have seen := gathered.replied p retval busy returned
  obtain ⟨⟨id, op', reply⟩, member, rfl, rfl⟩ := gathered.ordered.linearizes.replied _ _ seen
  have begun := gathered.ordered.linearizes.invoked _ member
  obtain rfl := only op' begun
  exact ⟨op', device, member⟩

theorem Gathered.block (gathered : Gathered f K beyond packets w order D) (busy : w.calling p = true)
    {pos : Nat} {retval : Int} {data : List UInt8} (small : pos < 2 ^ 31)
    (asks : (w.pc p).request = some (.pread pos))
    (returned : (w.driver.sys.pc p).returned = some retval)
    (reads : deviceAnswer (.pread pos) retval (w.driver.memory p) = .bytes data) :
    ReadFrom (mergeOf order) p pos data := by
  obtain ⟨op, device, member⟩ := gathered.found busy asks returned
  cases device
  have bytes : (w.driver.memory p).bytes = data := by
    unfold deviceAnswer at reads
    split at reads
    · cases reads
    · exact Answer.bytes.inj reads
  obtain ⟨first, second, split⟩ := List.append_of_mem member
  have plain : ∀ c ∈ order, ThreadCall K c.op := fun c inside =>
    gathered.plain c.id c.op (gathered.ordered.linearizes.invoked c inside)
  have from_ := block_of_sequential gathered.ordered.linearizes.sequential plain split small rfl
  refine ⟨mergeOf first, mergeOf_prefix (split ▸ List.prefix_append _ _), ?_, bytes ▸ from_⟩
  have later := gathered.latest p busy first _ second split rfl
  have mine := ofClient_mergeOf_nil later
  rw [split, ← List.singleton_append, ← List.append_assoc, mergeOf_append, ofClient_append, mine,
    ofClient_mergeOf_own]
  exact ((List.append_nil _).trans (List.append_nil _)).symm

/-- What a thread does between two driver calls: it goes on, with what it has still to store. -/
theorem Gathered.go_on (gathered : Gathered f K beyond packets w order D) (p : Pid) {pc : AppendPc}
    (later : List (List UInt8)) (owner : Option Pid) (sound : pc.Sound)
    (ahead : Ahead (packets p) later (ofClient p (mergeOf order) ++ pc.inHand))
    (block : ∀ buf pos rc, pc = .send buf pos rc → ReadFrom (mergeOf order) p pos (buf.bytes.take rc)) :
    Gathered f K beyond packets
      { w with
        pc := update w.pc p pc
        calling := update w.calling p false
        inbox := update w.inbox p later
        owner := owner } order D := by
  refine ⟨gathered.ordered, gathered.guarded, ?_, gathered.plain, ?_, ?_, ?_, ?_, ?_⟩
  · intro q
    by_cases own : q = p
    · subst own
      simpa only [update_self] using sound
    · simpa only [update_of_ne own] using gathered.sound q
  · intro q busy
    have apart : q ≠ p := by
      rintro rfl
      simp only [update_self, Bool.false_eq_true] at busy
    simp only [update_of_ne apart] at busy ⊢
    exact gathered.current q busy
  · intro q retval busy returned
    have apart : q ≠ p := by
      rintro rfl
      simp only [update_self, Bool.false_eq_true] at busy
    simp only [update_of_ne apart] at busy
    exact gathered.replied q retval busy returned
  · intro q
    by_cases own : q = p
    · subst own
      simpa [Clients.unwritten] using ahead
    · simpa [Clients.unwritten, own] using gathered.ahead q
  · intro q busy
    have apart : q ≠ p := by
      rintro rfl
      simp only [update_self, Bool.false_eq_true] at busy
    simp only [update_of_ne apart] at busy
    exact gathered.latest q busy
  · intro q buf pos rc place
    by_cases own : q = p
    · subst own
      simp only [update_self] at place
      exact block buf pos rc place
    · simp only [update_of_ne own] at place
      exact gathered.blocks q buf pos rc place

theorem Gathered.step (gathered : Gathered f K beyond packets w order D)
    (room : bufLen ≤ K.kmallocMaxSize.toNat) (formed : ∀ p, ∀ packet ∈ packets p, packet.WellFormed)
    {w' : Clients Pid} (step : ClientStep f K beyond w p w') :
    ∃ order' D', Gathered f K beyond packets w' order' D' := by
  cases step with
  | call free asks device taken => exact ⟨order, D, gathered.call room free asks device taken⟩
  | inside busy taken => exact gathered.inside room busy taken
  | @back r retval pc busy asks returned step =>
      obtain ⟨op, device, member⟩ := gathered.found busy asks returned
      obtain ⟨hand, sound⟩ := inHand_of_device step device
      have written : w.unwritten order p = [] := if_pos ⟨busy, List.mem_map.mpr ⟨_, member, rfl⟩⟩
      have ahead := gathered.ahead p
      rw [written, ← hand] at ahead
      have after := gathered.go_on p (w.inbox p) w.owner sound ahead ?_
      · exact ⟨order, D, by simpa only [update_eq_self] using after⟩
      · rintro buf pos rc rfl
        obtain ⟨buf₀, data, place, rfl, answer, rfl⟩ := of_send step
        have small := gathered.sound p
        rw [place] at small
        exact gathered.block busy small asks returned answer
  | @read block later pc free more step =>
      have unwritten : w.unwritten order p = (w.pc p).inHand := if_neg fun both => by simp [free] at both
      obtain ⟨sent, suffix, inbox, whole⟩ := gathered.ahead p
      rw [more] at inbox
      obtain ⟨packet, others, rfl, rfl, rfl⟩ := List.map_eq_cons_iff.mp inbox.symm
      obtain ⟨empty, hand, sound⟩ :=
        inHand_of_read (formed p packet (suffix.subset List.mem_cons_self)) step
      have ahead : Ahead (packets p) (others.map Packet.text) (ofClient p (mergeOf order) ++ pc.inHand) := by
        refine ⟨others, (List.suffix_cons _ _).trans suffix, rfl, ?_⟩
        rw [← whole, unwritten, empty, hand, List.append_nil, List.append_assoc]
        rfl
      have after := gathered.go_on p (others.map Packet.text) w.owner sound ahead ?_
      · have idle : update w.calling p false = w.calling := by rw [← free, update_eq_self]
        exact ⟨order, D, by simpa only [idle] using after⟩
      · rintro buf pos rc rfl
        obtain ⟨_, _, _, ⟨⟩, _⟩ := of_send step
  | @other r a pc owner free device nothing step =>
      obtain ⟨hand, sound, noBlock⟩ := inHand_of_other (gathered.sound p) device nothing step
      have unwritten : w.unwritten order p = (w.pc p).inHand := if_neg fun both => by simp [free] at both
      have ahead := gathered.ahead p
      rw [unwritten, ← hand] at ahead
      have after := gathered.go_on p (w.inbox p) owner sound ahead
        fun buf pos rc same => absurd same (noBlock buf pos rc)
      have idle : update w.calling p false = w.calling := by rw [← free, update_eq_self]
      exact ⟨order, D, by simpa only [update_eq_self, idle] using after⟩

theorem Gathered.start (start : w.Start f K packets) :
    Gathered f K beyond packets w [] (Dev.afterInit K) := by
  have out := start.driver.1
  refine ⟨.init start.driver, ?_, ?_, ?_, ?_, ?_, ?_, ?_, ?_⟩
  · exact Guarded.init (driverCode_excludes f) out
  · intro p
    obtain ⟨buf, place⟩ := start.pc p
    rw [place]
    trivial
  · rw [start.driver.2]
    exact fun _ _ member => by cases member
  · intro p busy
    rw [start.calling] at busy
    cases busy
  · intro p _ busy
    rw [start.calling] at busy
    cases busy
  · intro p
    obtain ⟨buf, place⟩ := start.pc p
    refine ⟨packets p, List.suffix_refl _, start.inbox p, ?_⟩
    rw [Clients.unwritten, place]
    simp [ofClient, mergeOf, AppendPc.inHand]
  · intro p busy
    rw [start.calling] at busy
    cases busy
  · intro p _ _ _ place
    obtain ⟨buf, start⟩ := start.pc p
    rw [start] at place
    cases place

theorem Gathered.merges (gathered : Gathered f K beyond packets w order D) :
    Merges K packets w (mergeOf order) := by
  refine ⟨fun p => ?_, fun p free => ?_, fun out => ?_, gathered.blocks⟩
  · obtain ⟨later, _, _, whole⟩ := gathered.ahead p
    rw [← whole, List.append_assoc]
    exact List.prefix_append _ _
  · have unwritten : w.unwritten order p = (w.pc p).inHand := if_neg fun both => by simp [free] at both
    rw [← unwritten]
    exact gathered.ahead p
  · have plain : ∀ c ∈ order, ThreadCall K c.op := fun c inside =>
      gathered.plain c.id c.op (gathered.ordered.linearizes.invoked c inside)
    rw [gathered.ordered.idle fun p => not_holds_of_outside (out p) .we]
    exact presents_of_sequential gathered.ordered.linearizes.sequential plain

/-- However the threads and their driver calls go between each other, and whatever
    becomes of the sockets, the device is a store that serves all clients in turn. -/
theorem clients_merge (room : bufLen ≤ K.kmallocMaxSize.toNat)
    (formed : ∀ p, ∀ packet ∈ packets p, packet.WellFormed)
    (reach : (clients Pid f K beyond packets).Reach Lts.anyStep w) :
    ∃ merge, Merges K packets w merge := by
  have gathered : ∃ order D, Gathered f K beyond packets w order D := by
    refine Lts.Reach.induct (fun w => ∃ order D, Gathered f K beyond packets w order D)
      (fun _ start => ⟨_, _, .start start⟩) ?_ reach
    rintro w ⟨p, e⟩ w' ⟨order, D, gathered⟩ _ taken
    exact gathered.step room formed (clientStep_of taken)
  obtain ⟨order, D, gathered⟩ := gathered
  exact ⟨_, gathered.merges⟩

end

/-- Two clients with a line each. -/
def twoLines : Nat → List Packet
  | 0 => [.line [97]]
  | 1 => [.line [98]]
  | _ => []

theorem formed_twoLines : ∀ p, ∀ packet ∈ twoLines p, packet.WellFormed := by
  intro p packet member
  match p with
  | 0 =>
      obtain rfl := List.mem_singleton.mp member
      exact ⟨by decide, by decide, by decide⟩
  | 1 =>
      obtain rfl := List.mem_singleton.mp member
      exact ⟨by decide, by decide, by decide⟩
  | _ + 2 => cases member

/-- The block that a thread is about to send, and where it was read. -/
def AppendPc.block : AppendPc → Option (Nat × List UInt8)
  | .send buf pos rc => some (pos, buf.bytes.take rc)
  | _ => none

/-- The two clients before their threads begin. -/
def bothStart : Clients (Fin 2) :=
  ⟨⟨usersStart (Fin 2) .pc, fun _ => ⟨[], none⟩, []⟩, fun _ => .start Buf.zero, fun _ => false,
    fun p => (twoLines p).map Packet.text, none⟩

theorem bothStart_init :
    (clients (Fin 2) fixedSizeLlseek .pc (fun _ => none) fun p => twoLines p).init bothStart :=
  ⟨⟨usersStart_init _ _, rfl⟩, fun _ => ⟨_, rfl⟩, fun _ => rfl, fun _ => rfl, rfl⟩

/-- The thread of `second` is first at `dfdmutex`, and begins its reply while the one of
    `first` is inside its write. -/
def bothServed (first second : Fin 2) : List (Fin 2 × ClientEvent) :=
  [(first, .answer .done), (second, .answer .done), (second, .answer (.bytes [98, newline])),
    (first, .answer (.bytes [97, newline])), (second, .answer .done), (second, .call)] ++
  List.replicate 9 (second, .inside) ++
  [(second, .back), (second, .answer .done), (first, .answer .done), (first, .call)] ++
  List.replicate 4 (first, .inside) ++ [(second, .call)] ++ List.replicate 5 (first, .inside) ++
  List.replicate 3 (second, .inside) ++ [(first, .back), (second, .back)]

theorem clients_merge_twoLines : ∃ (w : Clients (Fin 2)) (merge : List (Fin 2 × LineStore.Asked)),
    (ofClient 0 merge = [.store [97, newline]] ∧ ofClient 1 merge = [.store [98, newline]]) ∧
      Presents .pc (LineStore.since (merge.map Prod.snd)) w.driver.sys.data ∧
        ReadFrom merge 1 0 [98, newline] := by
  let M := clients (Fin 2) fixedSizeLlseek .pc (fun _ => none) fun p => twoLines p
  obtain ⟨w, run, done, out, block⟩ : ∃ w, M.Run Lts.anyStep (bothServed 0 1) w ∧
      (∀ p, w.calling p = false ∧ (w.pc p).inHand = [] ∧ w.inbox p = []) ∧
        (∀ p, (w.driver.sys.pc p).outside) ∧ (w.pc 1).block = some (0, [98, newline]) :=
    Lts.exists_run (fun _ _ _ => id) bothStart_init (bothServed 0 1) (by decide +kernel)
  have formed : ∀ p : Fin 2, ∀ packet ∈ twoLines p, packet.WellFormed := fun p => formed_twoLines p
  obtain ⟨merge, merges⟩ := clients_merge (by decide) formed ⟨_, run⟩
  have passed : ∀ p : Fin 2, ofClient p merge = (twoLines p).map Packet.asks := by
    intro p
    obtain ⟨free, hand, inbox⟩ := done p
    obtain ⟨later, _, ahead, whole⟩ := merges.complete p free
    rw [inbox] at ahead
    obtain rfl := List.map_eq_nil_iff.mp ahead.symm
    simpa [hand] using whole
  refine ⟨w, merge, ⟨passed 0, passed 1⟩, merges.stored out, ?_⟩
  cases place : w.pc 1 with
  | send buf pos rc =>
      rw [place] at block
      obtain ⟨rfl, bytes⟩ := Prod.mk.inj (Option.some.inj block)
      exact bytes ▸ merges.blocks 1 buf 0 rc place
  | _ =>
      rw [place] at block
      cases block

end Aesd.Server
