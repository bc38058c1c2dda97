import Aesd.Driver.Waiting
import Aesd.Server.Merge

/-! # Every client is served

The threads wait for each other at three mutexes, `dfdmutex` and the two of the
device, and a reply grows longer while it is sent when another client writes.  Still
the threads have only so many steps together, since nobody writes more than the
packets of his client and a reply is at most ten lines; and while no call fails and
no seek is refused, somebody can go on until all threads have returned.
-/

namespace Aesd.Server

open Aesd.Lib Aesd.Lib.Mutex Aesd.Driver Function

/-- The most bytes that a reply can have. -/
def longest : Nat := 10 * bufLen

/-- The steps of a driver call, its beginning and its return included, at most. -/
def callSteps : Nat := 11

/-- The steps that a packet can bring about, at most. -/
def packetSteps : Nat := 25 + 12 * longest

namespace AppendPc

/-- In front of a driver call. -/
def calls : AppendPc → Bool
  | .ioctl _ _ _ | .write _ _ | .echo _ _ => true
  | _ => false

/-- The steps up to the end of the connection at most, without those of a driver call
    that is next, and of packets to come. -/
def budget : AppendPc → Nat
  | .start _ => 3
  | .loop _ => 2
  | .parse _ _ _ => 25 + 12 * longest
  | .ioctl _ _ _ => 13 + 12 * longest
  | .lock _ _ => 26 + 12 * longest
  | .write _ _ | .unlock _ _ _ => 14 + 12 * longest
  | .echo _ pos => 2 + 12 * (longest - pos)
  | .send _ pos rc => 14 + 12 * (longest - (pos + rc))
  | .close _ => 1
  | .returned _ | .undefined => 0

def callBudget (pc : AppendPc) : Nat := if pc.calls then callSteps else 0

theorem budget_replyOrNext (buf : Buf) (readcount : Nat) :
    (replyOrNext buf readcount).budget + (replyOrNext buf readcount).callBudget ≤ 13 + 12 * longest := by
  unfold replyOrNext
  split <;> simp [budget, callBudget, calls, callSteps] <;> omega

theorem budget_advance (buf : Buf) (pos rc : Nat) :
    (advance buf pos rc).budget + (advance buf pos rc).callBudget < (send buf pos rc).budget := by
  unfold advance
  split <;> simp [budget, callBudget, calls, callSteps]
  omega

end AppendPc

section

variable {K : Kernel} {beyond : Nat → Option SizeT} {pc pc' : AppendPc} {r : Request} {a : Answer}
  {op : Op}

theorem device_isSome (K : Kernel) (beyond : Nat → Option SizeT) (asks : pc.request = some r) :
    (deviceOp K beyond r).isSome = pc.calls := by
  cases pc with
  | write buf readcount =>
      cases asks
      have few : (buf.bytes.take readcount).length ≤ 1025 :=
        (List.length_take_le' _ _).trans_eq buf.length_eq
      rw [deviceOp, dif_pos (by omega)]
      rfl
  | returned | undefined => cases asks
  | _ =>
      cases asks
      rfl

theorem budget_of_device (step : AppendStep pc r a pc') (device : deviceOp K beyond r = some op)
    (block : ∀ buf pos rc, pc' = .send buf pos rc → buf.bytes.take rc ≠ [] →
      pos + (buf.bytes.take rc).length ≤ longest) :
    pc'.budget + pc'.callBudget ≤ pc.budget := by
  cases step with
  | ioctl buf readcount => exact AppendPc.budget_replyOrNext buf readcount
  | preadBlock buf pos nonempty short =>
      have within := block _ _ _ rfl
      rw [buf.take_fill short] at within
      have within := within nonempty
      have some := List.length_pos_of_ne_nil nonempty
      change 14 + 12 * (longest - (pos + _)) + 0 ≤ 2 + 12 * (longest - pos)
      omega
  | wrote | writeFailed => exact Nat.le_refl _
  | preadEnd => exact Nat.le_add_right 2 _
  | preadFailed => exact (Nat.le_succ 1).trans (Nat.le_add_right 2 _)
  | _ => cases device

theorem budget_of_read {data : List UInt8} (step : AppendStep pc .readSocket (.bytes data) pc') :
    pc'.budget + pc'.callBudget < pc.budget + packetSteps := by
  cases step <;> simp [AppendPc.budget, AppendPc.callBudget, AppendPc.calls, packetSteps] <;> omega

theorem AppendStep.asks (step : AppendStep pc r a pc') : pc.request = some r := by
  cases step <;> rfl

theorem budget_of_other (step : AppendStep pc r a pc') (device : pc.calls = false)
    (nothing : r = .readSocket → ∀ data, a = .bytes data → data = []) :
    pc'.budget + pc'.callBudget < pc.budget := by
  cases step with
  | command _ nonempty | data _ nonempty => exact absurd (nothing rfl _ rfl) nonempty
  | ioctl | wrote | writeFailed | preadFailed | preadEnd | preadBlock => cases device
  | unlocked buf readcount =>
      exact Nat.lt_succ_of_le (AppendPc.budget_replyOrNext buf readcount)
  | sent buf pos rc => exact AppendPc.budget_advance buf pos rc
  | _ => simp [AppendPc.budget, AppendPc.callBudget, AppendPc.calls, callSteps] <;> omega

theorem enter_left (op : Op) : (Pc.enter op).left + 1 < callSteps := by
  cases op <;> simp [Pc.enter, Pc.left, callSteps]

end

section

variable {Pid : Type} [DecidableEq Pid] {f : FixedSizeLlseek} {K : Kernel}
  {beyond : Nat → Option SizeT} {packets : Pid → List Packet} {w w' : Clients Pid}
  {order : List (Taken (Pid × Nat) Op CallResult)} {D : Dev} {p : Pid}

theorem Gathered.stored_short (gathered : Gathered f K beyond packets w order D)
    (formed : ∀ p, ∀ packet ∈ packets p, packet.WellFormed) {q : Pid} {line : List UInt8}
    (member : (q, .store line) ∈ mergeOf order) : line.length ≤ bufLen := by
  have mine : .store line ∈ ofClient q (mergeOf order) :=
    List.mem_map.mpr ⟨_, List.mem_filter.mpr ⟨member, by simp⟩, rfl⟩
  have asked : .store line ∈ (packets q).map Packet.asks := by
    obtain ⟨later, _, _, whole⟩ := gathered.ahead q
    rw [← whole]
    exact List.mem_append_left _ (List.mem_append_left _ mine)
  obtain ⟨packet, sent, asks⟩ := List.mem_map.mp asked
  cases packet with
  | line body =>
      cases asks
      rw [List.length_append, List.length_singleton]
      exact (formed q _ sent).2.1.le
  | seek => cases asks

theorem Gathered.inbox_formed (gathered : Gathered f K beyond packets w order D)
    (formed : ∀ p, ∀ packet ∈ packets p, packet.WellFormed) {block : List UInt8}
    (member : block ∈ w.inbox p) : block ≠ [] ∧ block.length ≤ bufLen := by
  obtain ⟨later, suffix, inbox, _⟩ := gathered.ahead p
  rw [inbox] at member
  obtain ⟨packet, sent, rfl⟩ := List.mem_map.mp member
  exact ⟨packet.text_ne_nil, (formed p packet (suffix.subset sent)).short.le⟩

theorem Gathered.block_le (gathered : Gathered f K beyond packets w order D)
    (formed : ∀ p, ∀ packet ∈ packets p, packet.WellFormed) {buf : Buf} {pos rc : Nat}
    (place : w.pc p = .send buf pos rc) (some : buf.bytes.take rc ≠ []) :
    pos + (buf.bytes.take rc).length ≤ longest := by
  obtain ⟨before, front, _, from_⟩ := gathered.blocks p buf pos rc place
  have reply : (LineStore.since (before.map Prod.snd)).reply.length ≤ longest := by
    refine LineStore.reply_le fun line member => ?_
    obtain ⟨⟨q, _⟩, inside, rfl⟩ := List.mem_map.mp (LineStore.lines_since _ member)
    exact gathered.stored_short formed (front.subset inside)
  have within := from_.length_le
  have positive := List.length_pos_of_ne_nil some
  rw [List.length_drop] at within
  omega

/-- The steps that a thread takes from here, at most, unless the others keep it from going on. -/
def Clients.left (w : Clients Pid) (p : Pid) : Nat :=
  (w.pc p).budget + packetSteps * (w.inbox p).length +
    if w.calling p then 1 + (w.driver.sys.pc p).left else (w.pc p).callBudget

theorem Clients.left_step {order' : List (Taken (Pid × Nat) Op CallResult)} {D' : Dev}
    (formed : ∀ p, ∀ packet ∈ packets p, packet.WellFormed)
    (before : Gathered f K beyond packets w order D) (after : Gathered f K beyond packets w' order' D')
    (step : ClientStep f K beyond w p w') :
    w'.left p < w.left p ∧ ∀ q, q ≠ p → w'.left q = w.left q := by
  cases step with
  | @call r op sys free asks device taken =>
      have calls : (w.pc p).calls = true := by
        rw [← device_isSome K beyond asks, device]
        rfl
      refine ⟨?_, fun q apart => ?_⟩
      · have enters : sys.pc p = Pc.enter op := taken.enters.2.1
        have few := enter_left op
        simp only [Clients.left, Observed.after_sys, update_self, free, AppendPc.callBudget, calls, enters,
          if_true, Bool.false_eq_true, if_false]
        omega
      · simp only [Clients.left, Observed.after_sys, update_of_ne apart, taken.pc_other apart]
  | @inside sys busy taken =>
      refine ⟨?_, fun q apart => ?_⟩
      · obtain ⟨_, next⟩ := taken.next
        have fewer := next_left next
        simp only [Clients.left, Observed.after_sys, busy, if_true]
        omega
      · simp only [Clients.left, Observed.after_sys, taken.pc_other apart]
  | @back r retval pc busy asks returned step =>
      refine ⟨?_, fun q apart => by simp only [Clients.left, update_of_ne apart]⟩
      obtain ⟨op, device, _⟩ := before.found busy asks returned
      have fewer := budget_of_device step device fun buf pos rc place =>
        after.block_le (p := p) formed ((update_self ..).trans place)
      simp only [Clients.left, update_self, busy, if_true, Bool.false_eq_true, if_false]
      omega
  | @read block later pc free more step =>
      refine ⟨?_, fun q apart => by simp only [Clients.left, update_of_ne apart]⟩
      have fewer := budget_of_read step
      simp only [Clients.left, update_self, free, more, List.length_cons, Nat.mul_succ,
        Bool.false_eq_true, if_false]
      omega
  | @other r a pc owner free device nothing step =>
      refine ⟨?_, fun q apart => by simp only [Clients.left, update_of_ne apart]⟩
      have calls : (w.pc p).calls = false := by
        rw [← device_isSome K beyond step.asks, device]
        rfl
      have fewer := budget_of_other step calls nothing
      simp only [Clients.left, update_self, free, Bool.false_eq_true, if_false]
      omega

theorem left_of_start (start : w.Start f K packets) (p : Pid) :
    w.left p = 3 + packetSteps * (packets p).length := by
  obtain ⟨buf, place⟩ := start.pc p
  simp only [Clients.left, place, start.inbox, List.length_map, start.calling, AppendPc.budget,
    AppendPc.callBudget, AppendPc.calls, Bool.false_eq_true, if_false, Nat.add_zero]

theorem gathered_of_run [Fintype Pid] (room : bufLen ≤ K.kmallocMaxSize.toNat)
    (formed : ∀ p, ∀ packet ∈ packets p, packet.WellFormed) {labels : List (Pid × ClientEvent)}
    (run : (clients Pid f K beyond packets).Run Lts.anyStep labels w) :
    (∃ order D, Gathered f K beyond packets w order D) ∧
      labels.length + ∑ p, w.left p ≤ ∑ p, (3 + packetSteps * (packets p).length) := by
  refine run.bounded (fun w => ∃ order D, Gathered f K beyond packets w order D)
    (fun w => ∑ p, w.left p) ?_ ?_
  · intro w start
    refine ⟨⟨_, _, .start start⟩, ?_⟩
    simp only [left_of_start start, le_refl]
  · rintro w ⟨p, e⟩ w' ⟨order, D, gathered⟩ _ taken
    have step := clientStep_of taken
    obtain ⟨order', D', after⟩ := gathered.step room formed step
    obtain ⟨fewer, others⟩ := Clients.left_step formed gathered after step
    refine ⟨⟨order', D', after⟩, Finset.sum_lt_sum (fun q _ => ?_) ⟨p, Finset.mem_univ p, fewer⟩⟩
    by_cases same : q = p
    · exact same ▸ fewer.le
    · exact (others q same).le

/-- No call fails, nobody clears the flag, and no seek is refused. -/
def Clients.undisturbed (w : Clients Pid) : Pid × ClientEvent → Prop
  | (p, .answer a) => ∀ r, (w.pc p).request = some r → trouble r a = false
  | (p, .inside) => SeekReturns (w.driver.sys.pc p) w.driver.sys.data
  | _ => True

instance (w : Clients Pid) (label : Pid × ClientEvent) : Decidable (w.undisturbed label) :=
  match label with
  | (p, .answer a) => decidable_of_iff (∀ r ∈ (w.pc p).request, trouble r a = false) Iff.rfl
  | (p, .inside) => inferInstanceAs (Decidable (SeekReturns (w.driver.sys.pc p) w.driver.sys.data))
  | (_, .call) | (_, .back) => inferInstanceAs (Decidable True)

/-- With `dfdmutex` locked. -/
def AppendPc.locking : AppendPc → Bool
  | .write _ _ | .unlock _ _ _ => true
  | _ => false

/-- Where a thread is while nothing fails, with these blocks ahead. -/
def AppendPc.Smooth (inbox : List (List UInt8)) : AppendPc → Prop
  | .unlock _ _ failed => failed = false
  | .echo _ pos => pos ≤ longest
  | .send _ pos rc => pos + rc ≤ longest ∧ rc ≤ bufLen
  | .close r | .returned r => r = 0 ∧ inbox = []
  | .undefined => False
  | _ => True

structure Clients.Smooth (f : FixedSizeLlseek) (K : Kernel) (w : Clients Pid) : Prop where
  users : (users Pid f K).Reach (within SeekReturns) w.driver.sys
  idle : ∀ p, w.calling p = false → (w.driver.sys.pc p).outside
  begun : ∀ p, w.calling p = true → w.driver.sys.pc p ≠ .user none
  mutex : ∀ p, w.owner = some p ↔ (w.pc p).locking = true
  places : ∀ p, (w.pc p).Smooth (w.inbox p)

theorem smooth_replyOrNext (buf : Buf) (readcount : Nat) (inbox : List (List UInt8)) :
    (AppendPc.replyOrNext buf readcount).Smooth inbox ∧
      (AppendPc.replyOrNext buf readcount).locking = false := by
  unfold AppendPc.replyOrNext
  split
  · exact ⟨Nat.zero_le _, rfl⟩
  · exact ⟨trivial, rfl⟩

theorem Clients.Smooth.start (start : w.Start f K packets) : w.Smooth f K := by
  refine ⟨.init start.driver.1, fun p _ => start.driver.1.2.2 p, fun p busy => ?_, fun p => ?_,
    fun p => ?_⟩
  · rw [start.calling] at busy
    cases busy
  · obtain ⟨buf, place⟩ := start.pc p
    simp [start.owner, place, AppendPc.locking]
  · obtain ⟨buf, place⟩ := start.pc p
    rw [place]
    trivial

theorem Clients.Smooth.call (smooth : w.Smooth f K) {op : Op} {sys : DriverSystem Pid}
    (taken : Step (driverCode f) w.driver.sys (p, some op) sys) :
    { w with
      driver := w.driver.after f sys (p, some op)
      calling := update w.calling p true : Clients Pid }.Smooth f K := by
  refine ⟨?_, fun q free => ?_, fun q busy => ?_, smooth.mutex, smooth.places⟩
  · rw [Observed.after_sys]
    exact smooth.users.step (fun calls => by cases calls) taken
  · have apart : q ≠ p := by
      rintro rfl
      simp only [update_self, Bool.true_eq_false] at free
    simp only [update_of_ne apart] at free
    rw [Observed.after_sys, taken.pc_other apart]
    exact smooth.idle q free
  · rw [Observed.after_sys]
    by_cases same : q = p
    · subst same
      have enters : sys.pc q = Pc.enter op := taken.enters.2.1
      rw [enters]
      cases op <;> rintro ⟨⟩
    · rw [taken.pc_other same]
      simp only [update_of_ne same] at busy
      exact smooth.begun q busy

omit [DecidableEq Pid] in
theorem user_of_outside {pc : Pc} (out : pc.outside) : ∃ returned, pc = .user returned := by
  cases pc with
  | user returned => exact ⟨returned, rfl⟩
  | _ => cases out

theorem next_ne_idle {pc pc' : Pc} {d d' : Dev} {op : LockOp DevMutex}
    (next : Pc.next f pc d = some (op, pc', d')) : pc' ≠ .user none := by
  rintro rfl
  cases pc with
  | user | writeInsert | writeAccount | writeFree | writeUnlock | writeReset | writeOut | readOut
  | seekOut | llseek => cases next
  | write | writeFill | writeLock | read | ioctl | seek | seekBody =>
      simp only [Pc.next] at next
      split at next <;> cases next
  | readBody pos c =>
      obtain ⟨r, _, step⟩ := Option.map_eq_some_iff.mp next
      cases step

theorem Clients.Smooth.inside (smooth : w.Smooth f K) {sys : DriverSystem Pid}
    (busy : w.calling p = true) (returns : SeekReturns (w.driver.sys.pc p) w.driver.sys.data)
    (taken : Step (driverCode f) w.driver.sys (p, none) sys) :
    { w with driver := w.driver.after f sys (p, none) : Clients Pid }.Smooth f K := by
  refine ⟨?_, fun q free => ?_, fun q busy => ?_, smooth.mutex, smooth.places⟩
  · rw [Observed.after_sys]
    exact smooth.users.step (fun _ => returns) taken
  · have apart : q ≠ p := by
      rintro rfl
      rw [busy] at free
      cases free
    rw [Observed.after_sys, taken.pc_other apart]
    exact smooth.idle q free
  · rw [Observed.after_sys]
    by_cases same : q = p
    · subst same
      obtain ⟨op, next⟩ := taken.next
      exact next_ne_idle next
    · rw [taken.pc_other same]
      exact smooth.begun q busy

theorem Clients.Smooth.go_on (smooth : w.Smooth f K) (p : Pid) {pc : AppendPc} (later : List (List UInt8))
    (owner : Option Pid) (out : (w.driver.sys.pc p).outside) (place : pc.Smooth later)
    (others : ∀ q, q ≠ p → (owner = some q ↔ w.owner = some q))
    (own : owner = some p ↔ pc.locking = true) :
    { w with
      pc := update w.pc p pc
      calling := update w.calling p false
      inbox := update w.inbox p later
      owner := owner : Clients Pid }.Smooth f K := by
  refine ⟨smooth.users, fun q free => ?_, fun q busy => ?_, fun q => ?_, fun q => ?_⟩
  all_goals by_cases same : q = p
  · exact same ▸ out
  · simp only [update_of_ne same] at free
    exact smooth.idle q free
  · subst same
    simp only [update_self, Bool.false_eq_true] at busy
  · simp only [update_of_ne same] at busy
    exact smooth.begun q busy
  · subst same
    simpa only [update_self] using own
  · simpa only [update_of_ne same] using (others q same).trans (smooth.mutex q)
  · subst same
    simpa only [update_self] using place
  · simpa only [update_of_ne same] using smooth.places q

theorem Gathered.succeeds (gathered : Gathered f K beyond packets w order D) (busy : w.calling p = true)
    {r : Request} {retval : Int} (asks : (w.pc p).request = some r)
    (returned : (w.driver.sys.pc p).returned = some retval) :
    (∀ bytes, r = .writeData bytes → retval = bytes.length) ∧
      ∀ pos, r = .pread pos → retval = (w.driver.memory p).bytes.length ∧
        (w.driver.memory p).bytes.length ≤ bufLen := by
  obtain ⟨op, device, member⟩ := gathered.found busy asks returned
  obtain ⟨first, second, split⟩ := List.append_of_mem member
  have plain : ∀ c ∈ order, ThreadCall K c.op := fun c inside =>
    gathered.plain c.id c.op (gathered.ordered.linearizes.invoked c inside)
  obtain ⟨d, d', before, acts⟩ := gathered.ordered.linearizes.sequential.split split
  have presents := presents_of_sequential before fun c inside =>
    plain c (split ▸ List.mem_append_left _ inside)
  have own := plain _ member
  refine ⟨?_, ?_⟩
  · rintro bytes rfl
    simp only [deviceOp] at device
    split at device <;> cases device
    rename_i fits
    cases own with
    | write whole =>
        obtain ⟨_, _, acts', _⟩ := presents.write (f := f) 0 whole
        rw [acts'] at acts
        obtain ⟨reply, -⟩ := Prod.mk.inj (Option.some.inj acts)
        exact (CallResult.mk.inj reply).1.symm
  · rintro pos rfl
    cases device
    have sound := gathered.sound p
    obtain ⟨buf, place⟩ : ∃ buf, w.pc p = .echo buf pos := by
      cases place : w.pc p <;> rw [place] at asks <;> cases asks
      exact ⟨_, rfl⟩
    rw [place] at sound
    have small : pos < 2 ^ 31 := sound
    have positive : 0 < (BitVec.ofNat 64 bufLen).toNat := by decide
    obtain ⟨bytes, _, acts', few, _, _⟩ :=
      presents.read (f := f) (show pos < 2 ^ 63 by omega) positive
    rw [acts'] at acts
    obtain ⟨reply, -⟩ := Prod.mk.inj (Option.some.inj acts)
    obtain ⟨result, memory⟩ := CallResult.mk.inj reply
    rw [← memory, ← result]
    exact ⟨rfl, few⟩

theorem Gathered.works (gathered : Gathered f K beyond packets w order D) (busy : w.calling p = true)
    {r : Request} {retval : Int} (asks : (w.pc p).request = some r)
    (returned : (w.driver.sys.pc p).returned = some retval) :
    trouble r (deviceAnswer r retval (w.driver.memory p)) = false := by
  obtain ⟨op, device, _⟩ := gathered.found busy asks returned
  obtain ⟨writes, reads⟩ := gathered.succeeds busy asks returned
  cases r with
  | ioctl =>
      unfold deviceAnswer
      split <;> rfl
  | writeData bytes =>
      rw [deviceAnswer, if_neg (by rw [writes bytes rfl]; omega)]
      rfl
  | pread pos =>
      rw [deviceAnswer, if_neg (by rw [(reads pos rfl).1]; omega)]
      rfl
  | _ => cases device

omit [DecidableEq Pid] in
theorem smooth_of_device {pc pc' : AppendPc} {r : Request} {a : Answer} {op : Op}
    (step : AppendStep pc r a pc') (device : deviceOp K beyond r = some op)
    (works : trouble r a = false)
    (block : ∀ buf pos rc, pc' = .send buf pos rc → buf.bytes.take rc ≠ [] →
      pos + (buf.bytes.take rc).length ≤ longest) (inbox : List (List UInt8)) :
    pc'.Smooth inbox ∧ pc'.locking = pc.locking := by
  cases step with
  | ioctl buf readcount => exact smooth_replyOrNext buf readcount inbox
  | wrote => exact ⟨rfl, rfl⟩
  | preadEnd => exact ⟨trivial, rfl⟩
  | preadBlock buf pos nonempty short =>
      have within := block _ _ _ rfl
      rw [buf.take_fill short] at within
      exact ⟨⟨within nonempty, short⟩, rfl⟩
  | writeFailed | preadFailed => cases works
  | _ => cases device

theorem Clients.Smooth.back {order' : List (Taken (Pid × Nat) Op CallResult)} {D' : Dev}
    (smooth : w.Smooth f K) (formed : ∀ p, ∀ packet ∈ packets p, packet.WellFormed)
    (gathered : Gathered f K beyond packets w order D) {r : Request} {retval : Int} {pc : AppendPc}
    (busy : w.calling p = true) (asks : (w.pc p).request = some r)
    (returned : (w.driver.sys.pc p).returned = some retval)
    (step : AppendStep (w.pc p) r (deviceAnswer r retval (w.driver.memory p)) pc)
    (after : Gathered f K beyond packets
      { w with pc := update w.pc p pc, calling := update w.calling p false } order' D') :
    { w with pc := update w.pc p pc, calling := update w.calling p false : Clients Pid }.Smooth f K := by
  obtain ⟨op, device, _⟩ := gathered.found busy asks returned
  obtain ⟨place, locking⟩ := smooth_of_device step device (gathered.works busy asks returned)
    (fun buf pos rc place => after.block_le (p := p) formed ((update_self ..).trans place)) (w.inbox p)
  have out : (w.driver.sys.pc p).outside := by
    cases place : w.driver.sys.pc p <;> rw [place] at returned <;> first | rfl | cases returned
  have further := smooth.go_on p (w.inbox p) w.owner out place (fun _ _ => Iff.rfl)
    (by rw [locking]; exact smooth.mutex p)
  simpa only [update_eq_self] using further

theorem Clients.Smooth.answer (smooth : w.Smooth f K) {a : Answer}
    (nonempty : ∀ block ∈ w.inbox p, block ≠ [])
    (taken : w.next f K beyond p (.answer a) = some w')
    (works : ∀ r, (w.pc p).request = some r → trouble r a = false) : w'.Smooth f K := by
  obtain ⟨free, r, w₁, pc, asks, device, answers, resumes, rfl⟩ := answer_cases taken
  have step := appendStep_of asks resumes
  have works := works r asks
  have calls : (w.pc p).calls = false := by
    rw [← device_isSome K beyond asks, device]
    rfl
  have idle : update w.calling p false = w.calling := by rw [← free, update_eq_self]
  have out := smooth.idle p free
  have go_on := @Clients.Smooth.go_on _ _ _ _ _ smooth p pc
  simp only [idle] at go_on
  have mutex := smooth.mutex p
  have place := smooth.places p
  have quiet : w₁ = w → pc.Smooth (w.inbox p) → pc.locking = (w.pc p).locking →
      { w₁ with pc := update w.pc p pc }.Smooth f K := by
    rintro rfl place locking
    simpa only [update_eq_self] using
      go_on (w₁.inbox p) w₁.owner out place (fun _ _ => Iff.rfl) (by rw [locking]; exact mutex)
  generalize w.pc p = here at step mutex place calls quiet
  cases step with
  | opened | parsed =>
      cases answers
      exact quiet rfl trivial rfl
  | openFailed | stopped | readFailed | sendFailed => cases works
  | fin =>
      simp only [Clients.answered] at answers
      split at answers
      · rename_i empty
        cases answers
        exact quiet rfl ⟨rfl, empty⟩ rfl
      · rename_i block later more
        split at answers <;> cases answers
        rename_i nothing
        exact absurd nothing.symm (nonempty block (more ▸ List.mem_cons_self))
  | command buf nonempty | data buf nonempty =>
      simp only [Clients.answered] at answers
      split at answers
      · rw [if_neg nonempty] at answers
        cases answers
      · split at answers <;> cases answers
        exact go_on _ w.owner out trivial (fun _ _ => Iff.rfl) mutex
  | locked =>
      simp only [Clients.answered] at answers
      split at answers <;> cases answers
      rename_i unlocked
      rw [Option.isNone_iff_eq_none] at unlocked
      have further := go_on (w.inbox p) (some p) out trivial (fun q apart => ?_) ?_
      · simpa only [update_eq_self] using further
      · rw [unlocked]
        exact ⟨fun same => absurd (Option.some.inj same).symm apart, by rintro ⟨⟩⟩
      · exact ⟨fun _ => rfl, fun _ => rfl⟩
  | unlocked buf readcount =>
      cases answers
      obtain ⟨place, locking⟩ := smooth_replyOrNext buf readcount (w.inbox p)
      have owner : w.owner = some p := mutex.mpr rfl
      have further := go_on (w.inbox p) none out place (fun q apart => ?_) ?_
      · simpa only [update_eq_self] using further
      · rw [owner]
        exact ⟨(by rintro ⟨⟩), fun same => absurd (Option.some.inj same).symm apart⟩
      · rw [locking]
        exact ⟨(by rintro ⟨⟩), (by rintro ⟨⟩)⟩
  | unlockedFailed => cases place
  | sendShort buf pos less =>
      have length : (buf.bytes.take _).length = _ :=
        List.length_take_of_le ((Nat.le_succ_of_le place.2).trans_eq buf.length_eq.symm)
      simp only [trouble, length, decide_eq_false_iff_not] at works
      exact absurd less works
  | sent buf pos rc =>
      cases answers
      have within : pos + rc < 2 ^ 31 := place.1.trans_lt (by decide)
      rw [AppendPc.advance, if_pos within] at quiet ⊢
      exact quiet rfl place.1 rfl
  | closed =>
      have same : w₁ = w := by
        rename_i ignored
        rcases ignored with rfl | rfl <;> exact (Option.some.inj answers).symm
      exact quiet same place rfl
  | ioctl | wrote | writeFailed | preadFailed | preadEnd | preadBlock => cases calls

theorem smooth_of_reach (room : bufLen ≤ K.kmallocMaxSize.toNat)
    (formed : ∀ p, ∀ packet ∈ packets p, packet.WellFormed)
    (reach : (clients Pid f K beyond packets).Reach Clients.undisturbed w) :
    w.Smooth f K ∧ ∃ order D, Gathered f K beyond packets w order D := by
  refine reach.induct (fun w => w.Smooth f K ∧ ∃ order D, Gathered f K beyond packets w order D) ?_ ?_
  · exact fun w start => ⟨.start start, _, _, .start start⟩
  · rintro w ⟨p, e⟩ w' ⟨smooth, order, D, gathered⟩ undisturbed taken
    have taken : w.next f K beyond p e = some w' := taken
    obtain ⟨order', D', after⟩ := gathered.step room formed (clientStep_of taken)
    refine ⟨?_, order', D', after⟩
    cases e with
    | answer a =>
        exact smooth.answer (fun _ member => (gathered.inbox_formed formed member).1) taken undisturbed
    | call =>
        simp only [Clients.next] at taken
        split at taken
        · cases taken
        · obtain ⟨op, _, taken⟩ := Option.bind_eq_some_iff.mp taken
          obtain ⟨sys, computed, rfl⟩ := Option.map_eq_some_iff.mp taken
          exact smooth.call (exec_iff.mp computed)
    | inside =>
        simp only [Clients.next] at taken
        split at taken
        · rename_i busy
          obtain ⟨sys, computed, rfl⟩ := Option.map_eq_some_iff.mp taken
          exact smooth.inside busy undisturbed (exec_iff.mp computed)
        · cases taken
    | back =>
        simp only [Clients.next] at taken
        split at taken
        · rename_i busy
          obtain ⟨r, asks, taken⟩ := Option.bind_eq_some_iff.mp taken
          obtain ⟨retval, returned, taken⟩ := Option.bind_eq_some_iff.mp taken
          obtain ⟨pc, resumes, rfl⟩ := Option.map_eq_some_iff.mp taken
          exact smooth.back formed gathered busy asks returned (appendStep_of asks resumes) after
        · cases taken

/-- There is a step, and nothing fails in it. -/
def Clients.Goes (f : FixedSizeLlseek) (K : Kernel) (beyond : Nat → Option SizeT) (w : Clients Pid) :
    Prop :=
  ∃ label, w.undisturbed label ∧ (w.next f K beyond label.1 label.2).isSome

theorem Gathered.goes_back (gathered : Gathered f K beyond packets w order D) (busy : w.calling p = true)
    {retval : Int} (returned : (w.driver.sys.pc p).returned = some retval) : w.Goes f K beyond := by
  obtain ⟨r, op, asks, device, _⟩ := gathered.current p busy
  obtain ⟨writes, reads⟩ := gathered.succeeds busy asks returned
  obtain ⟨pc, resumes⟩ : ∃ pc, (w.pc p).resume (deviceAnswer r retval (w.driver.memory p)) = some pc := by
    generalize w.pc p = here at asks
    cases here with
    | returned | undefined => cases asks
    | start | loop | parse | lock | unlock | send | close =>
        cases asks
        cases device
    | ioctl =>
        cases asks
        unfold deviceAnswer
        split <;> exact ⟨_, rfl⟩
    | write buf readcount =>
        cases asks
        have result := writes _ rfl
        have few : (buf.bytes.take readcount).length ≤ readcount := List.length_take_le _ _
        rw [deviceAnswer, if_neg (by omega)]
        exact ⟨_, if_pos (by omega)⟩
    | echo buf pos =>
        cases asks
        obtain ⟨result, few⟩ := reads pos rfl
        rw [deviceAnswer, if_neg (by omega)]
        exact ⟨_, if_pos few⟩
  refine ⟨(p, .back), trivial, ?_⟩
  simp only [Clients.next, if_pos busy, asks, Option.bind_some, returned, resumes, Option.map_some,
    Option.isSome_some]

/-- With nobody in a driver call, a thread goes on unless it has to wait for `dfdmutex`. -/
theorem Clients.Smooth.goes (smooth : w.Smooth f K) (short : ∀ block ∈ w.inbox p, block.length ≤ bufLen)
    (free : w.calling p = false) (runs : w.pc p ≠ .returned 0)
    (unlocked : ∀ buf n, w.pc p = .lock buf n → w.owner = none) :
    w.Goes f K beyond := by
  have out := smooth.idle p free
  have place := smooth.places p
  -- a call that is not the driver's
  have answer : ∀ r a, (w.pc p).request = some r → (w.pc p).calls = false → trouble r a = false →
      (w.answered p r a).isSome → ((w.pc p).resume a).isSome → w.Goes f K beyond := by
    intro r a asks calls works answers resumes
    obtain ⟨w₁, answers⟩ := Option.isSome_iff_exists.mp answers
    obtain ⟨pc, resumes⟩ := Option.isSome_iff_exists.mp resumes
    have device : ¬(deviceOp K beyond r).isSome = true := by
      rw [device_isSome K beyond asks, calls]
      exact Bool.false_ne_true
    refine ⟨(p, .answer a), fun r' asks' => ?_, ?_⟩
    · rw [asks] at asks'
      cases asks'
      exact works
    · simp only [Clients.next, free, Bool.false_eq_true, if_false, asks, Option.bind_some, if_neg device,
        answers, resumes, Option.map_some, Option.isSome_some]
  have call : (w.pc p).calls = true → w.Goes f K beyond := by
    intro calls
    obtain ⟨r, asks⟩ : ∃ r, (w.pc p).request = some r := by
      cases here : w.pc p <;> rw [here] at calls <;> first | exact ⟨_, rfl⟩ | cases calls
    obtain ⟨op, device⟩ := Option.isSome_iff_exists.mp ((device_isSome K beyond asks).trans calls)
    have taken : exec (driverCode f) w.driver.sys (p, some op) = some _ := exec_iff.mpr (.enter out)
    refine ⟨(p, .call), trivial, ?_⟩
    simp only [Clients.next, free, Bool.false_eq_true, if_false, asks, Option.bind_some, device, taken,
      Option.map_some, Option.isSome_some]
  cases here : w.pc p with
  | ioctl | write | echo => exact call (by rw [here]; rfl)
  | start | unlock | close =>
      exact answer _ .done (by rw [here]; rfl) (by rw [here]; rfl) rfl rfl (by rw [here]; rfl)
  | loop buf =>
      cases more : w.inbox p with
      | nil =>
          refine answer .readSocket (.bytes []) (by rw [here]; rfl) (by rw [here]; rfl) rfl ?_
            (by rw [here]; rfl)
          simp only [Clients.answered, more, if_true, Option.isSome_some]
      | cons block later =>
          have short := short block (more ▸ List.mem_cons_self)
          refine answer .readSocket (.bytes block) (by rw [here]; rfl) (by rw [here]; rfl) rfl ?_ ?_
          · simp only [Clients.answered, more, if_true, Option.isSome_some]
          · rw [here, AppendPc.resume, if_pos short]
            rfl
  | parse =>
      exact answer _ (.parsed ⟨⟨0, 0⟩, [], []⟩) (by rw [here]; rfl) (by rw [here]; rfl) rfl rfl
        (by rw [here]; rfl)
  | lock buf readcount =>
      refine answer .lock .done (by rw [here]; rfl) (by rw [here]; rfl) rfl ?_ (by rw [here]; rfl)
      simp only [Clients.answered, unlocked buf readcount here, Option.isNone_none, if_true,
        Option.isSome_some]
  | send buf pos rc =>
      have all : (buf.bytes.take rc).length ≤ rc := List.length_take_le _ _
      refine answer (.writeSocket (buf.bytes.take rc)) (.count (buf.bytes.take rc).length)
        (by rw [here]; rfl) (by rw [here]; rfl) (by simp [trouble]) rfl ?_
      rw [here, AppendPc.resume, if_pos all]
      rfl
  | returned r =>
      rw [here] at place runs
      exact absurd (congrArg AppendPc.returned place.1) runs
  | undefined =>
      rw [here] at place
      cases place

/-- Everybody has been served: the threads have returned, nobody has a mutex, and the
    packets of all clients, once each and in order, make the store on the device. -/
structure Clients.Done (K : Kernel) (packets : Pid → List Packet) (w : Clients Pid) : Prop where
  returned : ∀ p, w.pc p = .returned 0
  outside : ∀ p, (w.driver.sys.pc p).outside
  free : w.owner = none ∧ ∀ l, w.driver.sys.owner l = none
  merge : ∃ merge, Merges K packets w merge ∧ (∀ p, ofClient p merge = (packets p).map Packet.asks) ∧
    Presents K (LineStore.since (merge.map Prod.snd)) w.driver.sys.data

theorem Clients.Smooth.done (smooth : w.Smooth f K) (gathered : Gathered f K beyond packets w order D)
    (formed : ∀ p, ∀ packet ∈ packets p, packet.WellFormed)
    (returns : ∀ p, SeekReturns (w.driver.sys.pc p) w.driver.sys.data)
    (stuck : ¬w.Goes f K beyond) : w.Done K packets := by
  have owned : Owned Pc.holds w.driver.sys := by
    obtain ⟨labels, run⟩ := smooth.users
    exact owned_of_reach (driverCode_disciplined f)
      ⟨labels, run.mono fun _ _ returns calls => (returns calls).checksPass⟩
  have out : ∀ p, (w.driver.sys.pc p).outside := by
    intro p
    by_contra inside
    obtain ⟨labels, run⟩ := smooth.users
    have away : ∀ pc l, (driverCode f).outside pc → ¬pc.holds l :=
      fun _ l out => not_holds_of_outside out l
    obtain ⟨q, s, taken⟩ := owned.progress away waits_ascending rank_lt
      (ready_of_reach ⟨labels, run.mono fun _ _ _ => trivial⟩ returns) inside
    have busy : w.calling q = true := by
      by_contra free
      have idle := smooth.idle q (Bool.eq_false_iff.mpr free)
      obtain ⟨op, next⟩ := taken.next
      obtain ⟨r, place⟩ := user_of_outside idle
      rw [place] at next
      cases next
    refine stuck ⟨(q, .inside), returns q, ?_⟩
    simp only [Clients.next, if_pos busy, exec_iff.mpr taken, Option.map_some, Option.isSome_some]
  have free : ∀ p, w.calling p = false := by
    intro p
    by_contra busy
    have busy : w.calling p = true := Bool.not_eq_false _ ▸ busy
    obtain ⟨result, place⟩ := user_of_outside (out p)
    cases result with
    | none => exact smooth.begun p busy place
    | some retval => exact stuck (gathered.goes_back busy (by rw [place]; rfl))
  have short : ∀ p, ∀ block ∈ w.inbox p, block.length ≤ bufLen :=
    fun p _ member => (gathered.inbox_formed formed member).2
  have unlocked : w.owner = none := by
    cases owner : w.owner with
    | none => rfl
    | some q =>
        have locking := (smooth.mutex q).mp owner
        refine absurd (smooth.goes (short q) (free q) ?_ ?_) stuck
        · intro place
          rw [place] at locking
          cases locking
        · intro buf n place
          rw [place] at locking
          cases locking
  have returned : ∀ p, w.pc p = .returned 0 := by
    intro p
    by_contra runs
    exact stuck (smooth.goes (short p) (free p) runs fun _ _ _ => unlocked)
  have merges := gathered.merges
  refine ⟨returned, out, ⟨unlocked, fun l => ?_⟩, _, merges, fun p => ?_, merges.stored out⟩
  · cases owner : w.driver.sys.owner l with
    | none => rfl
    | some holder =>
        obtain ⟨p, n⟩ := holder
        exact absurd ((owned l p n).mp owner).2 (not_holds_of_outside (out p) l)
  · obtain ⟨later, _, inbox, complete⟩ := merges.complete p (free p)
    have place := smooth.places p
    rw [returned p] at complete place
    rw [place.2] at inbox
    obtain rfl := List.map_eq_nil_iff.mp inbox.symm
    simpa [AppendPc.inHand] using complete

/-- What any number of clients are promised. -/
structure ServesAll (Pid : Type) [DecidableEq Pid] [Fintype Pid] (f : FixedSizeLlseek) (K : Kernel)
    (beyond : Nat → Option SizeT) (packets : Pid → List Packet) : Prop where
  /-- Whatever fails, no thread runs for ever. -/
  bounded : ∀ labels w, (clients Pid f K beyond packets).Run Lts.anyStep labels w →
    labels.length ≤ ∑ p, (3 + packetSteps * (packets p).length)
  /-- When nothing fails, there is no end but the good one. -/
  complete : ∀ w, (clients Pid f K beyond packets).Reach Clients.undisturbed w →
    (∀ p, SeekReturns (w.driver.sys.pc p) w.driver.sys.data) → ¬w.Goes f K beyond → w.Done K packets

end

/-- A `pread` on the device with nothing in between. -/
def preading (p : Fin 2) : List (Fin 2 × ClientEvent) :=
  (p, .call) :: List.replicate 3 (p, .inside) ++ [(p, .back)]

/-- From the replies that `bothServed` leads to until both clients have closed their side. -/
def bothEnd (first second : Fin 2) : List (Fin 2 × ClientEvent) :=
  [(second, .answer (.count 2)), (first, .answer .done)] ++ preading second ++
  [(second, .answer (.count 2))] ++ preading second ++
  [(second, .answer (.bytes [])), (second, .answer .done)] ++ preading first ++
  [(first, .answer (.count 2))] ++ preading first ++ [(first, .answer (.count 2))] ++
  preading first ++ [(first, .answer (.bytes [])), (first, .answer .done)]

end Aesd.Server
