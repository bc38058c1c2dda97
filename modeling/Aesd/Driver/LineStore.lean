import Aesd.Driver.Progress
import Aesd.Driver.SeekChecks
import Aesd.Driver.WholeCall

/-! # What the device is for one user

A store of lines: the last ten are kept, and a seek sets where a reader starts
among them.  It is a store with a flaw of its own: a seek is judged by the line at
the place of that number, and the ten places are used in turn, so once a line has
been dropped the numbers no longer count from the oldest.
-/

namespace Aesd.Driver

open Aesd.Lib Aesd.Lib.Mutex Function

/-- The lines so far, and where a read at position 0 starts in those that are kept. -/
structure LineStore where
  lines : List (List UInt8)
  offset : Nat
  deriving Repr, DecidableEq

namespace LineStore

def kept (s : LineStore) : List (List UInt8) := s.lines.rtake 10

/-- What a reader gets who reads from position 0 to the end. -/
def reply (s : LineStore) : List UInt8 := s.kept.flatten.drop s.offset

/-- The line at one of the ten places. -/
def place (s : LineStore) (j : Nat) : List UInt8 :=
  let back := (s.lines.length + 9 - j) % 10
  if back < s.lines.length then s.lines.getD (s.lines.length - 1 - back) [] else []

def store (s : LineStore) (line : List UInt8) : LineStore := { s with lines := s.lines ++ [line] }

/-- The largest offset is accepted everywhere: its successor is 0. -/
def accepts (s : LineStore) (writeCmd writeCmdOffset : Nat) : Bool :=
  writeCmd < 10 && (writeCmdOffset < (s.place writeCmd).length || writeCmdOffset = 4294967295)

/-- A seek to an offset in one of the kept lines, if it is accepted. -/
def seek (s : LineStore) (writeCmd writeCmdOffset : Nat) : Option LineStore :=
  if s.accepts writeCmd writeCmdOffset then
    some { s with offset := (s.kept.take writeCmd).flatten.length + writeCmdOffset }
  else none

/-- What a user can ask of the store. -/
inductive Asked where
  | store (line : List UInt8)
  | seek (writeCmd writeCmdOffset : Nat)
  deriving Repr, DecidableEq

/-- A seek that is not accepted changes nothing. -/
def perform (s : LineStore) : Asked → LineStore
  | .store line => s.store line
  | .seek writeCmd writeCmdOffset => (s.seek writeCmd writeCmdOffset).getD s

/-- The empty store, and what has been asked of it since. -/
def since (asked : List Asked) : LineStore := asked.foldl perform ⟨[], 0⟩

theorem since_concat (asked : List Asked) (a : Asked) : since (asked ++ [a]) = (since asked).perform a :=
  List.foldl_concat ..

theorem reply_le {s : LineStore} {n : Nat} (short : ∀ line ∈ s.lines, line.length ≤ n) :
    s.reply.length ≤ 10 * n := by
  have each : ∀ m ∈ s.kept.map List.length, m ≤ n := by
    intro m member
    obtain ⟨line, inside, rfl⟩ := List.mem_map.mp member
    exact short line (Ring.mem_of_mem_rtake inside)
  have total := List.sum_le_card_nsmul _ _ each
  have few : (s.kept.map List.length).length ≤ 10 := by
    rw [List.length_map, LineStore.kept, Ring.length_rtake]
    exact Nat.min_le_left _ _
  have bound : (s.kept.map List.length).length • n ≤ 10 * n := Nat.mul_le_mul_right _ few
  rw [LineStore.reply, List.length_drop, List.length_flatten]
  omega

theorem lines_since (asked : List Asked) {line : List UInt8} (member : line ∈ (since asked).lines) :
    .store line ∈ asked := by
  induction asked using List.reverseRecOn with
  | nil => cases member
  | append_singleton asked a ih =>
      rw [since_concat] at member
      cases a with
      | store last =>
          rcases List.mem_append.mp member with old | new
          · exact List.mem_append_left _ (ih old)
          · rw [List.mem_singleton.mp new]
            exact List.mem_append_right _ (List.mem_singleton_self _)
      | seek writeCmd writeCmdOffset =>
          refine List.mem_append_left _ (ih ?_)
          rw [perform, seek] at member
          split at member <;> exact member

end LineStore

/-- The device is a store in this state, with nothing pending. -/
structure Presents (K : Kernel) (s : LineStore) (d : Dev) : Prop where
  models : ∃ added, Models K d added s.lines
  pending : d.pending = []
  offset : d.cbIoctlOffs.toNat = s.offset

theorem Presents.afterInit (K : Kernel) : Presents K ⟨[], 0⟩ (Dev.afterInit K) where
  models := ⟨[], Models.afterInit K⟩
  pending := rfl
  offset := rfl

section

variable {K : Kernel} {s : LineStore} {d : Dev} {f : FixedSizeLlseek}

theorem Presents.kept (presents : Presents K s d) : d.liveContents = s.kept := by
  obtain ⟨_, models⟩ := presents.models
  exact models.liveContents

theorem Presents.stored (presents : Presents K s d) : d.stored = s.kept.flatten := by
  rw [Dev.stored, presents.kept]

theorem Presents.place (presents : Presents K s d) {j : Nat} (small : j < 10) :
    d.cb.slotSize j = (s.place j).length := by
  obtain ⟨added, models⟩ := presents.models
  have same : added.length = s.lines.length := models.entries.length_eq
  rw [CircularBuffer.slotSize, LineStore.place]
  by_cases reached : (s.lines.length + 9 - j) % 10 < s.lines.length
  · have inside : s.lines.length - 1 - (s.lines.length + 9 - j) % 10 < added.length := by omega
    have turn : (s.lines.length - 1 - (s.lines.length + 9 - j) % 10) % 10 = j := by omega
    have found := models.stores.slots.recent _ inside (by omega)
    rw [turn] at found
    have stands := models.entries.get inside (same ▸ inside)
    rw [List.get_eq_getElem, List.get_eq_getElem] at stands
    simp only [if_pos reached, List.getD_eq_getElem?_getD, found, stands.size_toNat,
      List.getElem?_eq_getElem (same ▸ inside), Option.getD_some]
  · have unused : added.length ≤ j := by omega
    rw [models.stores.slots.unused j unused small]
    simp only [if_neg reached]
    rfl

theorem aesdWrite_offset (d : Dev) (pos : LoffT) (c : WriteCall) :
    (aesdWrite d pos c).2.1.cbIoctlOffs = d.cbIoctlOffs := by
  have staged := stage_offset d pos c
  unfold aesdWrite
  split
  · rfl
  · split
    · rename_i value
      rw [value] at staged
      exact staged
    · rename_i value
      rw [value] at staged
      split
      · exact staged
      · exact staged

theorem line_unique {body body' after : List UInt8}
    (eq : body ++ [newline] = body' ++ newline :: after) (fresh : newline ∉ body) :
    body' = body ∧ after = [] := by
  rcases List.append_eq_append_iff.mp eq with ⟨mid, rfl, tail⟩ | ⟨mid, rfl, tail⟩
  · cases mid with
    | nil =>
        rw [List.nil_append, List.cons.injEq] at tail
        exact ⟨by simp, tail.2.symm⟩
    | cons b mid => simp at tail
  · cases mid with
    | nil =>
        rw [List.nil_append, List.cons.injEq] at tail
        exact ⟨by simp, tail.2⟩
    | cons b mid =>
        rw [List.cons_append, List.cons.injEq] at tail
        exact absurd (by simp [tail.1]) fresh

/-- An undisturbed call that carries one line, short enough for a block. -/
structure WholeLine (K : Kernel) (c : WriteCall) (body : List UInt8) : Prop where
  line : c.data = body ++ [newline]
  fresh : newline ∉ body
  small : c.data.length + 1 ≤ K.kmallocMaxSize.toNat
  undisturbed : c.Undisturbed K

theorem WholeLine.completes {c : WriteCall} {body : List UInt8} (whole : WholeLine K c body)
    {log log' : LineLog} {retval : Int} (empty : log.pending = [])
    (write : LineLog.Write K c log retval log') :
    retval = c.data.length ∧ log' = log.complete body := by
  have length : c.data.length = body.length + 1 := by
    rw [whole.line, List.length_append, List.length_singleton]
  have small := whole.small
  have limit := K.kmallocMaxSize.isLt
  cases write with
  | interrupted lock => simp [whole.undisturbed.weLock] at lock
  | refused _ full =>
      refine absurd ?_ full
      simp only [LineLog.Fits, empty, List.length_nil, Nat.zero_add]
      omega
  | short _ _ some => exact absurd whole.undisturbed.uncopied some
  | grew _ _ _ none => simp [whole.line] at none
  | noBlock _ _ _ _ line fails =>
      obtain ⟨same, -⟩ := line_unique (whole.line.symm.trans line) whole.fresh
      rw [LineLog.request, same, empty, List.length_nil, Nat.zero_add] at fails
      have grants := (grants_iff K whole.undisturbed (n := body.length) (by omega)).mpr (by omega)
      rw [grants] at fails
      cases fails
  | cbInterrupted _ _ _ _ _ _ lock => simp [whole.undisturbed.cbLock] at lock
  | stored _ _ _ _ line =>
      obtain ⟨rfl, -⟩ := line_unique (whole.line.symm.trans line) whole.fresh
      exact ⟨rfl, rfl⟩

/-- A whole line is stored. -/
theorem Presents.write (presents : Presents K s d) (pos : LoffT) {c : WriteCall} {body : List UInt8}
    (whole : WholeLine K c body) :
    ∃ d' pos', d.callResult f (.write pos c) = some (⟨c.data.length, [], some pos'⟩, d') ∧
      Presents K (s.store c.data) d' := by
  obtain ⟨added, models⟩ := presents.models
  obtain ⟨added', log', write, models', pending⟩ := models.write pos c
  obtain ⟨returns, rfl⟩ := whole.completes presents.pending write
  have moved := aesdWrite_offset d pos c
  refine ⟨(aesdWrite d pos c).2.1, (aesdWrite d pos c).2.2, ?_, ⟨added', ?_⟩, pending, ?_⟩
  · simp only [Dev.callResult, returns]
  · simpa [LineLog.complete, Dev.log, presents.pending, LineStore.store, whole.line] using models'
  · rw [moved]
    exact presents.offset

/-- A read gets some of what comes next of the reply, up to its end. -/
theorem Presents.read (presents : Presents K s d) {pos : Nat} (small : pos < 2 ^ 63) {count : SizeT}
    (positive : 0 < count.toNat) :
    ∃ bytes pos', d.callResult f (.read (BitVec.ofNat 64 pos) (plainRead count)) =
        some (⟨bytes.length, bytes, pos'⟩, d) ∧
      bytes.length ≤ count.toNat ∧ bytes <+: s.reply.drop pos ∧
        (bytes = [] → s.reply.length ≤ pos) := by
  obtain ⟨added, models⟩ := presents.models
  have start : (BitVec.ofNat 64 pos).toNat = pos := by
    rw [BitVec.toNat_ofNat, Nat.mod_eq_of_lt (by omega)]
  have readAt : d.readAt (BitVec.ofNat 64 pos) = s.offset + pos := by
    rw [models.readAt (by omega), start, presents.offset, Nat.add_comm]
  have length : s.reply.length = d.stored.length - s.offset := by
    rw [LineStore.reply, List.length_drop, presents.stored]
  have from_ : d.stored.drop (s.offset + pos) = s.reply.drop pos := by
    rw [LineStore.reply, List.drop_drop, presents.stored]
  have outcome := aesdRead_outcome models (BitVec.ofNat 64 pos) (plainRead count)
  simp only [Dev.callResult]
  generalize aesdRead d (BitVec.ofNat 64 pos) (plainRead count) = result at outcome
  cases outcome with
  | interrupted lock => cases lock
  | faulted lock inside faults => cases faults
  | atEnd lock past =>
      rw [readAt] at past
      exact ⟨[], _, rfl, Nat.zero_le _, List.nil_prefix, fun _ => by omega⟩
  | chunk lock copied n inside within asked progress =>
      rw [readAt] at inside within ⊢
      rw [from_]
      have exact_ : ((s.reply.drop pos).take n).length = n := by
        rw [List.length_take, List.length_drop]
        omega
      have retval : (n : Int) = ((s.reply.drop pos).take n).length := by rw [exact_]
      rw [Option.map_some, retval]
      refine ⟨_, _, rfl, ?_, List.take_prefix _ _, fun empty => ?_⟩
      · rw [exact_]
        exact asked
      · have some := progress positive
        rw [empty, List.length_nil] at exact_
        omega

theorem Presents.seek (presents : Presents K s d) {st : SeekCall} (granted : st.lock = .granted) :
    match s.seek st.writeCmd.toNat st.writeCmdOffset.toNat with
    | some s' => ∃ d', Op.refused d (.ioctl AESDCHAR_IOCSEEKTO (some st)) = false ∧
        d.callResult f (.ioctl AESDCHAR_IOCSEEKTO (some st)) = some (⟨0, [], none⟩, d') ∧
          Presents K s' d'
    | none => d.callResult f (.ioctl AESDCHAR_IOCSEEKTO (some st)) = none ∨
        Op.refused d (.ioctl AESDCHAR_IOCSEEKTO (some st)) = true ∧
          d.callResult f (.ioctl AESDCHAR_IOCSEEKTO (some st)) = some (⟨-EINVAL, [], none⟩, d) := by
  obtain ⟨added, models⟩ := presents.models
  have checked : ioctlSeek AESDCHAR_IOCSEEKTO (some st) = .ok st := by
    have magic : ¬iocType AESDCHAR_IOCSEEKTO ≠ AESD_IOC_MAGIC := by decide
    have number : ¬iocNr AESDCHAR_IOCSEEKTO > AESDCHAR_IOC_MAXNR := by decide
    simp only [ioctlSeek, if_neg magic, if_neg number, if_true]
  simp only [Dev.callResult, Op.refused, aesdIoctl_seekto, aesdAdjustFileOffset, checked, granted,
    true_and, LineStore.seek]
  by_cases accepts : s.accepts st.writeCmd.toNat st.writeCmdOffset.toNat
  · have decides := accepts
    simp only [LineStore.accepts, Bool.and_eq_true, Bool.or_eq_true, decide_eq_true_eq] at decides
    obtain ⟨small, inside⟩ := decides
    have slot : SlotAccepts d.cb st.writeCmd st.writeCmdOffset := by
      rw [SlotAccepts, presents.place small]
      exact inside
    have older : (d.cb.liveSizes.take st.writeCmd.toNat).sum =
        (s.kept.take st.writeCmd.toNat).flatten.length := by
      rw [models.liveSizes, presents.kept, List.length_flatten, List.map_take]
    simp only [if_pos accepts, seekBody_low models.stores st.beyond small slot, older]
    refine ⟨_, by simp, rfl, ⟨added, ?_⟩, presents.pending, ?_⟩
    · rw [← older]
      exact models.seek (seekBody_low models.stores st.beyond small slot)
    · have total := models.length_stored
      rw [presents.stored] at total
      have part : (s.kept.take st.writeCmd.toNat).flatten.length ≤ s.kept.flatten.length := by
        rw [List.length_flatten, List.length_flatten]
        exact (((List.take_sublist _ _).map _)).sum_le_sum (by simp)
      have bound := st.writeCmdOffset.isLt
      simp only [BitVec.toNat_ofNat]
      omega
  · have stuck : seekBody d.cb st.beyond st.writeCmd st.writeCmdOffset = .fault ∨
        seekBody d.cb st.beyond st.writeCmd st.writeCmdOffset = .endless ∨
          seekBody d.cb st.beyond st.writeCmd st.writeCmdOffset = .einval := by
      by_cases small : st.writeCmd.toNat < 10
      · have slot : ¬SlotAccepts d.cb st.writeCmd st.writeCmdOffset := by
          intro slot
          rw [SlotAccepts, presents.place small] at slot
          exact accepts (by simpa [LineStore.accepts, small] using slot)
        exact .inr (.inr (seekBody_refused st.beyond small slot))
      · rw [seekBody_high st.beyond (Nat.le_of_not_lt small)]
        cases st.beyond st.writeCmd.toNat with
        | none => exact .inl rfl
        | some size =>
            dsimp only
            split
            · exact .inr (.inr rfl)
            · exact .inr (.inl rfl)
    simp only [if_neg accepts]
    rcases stuck with outcome | outcome | outcome <;> simp [outcome]

end

end Aesd.Driver
