import Aesd.Server.Truncation

/-! # What becomes of a write that falls short

`appenddata` and `timestamp` both look at what `write` returned, each in its own
way.  `appenddata` gives up when it is -1; a test for a count that is too short was
taken out of it.  `timestamp` gives up when the count is too short.
-/

namespace Aesd.Server

open Aesd.Lib

/-- The chunks received, without those that were taken as commands. -/
def noteChunk : List (List UInt8) → Request × Answer → List (List UInt8)
  | chunks, (.readSocket, .bytes data) => if data = [] then chunks else chunks ++ [data]
  | chunks, (.ioctl _, _) => chunks.dropLast
  | chunks, _ => chunks

/-- What a thread was asked to store, chunk by chunk. -/
def dataChunks (labels : List (Request × Answer)) : List (List UInt8) := labels.foldl noteChunk []

/-- A `write` to the data source that returned a count, with that count. -/
def acceptedWrite : Request × Answer → Option (List UInt8 × Nat)
  | (.writeData bytes, .count n) => some (bytes, n)
  | _ => none

/-- The writes of a thread that did not fail. -/
def acceptedWrites (labels : List (Request × Answer)) : List (List UInt8 × Nat) :=
  labels.filterMap acceptedWrite

/-- The bytes of a thread that the data source has taken. -/
def storedBytes (labels : List (Request × Answer)) : List UInt8 :=
  (acceptedWrites labels).flatMap fun (bytes, n) => bytes.take n

theorem dataChunks_append (labels : List (Request × Answer)) (label : Request × Answer) :
    dataChunks (labels ++ [label]) = noteChunk (dataChunks labels) label := by
  unfold dataChunks
  rw [List.foldl_append]
  rfl

theorem acceptedWrites_append (labels : List (Request × Answer)) (label : Request × Answer) :
    acceptedWrites (labels ++ [label]) = acceptedWrites labels ++ (acceptedWrite label).toList := by
  unfold acceptedWrites
  rw [List.filterMap_append]
  rfl

theorem storedBytes_of_full {labels : List (Request × Answer)}
    (full : ∀ written ∈ acceptedWrites labels, written.2 = written.1.length) :
    storedBytes labels = ((acceptedWrites labels).map Prod.fst).flatten := by
  unfold storedBytes
  generalize acceptedWrites labels = writes at full ⊢
  induction writes with
  | nil => rfl
  | cons written writes ih =>
      obtain ⟨length, later⟩ := List.forall_mem_cons.mp full
      obtain ⟨bytes, n⟩ := written
      obtain rfl : n = bytes.length := length
      rw [List.flatMap_cons, ih later]
      dsimp only
      rw [List.take_length, List.map_cons, List.flatten_cons]

/-- The chunks a thread was asked to store and those it has handed to `write`, at
    each place in the code. -/
def Handing (asked handed : List (List UInt8)) : AppendPc → Prop
  | .parse _ _ _ | .ioctl _ _ _ => ∃ chunk, asked = handed ++ [chunk]
  | .lock buf readcount | .write buf readcount => asked = handed ++ [buf.bytes.take readcount]
  | .unlock _ _ failed => failed = false → handed = asked
  | .close r | .returned r => r = 0 → handed = asked
  | _ => handed = asked

theorem handing_replyOrNext {asked handed : List (List UInt8)} (all : handed = asked) (buf : Buf)
    (readcount : Nat) : Handing asked handed (.replyOrNext buf readcount) := by
  unfold AppendPc.replyOrNext
  split <;> exact all

theorem handing_advance {asked handed : List (List UInt8)} (all : handed = asked) (buf : Buf)
    (pos rc : Nat) : Handing asked handed (.advance buf pos rc) := by
  unfold AppendPc.advance
  split <;> exact all

theorem Handing.step {labels : List (Request × Answer)} {pc pc' : AppendPc} {r : Request} {a : Answer}
    (before : Handing (dataChunks labels) ((acceptedWrites labels).map Prod.fst) pc)
    (step : AppendStep pc r a pc') :
    Handing (dataChunks (labels ++ [(r, a)])) ((acceptedWrites (labels ++ [(r, a)])).map Prod.fst) pc' := by
  rw [dataChunks_append, acceptedWrites_append, List.map_append]
  cases step with
  | opened | stopped | fin | parsed | locked | preadEnd | preadBlock =>
      simpa [Handing, noteChunk, acceptedWrite] using before
  | openFailed | readFailed | writeFailed | unlockedFailed | preadFailed | sendFailed | sendShort =>
      simp [Handing]
  | @command buf data nonempty short word =>
      have all : _ = _ := before
      refine ⟨data, ?_⟩
      rw [noteChunk, if_neg nonempty]
      simpa [acceptedWrite] using all.symm
  | data buf nonempty short plain =>
      simp only [Handing, noteChunk, if_neg nonempty, buf.take_fill short]
      simpa [Handing, acceptedWrite] using before.symm
  | ioctl buf readcount seekto ignored =>
      obtain ⟨chunk, asked⟩ := before
      apply handing_replyOrNext
      simp [noteChunk, acceptedWrite, asked]
  | wrote buf within =>
      intro _
      simpa [Handing, noteChunk, acceptedWrite] using Eq.symm before
  | unlocked buf readcount =>
      apply handing_replyOrNext
      simpa [noteChunk, acceptedWrite] using before rfl
  | sent buf pos rc =>
      have all : _ = _ := before
      apply handing_advance
      simpa [noteChunk, acceptedWrite] using all
  | closed r ignored =>
      intro zero
      simpa [noteChunk, acceptedWrite] using before zero

theorem handing_of_run {ok : AppendPc → Request × Answer → Prop} {labels : List (Request × Answer)}
    {pc : AppendPc} (run : connection.Run ok labels pc) :
    Handing (dataChunks labels) ((acceptedWrites labels).map Prod.fst) pc := by
  induction run with
  | nil start =>
      obtain ⟨buf, rfl⟩ := start
      rfl
  | @snoc _ _ label _ _ _ taken ih => exact ih.step (appendStep_of taken.1 taken.2)

/-- After a write that returned -1 the thread is on its way out with -1. -/
inductive Leaving : AppendPc → Prop where
  | unlock (buf : Buf) (readcount : Nat) : Leaving (.unlock buf readcount true)
  | close : Leaving (.close (-1))
  | returned : Leaving (.returned (-1))

theorem Leaving.step {pc pc' : AppendPc} {r : Request} {a : Answer} (leaving : Leaving pc)
    (step : AppendStep pc r a pc') : Leaving pc' := by
  cases leaving with
  | unlock => cases step; exact .close
  | close => cases step; exact .returned
  | returned => cases step

theorem leaving_of_run {ok : AppendPc → Request × Answer → Prop} {labels : List (Request × Answer)}
    {pc : AppendPc} (run : connection.Run ok labels pc) {bytes : List UInt8}
    (failed : (.writeData bytes, .failed) ∈ labels) : Leaving pc := by
  induction run with
  | nil => cases failed
  | @snoc _ _ label _ _ _ taken ih =>
      have step := appendStep_of taken.1 taken.2
      rcases List.mem_append.mp failed with earlier | now
      · exact (ih earlier).step step
      · obtain rfl := List.mem_singleton.mp now
        cases step with
        | writeFailed => exact .unlock _ _

/-- Nothing has been found wrong so far; the count of a write is not looked at. -/
def Succeeding : AppendPc → Prop
  | .send _ _ rc => rc ≤ bufLen
  | .unlock _ _ failed => failed = false
  | .close r | .returned r => r = 0
  | _ => True

theorem Succeeding.step {pc pc' : AppendPc} {r : Request} {a : Answer} (before : Succeeding pc)
    (calm : trouble r a = false) (step : AppendStep pc r a pc') : Succeeding pc' := by
  have replies : ∀ buf readcount, Succeeding (.replyOrNext buf readcount) := by
    intro buf readcount
    unfold AppendPc.replyOrNext
    split <;> trivial
  have advances : ∀ buf pos rc, Succeeding (.advance buf pos rc) := by
    intro buf pos rc
    unfold AppendPc.advance
    split <;> trivial
  cases step with
  | openFailed | stopped | readFailed | writeFailed | preadFailed | sendFailed => cases calm
  | sendShort buf pos short =>
      -- the block is in the buffer, so a short count is one that `trouble` sees
      have whole := of_decide_eq_false calm
      have block : _ ≤ bufLen := before
      rw [List.length_take, buf.length_eq] at whole
      simp only [bufLen] at block
      omega
  | fin | wrote => rfl
  | opened | command | data | parsed | locked | preadEnd => trivial
  | preadBlock buf pos nonempty short => exact short
  | ioctl buf readcount | unlocked buf readcount => exact replies buf readcount
  | unlockedFailed => cases before
  | sent buf pos rc => exact advances buf pos rc
  | closed r => exact before

theorem succeeding_of_run {ok : AppendPc → Request × Answer → Prop} {labels : List (Request × Answer)}
    {pc : AppendPc} (run : connection.Run ok labels pc)
    (calm : ∀ label ∈ labels, trouble label.1 label.2 = false) : Succeeding pc := by
  induction run with
  | nil start =>
      obtain ⟨buf, rfl⟩ := start
      trivial
  | @snoc _ _ label _ _ _ taken ih =>
      obtain ⟨earlier, last⟩ := List.forall_mem_append.mp calm
      exact (ih earlier).step (last label List.mem_cons_self) (appendStep_of taken.1 taken.2)

/-- What `timestamp` is about to return, from its last call before the unlock. -/
inductive TimestampResult : Request × Answer → Int → Prop where
  | unformatted : TimestampResult (.strftime, .failed) (-1)
  | wrote {tstr : List UInt8} {n : Nat} (within : n ≤ tstr.length) :
      TimestampResult (.writeData tstr, .count n) (if n < tstr.length then -1 else 0)
  | failed (tstr : List UInt8) : TimestampResult (.writeData tstr, .failed) 0

theorem timestampResult_of_run {ok : ThreadPc → Request × Answer → Prop}
    {labels : List (Request × Answer)} {pc : ThreadPc}
    (run : (server.alone ThreadPc.entered).Run ok labels pc) {r : Int}
    (here : pc = .timestamp (.unlock r)) :
    ∃ label, labels.getLast? = some label ∧ TimestampResult label r := by
  cases run with
  | nil start =>
      subst here
      cases start
  | @snoc before pc label _ _ _ taken =>
      refine ⟨label, List.getLast?_concat, ?_⟩
      obtain ⟨asks, resumes⟩ := taken
      cases pc with
      | append pc =>
          obtain ⟨after, _, same⟩ := Option.map_eq_some_iff.mp resumes
          rw [here] at same
          cases same
      | timestamp pc =>
          obtain ⟨after, goes, same⟩ := Option.map_eq_some_iff.mp resumes
          rw [here, ThreadPc.timestamp.injEq] at same
          subst same
          have step := timestampStep_of asks goes
          obtain ⟨request, answer⟩ := label
          cases step with
          | formatFailed => exact .unformatted
          | wrote within => exact .wrote within
          | writeFailed tstr => exact .failed tstr

variable {Pid : Type}

/-- A connection whose write returns -1 does not return 0; one that returns 0 has
    handed every chunk it was asked to store to a `write` that returned a count, and
    has stored them all if the counts were full; counts that are too short are no
    reason not to return 0.  A timestamp whose `write` returned a count returns 0 for
    the full length only. -/
theorem write_results [DecidableEq Pid] {dev : Bool} {labels : List (Pid × Request × Answer)}
    {w : World Pid ThreadPc (Source Pid)} (run : (threads Pid dev).Run Lts.anyStep labels w) (p : Pid) :
    (∀ r, w.pc p = .append (.returned r) →
      ((∃ bytes, (.writeData bytes, .failed) ∈ Machine.share p labels) → r ≠ 0) ∧
        ((∀ label ∈ Machine.share p labels, trouble label.1 label.2 = false) → r = 0) ∧
        (r = 0 → (acceptedWrites (Machine.share p labels)).map Prod.fst =
            dataChunks (Machine.share p labels) ∧
          ((∀ written ∈ acceptedWrites (Machine.share p labels), written.2 = written.1.length) →
            storedBytes (Machine.share p labels) = (dataChunks (Machine.share p labels)).flatten))) ∧
      ∀ r tstr n, w.pc p = .timestamp (.unlock r) →
        (Machine.share p labels).getLast? = some (.writeData tstr, .count n) →
          (r = 0 ↔ n = tstr.length) := by
  let ok : Pid → Request → Answer → Prop := fun _ _ _ => True
  have any : (threads Pid dev).Run (fun _ label => ok label.1 label.2.1 label.2.2) labels w := run
  constructor
  · intro r here
    have mine := connection_of_threads any here
    refine ⟨?_, fun calm => succeeding_of_run mine calm, ?_⟩
    · rintro ⟨bytes, failed⟩
      cases leaving_of_run mine failed
      decide
    · intro zero
      have handed := handing_of_run mine zero
      refine ⟨handed, fun full => ?_⟩
      rw [storedBytes_of_full full, handed]
  · intro r tstr n here last
    obtain ⟨label, last', result⟩ :=
      timestampResult_of_run (Machine.alone_of_run any p) here
    obtain rfl := Option.some.inj (last'.symm.trans last)
    cases result with
    | wrote within =>
        split
        · simp only [reduceCtorEq, false_iff]
          omega
        · simp only [true_iff]
          omega

/-- A connection stores the first byte of a chunk of two, echoes, and ends. -/
def shortWrite : List (Nat × Answer) :=
  [(0, .done), (0, .bytes [97, 98]), (0, .done), (0, .count 1), (0, .done), (0, .bytes [97]),
    (0, .count 1), (0, .bytes []), (0, .bytes []), (0, .done)]

theorem shortWrite_run :
    ∃ labels w, (threads Nat false).Run Lts.anyStep labels w ∧ w.pc 0 = .append (.returned 0) ∧
      storedBytes (Machine.share 0 labels) = [97] ∧
        (dataChunks (Machine.share 0 labels)).flatten = [97, 98] := by
  have runs : ((server.exec (dataSource Nat false) serverStart shortWrite).map
      fun (labels, w) => (w.pc 0, storedBytes (Machine.share 0 labels),
        (dataChunks (Machine.share 0 labels)).flatten)) =
      some (.append (.returned 0), [97], [97, 98]) := by
    decide +kernel
  obtain ⟨⟨labels, w⟩, executes, result⟩ := Option.map_eq_some_iff.mp runs
  simp only [Prod.mk.injEq] at result
  exact ⟨labels, w, Machine.run_of_exec serverStart_run executes fun _ _ _ => trivial, result⟩

theorem write_results_short :
    ∃ labels w, (threads Nat false).Run Lts.anyStep labels w ∧ w.pc 0 = .append (.returned 0) ∧
      (acceptedWrites (Machine.share 0 labels)).map Prod.fst = dataChunks (Machine.share 0 labels) := by
  obtain ⟨labels, w, run, here, _⟩ := shortWrite_run
  exact ⟨labels, w, run, here, (((write_results run 0).1 0 here).2.2 rfl).1⟩

/-- The byte that was not accepted is lost, and the call returns 0. -/
theorem short_write_returns_zero :
    ¬∀ (labels : List (Nat × Request × Answer)) (w : World Nat ThreadPc (Source Nat)),
      (threads Nat false).Run Lts.anyStep labels w → ∀ p,
        (w.pc p = .append (.returned 0) → storedBytes (Machine.share p labels) =
          (dataChunks (Machine.share p labels)).flatten) ∧
        (w.pc p = .timestamp (.unlock 0) → ∃ tstr,
          (Machine.share p labels).getLast? = some (.writeData tstr, .count tstr.length)) := by
  intro claim
  obtain ⟨labels, w, run, here, stored, asked⟩ := shortWrite_run
  have all := (claim labels w run 0).1 here
  rw [stored, asked] at all
  exact absurd all (by decide)

end Aesd.Server
