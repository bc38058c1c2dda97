import Aesd.Driver.Reachable

/-! # The byte stream of a run of writes

A run of `aesd_write` calls is read as one stream.  Calls that return their
count keep, each, the bytes up to its first newline; what they keep is cut into
lines as a stream is, whatever the cuts between the calls.
-/

namespace Aesd.Driver

open Aesd.Lib Aesd.Lib.Lines

/-- Calls of `aesd_write` on a device, in the order in which they obtain
    `we_mutex`.  Each comes with the position of the open file it is made on. -/
def writesFrom (start : Dev) : Lts Dev (LoffT × WriteCall) where
  init d := d = start
  step d call d' := (aesdWrite d call.1 call.2).2.1 = d'

/-- Runs of writes since the module was initialised. -/
def writes (K : Kernel) : Lts Dev (LoffT × WriteCall) := writesFrom (Dev.afterInit K)

theorem writesFrom_write {start d : Dev} {ok} (reach : (writesFrom start).Reach ok d)
    (pos : LoffT) (c : WriteCall) (allowed : ok d (pos, c)) :
    (writesFrom start).Reach ok (aesdWrite d pos c).2.1 :=
  reach.step allowed rfl

theorem Reachable.of_writes {K : Kernel} {ok} {d : Dev} (reach : (writes K).Reach ok d) :
    Reachable K d := by
  refine Lts.Reach.induct (Reachable K) ?_ ?_ reach
  · intro d start
    exact Lts.Reach.init start
  · rintro d ⟨pos, c⟩ _ reachable _ rfl
    exact reachable.write pos c

theorem writes_run (ok : Dev → LoffT × WriteCall → Prop) [∀ d call, Decidable (ok d call)]
    (P : Dev → Prop) [DecidablePred P] (calls : List (LoffT × WriteCall))
    (computed : (calls.foldlM (Lts.allowing ok fun d call => some (aesdWrite d call.1 call.2).2.1)
      (Dev.afterInit .pc)).any (fun d => decide (P d)) = true) :
    ∃ d, (writes .pc).Run ok calls d ∧ P d :=
  Lts.exists_run (fun _ _ _ => Option.some.inj) rfl calls computed

/-- Ten lines of two bytes, and one of five in place of the first. -/
def wrapped : List (LoffT × WriteCall) :=
  List.replicate 10 (0, .ofBytes .pc [97, newline] (Nat.le_of_ble_eq_true rfl)) ++
    [(0, .ofBytes .pc [98, 98, 98, 98, newline] (Nat.le_of_ble_eq_true rfl))]

/-- The call reports every byte as written. -/
def ReturnsCount (d : Dev) (call : LoffT × WriteCall) : Prop :=
  (aesdWrite d call.1 call.2).1 = call.2.data.length

instance (d : Dev) (call : LoffT × WriteCall) : Decidable (ReturnsCount d call) :=
  inferInstanceAs (Decidable (_ = _))

/-- The bytes that were written since module init. -/
def sent (calls : List (LoffT × WriteCall)) : List UInt8 := calls.flatMap fun call => call.2.data

/-- Of each call, the bytes up to its first newline. -/
def kept (calls : List (LoffT × WriteCall)) : List UInt8 :=
  calls.flatMap fun call => upTo newline call.2.data

/-- The log of a byte stream. -/
def LineLog.ofStream (s : List UInt8) : LineLog := ⟨lines newline s, rest newline s⟩

theorem LineLog.Write.ofStream {K : Kernel} {c : WriteCall} {s : List UInt8} {retval : Int}
    {log' : LineLog} (write : LineLog.Write K c (.ofStream s) retval log')
    (returns : retval = c.data.length) : log' = .ofStream (s ++ upTo newline c.data) := by
  have errno : -ENOMEM < 0 ∧ -EFAULT < 0 ∧ -ERESTARTSYS < 0 := by decide
  cases write with
  | grew lock fits all fresh =>
      rw [upTo_of_not_mem newline fresh]
      simp only [LineLog.ofStream, lines_append_of_not_mem newline fresh,
        rest_append_of_not_mem newline fresh, LineLog.grow]
  | stored lock fits all fresh line grants cbLock =>
      rw [line, upTo_line newline fresh]
      simp only [LineLog.ofStream, lines_append_line newline fresh, rest_append_line newline fresh,
        LineLog.complete]
  | interrupted | refused | short | noBlock | cbInterrupted => omega

theorem kept_log {K : Kernel} {calls : List (LoffT × WriteCall)} {d : Dev}
    (run : (writes K).Run ReturnsCount calls d) :
    ∃ added, Models K d added (lines newline (kept calls)) ∧
      d.pending = rest newline (kept calls) := by
  refine run.induct (fun calls d => ∃ added,
    Models K d added (lines newline (kept calls)) ∧ d.pending = rest newline (kept calls)) ?_ ?_
  · rintro _ rfl
    exact ⟨[], Models.afterInit K, rfl⟩
  · rintro calls d ⟨pos, c⟩ _ ⟨added, models, pending⟩ returns rfl
    have log : d.log (lines newline (kept calls)) = .ofStream (kept calls) := by
      rw [Dev.log, pending, LineLog.ofStream]
    obtain ⟨added', log', write, after, pending'⟩ := models.write pos c
    rw [log] at write
    obtain rfl := write.ofStream returns
    have kept' : kept (calls ++ [(pos, c)]) = kept calls ++ upTo newline c.data := by
      simp [kept]
    rw [kept']
    exact ⟨added', after, pending'⟩

/-- Calls that report all their bytes keep them up to the first newline of each
    call: the buffer holds the last ten lines of that stream, the working entry
    its unterminated rest. -/
theorem writes_kept {K : Kernel} {calls : List (LoffT × WriteCall)} {d : Dev}
    (run : (writes K).Run ReturnsCount calls d) :
    d.liveContents = (lines newline (kept calls)).rtake 10 ∧
      d.pending = rest newline (kept calls) := by
  obtain ⟨_, models, pending⟩ := kept_log run
  exact ⟨models.liveContents, pending⟩

/-- A newline can only be the last byte of the call. -/
def OneLineAtMost (call : LoffT × WriteCall) : Prop := newline ∉ call.2.data.dropLast

instance (call : LoffT × WriteCall) : Decidable (OneLineAtMost call) :=
  inferInstanceAs (Decidable (¬_))

/-- What the calls keep is all they were given exactly when none has more behind
    its first newline. -/
theorem kept_eq_sent_iff (calls : List (LoffT × WriteCall)) :
    kept calls = sent calls ↔ ∀ call ∈ calls, OneLineAtMost call := by
  have shorter : ∀ calls, (kept calls).length ≤ (sent calls).length := by
    intro calls
    induction calls with
    | nil => exact le_rfl
    | cons call calls ih =>
        have first := (upTo_prefix_self newline call.2.data).length_le
        simp only [kept, sent, List.flatMap_cons, List.length_append] at ih ⊢
        omega
  induction calls with
  | nil => simp [kept, sent]
  | cons call calls ih =>
      have cut := upTo_prefix_self newline call.2.data
      have one : OneLineAtMost call ↔ upTo newline call.2.data = call.2.data :=
        (upTo_eq_self_iff newline).symm
      rw [List.forall_mem_cons, one]
      refine Iff.trans ?_ (and_congr_right fun _ => ih)
      have head : kept (call :: calls) = upTo newline call.2.data ++ kept calls := rfl
      have whole : sent (call :: calls) = call.2.data ++ sent calls := rfl
      rw [head, whole]
      constructor
      · intro same
        -- neither part can be shorter than what it was cut from
        have length := congrArg List.length same
        rw [List.length_append, List.length_append] at length
        have first := cut.length_le
        have others := shorter calls
        exact List.append_inj same (by omega)
      · rintro ⟨first, others⟩
        rw [first, others]

theorem ends_of_run {K : Kernel} {calls : List (LoffT × WriteCall)} {d : Dev}
    (run : (writes K).Run (fun d call => ReturnsCount d call ∧ OneLineAtMost call) calls d) :
    ∀ call ∈ calls, OneLineAtMost call := by
  refine run.induct (fun calls _ => ∀ call ∈ calls, OneLineAtMost call) (by simp) ?_
  intro calls _ call _ earlier allowed _ other member
  rcases List.mem_append.mp member with old | new
  · exact earlier other old
  · obtain rfl := List.mem_singleton.mp new
    exact allowed.2

/-- When no call has bytes behind its first newline, the device is the stream of
    all the bytes written: its last ten lines, and its unterminated rest.  The first
    call that has some leaves them out of it. -/
theorem writes_stream {K : Kernel} {calls : List (LoffT × WriteCall)} {d : Dev}
    (run : (writes K).Run (fun d call => ReturnsCount d call ∧ OneLineAtMost call) calls d) :
    (d.liveContents = (lines newline (sent calls)).rtake 10 ∧ d.pending = rest newline (sent calls)) ∧
      ∀ call, ReturnsCount d call → ¬OneLineAtMost call →
        let d' := (aesdWrite d call.1 call.2).2.1
        d'.liveContents = (lines newline (sent calls ++ upTo newline call.2.data)).rtake 10 ∧
          d'.pending = [] ∧ upTo newline call.2.data ≠ call.2.data := by
  have all := (kept_eq_sent_iff calls).mpr (ends_of_run run)
  have counts := run.mono fun _ _ allowed => allowed.1
  refine ⟨all ▸ writes_kept counts, fun call returns more => ?_⟩
  obtain ⟨stored, pending⟩ := writes_kept (counts.snoc returns rfl)
  have stream : kept (calls ++ [call]) = sent calls ++ upTo newline call.2.data := by
    simp [← all, kept]
  rw [stream] at stored pending
  have present : newline ∈ call.2.data := by
    by_contra fresh
    exact more fun member => fresh (List.dropLast_subset _ member)
  obtain ⟨body, after, line, fresh⟩ := List.eq_append_cons_of_mem present
  refine ⟨stored, ?_, mt (upTo_eq_self_iff newline).mp more⟩
  rw [pending, line, upTo_line newline fresh, rest_append_line newline fresh]

/-- A line in two calls, ten in one each, and a beginning; then a line with a byte behind it. -/
theorem writes_stream_twelve :
    let calls : List (LoffT × WriteCall) :=
      [(0, .ofBytes .pc [97] (by decide)), (0, .ofBytes .pc [98, newline] (by decide))] ++ wrapped ++
        [(0, .ofBytes .pc [99] (by decide))]
    let call : LoffT × WriteCall := (0, .ofBytes .pc [100, newline, 101] (by decide))
    ∃ d, (d.heap.length = 12 ∧ d.liveContents = (lines newline (sent calls)).rtake 10 ∧
        d.pending = rest newline (sent calls)) ∧
      (aesdWrite d call.1 call.2).2.1.pending = [] := by
  intro calls call
  obtain ⟨d, run, length, returns⟩ := writes_run (fun d call => ReturnsCount d call ∧ OneLineAtMost call)
    (fun d => d.heap.length = 12 ∧ ReturnsCount d call) calls (by decide +kernel)
  have ⟨stream, next⟩ := writes_stream run
  exact ⟨d, ⟨length, stream⟩, (next call returns (by decide)).2.1⟩

/-- The call that writes `a`, newline, `b` reports three bytes and keeps two. -/
theorem writes_lose_bytes :
    ¬∀ (K : Kernel) (calls : List (LoffT × WriteCall)) (d : Dev),
      (writes K).Run ReturnsCount calls d →
        d.liveContents = (lines newline (sent calls)).rtake 10 ∧
          d.pending = rest newline (sent calls) := by
  intro claim
  let c := WriteCall.ofBytes .pc [97, newline, 98] (by decide)
  have run : (writes .pc).Run ReturnsCount [(0, c)] (aesdWrite (Dev.afterInit .pc) 0 c).2.1 :=
    .snoc (.nil rfl) (by decide) rfl
  have claimed := (claim _ _ _ run).2
  rw [(writes_kept run).2] at claimed
  exact absurd claimed (by decide)

end Aesd.Driver
