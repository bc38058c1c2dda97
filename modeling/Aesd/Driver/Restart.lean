import Aesd.Driver.Stream

/-! # Writes that fail and are repeated

`-ERESTARTSYS` asks the kernel to make the same call again, and a caller may do
so after any error.  That repeats a single write only if the failed one left
nothing behind.  Three exits do leave something: they come after the index and
the file position were moved.
-/

namespace Aesd.Driver

open Aesd.Lib

/-- What a repeated call, or a reader, can see is as it was before the call. -/
structure Untouched (d : Dev) (pos : LoffT) (after : Dev × LoffT) : Prop where
  index : after.1.we.index = d.we.index
  pending : after.1.pending = d.pending
  cb : after.1.cb = d.cb
  liveContents : after.1.liveContents = d.liveContents
  cbSize : after.1.cbSize = d.cbSize
  pos : after.2 = pos

/-- The call fails after it moved the index: the copy came up short but not
    empty, or it copied a newline and got no block, or no second lock. -/
def FailsLate (d : Dev) (c : WriteCall) : Prop :=
  c.weLock = .granted ∧ d.Fits c ∧
    (0 < c.uncopied ∧ c.uncopied < c.data.length ∨
      c.uncopied = 0 ∧ newline ∈ c.data ∧
        (c.kzallocOk (d.blockSize c) = false ∨ c.cbLock = .interrupted))

instance (d : Dev) (c : WriteCall) : Decidable (FailsLate d c) :=
  have : Decidable (d.Fits c) := inferInstanceAs (Decidable (_ ≤ _))
  inferInstanceAs (Decidable (_ ∧ _ ∧ _))

theorem Untouched.refl (d : Dev) (pos : LoffT) : Untouched d pos (d, pos) :=
  ⟨rfl, rfl, rfl, rfl, rfl, rfl⟩

theorem index_moves {d : Dev} {c : WriteCall} (room : d.Room) (fits : d.Fits c) {n : Nat}
    (some : 0 < n) (short : n ≤ c.data.length) : (d.received c n).we.index ≠ d.we.index := by
  intro same
  have index := received_index room fits short
  rw [same] at index
  omega

theorem untouched_received {d : Dev} {c : WriteCall} (room : d.Room) (fits : d.Fits c)
    (pos : LoffT) : Untouched d pos (d.received c 0, pos + BitVec.ofNat 64 0) where
  index := BitVec.add_zero _
  pending := by rw [received_pending room fits (by simpa using c.uncopied_le), List.take_zero,
    List.append_nil]
  cb := rfl
  liveContents := rfl
  cbSize := rfl
  pos := BitVec.add_zero _

/-- A call either does not fail late, and then a failure leaves everything as it
    was, or it fails late, with the index moved. -/
theorem write_failure {d : Dev} (room : d.Room) (pos : LoffT) (c : WriteCall) :
    (¬FailsLate d c ∧ ((aesdWrite d pos c).1 < 0 → Untouched d pos (aesdWrite d pos c).2)) ∨
      (FailsLate d c ∧ (aesdWrite d pos c).1 < 0 ∧
        (aesdWrite d pos c).2.1.we.index ≠ d.we.index) := by
  have errno : -ENOMEM < 0 ∧ -EFAULT < 0 ∧ -ERESTARTSYS < 0 := by decide
  have outcome := aesdWrite_outcome room pos c
  generalize aesdWrite d pos c = result at outcome
  cases outcome with
  | weInterrupted lock =>
      refine .inl ⟨fun late => ?_, fun _ => .refl d pos⟩
      have taken := late.1
      rw [lock] at taken
      cases taken
  | out lock staged =>
      cases staged with
      | refused full => exact .inl ⟨fun late => full late.2.1, fun _ => .refl d pos⟩
      | short fits some =>
          by_cases nothing : c.data.length - c.uncopied = 0
          · refine .inl ⟨fun late => ?_, fun _ => ?_⟩
            · rcases late.2.2 with ⟨_, part⟩ | ⟨all, _⟩ <;> omega
            · simp only [nothing]
              exact untouched_received room fits pos
          · exact .inr ⟨⟨lock, fits, .inl (by omega)⟩, errno.2.1,
              index_moves room fits (by omega) (Nat.sub_le _ _)⟩
      | noLine fits all fresh =>
          refine .inl ⟨fun late => ?_, fun negative => ?_⟩
          · rcases late.2.2 with ⟨some, _⟩ | ⟨_, present, _⟩
            · omega
            · exact fresh present
          · simp only [count_toInt room fits] at negative
            omega
      | noBlock fits all fresh line fails =>
          have length : 0 < c.data.length := by simp [line]
          rw [← blockSize_line d fresh line] at fails
          exact .inr ⟨⟨lock, fits, .inr ⟨all, by simp [line], .inl fails⟩⟩, errno.1,
            index_moves room fits length le_rfl⟩
  | cbInterrupted lock cbLock staged =>
      cases staged with
      | line fits all fresh line grants =>
          have length : 0 < c.data.length := by simp [line]
          exact .inr ⟨⟨lock, fits, .inr ⟨all, by simp [line], .inr cbLock⟩⟩, errno.2.2,
            index_moves room fits length le_rfl⟩
  | committed lock cbLock staged =>
      cases staged with
      | line fits all fresh line grants =>
          rw [← blockSize_line d fresh line] at grants
          refine .inl ⟨fun late => ?_, fun negative => ?_⟩
          · rcases late.2.2 with ⟨some, _⟩ | ⟨_, _, fails | interrupted⟩
            · omega
            · rw [grants] at fails
              cases fails
            · rw [cbLock] at interrupted
              cases interrupted
          · simp only [count_toInt room fits] at negative
            omega

/-- A failed write leaves everything as it was, except exactly when it fails late. -/
theorem failed_write_untouched_iff {K : Kernel} {d : Dev} (reachable : Reachable K d) (pos : LoffT)
    (c : WriteCall) :
    ((aesdWrite d pos c).1 < 0 → Untouched d pos (aesdWrite d pos c).2) ↔ ¬FailsLate d c := by
  obtain ⟨_, _, models⟩ := reachable.models
  rcases write_failure models.room pos c with ⟨early, untouched⟩ | ⟨late, negative, moved⟩
  · exact ⟨fun _ => early, fun _ => untouched⟩
  · exact ⟨fun untouched => absurd (untouched negative).index moved, fun early => absurd late early⟩

/-- With a byte pending behind a stored line, `c` newline `d` without a second lock
    is a late failure, and a copy that gets nothing is not. -/
theorem failed_write_untouched_iff_pending :
    let late : WriteCall :=
      { WriteCall.ofBytes .pc [99, newline, 100] (by decide) with cbLock := .interrupted }
    let early : WriteCall :=
      { WriteCall.ofBytes .pc [99] (by decide) with uncopied := 1, uncopied_le := by decide }
    ∃ d : Dev, d.liveContents = [[97, newline]] ∧ d.pending = [98] ∧
      ¬((aesdWrite d 3 late).1 < 0 → Untouched d 3 (aesdWrite d 3 late).2) ∧
        (aesdWrite d 3 early).1 < 0 ∧ Untouched d 3 (aesdWrite d 3 early).2 := by
  intro late early
  obtain ⟨d, run, lines, pending, fails, passes, negative⟩ := writes_run Lts.anyStep
    (fun d => d.liveContents = [[97, newline]] ∧ d.pending = [98] ∧ FailsLate d late ∧
      ¬FailsLate d early ∧ (aesdWrite d 3 early).1 < 0)
    [(0, .ofBytes .pc [97, newline] (by decide)), (2, .ofBytes .pc [98] (by decide))]
    (by decide +kernel)
  have reachable := Reachable.of_writes ⟨_, run⟩
  exact ⟨d, lines, pending,
    fun untouched => (failed_write_untouched_iff reachable 3 late).mp untouched fails,
    negative, (failed_write_untouched_iff reachable 3 early).mpr passes negative⟩

/-- A signal at the second lock asks for a restart of a call whose byte is already pending. -/
theorem restart_duplicates :
    ¬∀ (K : Kernel) (d : Dev) (pos : LoffT) (c : WriteCall), Reachable K d →
      (aesdWrite d pos c).1 < 0 → Untouched d pos (aesdWrite d pos c).2 := by
  intro claim
  let c : WriteCall := { WriteCall.ofBytes .pc [newline] (by decide) with cbLock := .interrupted }
  have untouched := claim .pc (Dev.afterInit .pc) 0 c (Lts.Reach.init rfl) (by decide)
  exact absurd untouched.index (by decide)

end Aesd.Driver
