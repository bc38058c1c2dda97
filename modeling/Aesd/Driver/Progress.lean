import Aesd.Driver.Stream

/-! # Whether a device can still store a line

Only a stored line empties the working entry, and a block is one byte longer
than its line.  So the fill level decides: with two bytes free, one newline is
stored; with fewer, no sequence of writes stores anything any more.
-/

namespace Aesd.Driver

open Aesd.Lib

/-- A line that was written since `d`: a live entry of `d'` with a block of its
    own from since then, and a newline at its end. -/
def NewLine (d d' : Dev) : Prop :=
  ∃ e ∈ d'.cb.live, (∃ b, e.buffptr = some b ∧ d.heap.length ≤ b) ∧
    ∃ body, d'.contents e = body ++ [newline]

/-- Two bytes of the working entry are free. -/
def Dev.HasSpace (d : Dev) : Prop := d.we.index.toNat + 2 ≤ d.we.size.toNat

section

variable {K : Kernel} {d : Dev} {added : List (BufferEntry Nat)} {committed : List (List UInt8)}

theorem grants_iff (K : Kernel) {c : WriteCall} (quiet : c.Undisturbed K) {n : Nat}
    (small : n + 2 < 2 ^ 64) :
    c.kzallocOk (BitVec.ofNat 64 n + 2) = true ↔ n + 2 ≤ K.kmallocMaxSize.toNat := by
  have two : (2 : SizeT).toNat = 2 := rfl
  rw [quiet.kzallocOk, decide_eq_true_iff, BitVec.le_def]
  simp only [BitVec.toNat_add, BitVec.toNat_ofNat, two]
  rw [Nat.mod_eq_of_lt (by omega), Nat.mod_eq_of_lt (by omega)]

theorem WriteCall.Undisturbed.grows (models : Models K d added committed) {c : WriteCall}
    (quiet : c.Undisturbed K) (fits : d.Fits c) (fresh : newline ∉ c.data) (pos : LoffT) :
    (aesdWrite d pos c).2.1 = d.received c c.data.length := by
  have staged := stage_copied models.room fits quiet.uncopied pos
  rw [scanNewline_storeAt_fresh _ _ fresh] at staged
  simp only [aesdWrite, quiet.weLock, staged]

theorem newLine_of_space (models : Models K d added committed) (space : d.HasSpace) (pos : LoffT) :
    NewLine d (aesdWrite d pos (.ofBytes K [newline] (by decide))).2.1 := by
  have quiet := WriteCall.ofBytes_undisturbed K [newline] (by decide)
  have data : (WriteCall.ofBytes K [newline] (by decide)).data = [newline] := rfl
  generalize WriteCall.ofBytes K [newline] (by decide) = c at quiet data
  have room := models.room
  have bound := room.size_le
  simp only [Dev.HasSpace] at space
  have fits : d.Fits c := by
    rw [Dev.Fits, data, List.length_singleton]
    omega
  have outcome := aesdWrite_outcome room pos c
  generalize aesdWrite d pos c = result at outcome
  cases outcome with
  | weInterrupted lock => simp [quiet.weLock] at lock
  | cbInterrupted lock cbLock staged => simp [quiet.cbLock] at cbLock
  | out lock staged =>
      cases staged with
      | refused full => exact absurd fits full
      | short fits some => exact absurd quiet.uncopied some
      | noLine fits all fresh => simp [data] at fresh
      | noBlock fits all fresh line fails =>
          have short := congrArg List.length line
          simp only [data, List.length_append, List.length_cons, List.length_nil] at short
          have refuses := mt (grants_iff K quiet (by omega)).mpr (Bool.not_eq_true _ ▸ fails)
          rw [← models.size] at refuses
          omega
  | committed lock cbLock staged =>
      cases staged with
      | @line _ _ body _ fresh line grants =>
          have stands := standsFor_finishedEntry models fits line
          have after := ((models.received fits le_rfl).completed.withBlock
            (d.pending ++ body ++ [newline])).commit stands (length_line_le models fits line)
          have member : d.finishedEntry body ∈ (added ++ [d.finishedEntry body]).rtake 10 :=
            Ring.mem_rtake_concat (by decide) added _
          rw [← after.stores.live] at member
          refine ⟨d.finishedEntry body, member, ⟨d.heap.length, rfl, le_rfl⟩,
            d.pending ++ body, ?_⟩
          exact StandsFor.contents (stands.kfree _)

/-- Without that space an undisturbed call stores nothing, and leaves no more space. -/
theorem stuck_step (models : Models K d added committed) (stuck : ¬d.HasSpace) (pos : LoffT)
    {c : WriteCall} (quiet : c.Undisturbed K) :
    ¬(aesdWrite d pos c).2.1.HasSpace ∧
      (aesdWrite d pos c).2.1.heap.length = d.heap.length := by
  have room := models.room
  have bound := room.size_le
  simp only [Dev.HasSpace] at stuck
  have filled : ∀ n ≤ c.data.length, d.Fits c → ¬(d.received c n).HasSpace := by
    intro n short fits
    have index := received_index room fits short
    have size : (d.received c n).we.size = d.we.size := rfl
    rw [Dev.HasSpace, index, size]
    omega
  have outcome := aesdWrite_outcome room pos c
  generalize aesdWrite d pos c = result at outcome
  cases outcome with
  | weInterrupted lock => exact ⟨stuck, rfl⟩
  | cbInterrupted lock cbLock staged => simp [quiet.cbLock] at cbLock
  | out lock staged =>
      cases staged with
      | refused full => exact ⟨stuck, rfl⟩
      | short fits some => exact ⟨filled _ (Nat.sub_le _ _) fits, rfl⟩
      | noLine fits all fresh => exact ⟨filled _ le_rfl fits, rfl⟩
      | noBlock fits all fresh line fails => exact ⟨filled _ le_rfl fits, rfl⟩
  | committed lock cbLock staged =>
      cases staged with
      | line fits all fresh line grants =>
          have short := congrArg List.length line
          rw [List.length_append, List.length_cons] at short
          simp only [Dev.Fits] at fits
          rw [grants_iff K quiet (by omega), ← models.size] at grants
          omega

end

theorem stuck_forever {K : Kernel} {d : Dev} {added committed} (models : Models K d added committed)
    (stuck : ¬d.HasSpace) {d' : Dev}
    (reach : (writesFrom d).Reach (fun _ call => call.2.Undisturbed K) d') : ¬NewLine d d' := by
  have still : ∃ added committed, Models K d' added committed ∧ ¬d'.HasSpace ∧
      d'.heap.length = d.heap.length := by
    refine Lts.Reach.induct (fun d' => ∃ added committed, Models K d' added committed ∧
      ¬d'.HasSpace ∧ d'.heap.length = d.heap.length) ?_ ?_ reach
    · rintro _ rfl
      exact ⟨added, committed, models, stuck, rfl⟩
    · rintro d' ⟨pos, c⟩ _ ⟨added', committed', models', stuck', same⟩ quiet rfl
      obtain ⟨still, heap⟩ := stuck_step models' stuck' pos quiet
      obtain ⟨_, _, _, after, _⟩ := models'.write pos c
      exact ⟨_, _, after, still, heap.trans same⟩
  obtain ⟨_, _, models', _, same⟩ := still
  rintro ⟨e, member, ⟨b, ptr, new⟩, _⟩
  obtain ⟨b', _, own, found, _⟩ := models'.standsFor_live member
  obtain rfl := Option.some.inj (ptr.symm.trans own)
  have inside := (List.getElem?_eq_some_iff.mp found).1
  omega

/-- After any run of writes, undisturbed calls can bring a newly written line
    into the buffer exactly when two bytes of the working entry are free. -/
theorem newLine_reachable_iff {K : Kernel} {d : Dev} (reach : (writes K).Reach Lts.anyStep d) :
    (∃ d', (writesFrom d).Reach (fun _ call => call.2.Undisturbed K) d' ∧ NewLine d d') ↔
      d.we.index.toNat + 2 ≤ d.we.size.toNat := by
  obtain ⟨added, committed, models⟩ := (Reachable.of_writes reach).models
  constructor
  · rintro ⟨d', later, new⟩
    by_contra stuck
    exact stuck_forever models stuck later new
  · intro space
    exact ⟨_, writesFrom_write (Lts.Reach.init rfl) 0 _
      (WriteCall.ofBytes_undisturbed K [newline] (by decide)), newLine_of_space models space 0⟩

/-- After a line, a signal at the second lock of another and a short copy. -/
theorem newLine_reachable_iff_failures : ∃ d, d.pending = [97, newline, 97] ∧
    ∃ d', (writesFrom d).Reach (fun _ call => call.2.Undisturbed .pc) d' ∧ NewLine d d' := by
  let line := WriteCall.ofBytes .pc [97, newline] (by decide)
  obtain ⟨d, run, pending, space⟩ := writes_run Lts.anyStep
    (fun d => d.pending = [97, newline, 97] ∧ d.we.index.toNat + 2 ≤ d.we.size.toNat)
    [(0, line), (2, { line with cbLock := .interrupted }),
      (4, { line with uncopied := 1, uncopied_le := by decide })] (by decide +kernel)
  exact ⟨d, pending, (newLine_reachable_iff ⟨_, run⟩).mpr space⟩

/-- One undisturbed write without a newline fills the working entry. -/
theorem full_for_ever :
    ¬∀ (K : Kernel) (d : Dev),
      (writes K).Reach (fun _ call => call.2.Undisturbed K) d →
        ∃ d', (writesFrom d).Reach (fun _ call => call.2.Undisturbed K) d' ∧ NewLine d d' := by
  intro claim
  let c := WriteCall.ofBytes .pc (List.replicate (2 ^ 22) 97)
    (by rw [List.length_replicate]; decide)
  have quiet : c.Undisturbed .pc := WriteCall.ofBytes_undisturbed _ _ _
  have models := Models.afterInit .pc
  have data : c.data.length = 2 ^ 22 := List.length_replicate
  have capacity : (Dev.afterInit .pc).we.size.toNat = 2 ^ 22 := rfl
  have fits : (Dev.afterInit .pc).Fits c := by
    rw [Dev.Fits, data, capacity]
    exact le_rfl
  have fresh : newline ∉ c.data := fun member =>
    absurd (List.eq_of_mem_replicate member) (by decide)
  have filled := quiet.grows models fits fresh 0
  have stuck : ¬(aesdWrite (Dev.afterInit .pc) 0 c).2.1.HasSpace := by
    have index := received_index models.room fits le_rfl
    have size : ((Dev.afterInit .pc).received c c.data.length).we.size.toNat = 2 ^ 22 := capacity
    rw [filled, Dev.HasSpace, index, size, data]
    omega
  obtain ⟨_, _, _, after, _⟩ := models.write 0 c
  obtain ⟨d', later, new⟩ := claim _ _ (writesFrom_write (Lts.Reach.init rfl) 0 c quiet)
  exact stuck_forever after stuck later new

end Aesd.Driver
