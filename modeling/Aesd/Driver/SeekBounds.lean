import Aesd.Driver.SeekChecks

/-! # Which slots a seek reads

`aesd_adjust_file_offset` reads a slot before it tests the number of that slot,
and the test adds one in 32 bits.  `seekTrace` is the same code with the indices
of its reads written down; a command number below ten is exactly what keeps them
inside the array.
-/

namespace Aesd.Driver

open Aesd.Lib CircularBuffer

/-- `seekLoop`, with the slots that it reads. -/
def seekLoopTrace (cb : CircularBuffer Nat) (writeCmd : UInt32T) :
    Nat → Nat → Nat → LoffT → Option LoffT × List Nat
  | 0, _, _, _ => (none, [])
  | fuel + 1, i, j, fp =>
    if i < writeCmd.toNat then
      let (result, read) := seekLoopTrace cb writeCmd fuel ((i + 1) % 256)
        (aesdCircularIncrement j maxIndex).1 (fp + (cb.slot j).size)
      (result, j :: read)
    else (some fp, [])

/-- `seekBody`, with the slots that it reads; of an endless loop those of its first 256 rounds. -/
def seekTrace (cb : CircularBuffer Nat) (beyond : Nat → Option SizeT)
    (writeCmd writeCmdOffset : UInt32T) : SeekOutcome × List Nat :=
  let first := writeCmd.toNat
  match entrySize cb beyond writeCmd with
  | none => (.fault, [first])
  | some size =>
    if (writeCmdOffset + 1).setWidth 64 > size then (.einval, [first])
    else if writeCmd + 1 > BitVec.ofNat 32 maxWriteOperationsSupported then (.einval, [first])
    else
      let (result, read) := seekLoopTrace cb writeCmd uint8Rounds 0 cb.outOffs 0
      match result with
      | none => (.endless, first :: read)
      | some fp => (.adjusted (fp + writeCmdOffset.setWidth 64), first :: read)

/-- The indices of `entry` that a call reads. -/
def slotsRead (d : Dev) (c : SeekCall) : List Nat :=
  match c.lock with
  | .interrupted => []
  | .granted => (seekTrace d.cb c.beyond c.writeCmd c.writeCmdOffset).2

/-- The call returns, and reads nothing outside the array. -/
structure SeekSafe (d : Dev) (c : SeekCall) : Prop where
  returns : ∃ retval d', aesdAdjustFileOffset d c = some (retval, d')
  inside : ∀ i ∈ slotsRead d c, i < 10

section

variable {cb : CircularBuffer Nat} {added : List (BufferEntry Nat)}

theorem seekLoopTrace_fst (cb : CircularBuffer Nat) (c : UInt32T) (fuel i j : Nat) (fp : LoffT) :
    (seekLoopTrace cb c fuel i j fp).1 = seekLoop cb c fuel i j fp := by
  induction fuel generalizing i j fp with
  | zero => rfl
  | succ fuel ih =>
      rw [seekLoopTrace, seekLoop]
      split
      · exact ih _ _ _
      · rfl

theorem seekTrace_fst (cb : CircularBuffer Nat) (beyond : Nat → Option SizeT) (c o : UInt32T) :
    (seekTrace cb beyond c o).1 = seekBody cb beyond c o := by
  have loop := seekLoopTrace_fst cb c uint8Rounds 0 cb.outOffs 0
  rw [seekTrace, seekBody]
  cases entrySize cb beyond c with
  | none => rfl
  | some size =>
      dsimp only
      split
      · rfl
      · split
        · rfl
        · rw [← loop]
          generalize seekLoopTrace cb c uint8Rounds 0 cb.outOffs 0 = traced
          obtain ⟨result, read⟩ := traced
          cases result <;> rfl

/-- The loop itself stays inside the array whatever its limit is. -/
theorem seekLoopTrace_inside (cb : CircularBuffer Nat) (c : UInt32T) (fuel i : Nat) {j : Nat}
    (fp : LoffT) (inside : j < 10) : ∀ k ∈ (seekLoopTrace cb c fuel i j fp).2, k < 10 := by
  induction fuel generalizing i j fp with
  | zero => simp [seekLoopTrace]
  | succ fuel ih =>
      rw [seekLoopTrace]
      split
      · intro k member
        rcases List.mem_cons.mp member with rfl | later
        · exact inside
        · rw [aesdCircularIncrement_eq inside] at later
          exact ih _ _ (Nat.mod_lt _ (by decide)) k later
      · simp

theorem head_mem_seekTrace (cb : CircularBuffer Nat) (beyond : Nat → Option SizeT) (c o : UInt32T) :
    c.toNat ∈ (seekTrace cb beyond c o).2 := by
  rw [seekTrace]
  split
  · exact List.mem_singleton_self _
  · split
    · exact List.mem_singleton_self _
    · split
      · exact List.mem_singleton_self _
      · generalize seekLoopTrace cb c uint8Rounds 0 cb.outOffs 0 = traced
        obtain ⟨result, read⟩ := traced
        cases result <;> exact List.mem_cons_self

theorem seekTrace_inside (stores : cb.Stores added) (beyond : Nat → Option SizeT) {c : UInt32T}
    (o : UInt32T) (small : c.toNat < 10) : ∀ k ∈ (seekTrace cb beyond c o).2, k < 10 := by
  have loop := seekLoopTrace_inside cb c uint8Rounds 0 0 stores.outOffs_lt
  have first : ∀ k ∈ [c.toNat], k < 10 := by simpa using small
  rw [seekTrace]
  split
  · exact first
  · split
    · exact first
    · split
      · exact first
      · generalize seekLoopTrace cb c uint8Rounds 0 cb.outOffs 0 = traced at loop
        obtain ⟨result, read⟩ := traced
        have both : ∀ k ∈ c.toNat :: read, k < 10 := List.forall_mem_cons.mpr ⟨small, loop⟩
        cases result <;> exact both

end

/-- A seek returns and stays inside the array exactly when it does not get the
    lock or its command number is below ten. -/
theorem seekSafe_iff {K : Kernel} {d : Dev} (reachable : Reachable K d) (c : SeekCall) :
    SeekSafe d c ↔ (c.lock = .granted → c.writeCmd.toNat < 10) := by
  obtain ⟨_, _, models⟩ := reachable.models
  constructor
  · intro safe granted
    refine safe.inside _ ?_
    simp only [slotsRead, granted]
    exact head_mem_seekTrace _ _ _ _
  · intro small
    cases lock : c.lock with
    | interrupted =>
        exact ⟨⟨-ERESTARTSYS, d, by simp only [aesdAdjustFileOffset, lock]⟩,
          by simp [slotsRead, lock]⟩
    | granted =>
        have small := small lock
        constructor
        · simp only [aesdAdjustFileOffset, lock]
          by_cases accepts : SlotAccepts d.cb c.writeCmd c.writeCmdOffset
          · rw [seekBody_low models.stores c.beyond small accepts]
            exact ⟨_, _, rfl⟩
          · rw [seekBody_refused c.beyond small accepts]
            exact ⟨_, _, rfl⟩
        · simp only [slotsRead, lock]
          exact seekTrace_inside models.stores c.beyond c.writeCmdOffset small

theorem seekSafe_iff_empty :
    let c : SeekCall := ⟨9, 0, .granted, fun _ => none⟩
    SeekSafe (Dev.afterInit .pc) c ↔ (c.lock = .granted → c.writeCmd.toNat < 10) :=
  seekSafe_iff (Lts.Reach.init rfl) _

/-- A seek to command 10 looks behind the array. -/
theorem seek_reads_behind_array :
    ¬∀ (K : Kernel) (d : Dev) (c : SeekCall), Reachable K d → SeekSafe d c := by
  intro claim
  have safe := claim .pc (Dev.afterInit .pc) ⟨10, 0, .granted, fun _ => some 0⟩
    (Lts.Reach.init rfl)
  exact absurd (safe.inside 10 (by decide)) (by decide)

end Aesd.Driver
