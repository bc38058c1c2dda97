import Aesd.Driver.SeekChecks

/-! # Loops of reads

A reader calls `aesd_read` until it returns 0.  A reader that keeps its own
position, as `pread` has it, gets everything from the seek offset on.  A reader
that goes on from the position the call leaves has the seek offset added to that
position once by the seek and taken away again by every call.
-/

namespace Aesd.Driver

open Aesd.Lib

/-- A read that gets its lock and whose copy succeeds. -/
def plainRead (count : SizeT) : ReadCall := ⟨count, .granted, false⟩

/-- A loop of reads at `pos` until one returns 0, where `next` tells the position
    of the read that follows: the bytes it delivers, and what each call leaves
    in `*f_pos`. -/
inductive Drains (d : Dev) (next : LoffT → ReadResult → LoffT) :
    (Nat → SizeT) → LoffT → List UInt8 → List LoffT → Prop where
  | done {counts pos r} (read : aesdRead d pos (plainRead (counts 0)) = some r)
      (zero : r.retval = 0) : Drains d next counts pos [] [r.pos]
  | more {counts pos r bytes left} (read : aesdRead d pos (plainRead (counts 0)) = some r)
      (some : 0 < r.retval)
      (rest : Drains d next (fun i => counts (i + 1)) (next pos r) bytes left) :
      Drains d next counts pos (r.bytes ++ bytes) (r.pos :: left)

/-- `pread`: the caller advances its own position by what was returned. -/
def ownPos (pos : LoffT) (r : ReadResult) : LoffT := pos + BitVec.ofInt 64 r.retval

/-- `read`: the next call starts where this one left `*f_pos`. -/
def filePos (_ : LoffT) (r : ReadResult) : LoffT := r.pos

section

variable {K : Kernel} {d : Dev} {added : List (BufferEntry Nat)} {committed : List (List UInt8)}

theorem toNat_of_nonneg {p : LoffT} (start : 0 ≤ p.toInt) : p.toNat < 2 ^ 63 := by
  by_contra negative
  have value := BitVec.toInt_eq_toNat_cond p
  have bound := p.isLt
  rw [if_neg (by omega)] at value
  omega

theorem Models.readAt (models : Models K d added committed) {p : LoffT} (start : p.toNat < 2 ^ 63) :
    d.readAt p = p.toNat + d.cbIoctlOffs.toNat := by
  have offset := models.offset_lt
  rw [Dev.readAt, BitVec.toNat_add, Nat.mod_eq_of_lt (by omega)]

/-- What a plain read with a positive count does at a nonnegative position. -/
theorem Models.plainRead (models : Models K d added committed) {p : LoffT}
    (start : p.toNat < 2 ^ 63) {count : SizeT} (positive : 0 < count.toNat) :
    (d.stored.length ≤ p.toNat + d.cbIoctlOffs.toNat ∧
        aesdRead d p (plainRead count) = some ⟨0, [], p⟩) ∨
      ∃ n, 0 < n ∧ p.toNat + d.cbIoctlOffs.toNat + n ≤ d.stored.length ∧
        aesdRead d p (plainRead count) = some ⟨n,
          (d.stored.drop (p.toNat + d.cbIoctlOffs.toNat)).take n,
          p + (BitVec.ofNat 64 n - d.cbIoctlOffs)⟩ := by
  have outcome := aesdRead_outcome models p (Driver.plainRead count)
  have place := models.readAt start
  generalize aesdRead d p (Driver.plainRead count) = result at outcome
  cases outcome with
  | interrupted lock => cases lock
  | atEnd lock past =>
      rw [place] at past
      exact .inl ⟨past, rfl⟩
  | faulted lock inside faults => cases faults
  | chunk lock copied n inside within asked progress =>
      rw [place] at within ⊢
      exact .inr ⟨n, progress positive, within, rfl⟩

/-- A reader whose position advances by the returned count gets the stored bytes
    from its position and the seek offset on; without a seek offset the calls
    leave no negative position. -/
theorem Models.drains (models : Models K d added committed) {next : LoffT → ReadResult → LoffT}
    (advances : ∀ p (r : ReadResult) (n : Nat), r.retval = n →
      r.pos = p + (BitVec.ofNat 64 n - d.cbIoctlOffs) → next p r = p + BitVec.ofNat 64 n)
    (remaining : Nat) {p : LoffT} (start : p.toNat < 2 ^ 63)
    (few : d.stored.length ≤ p.toNat + d.cbIoctlOffs.toNat + remaining)
    {counts : Nat → SizeT} (positive : ∀ i, 0 < (counts i).toNat) :
    ∃ left, Drains d next counts p (d.stored.drop (p.toNat + d.cbIoctlOffs.toNat)) left ∧
      (d.cbIoctlOffs = 0 → ∀ q ∈ left, q.toNat < 2 ^ 63) := by
  have total := models.length_stored
  induction remaining generalizing p counts with
  | zero =>
      rw [Nat.add_zero] at few
      rw [List.drop_eq_nil_of_le few]
      rcases models.plainRead start (positive 0) with ⟨_, read⟩ | ⟨n, some, within, _⟩
      · refine ⟨_, .done read rfl, fun _ q member => ?_⟩
        obtain rfl := List.mem_singleton.mp member
        exact start
      · omega
  | succ remaining ih =>
      rcases models.plainRead start (positive 0) with ⟨past, read⟩ | ⟨n, some, within, read⟩
      · rw [List.drop_eq_nil_of_le past]
        refine ⟨_, .done read rfl, fun _ q member => ?_⟩
        obtain rfl := List.mem_singleton.mp member
        exact start
      · have later : (p + BitVec.ofNat 64 n).toNat = p.toNat + n := by
          rw [BitVec.toNat_add, BitVec.toNat_ofNat]
          omega
        obtain ⟨left, rest, small⟩ := ih (p := p + BitVec.ofNat 64 n) (by omega) (by omega)
          (fun i => positive (i + 1))
        have bytes : (d.stored.drop (p.toNat + d.cbIoctlOffs.toNat)).take n ++
            d.stored.drop ((p + BitVec.ofNat 64 n).toNat + d.cbIoctlOffs.toNat) =
              d.stored.drop (p.toNat + d.cbIoctlOffs.toNat) := by
          have shift : p.toNat + n + d.cbIoctlOffs.toNat = p.toNat + d.cbIoctlOffs.toNat + n := by
            omega
          have split : d.stored.drop (p.toNat + d.cbIoctlOffs.toNat + n) =
              (d.stored.drop (p.toNat + d.cbIoctlOffs.toNat)).drop n := List.drop_drop.symm
          rw [later, shift, split, List.take_append_drop]
        rw [← bytes]
        refine ⟨(p + (BitVec.ofNat 64 n - d.cbIoctlOffs)) :: left,
          .more read (Int.natCast_pos.mpr some) ?_, fun none q member => ?_⟩
        · rw [advances _ _ n rfl rfl]
          exact rest
        · rcases List.mem_cons.mp member with rfl | further
          · have same : p + (BitVec.ofNat 64 n - d.cbIoctlOffs) = p + BitVec.ofNat 64 n := by
              simp [none]
            rw [same, later]
            omega
          · exact small none q further

end

theorem oneLine_fits : [97, newline].length < 2 ^ 64 := by decide

/-- The device after the one line `a`. -/
def oneLine : Dev := (aesdWrite (Dev.afterInit .pc) 0 (.ofBytes .pc [97, newline] oneLine_fits)).2.1

theorem oneLine_reachable : Reachable .pc oneLine :=
  Reachable.write (Lts.Reach.init rfl) 0 _

/-- Reads at the caller's own position deliver everything that is stored from
    that position and the seek offset on, and then 0. -/
theorem pread_drains {K : Kernel} {d : Dev} (reachable : Reachable K d) {p : LoffT}
    (start : 0 ≤ p.toInt) {counts : Nat → SizeT} (positive : ∀ i, 0 < (counts i).toNat) :
    (∃ left, Drains d ownPos counts p (d.stored.drop (p.toNat + d.cbIoctlOffs.toNat)) left) ∧
      ∀ count : SizeT, 0 < count.toNat → ∀ r, aesdRead d p (plainRead count) = some r →
        r.retval = 0 → d.stored.length ≤ p.toNat + d.cbIoctlOffs.toNat := by
  obtain ⟨_, _, models⟩ := reachable.models
  have inside := toNat_of_nonneg start
  constructor
  · have advances : ∀ p (r : ReadResult) (n : Nat), r.retval = n →
        r.pos = p + (BitVec.ofNat 64 n - d.cbIoctlOffs) → ownPos p r = p + BitVec.ofNat 64 n := by
      intro p r n returned _
      rw [ownPos, returned, BitVec.ofInt_natCast]
    obtain ⟨left, drains, _⟩ :=
      models.drains advances d.stored.length inside (Nat.le_add_left _ _) positive
    exact ⟨left, drains⟩
  · intro count asked r read zero
    rcases models.plainRead inside asked with ⟨past, _⟩ | ⟨n, some, _, other⟩
    · exact past
    · rw [read] at other
      obtain rfl := Option.some.inj other
      simp only at zero
      omega

theorem pread_drains_one_line :
    (∃ left, Drains oneLine ownPos (fun _ => 1) 0
        (oneLine.stored.drop ((0 : LoffT).toNat + oneLine.cbIoctlOffs.toNat)) left) ∧
      ∀ count : SizeT, 0 < count.toNat → ∀ r, aesdRead oneLine 0 (plainRead count) = some r →
        r.retval = 0 → oneLine.stored.length ≤ (0 : LoffT).toNat + oneLine.cbIoctlOffs.toNat :=
  pread_drains oneLine_reachable (by decide) fun _ => by decide

section

variable {K : Kernel} {d : Dev} {added : List (BufferEntry Nat)} {committed : List (List UInt8)}

/-- Each call takes the seek offset away again, so a loop that delivers anything
    and never sees a negative position has none, and reads to the very end. -/
theorem Models.filePos_drains (models : Models K d added committed) {counts : Nat → SizeT}
    {p : LoffT} {bytes : List UInt8} {left : List LoffT}
    (drains : Drains d filePos counts p bytes left) (start : 0 ≤ p.toInt)
    (nonneg : ∀ q ∈ left, 0 ≤ q.toInt) (positive : ∀ i, 0 < (counts i).toNat) :
    ∃ m, d.stored.length + m * d.cbIoctlOffs.toNat ≤
        p.toNat + bytes.length + d.cbIoctlOffs.toNat ∧
      (0 < bytes.length → p.toNat + bytes.length + 2 * d.cbIoctlOffs.toNat ≤
        d.stored.length + m * d.cbIoctlOffs.toNat) := by
  have total := models.length_stored
  have offset := models.offset_lt
  induction drains with
  | @done counts p r read zero =>
      rcases models.plainRead (toNat_of_nonneg start) (positive 0) with
        ⟨past, _⟩ | ⟨n, some, _, other⟩
      · exact ⟨0, by simpa using past, by simp⟩
      · rw [read] at other
        obtain rfl := Option.some.inj other
        simp only at zero
        omega
  | @more counts p r bytes left read some rest ih =>
      have inside := toNat_of_nonneg start
      rcases models.plainRead inside (positive 0) with ⟨_, other⟩ | ⟨n, some, within, other⟩
      · rw [read] at other
        obtain rfl := Option.some.inj other
        simp at some
      · rw [read] at other
        obtain rfl := Option.some.inj other
        have next := nonneg _ (List.mem_cons_self ..)
        obtain ⟨m, upper, lower⟩ := ih next (fun q member => nonneg q (List.mem_cons_of_mem _ member))
          (fun i => positive (i + 1))
        -- a nonnegative position was not wrapped
        have moved : (p + (BitVec.ofNat 64 n - d.cbIoctlOffs)).toNat + d.cbIoctlOffs.toNat =
            p.toNat + n := by
          have small := toNat_of_nonneg next
          revert small
          simp only [BitVec.toNat_add, BitVec.toNat_sub, BitVec.toNat_ofNat]
          omega
        simp only [filePos] at upper lower
        have delivered : (((d.stored.drop (p.toNat + d.cbIoctlOffs.toNat)).take n) ++
            bytes).length = n + bytes.length := by
          rw [List.length_append, List.length_take, List.length_drop]
          omega
        refine ⟨m + 1, ?_, fun _ => ?_⟩
        · rw [delivered, Nat.succ_mul m]
          omega
        · rw [delivered, Nat.succ_mul m]
          by_cases last : 0 < bytes.length
          · have bound := lower last
            omega
          · omega

theorem Models.drop_inRange (models : Models K d added committed) {c : SeekCall}
    (inRange : InRange d c) :
    (d.liveContents.drop c.writeCmd.toNat).flatten.drop c.writeCmdOffset.toNat =
        d.stored.drop ((d.cb.liveSizes.take c.writeCmd.toNat).sum + c.writeCmdOffset.toNat) ∧
      (d.cb.liveSizes.take c.writeCmd.toNat).sum + c.writeCmdOffset.toNat < d.stored.length := by
  obtain ⟨e, found, short⟩ := inRange
  obtain ⟨inside, rfl⟩ := List.getElem?_eq_some_iff.mp found
  have before : (d.cb.liveSizes.take c.writeCmd.toNat).sum =
      (d.liveContents.take c.writeCmd.toNat).flatten.length := by
    rw [models.liveSizes, List.length_flatten, List.map_take]
  have split : d.stored = (d.liveContents.take c.writeCmd.toNat).flatten ++
      (d.liveContents.drop c.writeCmd.toNat).flatten := by
    rw [Dev.stored, ← List.flatten_append, List.take_append_drop]
  have own : d.cb.live[c.writeCmd.toNat].size.toNat ≤
      (d.liveContents.drop c.writeCmd.toNat).flatten.length := by
    have there : c.writeCmd.toNat < d.liveContents.length := by
      rwa [Dev.liveContents, List.length_map]
    have line : d.liveContents[c.writeCmd.toNat] = d.contents d.cb.live[c.writeCmd.toNat] := by
      simp only [Dev.liveContents, List.getElem_map]
    rw [List.drop_eq_getElem_cons there, List.flatten_cons, List.length_append, line,
      (models.standsFor_live (List.getElem_mem inside)).size_toNat]
    exact Nat.le_add_right _ _
  rw [before, split, List.drop_length_add_append, List.length_append]
  exact ⟨rfl, by omega⟩

theorem Models.seek_origin (models : Models K d added committed) {c : SeekCall}
    (inRange : InRange d c) :
    (d.cb.liveSizes.take c.writeCmd.toNat).sum + c.writeCmdOffset.toNat = 0 ↔
      c.writeCmd = 0 ∧ c.writeCmdOffset = 0 := by
  constructor
  · intro origin
    obtain ⟨e, found, _⟩ := inRange
    have inside := (List.getElem?_eq_some_iff.mp found).1
    have first : c.writeCmd.toNat = 0 := by
      by_contra later
      have positive : 0 < (d.cb.liveSizes.take c.writeCmd.toNat).sum := by
        rw [models.liveSizes]
        cases lines : d.liveContents with
        | nil =>
            have none := congrArg List.length lines
            simp only [Dev.liveContents, List.length_map, List.length_nil] at none
            omega
        | cons line others =>
            have first : line ∈ d.liveContents := by simp [lines]
            have nonempty := (models.bounded_live first).1
            obtain ⟨n, more⟩ : ∃ n, c.writeCmd.toNat = n + 1 := ⟨c.writeCmd.toNat - 1, by omega⟩
            rw [more, List.map_cons, List.take_succ_cons, List.sum_cons]
            omega
      omega
    exact ⟨BitVec.eq_of_toNat_eq first, BitVec.eq_of_toNat_eq (by simpa using by omega)⟩
  · rintro ⟨cmd, off⟩
    simp [cmd, off]

end

/-- After a seek in range, reads from `*f_pos` deliver the bytes from the place
    it names on, without a negative position, only when it names the very first
    byte and the file is at its start. -/
theorem reads_after_seek_iff {K : Kernel} {d d' : Dev} (reachable : Reachable K d) {c : SeekCall}
    (inRange : InRange d c)
    (returns : aesdIoctl d AESDCHAR_IOCSEEKTO (some c) = some (0, d')) {p : LoffT}
    (start : 0 ≤ p.toInt) {counts : Nat → SizeT} (positive : ∀ i, 0 < (counts i).toNat) :
    (∃ left, Drains d' filePos counts p
        ((d.liveContents.drop c.writeCmd.toNat).flatten.drop c.writeCmdOffset.toNat) left ∧
          ∀ q ∈ left, 0 ≤ q.toInt) ↔
      c.writeCmd = 0 ∧ c.writeCmdOffset = 0 ∧ p = 0 := by
  obtain ⟨_, _, models⟩ := reachable.models
  have after := models.ioctl returns
  have total := models.length_stored
  obtain ⟨from', short⟩ := models.drop_inRange inRange
  have origin := models.seek_origin inRange
  obtain ⟨_, rfl⟩ := seekto_zero models.stores returns
  rw [from', ← and_assoc, ← origin]
  generalize (d.cb.liveSizes.take c.writeCmd.toNat).sum + c.writeCmdOffset.toNat = k at *
  have offset : ({ d with cbIoctlOffs := BitVec.ofNat 64 k } : Dev).cbIoctlOffs.toNat = k := by
    rw [BitVec.toNat_ofNat, Nat.mod_eq_of_lt (by omega)]
  have same : ({ d with cbIoctlOffs := BitVec.ofNat 64 k } : Dev).stored = d.stored := rfl
  constructor
  · rintro ⟨left, drains, nonneg⟩
    obtain ⟨m, upper, lower⟩ := after.filePos_drains drains start nonneg positive
    rw [offset, same, List.length_drop] at upper lower
    have bound := lower (by omega)
    have none : k = 0 := by omega
    subst none
    exact ⟨rfl, BitVec.eq_of_toNat_eq (by simpa using by omega)⟩
  · rintro ⟨rfl, rfl⟩
    have advances : ∀ (p : LoffT) (r : ReadResult) (n : Nat), r.retval = n →
        r.pos = p + (BitVec.ofNat 64 n - BitVec.ofNat 64 0) →
          filePos p r = p + BitVec.ofNat 64 n := by
      intro p r n _ left
      rw [filePos, left, BitVec.sub_zero]
    obtain ⟨left, drains, small⟩ := after.drains advances d.stored.length
      (p := 0) (by decide) (Nat.le_add_left _ _) positive
    refine ⟨left, ?_, fun q member => ?_⟩
    · simpa [same] using drains
    · rw [BitVec.toInt_eq_toNat_of_lt]
      · exact Int.natCast_nonneg _
      · have bound := small rfl q member
        omega

theorem reads_after_seek_iff_start :
    (∃ left, Drains oneLine filePos (fun _ => 1) 0
        ((oneLine.liveContents.drop (0 : UInt32T).toNat).flatten.drop (0 : UInt32T).toNat) left ∧
          ∀ q ∈ left, 0 ≤ q.toInt) ↔
      (0 : UInt32T) = 0 ∧ (0 : UInt32T) = 0 ∧ (0 : LoffT) = 0 :=
  reads_after_seek_iff (c := ⟨0, 0, .granted, fun _ => none⟩) oneLine_reachable
    ⟨_, rfl, by decide⟩ rfl (by decide) fun _ => by decide

/-- After a seek to the second byte of the line the first read leaves 0 in
    `*f_pos`, and every later read delivers that byte again. -/
theorem seek_repeats_byte :
    ¬∀ (K : Kernel) (d d' : Dev) (c : SeekCall) (p : LoffT) (counts : Nat → SizeT),
      Reachable K d → InRange d c → aesdIoctl d AESDCHAR_IOCSEEKTO (some c) = some (0, d') →
        0 ≤ p.toInt → (∀ i, 0 < (counts i).toNat) →
          ∃ left, Drains d' filePos counts p
            ((d.liveContents.drop c.writeCmd.toNat).flatten.drop c.writeCmdOffset.toNat) left ∧
              ∀ q ∈ left, 0 ≤ q.toInt := by
  intro claim
  obtain ⟨_, _, models⟩ := oneLine_reachable.models
  have returns : aesdIoctl oneLine AESDCHAR_IOCSEEKTO (some ⟨0, 1, .granted, fun _ => none⟩) =
      some (0, { oneLine with cbIoctlOffs := 1 }) := rfl
  obtain ⟨left, drains, nonneg⟩ := claim .pc oneLine _ ⟨0, 1, .granted, fun _ => none⟩ 0
    (fun _ => 1) oneLine_reachable ⟨_, rfl, by decide⟩ returns (by decide) fun _ => by decide
  obtain ⟨m, upper, lower⟩ :=
    (models.ioctl returns).filePos_drains drains (by decide) nonneg fun _ => by decide
  have delivered : ((oneLine.liveContents.drop (0 : UInt32T).toNat).flatten.drop
      (1 : UInt32T).toNat).length = 1 := by decide
  have offset : ({ oneLine with cbIoctlOffs := 1 } : Dev).cbIoctlOffs.toNat = 1 := rfl
  rw [delivered, offset] at upper lower
  have bound := lower Nat.one_pos
  omega

end Aesd.Driver
