import Aesd.Driver.Lookup
import Aesd.Driver.Operations

/-! # What the seek computes

The checks of `aesd_adjust_file_offset` look at the physical slot `write_cmd`;
its loop sums from `out_offs` on.  For a command number below ten the loop ends
with the sizes of the older live entries, whatever the checks compared.
-/

namespace Aesd.Driver

open Aesd.Lib CircularBuffer

variable {cb : CircularBuffer Nat} {added : List (BufferEntry Nat)}

theorem CircularBuffer.Stores.slotSize_at (stores : cb.Stores added) {k : Nat} (small : k < 10) :
    cb.slotSize ((cb.outOffs + k) % 10) = (cb.liveSizes[k]?).getD 0 := by
  rw [liveSizes, stores.live, List.getElem?_map, slotSize, stores.outOffs]
  by_cases inside : k < (added.rtake 10).length
  · rw [stores.slots.slot_window k inside, List.getElem?_eq_getElem inside]
    rfl
  · have beyond : added.length ≤ k := by
      rw [Ring.length_rtake] at inside
      omega
    rw [stores.slots.slot_beyond k beyond small, List.getElem?_eq_none (by omega)]
    rfl

theorem sum_range_getD (sizes : List Nat) (c : Nat) :
    ((List.range c).map fun k => (sizes[k]?).getD 0).sum = (sizes.take c).sum := by
  induction c with
  | zero => rfl
  | succ c ih =>
      rw [List.range_succ, List.map_append, List.sum_append, ih, List.take_add_one, List.sum_append]
      cases found : sizes[c]? <;> simp [found]

theorem CircularBuffer.Stores.sum_slotSizes (stores : cb.Stores added) {c : Nat} (small : c ≤ 10) :
    ((slotsFrom cb.outOffs c).map cb.slotSize).sum = (cb.liveSizes.take c).sum := by
  rw [slotsFrom_eq stores.outOffs_lt, List.map_map, ← sum_range_getD]
  congr 1
  apply List.map_congr_left
  intro k member
  exact stores.slotSize_at (Nat.lt_of_lt_of_le (List.mem_range.mp member) small)

theorem seekLoop_sum {c : UInt32T} {fuel i j n : Nat} {fp : LoffT} (inside : j < 10)
    (rounds : i + n = c.toNat) (small : c.toNat < 256) (enough : n < fuel) :
    seekLoop cb c fuel i j fp =
      some (fp + BitVec.ofNat 64 ((slotsFrom j n).map cb.slotSize).sum) := by
  obtain ⟨fuel, rfl⟩ : ∃ m, fuel = m + 1 := ⟨fuel - 1, by omega⟩
  induction n generalizing i j fuel fp with
  | zero =>
      rw [seekLoop, if_neg (by omega)]
      simp [slotsFrom]
  | succ n ih =>
      obtain ⟨fuel, rfl⟩ : ∃ m, fuel = m + 1 := ⟨fuel - 1, by omega⟩
      rw [seekLoop, if_pos (by omega), Nat.mod_eq_of_lt (by omega), aesdCircularIncrement_eq inside,
        ih (Nat.mod_lt _ (by decide)) (by omega) fuel (by omega), slotsFrom, List.map_cons,
        List.sum_cons, aesdCircularIncrement_eq inside]
      congr 1
      simp only [slotSize]
      bv_omega

/-- A `uint8_t` never gets to a limit of 256 or more. -/
theorem seekLoop_endless {c : UInt32T} (large : 256 ≤ c.toNat) (fuel i j : Nat) (fp : LoffT)
    (counter : i < 256) : seekLoop cb c fuel i j fp = none := by
  induction fuel generalizing i j fp with
  | zero => rfl
  | succ fuel ih =>
      rw [seekLoop, if_pos (by omega)]
      exact ih _ _ _ (Nat.mod_lt _ (by decide))

/-- The first check lets `o` pass at slot `c`: `o` is below the size of the
    slot, or `o + 1` is 0 in `unsigned int`. -/
def SlotAccepts (cb : CircularBuffer Nat) (c o : UInt32T) : Prop :=
  o.toNat < cb.slotSize c.toNat ∨ o.toNat = 2 ^ 32 - 1

theorem exceeds_iff (o : UInt32T) (size : SizeT) :
    (o + 1).setWidth 64 > size ↔ ¬(o.toNat < size.toNat ∨ o.toNat = 2 ^ 32 - 1) := by
  have wide : ((o + 1).setWidth 64 : SizeT).toNat = (o.toNat + 1) % 2 ^ 32 := by
    rw [BitVec.toNat_setWidth, BitVec.toNat_add]
    change (o.toNat + 1) % 2 ^ 32 % 2 ^ 64 = _
    omega
  rw [gt_iff_lt, BitVec.lt_def, wide]
  have bound := o.isLt
  omega

theorem seekBody_low (stores : cb.Stores added) (beyond : Nat → Option SizeT) {c o : UInt32T}
    (small : c.toNat < 10) (accepts : SlotAccepts cb c o) :
    seekBody cb beyond c o =
      .adjusted (BitVec.ofNat 64 ((cb.liveSizes.take c.toNat).sum + o.toNat)) := by
  have passes : ¬(o + 1).setWidth 64 > (cb.slot c.toNat).size := by
    rw [exceeds_iff]
    exact not_not.mpr accepts
  have inRange : ¬c + 1 > BitVec.ofNat 32 maxWriteOperationsSupported := by
    simp only [maxWriteOperationsSupported]
    bv_omega
  have loop : seekLoop cb c uint8Rounds 0 cb.outOffs 0 =
      some (0 + BitVec.ofNat 64 ((slotsFrom cb.outOffs c.toNat).map cb.slotSize).sum) :=
    seekLoop_sum stores.outOffs_lt (Nat.zero_add _) (by omega) (by simp only [uint8Rounds]; omega)
  simp only [seekBody, entrySize, if_pos small, if_neg passes, if_neg inRange, loop,
    stores.sum_slotSizes (Nat.le_of_lt small)]
  congr 1
  have origin : (0 : LoffT).toNat = 0 := rfl
  apply BitVec.eq_of_toNat_eq
  simp only [BitVec.toNat_add, BitVec.toNat_ofNat, BitVec.toNat_setWidth, origin]
  have bound := o.isLt
  omega

theorem seekBody_refused (beyond : Nat → Option SizeT) {c o : UInt32T} (small : c.toNat < 10)
    (refuses : ¬SlotAccepts cb c o) : seekBody cb beyond c o = .einval := by
  have fails : (o + 1).setWidth 64 > (cb.slot c.toNat).size := (exceeds_iff _ _).mpr refuses
  simp only [seekBody, entrySize, if_pos small, if_pos fails]

/-- Past the array only an offset check that fails, or the second check, makes
    the call return; a command number whose successor is 0 gets past both. -/
theorem seekBody_high (beyond : Nat → Option SizeT) {c o : UInt32T} (large : 10 ≤ c.toNat) :
    seekBody cb beyond c o =
      match beyond c.toNat with
      | none => .fault
      | some size =>
        if (o + 1).setWidth 64 > size ∨ c.toNat ≠ 2 ^ 32 - 1 then .einval else .endless := by
  have outside : ¬c.toNat < 10 := by omega
  simp only [seekBody, entrySize, if_neg outside]
  cases beyond c.toNat with
  | none => rfl
  | some size =>
      by_cases fails : (o + 1).setWidth 64 > size
      · simp only [fails, if_true, true_or]
      · by_cases last : c.toNat = 2 ^ 32 - 1
        · have passes : ¬c + 1 > BitVec.ofNat 32 maxWriteOperationsSupported := by
            simp only [maxWriteOperationsSupported]
            bv_omega
          have endless : seekLoop cb c uint8Rounds 0 cb.outOffs 0 = none :=
            seekLoop_endless (by omega) uint8Rounds 0 cb.outOffs 0 (by decide)
          simp only [fails, if_false, passes, endless, last, ne_eq, not_true_eq_false, or_self]
        · have stops : c + 1 > BitVec.ofNat 32 maxWriteOperationsSupported := by
            simp only [maxWriteOperationsSupported]
            have bound := c.isLt
            bv_omega
          simp only [fails, if_false, stops, if_true, last, ne_eq, not_false_eq_true, or_true]

theorem aesdIoctl_cases {d d' : Dev} {cmd : UInt32T} {arg : Option SeekCall} {retval : Int}
    (returns : aesdIoctl d cmd arg = some (retval, d')) :
    d' = d ∨ ∃ (st : SeekCall) (fp : LoffT),
      seekBody d.cb st.beyond st.writeCmd st.writeCmdOffset = .adjusted fp ∧
        d' = { d with cbIoctlOffs := fp } := by
  unfold aesdIoctl at returns
  split at returns
  · exact .inl (congrArg Prod.snd (Option.some.inj returns)).symm
  · rename_i st _
    unfold aesdAdjustFileOffset at returns
    split at returns
    · exact .inl (congrArg Prod.snd (Option.some.inj returns)).symm
    · split at returns
      · cases returns
      · cases returns
      · exact .inl (congrArg Prod.snd (Option.some.inj returns)).symm
      · rename_i fp adjusted
        exact .inr ⟨st, fp, adjusted, (congrArg Prod.snd (Option.some.inj returns)).symm⟩

end Aesd.Driver
