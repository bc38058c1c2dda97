import Aesd.Driver.Phases

/-! # What the size of the device says

`cb_size` is never recomputed: each stored line adds an unsigned difference to
it.  Whenever `cb_mutex` is free it is nevertheless the sum of the live sizes,
since the slot that is overwritten is either the oldest entry or still zero.
-/

namespace Aesd.Driver

open Aesd.Lib CircularBuffer

/-- `cb_size` and the slots as a reader may rely on them. -/
structure Accounted (d : Dev) : Prop where
  sum : d.cbSize.toInt = (d.cb.live.map fun e => e.size.toNat).sum
  nonneg : 0 ≤ d.cbSize.toInt
  le : d.cbSize.toInt ≤ 10 * d.we.size.toNat
  outside : ∀ j < 10, j ∉ slotsFrom d.cb.outOffs d.cb.liveCount → d.cb.slot j = .zero
  sizes : ∀ e ∈ d.cb.live, 1 ≤ e.size.toNat ∧ e.size.toNat ≤ d.we.size.toNat

theorem CircularBuffer.Stores.slot_outside {cb : CircularBuffer Nat} {added : List (BufferEntry Nat)}
    (stores : cb.Stores added) {j : Nat} (small : j < 10)
    (outside : j ∉ slotsFrom cb.outOffs cb.liveCount) : cb.slot j = .zero := by
  refine stores.slots.unused j ?_ small
  by_contra written
  have room : Ring.start 10 added.length < 10 := stores.outOffs ▸ stores.outOffs_lt
  apply outside
  rw [slotsFrom_eq stores.outOffs_lt, List.mem_map, stores.liveCount, stores.outOffs]
  -- the place of slot `j`, counted from the oldest entry
  refine ⟨(j + 10 - Ring.start 10 added.length) % 10, ?_, by omega⟩
  rw [List.mem_range]
  by_cases full : added.length < 10
  · rw [Ring.start, if_pos full]
    omega
  · omega

theorem Models.size_live {K : Kernel} {d : Dev} {added committed} (models : Models K d added committed)
    {e : BufferEntry Nat} (member : e ∈ d.cb.live) :
    1 ≤ e.size.toNat ∧ e.size.toNat ≤ d.we.size.toNat := by
  have old : d.contents e ∈ committed := by
    have inside : d.contents e ∈ d.liveContents := List.mem_map_of_mem member
    rw [models.liveContents] at inside
    exact Ring.mem_of_mem_rtake inside
  rw [(models.standsFor_live member).size_toNat, models.size]
  exact models.bounded _ old

theorem Models.accounting {K : Kernel} {d : Dev} {added committed}
    (models : Models K d added committed) : Accounted d := by
  have total : d.cbSize.toNat = d.cb.liveSizes.sum := by
    rw [models.cbSize_toNat, Dev.stored, List.length_flatten, models.liveSizes]
  have bound := models.length_stored
  rw [← models.cbSize_toNat] at bound
  have value : d.cbSize.toInt = d.cbSize.toNat := BitVec.toInt_eq_toNat_of_lt (by omega)
  have each : ∀ n ∈ d.cb.liveSizes, n ≤ d.we.size.toNat := by
    intro n member
    obtain ⟨e, inside, rfl⟩ := List.mem_map.mp member
    exact (models.size_live inside).2
  have sum := List.sum_le_card_nsmul _ _ each
  have count : d.cb.liveSizes.length ≤ 10 := by
    rw [models.stores.length_liveSizes, models.stores.liveCount]
    exact Nat.min_le_left _ _
  rw [nsmul_eq_mul, Nat.cast_id] at sum
  have ten := Nat.mul_le_mul_right d.we.size.toNat count
  exact
    { sum := by rw [value, total]; rfl
      nonneg := by omega
      le := by omega
      outside := fun j small outside => models.stores.slot_outside small outside
      sizes := fun e member => models.size_live member }

/-- In every interleaving of any calls with any outcome, `cb_size` is exact
    whenever `cb_mutex` is free. -/
theorem cb_size_accounted {Pid : Type} [DecidableEq Pid] {f : FixedSizeLlseek} {K : Kernel}
    {s : DriverSystem Pid} (reach : (users Pid f K).Reach Lts.anyStep s)
    (free : s.owner .cb = none) : Accounted s.data := by
  obtain ⟨_, _, models⟩ := models_of_free reach free
  exact models.accounting

theorem cb_size_accounted_evicting : ∃ s : DriverSystem (Fin 3),
    s.data.cbSize = 23 ∧ s.data.heap.length = 11 ∧ s.data.cb.full = true ∧ Accounted s.data := by
  obtain ⟨s, reach, free, size, lines, full⟩ := users_run Lts.anyStep
    (fun s => s.owner .cb = none ∧ s.data.cbSize = 23 ∧ s.data.heap.length = 11 ∧
      s.data.cb.full = true) evicting (by decide +kernel)
  exact ⟨s, size, lines, full, cb_size_accounted reach free⟩

end Aesd.Driver
