import Aesd.Driver.Lookup

/-! # What the lookup promises

The comment above `aesd_circular_buffer_find_entry_offset_for_fpos` describes the
position in all entries put end to end.  The code compares with the last byte of
a slot, `acc + size - 1`, which is the largest `size_t` when nothing has been
accumulated and the slot is empty: an oldest entry without bytes is found at
every offset.
-/

namespace Aesd.Driver.CircularBuffer

open Aesd.Lib

variable {Ptr : Type}

/-- Byte `d` of live entry `k` is the one at `off` when all live entries are put end to end. -/
def HasByte (cb : CircularBuffer Ptr) (off : SizeT) (k d : Nat) : Prop :=
  ∃ h : k < cb.liveSizes.length, d < cb.liveSizes[k] ∧ (cb.liveSizes.take k).sum + d = off.toNat

/-- The slot and the offset that are returned belong to the one live entry that
    has the byte; without such an entry NULL is returned and nothing written. -/
structure FindsRight (cb : CircularBuffer Ptr) (off : SizeT) : Prop where
  found : off.toNat < cb.liveSizes.sum → ∃ k d i,
    cb.HasByte off k d ∧ (∀ k' d', cb.HasByte off k' d' → k' = k ∧ d' = d) ∧
      (slotsFrom cb.outOffs cb.liveCount)[k]? = some i ∧
        cb.findEntryOffsetForFpos off = some (some (i, BitVec.ofNat 64 d))
  missing : cb.liveSizes.sum ≤ off.toNat → cb.findEntryOffsetForFpos off = some none

theorem hasByte_iff (cb : CircularBuffer Ptr) (off : SizeT) (k d : Nat) :
    cb.HasByte off k d ↔ Locate.locate cb.liveSizes off.toNat = some (k, d) :=
  Locate.locate_some_iff.symm

theorem HasByte.unique {cb : CircularBuffer Ptr} {off : SizeT} {k d k' d' : Nat}
    (first : cb.HasByte off k d) (second : cb.HasByte off k' d') : k' = k ∧ d' = d := by
  rw [hasByte_iff] at first second
  rw [first, Option.some.injEq, Prod.mk.injEq] at second
  exact ⟨second.1.symm, second.2.symm⟩

namespace Stores

variable {cb : CircularBuffer Ptr} {added : List (BufferEntry Ptr)}

theorem slotsFrom_getElem? (stores : Stores cb added) {k : Nat} (inside : k < cb.liveSizes.length) :
    (slotsFrom cb.outOffs cb.liveCount)[k]? = some ((cb.outOffs + k) % 10) := by
  rw [stores.length_liveSizes] at inside
  rw [slotsFrom_eq stores.outOffs_lt, List.getElem?_map, List.getElem?_range inside]
  rfl

theorem findsRight (stores : Stores cb added) (total : cb.liveSizes.sum < 2 ^ 64)
    (positive : ∀ size ∈ cb.liveSizes.head?, 0 < size) (off : SizeT) : cb.FindsRight off := by
  have lookup := stores.findEntryOffsetForFpos total positive off
  constructor
  · intro inside
    cases place : Locate.locate cb.liveSizes off.toNat with
    | none =>
        have past := Locate.locate_none_iff.mp place
        omega
    | some located =>
        obtain ⟨k, d⟩ := located
        have has := (cb.hasByte_iff off k d).mpr place
        rw [place] at lookup
        exact ⟨k, d, _, has, fun _ _ other => has.unique other,
          stores.slotsFrom_getElem? has.choose, lookup⟩
  · intro past
    rw [lookup, Locate.locate_none_iff.mpr past]
    rfl

theorem find_empty_oldest (stores : Stores cb added) (empty : cb.liveSizes.head? = some 0)
    (off : SizeT) : cb.findEntryOffsetForFpos off = some (some (cb.outOffs, off)) := by
  have some : 0 < cb.liveCount := by
    rw [← stores.length_liveSizes]
    exact List.length_pos_of_mem (List.mem_of_head? empty)
  obtain ⟨n, count⟩ : ∃ n, cb.liveCount = n + 1 := ⟨cb.liveCount - 1, by omega⟩
  have size : (cb.slot cb.outOffs).size = 0 := by
    rw [← map_slotSize, count, slotsFrom, List.map_cons, List.head?_cons] at empty
    exact BitVec.eq_of_toNat_eq (Option.some.inj empty)
  have wraps : (0 : SizeT) + (cb.slot cb.outOffs).size - 1 ≥ off := by
    rw [size]
    bv_omega
  have origin : off - (0 : SizeT) = off := by simp
  unfold CircularBuffer.findEntryOffsetForFpos
  rw [if_neg (mt stores.empty_iff.mp (by omega)), stores.forSlots_live some, count, slotsFrom,
    List.foldlM_cons, findRound, if_pos wraps, origin]
  rfl

theorem not_findsRight (stores : Stores cb added) (empty : cb.liveSizes.head? = some 0)
    (off : SizeT) : ¬cb.FindsRight off := by
  intro right
  have result := stores.find_empty_oldest empty off
  by_cases inside : off.toNat < cb.liveSizes.sum
  · obtain ⟨k, d, i, has, _, slot, returned⟩ := right.found inside
    obtain ⟨bound, small, _⟩ := has
    -- the slot returned is that of the oldest entry, which has no byte `d`
    rw [result, Option.some.injEq, Option.some.injEq, Prod.mk.injEq] at returned
    rw [stores.slotsFrom_getElem? bound, Option.some.injEq] at slot
    have oldest : k = 0 := by
      have outOffs := stores.outOffs_lt
      rw [stores.length_liveSizes, stores.liveCount] at bound
      omega
    subst oldest
    rw [List.head?_eq_getElem?, List.getElem?_eq_getElem bound, Option.some.injEq] at empty
    omega
  · rw [right.missing (Nat.le_of_not_lt inside)] at result
    cases result

end Stores

/-- Over every history whose live sizes fit a `size_t`, a lookup does what its
    comment says exactly when the oldest live entry, if there is one, has bytes. -/
theorem findsRight_iff (cb : CircularBuffer Ptr) (adds : List (BufferEntry Ptr)) (off : SizeT)
    (total : (cb.init.addEntries adds).1.liveSizes.sum < 2 ^ 64) :
    (cb.init.addEntries adds).1.FindsRight off ↔
      ∀ size ∈ (cb.init.addEntries adds).1.liveSizes.head?, 0 < size := by
  have stores := ((Stores.init cb).addEntries adds).1
  constructor
  · intro right size oldest
    refine Nat.pos_of_ne_zero fun empty => ?_
    exact stores.not_findsRight (empty ▸ oldest) off right
  · intro positive
    exact stores.findsRight total positive off

/-- A line, then an entry without bytes: the second is not the oldest. -/
theorem findsRight_iff_line :
    let cb : CircularBuffer Nat := ⟨Vector.replicate 10 .zero, 0, 0, false⟩
    let adds : List (BufferEntry Nat) := [⟨some 0, 5⟩, ⟨some 1, 0⟩]
    (cb.init.addEntries adds).1.FindsRight 4 ↔
      ∀ size ∈ (cb.init.addEntries adds).1.liveSizes.head?, 0 < size :=
  findsRight_iff _ _ _ (by decide)

/-- With a single entry of size 0 the lookup finds a byte where there is none. -/
theorem empty_entry_found :
    ¬∀ (cb : CircularBuffer Nat) (adds : List (BufferEntry Nat)) (off : SizeT),
      (cb.init.addEntries adds).1.liveSizes.sum < 2 ^ 64 →
        (cb.init.addEntries adds).1.FindsRight off := by
  intro claim
  have right := claim ⟨Vector.replicate 10 .zero, 0, 0, false⟩ [⟨some 0, 0⟩] 0 (by decide)
  exact absurd (right.missing (by decide)) (by decide)

end Aesd.Driver.CircularBuffer
