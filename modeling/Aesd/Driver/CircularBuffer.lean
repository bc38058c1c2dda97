import Aesd.Lib.Ring
import Mathlib.Data.Vector.Basic
import Mathlib.Tactic.Common

/-! # The circular buffer of write commands

`aesd-circular-buffer.c`, with the pointers it passes around left abstract: it
stores and returns `buffptr` values but never looks behind one.  `size_t` values
are 64-bit vectors; the two `uint8_t` offsets are natural numbers, since
`aesd_circular_increment` never steps past `AESDCHAR_MAX_INDEX`.
-/

namespace Aesd.Driver

open Aesd.Lib

/-- `size_t`, 64 bits wide. -/
abbrev SizeT := BitVec 64

/-- `AESDCHAR_MAX_WRITE_OPERATIONS_SUPPORTED`. -/
def maxWriteOperationsSupported : Nat := 10

/-- `AESDCHAR_MAX_INDEX`. -/
def maxIndex : Nat := maxWriteOperationsSupported - 1

/-- `struct aesd_buffer_entry`; a NULL `buffptr` is `none`. -/
structure BufferEntry (Ptr : Type) where
  buffptr : Option Ptr
  size : SizeT
  deriving Repr, DecidableEq

/-- The all-zero entry that `memset` leaves. -/
def BufferEntry.zero {Ptr : Type} : BufferEntry Ptr := ⟨none, 0⟩

/-- `struct aesd_circular_buffer`. -/
structure CircularBuffer (Ptr : Type) where
  entry : Vector (BufferEntry Ptr) 10
  inOffs : Nat
  outOffs : Nat
  full : Bool
  deriving Repr, DecidableEq

/-- `aesd_circular_increment`: the new index, and whether it wrapped. -/
def aesdCircularIncrement (index maxIndex : Nat) : Nat × Bool :=
  if index ≥ maxIndex then (0, true) else (index + 1, false)

theorem aesdCircularIncrement_eq {i : Nat} (h : i < 10) :
    (aesdCircularIncrement i maxIndex).1 = (i + 1) % 10 := by
  by_cases last : i = 9
  · subst last
    rfl
  · have below : ¬i ≥ maxIndex := by
      simp only [maxIndex, maxWriteOperationsSupported]
      omega
    rw [aesdCircularIncrement, if_neg below, Nat.mod_eq_of_lt (by omega)]

/-- Rounds after which a `uint8_t` counter is back where it was. -/
def uint8Rounds : Nat := 256

namespace CircularBuffer

variable {Ptr : Type}

/-- `buffer->entry[i]`. -/
def slot (cb : CircularBuffer Ptr) (i : Nat) : BufferEntry Ptr := cb.entry[i]?.getD .zero

/-- `aesd_circular_buffer_init`. -/
def init (_ : CircularBuffer Ptr) : CircularBuffer Ptr where
  entry := Vector.replicate 10 .zero
  inOffs := 0
  outOffs := 0
  full := false

/-- `aesd_circular_buffer_add_entry`: the buffer, and the `buffptr` that the
    slot held before. -/
def addEntry (cb : CircularBuffer Ptr) (added : BufferEntry Ptr) :
    CircularBuffer Ptr × Option Ptr :=
  let r := (cb.slot cb.inOffs).buffptr
  let entry := cb.entry.setIfInBounds cb.inOffs added
  let inOffs := (aesdCircularIncrement cb.inOffs maxIndex).1
  if cb.full then
    ({ cb with entry, inOffs, outOffs := (aesdCircularIncrement cb.outOffs maxIndex).1 }, r)
  else if inOffs = cb.outOffs then
    ({ cb with entry, inOffs, full := true }, r)
  else
    ({ cb with entry, inOffs }, r)

/-- `n` slots in ring order, from slot `i` on. -/
def slotsFrom : Nat → Nat → List Nat
  | _, 0 => []
  | i, n + 1 => i :: slotsFrom (aesdCircularIncrement i maxIndex).1 n

/-- How many entries are live: all ten when full, else from `out_offs` up to `in_offs`. -/
def liveCount (cb : CircularBuffer Ptr) : Nat :=
  if cb.full then 10 else (cb.inOffs + 10 - cb.outOffs) % 10

/-- The live entries, oldest first. -/
def live (cb : CircularBuffer Ptr) : List (BufferEntry Ptr) :=
  (slotsFrom cb.outOffs cb.liveCount).map cb.slot

/-- The `for` header that the walks over the buffer share,
    `for(uint8_t j = 0, i = out_offs; j==0 || i != in_offs; ++j, increment(&i))`,
    around a body that may leave the loop (`Except.error`) or go on with new
    locals.  Without fuel left the walk has no result. -/
def forSlots {Exit Locals : Type} (cb : CircularBuffer Ptr) (body : Nat → Locals → Except Exit Locals) :
    Nat → Nat → Nat → Locals → Option (Except Exit Locals)
  | 0, _, _, _ => none
  | fuel + 1, j, i, locals =>
    if j = 0 ∨ i ≠ cb.inOffs then
      match body i locals with
      | .error exit => some (.error exit)
      | .ok locals =>
        forSlots cb body fuel ((j + 1) % 256) (aesdCircularIncrement i maxIndex).1 locals
    else some (.ok locals)

/-- One round of `aesd_circular_buffer_find_entry_offset_for_fpos` at slot `i`:
    the slot and the byte in it, or the offset accumulated so far. -/
def findRound (cb : CircularBuffer Ptr) (charOffset : SizeT) (i : Nat) (acc : SizeT) :
    Except (Nat × SizeT) SizeT :=
  let r := cb.slot i
  if acc + r.size - 1 ≥ charOffset then .error (i, charOffset - acc)
  else .ok (acc + r.size)

/-- `aesd_circular_buffer_find_entry_offset_for_fpos`.  The inner `none` is the
    NULL it returns, with `*entry_offset_byte_rtn` not written. -/
def findEntryOffsetForFpos (cb : CircularBuffer Ptr) (charOffset : SizeT) :
    Option (Option (Nat × SizeT)) :=
  if ¬cb.full ∧ cb.inOffs = cb.outOffs then some none
  else match cb.forSlots (cb.findRound charOffset) uint8Rounds 0 cb.outOffs 0 with
    | none => none
    | some (.error found) => some (some found)
    | some (.ok _) => some none

end CircularBuffer

end Aesd.Driver
