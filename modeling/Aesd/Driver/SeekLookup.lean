import Aesd.Driver.ReadLoop

/-! # Lookup undoes seek

The seek sums the sizes of the older entries; the lookup walks the ring with a
running total until it has passed the offset.  On the live entries of a reachable
device they are inverse to each other, and the offsets keep the order of the
places they stand for.
-/

namespace Aesd.Driver

open Aesd.Lib

/-- A seek to a place inside a live entry that returned 0 and left `d'`. -/
structure Accepted (d : Dev) (c : SeekCall) (d' : Dev) : Prop where
  inRange : InRange d c
  returns : aesdIoctl d AESDCHAR_IOCSEEKTO (some c) = some (0, d')

/-- A command and an offset inside it, in lexicographic order. -/
def SeekCall.place (c : SeekCall) : Lex (Nat × Nat) :=
  toLex (c.writeCmd.toNat, c.writeCmdOffset.toNat)

/-- Looking up the seek offset of `d'` finds the entry that is `c.writeCmd` places
    behind the oldest in `d`, and the byte `c.writeCmdOffset` in it. -/
structure LooksUp (d : Dev) (c : SeekCall) (d' : Dev) : Prop where
  found : d'.cb.findEntryOffsetForFpos d'.cbIoctlOffs =
    some (some ((d.cb.outOffs + c.writeCmd.toNat) % 10, c.writeCmdOffset.setWidth 64))
  entry : d.cb.live[c.writeCmd.toNat]? =
    some (d'.cb.slot ((d.cb.outOffs + c.writeCmd.toNat) % 10))

section

variable {K : Kernel} {d d' : Dev} {added : List (BufferEntry Nat)} {committed : List (List UInt8)}
  {c : SeekCall}

theorem InRange.size (inRange : InRange d c) :
    ∃ h : c.writeCmd.toNat < d.cb.liveSizes.length,
      c.writeCmdOffset.toNat < d.cb.liveSizes[c.writeCmd.toNat] := by
  obtain ⟨e, live, small⟩ := inRange
  obtain ⟨h, rfl⟩ := List.getElem?_eq_some_iff.mp live
  refine ⟨by rwa [CircularBuffer.liveSizes, List.length_map], ?_⟩
  simpa only [CircularBuffer.liveSizes, List.getElem_map] using small

namespace Models

theorem accepted_offset (models : Models K d added committed) (accepted : Accepted d c d') :
    d' = { d with cbIoctlOffs := d'.cbIoctlOffs } ∧ d'.cbIoctlOffs.toNat =
      (d.cb.liveSizes.take c.writeCmd.toNat).sum + c.writeCmdOffset.toNat := by
  have total := models.length_stored
  obtain ⟨from', short⟩ := models.drop_inRange accepted.inRange
  obtain ⟨_, rfl⟩ := seekto_zero models.stores accepted.returns
  refine ⟨rfl, ?_⟩
  rw [BitVec.toNat_ofNat, Nat.mod_eq_of_lt (by omega)]

theorem looksUp (models : Models K d added committed) (accepted : Accepted d c d') :
    LooksUp d c d' := by
  obtain ⟨frame, offset⟩ := models.accepted_offset accepted
  obtain ⟨h, small⟩ := accepted.inRange.size
  have same : d'.cb = d.cb := by rw [frame]
  constructor
  · have located := Locate.locate_some_iff.mpr ⟨h, small, offset.symm⟩
    rw [models.liveSizes] at located
    have wide : c.writeCmdOffset.setWidth 64 = BitVec.ofNat 64 c.writeCmdOffset.toNat := by
      apply BitVec.eq_of_toNat_eq
      rw [BitVec.toNat_setWidth, BitVec.toNat_ofNat]
    rw [same, models.find, located, wide]
    rfl
  · obtain ⟨e, live, _⟩ := accepted.inRange
    obtain ⟨inside, _⟩ := List.getElem?_eq_some_iff.mp live
    rw [same, slot_live models.stores inside, List.getElem?_eq_getElem inside]

theorem accepted_toInt (models : Models K d added committed) (accepted : Accepted d c d') :
    d'.cbIoctlOffs.toInt =
      ((d.cb.liveSizes.take c.writeCmd.toNat).sum + c.writeCmdOffset.toNat : Nat) := by
  have after := models.ioctl accepted.returns
  have bound := after.offset_lt
  rw [BitVec.toInt_eq_toNat_of_lt (by omega), (models.accepted_offset accepted).2]

end Models

end

/-- The lookup undoes a seek that was accepted, and seeks accepted in one state
    leave offsets in the order of the places they name. -/
theorem seek_lookup {K : Kernel} {d : Dev} (reachable : Reachable K d) :
    (∀ c d', Accepted d c d' → LooksUp d c d') ∧
      ∀ c₁ d₁ c₂ d₂, Accepted d c₁ d₁ → Accepted d c₂ d₂ →
        (d₁.cbIoctlOffs.toInt < d₂.cbIoctlOffs.toInt ↔ c₁.place < c₂.place) ∧
          (d₁.cbIoctlOffs = d₂.cbIoctlOffs →
            c₁.writeCmd = c₂.writeCmd ∧ c₁.writeCmdOffset = c₂.writeCmdOffset) := by
  obtain ⟨_, _, models⟩ := reachable.models
  refine ⟨fun c d' accepted => models.looksUp accepted, ?_⟩
  intro c₁ d₁ c₂ d₂ first second
  have order : ∀ {c₁ d₁ c₂ d₂}, Accepted d c₁ d₁ → Accepted d c₂ d₂ →
      (d₁.cbIoctlOffs.toInt < d₂.cbIoctlOffs.toInt ↔ c₁.place < c₂.place) := by
    intro c₁ d₁ c₂ d₂ first second
    obtain ⟨h₁, small₁⟩ := first.inRange.size
    obtain ⟨h₂, small₂⟩ := second.inRange.size
    rw [models.accepted_toInt first, models.accepted_toInt second, Int.ofNat_lt]
    exact Locate.place_lt_iff h₁ small₁ h₂ small₂
  refine ⟨order first second, fun same => ?_⟩
  have below : ¬c₁.place < c₂.place := by
    rw [← order first second, same]
    exact lt_irrefl _
  have above : ¬c₂.place < c₁.place := by
    rw [← order second first, same]
    exact lt_irrefl _
  have place : c₁.place = c₂.place := le_antisymm (not_lt.mp above) (not_lt.mp below)
  have pair := toLex.injective place
  exact ⟨BitVec.eq_of_toNat_eq (congrArg Prod.fst pair),
    BitVec.eq_of_toNat_eq (congrArg Prod.snd pair)⟩

theorem seek_lookup_one_line :
    let c : SeekCall := ⟨0, 1, .granted, fun _ => none⟩
    Accepted oneLine c { oneLine with cbIoctlOffs := 1 } ∧
      LooksUp oneLine c { oneLine with cbIoctlOffs := 1 } := by
  have accepted : Accepted oneLine ⟨0, 1, .granted, fun _ => none⟩
      { oneLine with cbIoctlOffs := 1 } := ⟨⟨_, rfl, by decide⟩, rfl⟩
  exact ⟨accepted, (seek_lookup oneLine_reachable).1 _ _ accepted⟩

end Aesd.Driver
