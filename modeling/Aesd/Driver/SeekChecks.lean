import Aesd.Driver.Stream

/-! # Which seeks are accepted

A seek names an entry by its place among the live ones.  The checks look at the
physical slot of that number instead, and add one in 32 bits first, so they
decide right exactly when the two slots stand on the same side of the offset.
-/

namespace Aesd.Driver

open Aesd.Lib

/-- The command number is that of a live entry, the oldest being 0, and the
    offset lies inside that entry. -/
def InRange (d : Dev) (c : SeekCall) : Prop :=
  ∃ e, d.cb.live[c.writeCmd.toNat]? = some e ∧ c.writeCmdOffset.toNat < e.size.toNat

/-- A seek in range returns 0; any other returns `-EINVAL` and moves nothing. -/
structure SeekRight (d : Dev) (c : SeekCall) : Prop where
  accepts : InRange d c → ∃ d', aesdIoctl d AESDCHAR_IOCSEEKTO (some c) = some (0, d')
  rejects : ¬InRange d c → ∃ d', aesdIoctl d AESDCHAR_IOCSEEKTO (some c) = some (-EINVAL, d') ∧
    d'.cbIoctlOffs = d.cbIoctlOffs

/-- When the code's checks and the ring agree.  Below ten the offset must not
    lie between the sizes of the slot looked at and of the slot meant, and an
    offset whose successor is 0 passes always.  Past the array the read of the
    size must come back, and must not let the largest command number through. -/
def ChecksAgree (d : Dev) (c : SeekCall) : Prop :=
  let looked := d.cb.slotSize c.writeCmd.toNat
  let meant := d.cb.slotSize ((d.cb.outOffs + c.writeCmd.toNat) % 10)
  let o := c.writeCmdOffset.toNat
  if c.writeCmd.toNat < 10 then
    if o = 2 ^ 32 - 1 then o < meant else (o < looked ↔ o < meant)
  else
    ∃ size, c.beyond c.writeCmd.toNat = some size ∧
      (c.writeCmd.toNat = 2 ^ 32 - 1 → size.toNat ≤ o ∧ o ≠ 2 ^ 32 - 1)

theorem aesdIoctl_seekto (d : Dev) (c : SeekCall) :
    aesdIoctl d AESDCHAR_IOCSEEKTO (some c) = aesdAdjustFileOffset d c := by
  have magic : ¬iocType AESDCHAR_IOCSEEKTO ≠ AESD_IOC_MAGIC := by decide
  have number : ¬iocNr AESDCHAR_IOCSEEKTO > AESDCHAR_IOC_MAXNR := by decide
  simp only [aesdIoctl, ioctlSeek, if_neg magic, if_neg number, if_true]

section

variable {d : Dev} {added : List (BufferEntry Nat)} {c : SeekCall}

theorem seekto_zero (stores : d.cb.Stores added) {d' : Dev}
    (returns : aesdIoctl d AESDCHAR_IOCSEEKTO (some c) = some (0, d')) :
    c.writeCmd.toNat < 10 ∧ d' = { d with
      cbIoctlOffs := BitVec.ofNat 64
        ((d.cb.liveSizes.take c.writeCmd.toNat).sum + c.writeCmdOffset.toNat) } := by
  rw [aesdIoctl_seekto, aesdAdjustFileOffset] at returns
  cases lock : c.lock with
  | interrupted =>
      rw [lock] at returns
      cases returns
  | granted =>
      rw [lock] at returns
      by_cases small : c.writeCmd.toNat < 10
      · by_cases accepts : SlotAccepts d.cb c.writeCmd c.writeCmdOffset
        · simp only [seekBody_low stores c.beyond small accepts, Option.some.injEq,
            Prod.mk.injEq] at returns
          exact ⟨small, returns.2.symm⟩
        · simp only [seekBody_refused c.beyond small accepts] at returns
          cases returns
      · simp only [seekBody_high c.beyond (Nat.le_of_not_lt small)] at returns
        split at returns
        · cases returns
        · cases returns
        · cases returns
        · rename_i adjusted
          split at adjusted
          · cases adjusted
          · split at adjusted <;> cases adjusted

theorem inRange_iff (stores : d.cb.Stores added) (small : c.writeCmd.toNat < 10) :
    InRange d c ↔
      c.writeCmdOffset.toNat < d.cb.slotSize ((d.cb.outOffs + c.writeCmd.toNat) % 10) := by
  rw [stores.slotSize_at small, CircularBuffer.liveSizes, List.getElem?_map, InRange]
  cases d.cb.live[c.writeCmd.toNat]? with
  | none => simp
  | some e => simp

theorem not_inRange (stores : d.cb.Stores added) (large : 10 ≤ c.writeCmd.toNat) :
    ¬InRange d c := by
  rintro ⟨e, found, _⟩
  have inside := (List.getElem?_eq_some_iff.mp found).1
  rw [stores.live, Ring.length_rtake] at inside
  omega

/-- Below ten the call returns; it does right when the check does. -/
theorem seekRight_low (stores : d.cb.Stores added) (granted : c.lock = .granted)
    (small : c.writeCmd.toNat < 10) :
    SeekRight d c ↔ (SlotAccepts d.cb c.writeCmd c.writeCmdOffset ↔ InRange d c) := by
  by_cases accepts : SlotAccepts d.cb c.writeCmd c.writeCmdOffset
  · have returns : ∃ d', aesdIoctl d AESDCHAR_IOCSEEKTO (some c) = some (0, d') := by
      simp only [aesdIoctl_seekto, aesdAdjustFileOffset, granted,
        seekBody_low stores c.beyond small accepts]
      exact ⟨_, rfl⟩
    constructor
    · intro right
      refine ⟨fun _ => ?_, fun _ => accepts⟩
      by_contra outside
      obtain ⟨_, same⟩ := returns
      obtain ⟨_, other, _⟩ := right.rejects outside
      rw [same] at other
      cases other
    · intro agree
      exact ⟨fun _ => returns, fun outside => absurd (agree.mp accepts) outside⟩
  · have returns : aesdIoctl d AESDCHAR_IOCSEEKTO (some c) = some (-EINVAL, d) := by
      simp only [aesdIoctl_seekto, aesdAdjustFileOffset, granted, seekBody_refused c.beyond small accepts]
    constructor
    · intro right
      refine ⟨fun passes => absurd passes accepts, fun inside => ?_⟩
      obtain ⟨_, other⟩ := right.accepts inside
      rw [returns] at other
      cases other
    · intro agree
      exact ⟨fun inside => absurd (agree.mpr inside) accepts, fun _ => ⟨d, returns, rfl⟩⟩

/-- Past the array the call does right when it returns at all. -/
theorem seekRight_high (stores : d.cb.Stores added) (granted : c.lock = .granted)
    (large : 10 ≤ c.writeCmd.toNat) :
    SeekRight d c ↔ ∃ size, c.beyond c.writeCmd.toNat = some size ∧
      (c.writeCmd.toNat = 2 ^ 32 - 1 →
        size.toNat ≤ c.writeCmdOffset.toNat ∧ c.writeCmdOffset.toNat ≠ 2 ^ 32 - 1) := by
  have outside := not_inRange stores large
  have right : SeekRight d c ↔ seekBody d.cb c.beyond c.writeCmd c.writeCmdOffset = .einval := by
    constructor
    · intro right
      obtain ⟨d', returns, _⟩ := right.rejects outside
      rw [aesdIoctl_seekto, aesdAdjustFileOffset, granted] at returns
      revert returns
      cases seekBody d.cb c.beyond c.writeCmd c.writeCmdOffset with
      | fault | endless | adjusted => intro returns; cases returns
      | einval => exact fun _ => rfl
    · intro refused
      refine ⟨fun inside => absurd inside outside, fun _ => ⟨d, ?_, rfl⟩⟩
      simp only [aesdIoctl_seekto, aesdAdjustFileOffset, granted, refused]
  rw [right, seekBody_high c.beyond large]
  cases c.beyond c.writeCmd.toNat with
  | none => simp
  | some size =>
      have stops : ((c.writeCmdOffset + 1).setWidth 64 > size ∨ c.writeCmd.toNat ≠ 2 ^ 32 - 1) ↔
          (c.writeCmd.toNat = 2 ^ 32 - 1 →
            size.toNat ≤ c.writeCmdOffset.toNat ∧ c.writeCmdOffset.toNat ≠ 2 ^ 32 - 1) := by
        rw [exceeds_iff, not_or, Nat.not_lt]
        tauto
      dsimp only
      split
      · rename_i refuses
        exact ⟨fun _ => ⟨size, rfl, stops.mp refuses⟩, fun _ => rfl⟩
      · rename_i passes
        refine ⟨fun returns => (nomatch returns), ?_⟩
        rintro ⟨_, same, agree⟩
        obtain rfl := Option.some.inj same
        exact absurd (stops.mpr agree) passes

end

/-- The operation, once its lock is granted, does right exactly when its checks
    agree with the ring. -/
theorem seekto_right_iff {K : Kernel} {d : Dev} (reachable : Reachable K d) (c : SeekCall)
    (granted : c.lock = .granted) : SeekRight d c ↔ ChecksAgree d c := by
  obtain ⟨_, _, models⟩ := reachable.models
  rw [ChecksAgree]
  by_cases small : c.writeCmd.toNat < 10
  · rw [seekRight_low models.stores granted small, inRange_iff models.stores small, SlotAccepts,
      if_pos small]
    split
    · rename_i last
      simp only [last, or_true, true_iff]
    · rename_i notLast
      simp only [notLast, or_false]
  · rw [if_neg small]
    exact seekRight_high models.stores granted (Nat.le_of_not_lt small)

/-- In the wrapped buffer the newest line stands in slot 0, and slot 9 holds the one
    before it: the fourth byte of the newest line is refused. -/
theorem seekto_right_iff_wrapped : ∃ d : Dev, d.cb.liveSizes = List.replicate 9 2 ++ [5] ∧
    SeekRight d ⟨8, 1, .granted, fun _ => none⟩ ∧ ¬SeekRight d ⟨9, 3, .granted, fun _ => none⟩ := by
  obtain ⟨d, run, sizes, first, last⟩ := writes_run Lts.anyStep
    (fun d => d.cb.liveSizes = List.replicate 9 2 ++ [5] ∧
      (1 < d.cb.slotSize 8 ∧ 1 < d.cb.slotSize ((d.cb.outOffs + 8) % 10)) ∧
        ¬3 < d.cb.slotSize 9 ∧ 3 < d.cb.slotSize ((d.cb.outOffs + 9) % 10))
    wrapped (by decide +kernel)
  have reachable := Reachable.of_writes ⟨_, run⟩
  refine ⟨d, sizes, (seekto_right_iff reachable _ rfl).mpr ?_,
    mt (seekto_right_iff reachable _ rfl).mp ?_⟩
  · simp [ChecksAgree, first]
  · simp [ChecksAgree, last]

/-- On an empty buffer the offset `0xFFFFFFFF` is accepted. -/
theorem seekto_accepts_wrapped_offset :
    ¬∀ (K : Kernel) (d : Dev) (c : SeekCall), (writes K).Reach Lts.anyStep d →
      c.lock = .granted → SeekRight d c := by
  intro claim
  let c : SeekCall := ⟨0, 0xFFFFFFFF, .granted, fun _ => none⟩
  have right := claim .pc (Dev.afterInit .pc) c (Lts.Reach.init rfl) rfl
  have outside : ¬InRange (Dev.afterInit .pc) c := by
    rintro ⟨e, found, _⟩
    have empty : (Dev.afterInit .pc).cb.live = [] := rfl
    simp [empty] at found
  obtain ⟨_, returns, _⟩ := right.rejects outside
  have refused : (aesdIoctl (Dev.afterInit .pc) AESDCHAR_IOCSEEKTO (some c)).map Prod.fst =
      some (-EINVAL) := by
    rw [returns]
    rfl
  exact absurd refused (by decide)

end Aesd.Driver
