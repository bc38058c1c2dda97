import Aesd.Driver.LineLog
import Aesd.Driver.ReadSpec
import Aesd.Driver.SeekSpec

/-! # The invariant along runs of whole calls

Every call keeps `Models`; only a write extends the histories.  So every
reachable device models some history, whatever failed on the way to it.
-/

namespace Aesd.Driver

open Aesd.Lib

variable {K : Kernel} {d : Dev} {added : List (BufferEntry Nat)} {committed : List (List UInt8)}

namespace Models

theorem seek (models : Models K d added committed) {beyond : Nat → Option SizeT} {c o : UInt32T}
    {fp : LoffT} (adjusted : seekBody d.cb beyond c o = .adjusted fp) :
    Models K { d with cbIoctlOffs := fp } added committed := by
  refine { models with offset_lt := ?_ }
  by_cases small : c.toNat < 10
  · by_cases accepts : SlotAccepts d.cb c o
    · rw [seekBody_low models.stores beyond small accepts, SeekOutcome.adjusted.injEq] at adjusted
      have older : (d.cb.liveSizes.take c.toNat).sum ≤ d.cb.liveSizes.sum :=
        (List.take_sublist _ _).sum_le_sum (by simp)
      have total := models.length_stored
      rw [Dev.stored, List.length_flatten, ← models.liveSizes] at total
      have bound := o.isLt
      rw [← adjusted, BitVec.toNat_ofNat]
      omega
    · rw [seekBody_refused beyond small accepts] at adjusted
      cases adjusted
  · rw [seekBody_high beyond (Nat.le_of_not_lt small)] at adjusted
    split at adjusted
    · cases adjusted
    · split at adjusted <;> cases adjusted

theorem ioctl (models : Models K d added committed) {cmd : UInt32T} {arg : Option SeekCall}
    {retval : Int} {d' : Dev} (returns : aesdIoctl d cmd arg = some (retval, d')) :
    Models K d' added committed := by
  rcases aesdIoctl_cases returns with rfl | ⟨st, fp, adjusted, rfl⟩
  · exact models
  · exact models.seek adjusted

end Models

theorem Reachable.models {K : Kernel} {d : Dev} (reachable : Reachable K d) :
    ∃ added committed, Models K d added committed := by
  refine Lts.Reach.induct (fun d => ∃ added committed, Models K d added committed)
    ?_ ?_ reachable
  · rintro _ rfl
    exact ⟨[], [], Models.afterInit K⟩
  · rintro d op d' ⟨added, committed, models⟩ _ taken
    cases op with
    | write pos c =>
        obtain rfl : (aesdWrite d pos c).2.1 = d' := Option.some.inj taken
        obtain ⟨_, _, _, after, _⟩ := models.write pos c
        exact ⟨_, _, after⟩
    | read pos c =>
        obtain ⟨_, _, rfl⟩ := Option.map_eq_some_iff.mp taken
        exact ⟨added, committed, models⟩
    | ioctl cmd arg =>
        obtain ⟨⟨retval, after⟩, returns, rfl⟩ := Option.map_eq_some_iff.mp taken
        exact ⟨added, committed, models.ioctl returns⟩
    | llseek pos off whence =>
        obtain rfl : d = d' := Option.some.inj taken
        exact ⟨added, committed, models⟩

theorem Reachable.write {K : Kernel} {d : Dev} (reachable : Reachable K d) (pos : LoffT)
    (c : WriteCall) : Reachable K (aesdWrite d pos c).2.1 :=
  have taken : (driver K).step d (.write pos c) (aesdWrite d pos c).2.1 := rfl
  Lts.Reach.step reachable trivial taken

end Aesd.Driver
