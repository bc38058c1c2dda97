import Aesd.Driver.ReadLoop
import Aesd.Driver.Accounting

/-! # What a seek reports

`aesd_llseek` hands the work to `fixed_size_llseek` and drops what that returns:
its own `retval` is still the 0 it started with when the test for an error looks
at it.  So the position moves as it should, but a caller learns neither the new
position nor that a target was refused.
-/

namespace Aesd.Driver

/-- `fixed_size_llseek` moves to a target inside the file and returns it, and
    returns an error without moving for any other. -/
structure FixedSizeLlseek.Moves (f : FixedSizeLlseek) : Prop where
  moves : ∀ pos off whence size target, seekTarget pos off whence size = some target →
    0 ≤ target → target ≤ size.toInt → f pos off whence size = (target, BitVec.ofInt 64 target)
  refuses : ∀ pos off whence size, (∀ target, seekTarget pos off whence size = some target →
    ¬(0 ≤ target ∧ target ≤ size.toInt)) →
      (f pos off whence size).1 < 0 ∧ (f pos off whence size).2 = pos

/-- The total size of the live entries. -/
def Dev.total (d : Dev) : LoffT := BitVec.ofNat 64 d.cb.liveSizes.sum

/-- A seek names the target, and that lies between 0 and the total size of the live entries. -/
def Dev.Lands (d : Dev) (pos off : LoffT) (whence : Int) (target : Int) : Prop :=
  seekTarget pos off whence d.total = some target ∧ 0 ≤ target ∧ target ≤ d.cb.liveSizes.sum

/-- What a caller of `aesd_llseek` may expect. -/
structure LlseekRight (f : FixedSizeLlseek) (d : Dev) (pos off : LoffT) (whence : Int) : Prop where
  reports : ∀ target, d.Lands pos off whence target →
    aesdLlseek f d pos off whence = (target, BitVec.ofInt 64 target)
  refuses : (∀ target, ¬d.Lands pos off whence target) →
    (aesdLlseek f d pos off whence).1 < 0 ∧ (aesdLlseek f d pos off whence).2 = pos
  /-- `aesd_llseek(0, SEEK_CUR)` afterwards. -/
  current : ∀ target, d.Lands pos off whence target →
    (aesdLlseek f d (aesdLlseek f d pos off whence).2 0 SEEK_CUR).1 = target

theorem fixedSizeLlseek_moves : fixedSizeLlseek.Moves where
  moves := by
    intro pos off whence size target named nonneg inside
    simp only [fixedSizeLlseek, named, if_pos (And.intro nonneg inside)]
  refuses := by
    intro pos off whence size outside
    have neg : -EINVAL < 0 := by decide
    unfold fixedSizeLlseek
    split
    · rename_i target named
      rw [if_neg (outside target named)]
      exact ⟨neg, rfl⟩
    · exact ⟨neg, rfl⟩

theorem aesdLlseek_eq (f : FixedSizeLlseek) (d : Dev) (pos off : LoffT) (whence : Int) :
    aesdLlseek f d pos off whence = (0, (f pos off whence d.cbSize).2) := rfl

theorem Reachable.cbSize_total {K : Kernel} {d : Dev} (reachable : Reachable K d) :
    d.cbSize = d.total ∧ d.cbSize.toInt = d.cb.liveSizes.sum := by
  obtain ⟨_, _, models⟩ := reachable.models
  have sum : d.cbSize.toInt = d.cb.liveSizes.sum := models.accounting.sum
  refine ⟨?_, sum⟩
  apply BitVec.eq_of_toInt_eq
  rw [sum, Dev.total]
  have bound := BitVec.toInt_lt (x := d.cbSize)
  rw [BitVec.toInt_ofNat', Int.bmod_eq_of_le] <;> omega

theorem FixedSizeLlseek.Moves.lands {f : FixedSizeLlseek} (helper : f.Moves) {K : Kernel} {d : Dev}
    (reachable : Reachable K d) {pos off : LoffT} {whence target : Int}
    (lands : d.Lands pos off whence target) :
    f pos off whence d.cbSize = (target, BitVec.ofInt 64 target) := by
  obtain ⟨total, size⟩ := reachable.cbSize_total
  obtain ⟨named, nonneg, inside⟩ := lands
  exact helper.moves pos off whence d.cbSize target (total ▸ named) nonneg (size ▸ inside)

/-- A seek tells its caller the truth exactly when the position asked for is 0. -/
theorem llseekRight_iff {K : Kernel} {d : Dev} (reachable : Reachable K d) {f : FixedSizeLlseek}
    (helper : f.Moves) (pos off : LoffT) (whence : Int) :
    LlseekRight f d pos off whence ↔ seekTarget pos off whence d.total = some 0 := by
  constructor
  · intro right
    by_cases lands : ∃ target, d.Lands pos off whence target
    · obtain ⟨target, lands⟩ := lands
      have zero : 0 = target := congrArg Prod.fst (right.reports target lands)
      exact zero ▸ lands.1
    · -- the refusal is not reported either
      have negative : (0 : Int) < 0 := (right.refuses (not_exists.mp lands)).1
      exact absurd negative (by decide)
  · intro zero
    have lands : d.Lands pos off whence 0 := ⟨zero, le_rfl, Int.natCast_nonneg _⟩
    have only : ∀ target, d.Lands pos off whence target → target = 0 := by
      intro target other
      exact Option.some.inj (other.1.symm.trans zero)
    constructor
    · intro target other
      rw [only target other, aesdLlseek_eq, helper.lands reachable lands]
    · intro none
      exact absurd lands (none 0)
    · intro target other
      rw [only target other, aesdLlseek_eq]

theorem llseekRight_iff_rewind :
    LlseekRight fixedSizeLlseek oneLine 1 (-2) SEEK_END ↔
      seekTarget 1 (-2) SEEK_END oneLine.total = some 0 :=
  llseekRight_iff oneLine_reachable fixedSizeLlseek_moves 1 (-2) SEEK_END

/-- A seek to position 1 of a device with two bytes returns 0. -/
theorem seek_reports_zero :
    ¬∀ (K : Kernel) (d : Dev) (f : FixedSizeLlseek) (pos off : LoffT) (whence : Int),
      Reachable K d → f.Moves → LlseekRight f d pos off whence := by
  intro claim
  have right := claim .pc oneLine fixedSizeLlseek 0 1 SEEK_SET oneLine_reachable fixedSizeLlseek_moves
  have lands : oneLine.Lands 0 1 SEEK_SET 1 := by
    refine ⟨by decide, by decide, ?_⟩
    decide
  exact absurd (right.reports 1 lands) (by decide)

end Aesd.Driver
