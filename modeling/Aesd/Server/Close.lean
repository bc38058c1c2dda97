import Mathlib.Logic.Basic

/-! # Closing a descriptor

`robustclose` of `aesdsocket.c` against whatever its calls of `close` return.  The
condition of its retry loop asks for another call where it should ask for none: the
loop ends on an interruption, and only on one that comes early.
-/

namespace Aesd.Server

def EINTR : Nat := 4

/-- What the calls of `close` return, by their number: `none` for 0, and for -1 the
    value that `errno` is left with. -/
abbrev Closes := Nat → Option Nat

/-- The locals of the loop, `errno`, and the number of calls so far. -/
structure Retry where
  /-- Only a loop that has long gone past 5 would take it out of the range of `int`. -/
  i : Nat
  r : Int
  errno : Nat
  calls : Nat
  deriving Repr, DecidableEq

namespace Retry

/-- The condition of the `for`. -/
def Again (l : Retry) : Prop := l.i > 5 ∨ l.r = 0 ∨ l.errno ≠ EINTR

instance (l : Retry) : Decidable l.Again := inferInstanceAs (Decidable (_ ∨ _ ∨ _))

/-- One round; a call that succeeds leaves `errno` alone. -/
def callClose (l : Retry) (close : Closes) : Retry :=
  match close l.calls with
  | none => ⟨l.i + 1, 0, l.errno, l.calls + 1⟩
  | some errno => ⟨l.i + 1, -1, errno, l.calls + 1⟩

@[simp] theorem callClose_i (l : Retry) (close : Closes) : (l.callClose close).i = l.i + 1 := by
  unfold callClose
  split <;> rfl

@[simp] theorem callClose_calls (l : Retry) (close : Closes) :
    (l.callClose close).calls = l.calls + 1 := by
  unfold callClose
  split <;> rfl

theorem again_callClose (l : Retry) (close : Closes) :
    (l.callClose close).Again ↔ 5 ≤ l.i ∨ close l.calls ≠ some EINTR := by
  unfold Again
  rw [callClose_i]
  have counter : l.i + 1 > 5 ↔ 5 ≤ l.i := by omega
  rw [counter]
  apply or_congr_right
  unfold callClose
  cases close l.calls <;> simp

end Retry

/-- The loop, for a number of rounds. -/
def retryLoop (close : Closes) : Nat → Retry → Option Retry
  | 0, _ => none
  | fuel + 1, l => if l.Again then retryLoop close fuel (l.callClose close) else some l

/-- `robustclose`, with its result and the number of calls it made; `r` starts as it
    happens to be. -/
def robustclose (close : Closes) (r : Int) (fuel : Nat) : Option (Int × Nat) :=
  match close 0 with
  | none => some (0, 1)
  | some errno =>
    if errno = EINTR then
      -- -1 behind the loop as well, whether `r` is 0 there or not
      (retryLoop close fuel ⟨0, r, errno, 1⟩).map fun l => (-1, l.calls)
    else some (-1, 1)

/-- It returns, after so many calls at most; none follows a call that closed the
    descriptor or failed for good, and the last one decides the result. -/
def ClosesOnce (bound : Nat) (close : Closes) (r : Int) : Prop :=
  ∃ fuel ret calls, robustclose close r fuel = some (ret, calls) ∧ calls ≤ bound ∧
    (∀ k, k + 1 < calls → close k = some EINTR) ∧ (ret = 0 ↔ close (calls - 1) = none)

section

variable {close : Closes} {fuel : Nat} {l l' : Retry}

theorem retryLoop_calls (done : retryLoop close fuel l = some l') : l.calls ≤ l'.calls := by
  induction fuel generalizing l with
  | zero => cases done
  | succ fuel ih =>
      unfold retryLoop at done
      split at done
      · have calls := ih done
        rw [Retry.callClose_calls] at calls
        exact Nat.le_of_succ_le calls
      · cases done
        exact Nat.le_refl _

theorem retryLoop_again (again : l.Again) (done : retryLoop close fuel l = some l') :
    ∃ fuel, retryLoop close fuel (l.callClose close) = some l' := by
  cases fuel with
  | zero => cases done
  | succ fuel =>
      rw [retryLoop, if_pos again] at done
      exact ⟨fuel, done⟩

/-- A loop that ends was not entered, or ends on an interruption while `i` is 5 at most. -/
theorem retryLoop_ends (done : retryLoop close fuel l = some l') :
    ¬l.Again ∨ ∃ k, l.calls ≤ k ∧ k + l.i < l.calls + 5 ∧ close k = some EINTR := by
  induction fuel generalizing l with
  | zero => cases done
  | succ fuel ih =>
      by_cases again : l.Again
      · rw [retryLoop, if_pos again] at done
        right
        rcases ih done with ends | ⟨k, later, early, interrupted⟩
        · rw [Retry.again_callClose, not_or, not_not] at ends
          exact ⟨l.calls, Nat.le_refl _, by omega, ends.2⟩
        · rw [Retry.callClose_calls] at later early
          rw [Retry.callClose_i] at early
          exact ⟨k, by omega, by omega, interrupted⟩
      · exact .inl again

theorem retryLoop_of_not_again (ends : ¬l.Again) : retryLoop close 1 l = some l := if_neg ends

theorem retryLoop_of_interrupted (d : Nat) (early : d + l.i < 5)
    (interrupted : close (l.calls + d) = some EINTR) : ∃ fuel l', retryLoop close fuel l = some l' := by
  induction d generalizing l with
  | zero =>
      by_cases again : l.Again
      · have ends : ¬(l.callClose close).Again := by
          rw [Retry.again_callClose, not_or, not_not]
          exact ⟨by omega, interrupted⟩
        refine ⟨2, l.callClose close, ?_⟩
        rw [retryLoop, if_pos again]
        exact retryLoop_of_not_again ends
      · exact ⟨1, l, retryLoop_of_not_again again⟩
  | succ d ih =>
      by_cases again : l.Again
      · have shift : (l.callClose close).calls + d = l.calls + (d + 1) := by
          rw [Retry.callClose_calls]
          omega
        have early' : d + (l.callClose close).i < 5 := by
          rw [Retry.callClose_i]
          omega
        obtain ⟨fuel, l', done⟩ := ih early' (by rwa [shift])
        refine ⟨fuel + 1, l', ?_⟩
        rw [retryLoop, if_pos again]
        exact done
      · exact ⟨1, l, retryLoop_of_not_again again⟩

/-- The loop ends when it is not entered, or on an interruption among the calls
    that are left until `i` is 5. -/
theorem retryLoop_returns_iff (close : Closes) (l : Retry) :
    (∃ fuel l', retryLoop close fuel l = some l') ↔
      ¬l.Again ∨ ∃ k, l.calls ≤ k ∧ k + l.i < l.calls + 5 ∧ close k = some EINTR := by
  constructor
  · intro ⟨fuel, l', done⟩
    exact retryLoop_ends done
  · rintro (ends | ⟨k, later, early, interrupted⟩)
    · exact ⟨1, l, retryLoop_of_not_again ends⟩
    · obtain ⟨d, rfl⟩ := Nat.exists_eq_add_of_le later
      exact retryLoop_of_interrupted d (by omega) interrupted

end

section

variable {close : Closes} {r : Int}

theorem robustclose_interrupted (first : close 0 = some EINTR) (fuel : Nat) :
    robustclose close r fuel =
      (retryLoop close fuel ⟨0, r, EINTR, 1⟩).map fun l => (-1, l.calls) := by
  unfold robustclose
  rw [first]
  exact if_pos rfl

theorem again_start : (Retry.mk 0 r EINTR 1).Again ↔ r = 0 := by
  simp [Retry.Again]

theorem robustclose_once (first : close 0 ≠ some EINTR) (fuel : Nat) :
    ∃ ret, robustclose close r fuel = some (ret, 1) ∧ (ret = 0 ↔ close 0 = none) := by
  unfold robustclose
  cases outcome : close 0 with
  | none => exact ⟨0, rfl, by simp⟩
  | some errno =>
      have other : errno ≠ EINTR := by
        rintro rfl
        exact first outcome
      exact ⟨-1, if_neg other, by simp⟩

/-- `robustclose` returns exactly when its first call is not interrupted, the loop
    is not entered, or one of the next five calls is interrupted again. -/
theorem robustclose_returns_iff (close : Closes) (r : Int) :
    (∃ fuel result, robustclose close r fuel = some result) ↔
      close 0 ≠ some EINTR ∨ r ≠ 0 ∨ ∃ k, 1 ≤ k ∧ k ≤ 5 ∧ close k = some EINTR := by
  by_cases first : close 0 = some EINTR
  · have loop := retryLoop_returns_iff close ⟨0, r, EINTR, 1⟩
    rw [again_start] at loop
    have early : (∃ k, 1 ≤ k ∧ k + 0 < 1 + 5 ∧ close k = some EINTR) ↔
        ∃ k, 1 ≤ k ∧ k ≤ 5 ∧ close k = some EINTR := by
      apply exists_congr
      intro k
      have same : k + 0 < 1 + 5 ↔ k ≤ 5 := by omega
      rw [same]
    rw [early] at loop
    simp only [robustclose_interrupted first, Option.map_eq_some_iff, first, ne_eq, not_true_eq_false,
      false_or]
    rw [← loop]
    constructor
    · rintro ⟨fuel, _, l', done, _⟩
      exact ⟨fuel, l', done⟩
    · rintro ⟨fuel, l', done⟩
      exact ⟨fuel, _, l', done, rfl⟩
  · obtain ⟨ret, once, _⟩ := robustclose_once (r := r) first 0
    exact iff_of_true ⟨0, _, once⟩ (.inl first)

/-- A retry that is not interrupted is followed by another call. -/
theorem three_calls {fuel calls : Nat} {ret : Int} (first : close 0 = some EINTR)
    (second : close 1 ≠ some EINTR) (result : robustclose close 0 fuel = some (ret, calls)) :
    3 ≤ calls := by
  rw [robustclose_interrupted first, Option.map_eq_some_iff] at result
  obtain ⟨l, done, same⟩ := result
  obtain ⟨_, rfl⟩ := Prod.mk.inj same
  obtain ⟨_, done⟩ := retryLoop_again (again_start.mpr rfl) done
  have again : ((Retry.mk 0 0 EINTR 1).callClose close).Again :=
    (Retry.again_callClose _ _).mpr (.inr second)
  obtain ⟨_, done⟩ := retryLoop_again again done
  have calls := retryLoop_calls done
  rw [Retry.callClose_calls, Retry.callClose_calls] at calls
  exact calls

theorem closesOnce_first {bound : Nat} (one : 1 ≤ bound) (first : close 0 ≠ some EINTR) :
    ClosesOnce bound close r := by
  obtain ⟨ret, once, zero⟩ := robustclose_once (r := r) first 0
  exact ⟨0, ret, 1, once, one, by simp, zero⟩

theorem closesOnce_unentered {bound : Nat} (one : 1 ≤ bound) (first : close 0 = some EINTR)
    (start : r ≠ 0) : ClosesOnce bound close r := by
  refine ⟨1, -1, 1, ?_, one, by simp, by simp [first]⟩
  rw [robustclose_interrupted first, retryLoop_of_not_again (again_start.not.mpr start)]
  rfl

theorem closesOnce_retry {bound : Nat} (two : 2 ≤ bound) (first : close 0 = some EINTR)
    (second : close 1 = some EINTR) : ClosesOnce bound close 0 := by
  have ends : ¬((Retry.mk 0 0 EINTR 1).callClose close).Again := by
    rw [Retry.again_callClose, not_or, not_not]
    exact ⟨by decide, second⟩
  refine ⟨2, -1, 2, ?_, two, ?_, by simp [second]⟩
  · rw [robustclose_interrupted first, retryLoop, if_pos (again_start.mpr rfl),
      retryLoop_of_not_again ends, Option.map_some, Retry.callClose_calls]
  · intro k before
    obtain rfl : k = 0 := by omega
    exact first

/-- Its calls are right, within any bound that leaves room for a retry, exactly when
    the first one is not interrupted, or `r` happens not to be 0, or the second one
    is interrupted as well. -/
theorem closesOnce_iff {bound : Nat} (two : 2 ≤ bound) (close : Closes) (r : Int) :
    ClosesOnce bound close r ↔ close 0 ≠ some EINTR ∨ r ≠ 0 ∨ close 1 = some EINTR := by
  have one : 1 ≤ bound := Nat.le_of_succ_le two
  by_cases first : close 0 = some EINTR
  · by_cases start : r = 0
    · subst start
      constructor
      · rintro ⟨fuel, ret, calls, result, _, interrupted, _⟩
        right
        right
        by_cases second : close 1 = some EINTR
        · exact second
        · exact interrupted 1 (three_calls first second result)
      · rintro (other | other | second)
        · exact absurd first other
        · exact absurd rfl other
        · exact closesOnce_retry two first second
    · exact iff_of_true (closesOnce_unentered one first start) (.inr (.inl start))
  · exact iff_of_true (closesOnce_first one first) (.inl first)

/-- With room for the seven calls of the loop's counter, and a first call that closes. -/
theorem closesOnce_iff_seven :
    ClosesOnce 7 (fun _ => none) 0 ↔
      (none : Option Nat) ≠ some EINTR ∨ (0 : Int) ≠ 0 ∨ (none : Option Nat) = some EINTR :=
  closesOnce_iff (by decide) (fun _ => none) 0

/-- The first call is interrupted, the second closes the descriptor, and the others
    fail with `EBADF` (9): there is no end to them. -/
theorem never_returns : ¬∃ bound, ∀ (close : Closes) (r : Int), ClosesOnce bound close r := by
  rintro ⟨bound, claim⟩
  obtain ⟨fuel, ret, calls, result, _⟩ :=
    claim (fun k => if k = 0 then some EINTR else if k = 1 then none else some 9) 0
  rcases (robustclose_returns_iff _ _).mp ⟨fuel, _, result⟩ with other | other | ⟨k, later, _, interrupted⟩
  · exact other rfl
  · exact other rfl
  · rcases Nat.lt_or_ge 1 k with third | second
    · simp [show k ≠ 0 by omega, show k ≠ 1 by omega, EINTR] at interrupted
    · obtain rfl : k = 1 := by omega
      simp at interrupted

end

end Aesd.Server
