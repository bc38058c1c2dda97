import Mathlib.Data.List.Basic

/-! # Scans and what stands behind the text

A scan that takes the longest run of characters with a property reads the same
run, whatever follows, as soon as a character has stopped it.  Cutting the text at
a terminator does not change a run that the terminator would stop.
-/

namespace Aesd.Lib.Scan

variable {α : Type*} {p : α → Bool}

theorem takeWhile_append_of_stopped {text : List α} (stopped : text.dropWhile p ≠ []) (more : List α) :
    (text ++ more).takeWhile p = text.takeWhile p := by
  induction text with
  | nil => exact absurd rfl stopped
  | cons c text ih =>
      rw [List.dropWhile_cons] at stopped
      rw [List.cons_append, List.takeWhile_cons, List.takeWhile_cons]
      split
      · rename_i passes
        rw [if_pos passes] at stopped
        rw [ih stopped]
      · rfl

theorem dropWhile_append_of_stopped {text : List α} (stopped : text.dropWhile p ≠ []) (more : List α) :
    (text ++ more).dropWhile p = text.dropWhile p ++ more := by
  rw [List.dropWhile_append, if_neg (by simpa using stopped)]

section

variable [DecidableEq α] {nul : α}

/-- The text in front of the terminator. -/
def cut (nul : α) (text : List α) : List α := text.takeWhile (· ≠ nul)

@[simp] theorem cut_nil : cut nul [] = [] := rfl

@[simp] theorem cut_cons (c : α) (text : List α) :
    cut nul (c :: text) = if c = nul then [] else c :: cut nul text := by
  unfold cut
  rw [List.takeWhile_cons]
  split <;> simp_all

theorem takeWhile_cut (stops : p nul = false) (text : List α) :
    (cut nul text).takeWhile p = text.takeWhile p := by
  induction text with
  | nil => rfl
  | cons c text ih =>
      rw [cut_cons]
      split
      · simp_all
      · simp only [List.takeWhile_cons, ih]

theorem dropWhile_cut (stops : p nul = false) (text : List α) :
    (cut nul text).dropWhile p = cut nul (text.dropWhile p) := by
  induction text with
  | nil => rfl
  | cons c text ih =>
      by_cases passes : p c
      · have other : c ≠ nul := by
          rintro rfl
          simp [stops] at passes
        rw [cut_cons, if_neg other, List.dropWhile_cons, List.dropWhile_cons, if_pos passes,
          if_pos passes, ih]
      · rw [List.dropWhile_cons, if_neg passes, cut_cons]
        split
        · rfl
        · rw [List.dropWhile_cons, if_neg passes]

end

end Aesd.Lib.Scan
