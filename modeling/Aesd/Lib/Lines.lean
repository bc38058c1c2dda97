import Mathlib.Data.List.Basic

/-! # Terminated lines of a stream

`lines sep s` are the pieces of `s` that end in the separator, each with its
separator, and `rest sep s` is what follows the last one.  Together they are
`s` again, and cutting a stream in two does not change them: the rest of the
first part is carried into the second.
-/

namespace Aesd.Lib.Lines

variable {α : Type*} [DecidableEq α] (sep : α)

/-- Put one more item in front of a stream that is already cut. -/
def cons (x : α) : List (List α) × List α → List (List α) × List α
  | (complete, tail) =>
    if x = sep then ([x] :: complete, tail)
    else match complete with
      | [] => ([], x :: tail)
      | line :: others => ((x :: line) :: others, tail)

/-- The terminated lines of a stream, and the unterminated rest. -/
def cut : List α → List (List α) × List α
  | [] => ([], [])
  | x :: xs => cons sep x (cut xs)

def lines (s : List α) : List (List α) := (cut sep s).1

def rest (s : List α) : List α := (cut sep s).2

/-- A stream up to its first separator, that one included. -/
def upTo : List α → List α
  | [] => []
  | x :: xs => if x = sep then [x] else x :: upTo xs

/-- A line: exactly one separator, at its end. -/
def IsLine (line : List α) : Prop := ∃ body, sep ∉ body ∧ line = body ++ [sep]

@[simp] theorem lines_nil : lines sep ([] : List α) = [] := rfl

@[simp] theorem rest_nil : rest sep ([] : List α) = [] := rfl

theorem cut_of_not_mem {s : List α} (h : sep ∉ s) : cut sep s = ([], s) := by
  induction s with
  | nil => rfl
  | cons x xs ih =>
      have head : x ≠ sep := fun same => h (by simp [same])
      simp only [cut, ih (fun member => h (List.mem_cons_of_mem _ member)), cons, if_neg head]

theorem lines_of_not_mem {s : List α} (h : sep ∉ s) : lines sep s = [] := by
  rw [lines, cut_of_not_mem sep h]

theorem rest_of_not_mem {s : List α} (h : sep ∉ s) : rest sep s = s := by
  rw [rest, cut_of_not_mem sep h]

theorem cut_line {body : List α} (h : sep ∉ body) (s : List α) :
    cut sep (body ++ sep :: s) = ((body ++ [sep]) :: lines sep s, rest sep s) := by
  induction body with
  | nil => simp [cut, cons, lines, rest]
  | cons x xs ih =>
      have head : x ≠ sep := fun same => h (by simp [same])
      have tail := ih (fun member => h (List.mem_cons_of_mem _ member))
      simp only [List.cons_append, cut, tail, cons, if_neg head]

theorem lines_line {body : List α} (h : sep ∉ body) (s : List α) :
    lines sep (body ++ sep :: s) = (body ++ [sep]) :: lines sep s := by
  rw [lines, cut_line sep h]

theorem rest_line {body : List α} (h : sep ∉ body) (s : List α) :
    rest sep (body ++ sep :: s) = rest sep s := by
  rw [rest, cut_line sep h]

/-- Induction along the lines of a stream: a stream without a separator, or a
    first line followed by a shorter stream. -/
theorem lineInduction {motive : List α → Prop}
    (unterminated : ∀ s, sep ∉ s → motive s)
    (line : ∀ body after, sep ∉ body → motive after → motive (body ++ sep :: after))
    (s : List α) : motive s := by
  by_cases present : sep ∈ s
  · obtain ⟨body, after, same, fresh⟩ := List.eq_append_cons_of_mem present
    subst same
    exact line body after fresh (lineInduction unterminated line after)
  · exact unterminated s present
termination_by s.length
decreasing_by
  subst_vars
  simp only [List.length_append, List.length_cons]
  omega

theorem rest_fresh (s : List α) : sep ∉ rest sep s := by
  induction s using lineInduction sep with
  | unterminated s fresh => rwa [rest_of_not_mem sep fresh]
  | line body after fresh ih => rwa [rest_line sep fresh]

theorem cut_append (s t : List α) :
    cut sep (s ++ t) = (lines sep s ++ lines sep (rest sep s ++ t), rest sep (rest sep s ++ t)) := by
  induction s using lineInduction sep with
  | unterminated s fresh =>
      rw [lines_of_not_mem sep fresh, rest_of_not_mem sep fresh, List.nil_append, lines, rest]
  | line body after fresh ih =>
      rw [List.append_assoc, List.cons_append, cut_line sep fresh, lines, rest, ih]
      simp only [lines_line sep fresh, rest_line sep fresh, List.cons_append]

theorem lines_append (s t : List α) :
    lines sep (s ++ t) = lines sep s ++ lines sep (rest sep s ++ t) := by
  rw [lines, cut_append]

theorem rest_append (s t : List α) : rest sep (s ++ t) = rest sep (rest sep s ++ t) := by
  rw [rest, cut_append]

theorem lines_append_of_not_mem {s t : List α} (h : sep ∉ t) : lines sep (s ++ t) = lines sep s := by
  have fresh : sep ∉ rest sep s ++ t := by simp [rest_fresh sep s, h]
  rw [lines_append, lines_of_not_mem sep fresh, List.append_nil]

theorem rest_append_of_not_mem {s t : List α} (h : sep ∉ t) :
    rest sep (s ++ t) = rest sep s ++ t := by
  have fresh : sep ∉ rest sep s ++ t := by simp [rest_fresh sep s, h]
  rw [rest_append, rest_of_not_mem sep fresh]

/-- Appending up to a separator completes one line and leaves no rest. -/
theorem lines_append_line {s body : List α} (h : sep ∉ body) :
    lines sep (s ++ (body ++ [sep])) = lines sep s ++ [rest sep s ++ body ++ [sep]] := by
  have fresh : sep ∉ rest sep s ++ body := by simp [rest_fresh sep s, h]
  rw [lines_append, ← List.append_assoc, lines_line sep fresh, lines_nil]

theorem rest_append_line {s body : List α} (h : sep ∉ body) :
    rest sep (s ++ (body ++ [sep])) = [] := by
  have fresh : sep ∉ rest sep s ++ body := by simp [rest_fresh sep s, h]
  rw [rest_append, ← List.append_assoc, rest_line sep fresh, rest_nil]

theorem upTo_of_not_mem {s : List α} (h : sep ∉ s) : upTo sep s = s := by
  induction s with
  | nil => rfl
  | cons x xs ih =>
      have head : x ≠ sep := fun same => h (by simp [same])
      rw [upTo, if_neg head, ih fun member => h (List.mem_cons_of_mem _ member)]

theorem upTo_line {body : List α} (h : sep ∉ body) (s : List α) :
    upTo sep (body ++ sep :: s) = body ++ [sep] := by
  induction body with
  | nil => simp [upTo]
  | cons x xs ih =>
      have head : x ≠ sep := fun same => h (by simp [same])
      rw [List.cons_append, upTo, if_neg head, ih fun member => h (List.mem_cons_of_mem _ member),
        List.cons_append]

theorem upTo_prefix_self (s : List α) : upTo sep s <+: s := by
  by_cases present : sep ∈ s
  · obtain ⟨body, after, rfl, fresh⟩ := List.eq_append_cons_of_mem present
    exact ⟨after, by rw [upTo_line sep fresh, List.append_assoc, List.singleton_append]⟩
  · exact ⟨[], by rw [upTo_of_not_mem sep present, List.append_nil]⟩

theorem upTo_eq_self_iff {s : List α} : upTo sep s = s ↔ sep ∉ s.dropLast := by
  by_cases present : sep ∈ s
  · obtain ⟨body, after, rfl, fresh⟩ := List.eq_append_cons_of_mem present
    rw [upTo_line sep fresh, List.dropLast_append_of_ne_nil (by simp)]
    cases after with
    | nil => simp [fresh]
    | cons x xs => simp [List.dropLast_cons_of_ne_nil]
  · rw [upTo_of_not_mem sep present]
    exact iff_of_true rfl fun member => present (List.dropLast_subset s member)

end Aesd.Lib.Lines
