import Mathlib.Data.List.Basic
import Mathlib.Algebra.BigOperators.Group.List.Basic
import Mathlib.Algebra.GroupWithZero.Nat
import Mathlib.Algebra.Order.BigOperators.Group.List
import Mathlib.Algebra.Order.Ring.Nat
import Mathlib.Data.Prod.Lex

/-! # Offsets in concatenated pieces

`locate sizes off` finds the piece that byte `off` of a concatenation lies in,
and the offset inside that piece.  It is the inverse of "the sizes before the
piece, plus the offset inside it".
-/

namespace Aesd.Lib.Locate

/-- The piece and the offset inside it, when the concatenation is long enough. -/
def locate : List Nat → Nat → Option (Nat × Nat)
  | [], _ => none
  | size :: sizes, off =>
    if off < size then some (0, off)
    else (locate sizes (off - size)).map fun (i, d) => (i + 1, d)

theorem locate_none_iff {sizes : List Nat} {off : Nat} :
    locate sizes off = none ↔ sizes.sum ≤ off := by
  induction sizes generalizing off with
  | nil => simp [locate]
  | cons size sizes ih =>
      simp only [locate, List.sum_cons]
      split
      · simp only [reduceCtorEq, false_iff]
        omega
      · rw [Option.map_eq_none_iff, ih]
        omega

/-- What `locate` finds, and that it finds nothing else. -/
theorem locate_some_iff {sizes : List Nat} {off i d : Nat} :
    locate sizes off = some (i, d) ↔
      ∃ h : i < sizes.length, d < sizes[i] ∧ (sizes.take i).sum + d = off := by
  induction sizes generalizing off i d with
  | nil => simp [locate]
  | cons size sizes ih =>
      by_cases inside : off < size
      · simp only [locate, if_pos inside, Option.some.injEq, Prod.mk.injEq]
        constructor
        · rintro ⟨rfl, rfl⟩
          exact ⟨by simp, by simpa using inside, by simp⟩
        · rintro ⟨h, small, total⟩
          cases i with
          | zero => simpa using total.symm
          | succ i =>
              simp only [List.take_succ_cons, List.sum_cons] at total
              omega
      · simp only [locate, if_neg inside, Option.map_eq_some_iff, Prod.exists, Prod.mk.injEq]
        constructor
        · rintro ⟨j, e, found, rfl, rfl⟩
          obtain ⟨h, small, total⟩ := ih.mp found
          refine ⟨by simpa using h, by simpa using small, ?_⟩
          simp only [List.take_succ_cons, List.sum_cons]
          omega
        · rintro ⟨h, small, total⟩
          cases i with
          | zero => simp at small total; omega
          | succ i =>
              simp only [List.take_succ_cons, List.sum_cons] at total
              refine ⟨i, d, ih.mpr ⟨by simpa using h, by simpa using small, by omega⟩, rfl, rfl⟩

theorem sum_take_add_le {sizes : List Nat} {i j : Nat} (before : i < j) (h : i < sizes.length) :
    (sizes.take i).sum + sizes[i] ≤ (sizes.take j).sum := by
  have up : sizes.take (i + 1) = (sizes.take j).take (i + 1) := by
    rw [List.take_take, Nat.min_eq_left before]
  have step : (sizes.take (i + 1)).sum = (sizes.take i).sum + sizes[i] := by
    rw [List.take_succ_eq_append_getElem h, List.sum_append, List.sum_singleton]
  rw [← step, up]
  exact (List.take_sublist _ _).sum_le_sum (by simp)

/-- Places in a concatenation are ordered as their pairs of piece and offset are. -/
theorem place_lt_iff {sizes : List Nat} {i j d e : Nat} (hi : i < sizes.length)
    (hd : d < sizes[i]) (hj : j < sizes.length) (he : e < sizes[j]) :
    (sizes.take i).sum + d < (sizes.take j).sum + e ↔ toLex (i, d) < toLex (j, e) := by
  rw [Prod.Lex.toLex_lt_toLex]
  rcases Nat.lt_trichotomy i j with before | rfl | after
  · have apart := sum_take_add_le before hi
    simp only [before, true_or, iff_true]
    omega
  · simp
  · have apart := sum_take_add_le after hj
    simp only [Nat.lt_asymm after, Nat.ne_of_gt after, false_and, or_self, iff_false]
    omega

theorem drop_flatten {α : Type*} {pieces : List (List α)} {off i d : Nat}
    (found : locate (pieces.map List.length) off = some (i, d)) :
    ∃ h : i < pieces.length, d < pieces[i].length ∧
      pieces.flatten.drop off = pieces[i].drop d ++ (pieces.drop (i + 1)).flatten := by
  obtain ⟨h, small, total⟩ := locate_some_iff.mp found
  have inside : i < pieces.length := by simpa using h
  have short : d < pieces[i].length := by simpa using small
  refine ⟨inside, short, ?_⟩
  have before : (pieces.take i).flatten.length + d = off := by
    rw [List.length_flatten, List.map_take]
    exact total
  have split : pieces.flatten = (pieces.take i).flatten ++ (pieces[i] ++ (pieces.drop (i + 1)).flatten) := by
    conv_lhs => rw [← List.take_append_drop i pieces, List.flatten_append,
      List.drop_eq_getElem_cons inside, List.flatten_cons]
  rw [split, ← before, List.drop_length_add_append, List.drop_append_of_le_length (Nat.le_of_lt short)]

end Aesd.Lib.Locate
