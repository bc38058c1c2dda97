import Mathlib.Data.List.Basic

/-! # Cells addressed by number

A memory is a function from addresses to cells.  `storeAt` overwrites a
contiguous range, `firstBytes` reads one from address 0; a store right behind
what is read extends it.
-/

namespace Aesd.Lib.Memory

variable {α : Type*}

/-- Store consecutive cells, the first one at `start`. -/
def storeAt (mem : Nat → α) (start : Nat) (cells : List α) : Nat → α :=
  fun i => if start ≤ i then (cells[i - start]?).getD (mem i) else mem i

/-- The first `n` cells. -/
def firstBytes (mem : Nat → α) (n : Nat) : List α := (List.range n).map mem

@[simp] theorem length_firstBytes (mem : Nat → α) (n : Nat) : (firstBytes mem n).length = n := by
  simp only [firstBytes, List.length_map, List.length_range]

theorem storeAt_below {mem : Nat → α} {start i : Nat} {cells : List α} (h : i < start) :
    storeAt mem start cells i = mem i := by
  rw [storeAt, if_neg (by omega)]

theorem storeAt_inside {mem : Nat → α} {start i : Nat} {cells : List α} (h : i < cells.length) :
    storeAt mem start cells (start + i) = cells[i] := by
  rw [storeAt, if_pos (by omega), Nat.add_sub_cancel_left, List.getElem?_eq_getElem h,
    Option.getD_some]

theorem firstBytes_congr {mem mem' : Nat → α} {n : Nat} (same : ∀ i < n, mem i = mem' i) :
    firstBytes mem n = firstBytes mem' n :=
  List.map_congr_left fun i member => same i (List.mem_range.mp member)

theorem firstBytes_storeAt (mem : Nat → α) (n : Nat) (cells : List α) {k : Nat}
    (h : k ≤ cells.length) :
    firstBytes (storeAt mem n cells) (n + k) = firstBytes mem n ++ cells.take k := by
  rw [firstBytes, List.range_add, List.map_append, List.map_map]
  congr 1
  · exact firstBytes_congr fun i below => storeAt_below below
  · apply List.ext_getElem
    · simp [h]
    · intro i _ inside
      have short : i < cells.length := by
        rw [List.length_take] at inside
        omega
      simp only [List.getElem_map, List.getElem_range, Function.comp_apply, List.getElem_take,
        storeAt_inside short]

/-- `for(i=0; i<n; i++) b[i] = f(i)`. -/
theorem foldl_set_range (f : Nat → α) (b : List α) {n : Nat} (h : n ≤ b.length) :
    (List.range n).foldl (fun b i => b.set i (f i)) b = (List.range n).map f ++ b.drop n := by
  induction n with
  | zero => rfl
  | succ n ih =>
      have front : ((List.range n).map f).length = n := by simp
      rw [List.range_succ, List.foldl_append, ih (by omega), List.map_append,
        List.drop_eq_getElem_cons (by omega)]
      simp only [List.foldl_cons, List.foldl_nil, List.map_cons, List.map_nil, List.append_assoc,
        List.singleton_append]
      rw [List.set_append_right _ _ (by omega), front, Nat.sub_self, List.set_cons_zero]

theorem modify_concat (f : α → α) (l : List α) (x : α) :
    (l ++ [x]).modify l.length f = l ++ [f x] := by
  induction l with
  | nil => rfl
  | cons y l ih => rw [List.cons_append, List.length_cons, List.modify_succ_cons, ih, List.cons_append]

end Aesd.Lib.Memory
