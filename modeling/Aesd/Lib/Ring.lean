import Mathlib.Data.List.DropRight
import Mathlib.Logic.Function.Basic

/-! # Rings of slots and the window they keep

A ring of `cap` slots stores the `n`-th item it is given at slot `n % cap`, so
that it keeps the newest `cap` items of its history.  `Holds` relates a slot
table to the whole history of items, the evicted ones included; the window
itself is `List.rtake cap` of that history.
-/

namespace Aesd.Lib.Ring

variable {α : Type*} {cap : Nat}

theorem length_rtake (xs : List α) (n : Nat) : (xs.rtake n).length = min n xs.length := by
  simp only [List.rtake, List.length_drop]
  omega

theorem rtake_map {β : Type*} (f : α → β) (xs : List α) (n : Nat) :
    (xs.map f).rtake n = (xs.rtake n).map f := by
  simp only [List.rtake, List.length_map, List.map_drop]

theorem rtake_of_length_le {xs : List α} {n : Nat} (short : xs.length ≤ n) : xs.rtake n = xs := by
  simp only [List.rtake, Nat.sub_eq_zero_of_le short, List.drop_zero]

theorem getElem_rtake (xs : List α) (n i : Nat) (h : i < (xs.rtake n).length) :
    ∃ inside : xs.length - n + i < xs.length, (xs.rtake n)[i] = xs[xs.length - n + i] := by
  have inside : xs.length - n + i < xs.length := by
    rw [length_rtake] at h
    omega
  exact ⟨inside, by simp only [List.rtake, List.getElem_drop]⟩

theorem mem_of_mem_rtake {x : α} {xs : List α} {n : Nat} (h : x ∈ xs.rtake n) : x ∈ xs :=
  List.mem_of_mem_drop h

theorem mem_rtake_concat (pos : 0 < cap) (xs : List α) (x : α) : x ∈ (xs ++ [x]).rtake cap := by
  rw [List.rtake, List.length_append, List.length_singleton,
    List.drop_append_of_le_length (by omega)]
  exact List.mem_append_right _ (List.mem_singleton_self x)

theorem rtake_concat {xs : List α} (pos : 0 < cap) (full : cap ≤ xs.length) (x : α) :
    xs.rtake cap ++ [x] = xs[xs.length - cap] :: (xs ++ [x]).rtake cap := by
  have later : (xs ++ [x]).length - cap = xs.length - cap + 1 := by
    rw [List.length_append, List.length_singleton]
    omega
  rw [List.rtake, List.rtake, later, List.drop_append_of_le_length (by omega),
    List.drop_eq_getElem_cons (by omega), List.cons_append]

/-- Where the oldest kept item sits after `n` items. -/
def start (cap n : Nat) : Nat := if n < cap then 0 else n % cap

/-- The slot table after the history `xs`: kept items at their index modulo
    `cap`, and slots that no item has reached still blank. -/
structure Holds (cap : Nat) (blank : α) (slot : Nat → α) (xs : List α) : Prop where
  recent : ∀ m (h : m < xs.length), xs.length ≤ m + cap → slot (m % cap) = xs[m]
  unused : ∀ j, xs.length ≤ j → j < cap → slot j = blank

namespace Holds

variable {blank : α} {slot slot' : Nat → α} {xs : List α}

theorem empty (cap : Nat) (blank : α) : Holds cap blank (fun _ => blank) [] where
  recent := by
    intro m h
    simp at h
  unused := fun _ _ _ => rfl

/-- Storing at `n % cap` appends to the history. -/
theorem push (held : Holds cap blank slot xs) (x : α)
    (stored : slot' (xs.length % cap) = x)
    (frame : ∀ j < cap, j ≠ xs.length % cap → slot' j = slot j) (pos : 0 < cap) :
    Holds cap blank slot' (xs ++ [x]) where
  recent := by
    intro m h near
    simp only [List.length_append, List.length_singleton] at h near
    by_cases newest : m = xs.length
    · subst newest
      rw [stored, List.getElem_concat_length rfl]
    · have older : m < xs.length := by omega
      have apart : m % cap ≠ xs.length % cap := by
        intro same
        have modulo : (xs.length - m) % cap = 0 := Nat.sub_mod_eq_zero_of_mod_eq same.symm
        have small : xs.length - m < cap := by omega
        rw [Nat.mod_eq_of_lt small] at modulo
        omega
      rw [frame _ (Nat.mod_lt _ pos) apart, List.getElem_append_left older]
      exact held.recent m older (by omega)
  unused := by
    intro j beyond inside
    simp only [List.length_append, List.length_singleton] at beyond
    have apart : j ≠ xs.length % cap := by
      rw [Nat.mod_eq_of_lt (by omega)]
      omega
    rw [frame j inside apart]
    exact held.unused j (by omega) inside

/-- What the next item overwrites: nothing until the ring is full, then the
    oldest kept item. -/
theorem next_blank (held : Holds cap blank slot xs) (room : xs.length < cap) :
    slot (xs.length % cap) = blank := by
  rw [Nat.mod_eq_of_lt room]
  exact held.unused _ le_rfl room

theorem next_oldest (held : Holds cap blank slot xs) (pos : 0 < cap) (full : cap ≤ xs.length) :
    slot (xs.length % cap) = xs[xs.length - cap] := by
  have same : xs.length % cap = (xs.length - cap) % cap := (Nat.mod_eq_sub_mod full)
  rw [same]
  exact held.recent _ (by omega) (by omega)

/-- Reading on from the start slot finds the window in order. -/
theorem slot_window (held : Holds cap blank slot xs) (i : Nat) (h : i < (xs.rtake cap).length) :
    slot ((start cap xs.length + i) % cap) = (xs.rtake cap)[i] := by
  have bound := h
  rw [length_rtake] at bound
  obtain ⟨_, same⟩ := getElem_rtake xs cap i h
  rw [same]
  by_cases room : xs.length < cap
  · have origin : xs.length - cap = 0 := by omega
    simp only [start, if_pos room, Nat.zero_add, origin]
    exact held.recent i (by omega) (by omega)
  · have whole : xs.length = xs.length - cap + cap := by omega
    have phase : (start cap xs.length + i) % cap = (xs.length - cap + i) % cap := by
      have shift : xs.length % cap = (xs.length - cap) % cap := Nat.mod_eq_sub_mod (by omega)
      simp only [start, if_neg room, shift, Nat.mod_add_mod]
    rw [phase]
    exact held.recent _ (by omega) (by omega)

theorem slot_beyond (held : Holds cap blank slot xs) (i : Nat) (past : xs.length ≤ i)
    (inside : i < cap) : slot ((start cap xs.length + i) % cap) = blank := by
  have room : xs.length < cap := by omega
  simp only [start, if_pos room, Nat.zero_add, Nat.mod_eq_of_lt inside]
  exact held.unused i past inside

end Holds

end Aesd.Lib.Ring
