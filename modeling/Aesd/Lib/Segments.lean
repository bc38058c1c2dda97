import Mathlib.Data.List.Basic

/-! # Marked pieces of a cut sequence

A sequence may be cut into pieces in many ways.  When some pieces are marked, the
stretches they cover and the sequence as a whole determine what is left of it
without them, however the rest is cut.
-/

namespace Aesd.Lib.Segments

variable {α : Type*} (marked : List α → Prop) [DecidablePred marked]

/-- The marked pieces, each with the place where it starts; the first piece starts at `off`. -/
def stretches : Nat → List (List α) → List (Nat × List α)
  | _, [] => []
  | off, piece :: pieces =>
    if marked piece then (off, piece) :: stretches (off + piece.length) pieces
    else stretches (off + piece.length) pieces

/-- The pieces that are not marked, put end to end. -/
def unmarked (pieces : List (List α)) : List α := (pieces.filter fun piece => ¬marked piece).flatten

/-- A sequence, whose first item stands at `off`, without some stretches. -/
def without : Nat → List α → List (Nat × List α) → List α
  | _, items, [] => items
  | off, items, (start, piece) :: later =>
    items.take (start - off) ++
      without (start + piece.length) (items.drop (start - off + piece.length)) later

variable {marked}

theorem le_of_mem_stretches {off : Nat} {pieces : List (List α)} {start : Nat} {piece : List α}
    (member : (start, piece) ∈ stretches marked off pieces) : off ≤ start := by
  induction pieces generalizing off with
  | nil => cases member
  | cons first pieces ih =>
      rw [stretches] at member
      split at member
      · rcases List.mem_cons.mp member with same | later
        · exact Nat.le_of_eq (Prod.mk.inj same).1.symm
        · exact Nat.le_of_add_right_le (ih later)
      · exact Nat.le_of_add_right_le (ih member)

theorem map_snd_stretches (off : Nat) (pieces : List (List α)) :
    (stretches marked off pieces).map Prod.snd = pieces.filter fun piece => marked piece := by
  induction pieces generalizing off with
  | nil => rfl
  | cons piece pieces ih =>
      rw [stretches]
      split
      · rename_i mark
        rw [List.map_cons, ih, List.filter_cons_of_pos (by simpa using mark)]
      · rename_i plain
        rw [ih, List.filter_cons_of_neg (by simpa using plain)]

theorem without_append {off : Nat} {front items : List α} {later : List (Nat × List α)}
    (behind : ∀ start piece, (start, piece) ∈ later.head? → off + front.length ≤ start) :
    without off (front ++ items) later = front ++ without (off + front.length) items later := by
  cases later with
  | nil => rfl
  | cons next later =>
      obtain ⟨start, piece⟩ := next
      have after := behind start piece rfl
      have distance : start - off = front.length + (start - (off + front.length)) := by omega
      rw [without, without, distance, Nat.add_assoc, List.take_length_add_append,
        List.drop_length_add_append, List.append_assoc]

theorem unmarked_eq_without (off : Nat) (pieces : List (List α)) :
    unmarked marked pieces = without off pieces.flatten (stretches marked off pieces) := by
  induction pieces generalizing off with
  | nil => rfl
  | cons piece pieces ih =>
      rw [stretches, List.flatten_cons]
      split
      · rename_i mark
        have rest : unmarked marked (piece :: pieces) = unmarked marked pieces := by
          rw [unmarked, List.filter_cons_of_neg (by simpa using mark)]
          rfl
        rw [rest, without, Nat.sub_self, List.take_zero, List.nil_append, Nat.zero_add,
          List.drop_left', ← ih]
        rfl
      · rename_i plain
        have rest : unmarked marked (piece :: pieces) = piece ++ unmarked marked pieces := by
          rw [unmarked, List.filter_cons_of_pos (by simpa using plain), List.flatten_cons]
          rfl
        rw [rest, without_append, ← ih]
        intro start mark first
        exact le_of_mem_stretches (List.mem_of_mem_head? first)

/-- What is left of a sequence depends on its marked stretches, not on how the rest is cut. -/
theorem unmarked_eq_of_stretches {pieces pieces' : List (List α)}
    (same : pieces.flatten = pieces'.flatten)
    (cut : stretches marked 0 pieces = stretches marked 0 pieces') :
    unmarked marked pieces = unmarked marked pieces' := by
  rw [unmarked_eq_without 0, unmarked_eq_without 0, same, cut]

theorem filter_eq_of_stretches {pieces pieces' : List (List α)}
    (cut : stretches marked 0 pieces = stretches marked 0 pieces') :
    (pieces.filter fun piece => marked piece) = pieces'.filter fun piece => marked piece := by
  rw [← map_snd_stretches 0, cut, map_snd_stretches]

end Aesd.Lib.Segments
