import Aesd.Server.Command

/-! # Where the command word is found

`find_ioc_command` promises the position of the word.  Its loop advances `i` but
compares at the start of the buffer in every round, and stops one position short
of the last one that leaves room for the word.
-/

namespace Aesd.Server

/-- The word stands at position `i` of the first `bufLen` bytes. -/
structure Occurs (buf : List UInt8) (bufLen i : Nat) : Prop where
  room : i + iocString.length ≤ bufLen
  word : iocString <+: buf.drop i

/-- The least position of the word, or `-ENOENT` when it is not there. -/
structure FindsLeast (buf : List UInt8) (bufLen : Nat) (r : Int) : Prop where
  found : ∀ i, Occurs buf bufLen i → (∀ j, Occurs buf bufLen j → i ≤ j) → r = i
  missing : r = -ENOENT ↔ ∀ i, ¬Occurs buf bufLen i

@[simp] theorem length_iocString : iocString.length = 18 := rfl

@[grind →]
theorem Occurs.start {buf : List UInt8} {bufLen : Nat} (h : Occurs buf bufLen 0) : iocString <+: buf :=
  h.word

theorem Occurs.first {buf : List UInt8} {bufLen : Nat} (room : iocString.length ≤ bufLen)
    (word : iocString <+: buf) : Occurs buf bufLen 0 where
  room := by omega
  word := word

/-- The scan sees an occurrence at the start, and that only if something may follow it. -/
theorem findIocCommand_zero_iff (buf : List UInt8) (bufLen : Nat) :
    findIocCommand buf bufLen =
      if iocString.length < bufLen ∧ iocString <+: buf then 0 else -ENOENT := by
  by_cases room : iocString.length < bufLen
  · rw [findIocCommand_eq room]
    simp only [room, true_and]
  · have short : findIocCommand buf bufLen = -ENOENT := by
      unfold findIocCommand
      split
      · rfl
      · rw [Nat.sub_eq_zero_of_le (by omega)]
        rfl
    rw [short, if_neg fun both => room both.1]

theorem not_findsLeast {buf : List UInt8} {bufLen i : Nat} (h : Occurs buf bufLen i) :
    ¬FindsLeast buf bufLen (-ENOENT) := fun right => right.missing.mp rfl i h

/-- The scan is right exactly when the word does not occur in the length it is
    given, or occurs at the very start with at least one more byte to look at. -/
theorem findsLeast_iff (buf : List UInt8) (bufLen : Nat) :
    FindsLeast buf bufLen (findIocCommand buf bufLen) ↔
      (∀ i, ¬Occurs buf bufLen i) ∨ (Occurs buf bufLen 0 ∧ iocString.length < bufLen) := by
  rw [findIocCommand_zero_iff]
  constructor
  · intro right
    by_cases absent : ∀ i, ¬Occurs buf bufLen i
    · exact .inl absent
    · obtain ⟨i, present⟩ := not_forall_not.mp absent
      split at right
      · rename_i seen
        exact .inr ⟨.first (Nat.le_of_lt seen.1) seen.2, seen.1⟩
      · exact absurd right (not_findsLeast present)
  · intro condition
    rcases condition with absent | ⟨start, room⟩
    · have unseen : ¬(iocString.length < bufLen ∧ iocString <+: buf) := by
        intro seen
        exact absent 0 (.first (Nat.le_of_lt seen.1) seen.2)
      rw [if_neg unseen]
      exact ⟨fun i present _ => absurd present (absent i), iff_of_true rfl absent⟩
    · rw [if_pos ⟨room, start.start⟩]
      constructor
      · intro i _ least
        have lower := least 0 start
        omega
      · have found : (0 : Int) ≠ -ENOENT := by decide
        exact iff_of_false found fun absent => absent 0 start

/-- One byte in front of the word hides it. -/
theorem word_missed :
    ¬∀ (buf : List UInt8) (bufLen : Nat), bufLen ≤ buf.length →
      FindsLeast buf bufLen (findIocCommand buf bufLen) := by
  intro claim
  have right := claim (newline :: iocString) 19 (by decide)
  have result : findIocCommand (newline :: iocString) 19 = -ENOENT := by decide
  rw [result] at right
  exact not_findsLeast (i := 1) ⟨by decide, List.prefix_rfl⟩ right

end Aesd.Server
