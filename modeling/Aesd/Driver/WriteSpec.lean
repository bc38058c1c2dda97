import Aesd.Driver.Operations
import Aesd.Driver.Ring

/-! # What one `aesd_write` can do

`WriteOutcome` lists the exits of `aesd_write` with the device each leaves,
in terms of the bytes of the call; `aesdWrite_outcome` proves that there is no
other.  Everything later about writes is a case analysis on it.
-/

namespace Aesd.Driver

open Aesd.Lib Aesd.Lib.Memory

theorem scanNewline_fresh {mem : Nat → UInt8} {s n : Nat}
    (fresh : ∀ i < n, mem (s + i) ≠ newline) : scanNewline mem s n = none := by
  induction n generalizing s with
  | zero => rfl
  | succ n ih =>
      have head : mem s ≠ newline := by simpa using fresh 0 (by omega)
      rw [scanNewline, if_neg head]
      refine ih fun i below => ?_
      rw [Nat.add_assoc, Nat.add_comm 1]
      exact fresh (i + 1) (by omega)

theorem scanNewline_found {mem : Nat → UInt8} {s k n : Nat} (inside : k < n)
    (fresh : ∀ i < k, mem (s + i) ≠ newline) (found : mem (s + k) = newline) :
    scanNewline mem s n = some (s + k) := by
  induction k generalizing s n with
  | zero =>
      obtain ⟨n, rfl⟩ : ∃ m, n = m + 1 := ⟨n - 1, by omega⟩
      rw [scanNewline, if_pos (by simpa using found), Nat.add_zero]
  | succ k ih =>
      obtain ⟨n, rfl⟩ : ∃ m, n = m + 1 := ⟨n - 1, by omega⟩
      have head : mem s ≠ newline := by simpa using fresh 0 (by omega)
      have shift : ∀ i, s + 1 + i = s + (i + 1) := fun i => by omega
      rw [scanNewline, if_neg head, ih (by omega), shift]
      · intro i below
        rw [shift]
        exact fresh (i + 1) (by omega)
      · rwa [shift]

theorem scanNewline_storeAt_fresh (mem : Nat → UInt8) (s : Nat) {data : List UInt8}
    (fresh : newline ∉ data) : scanNewline (storeAt mem s data) s data.length = none := by
  refine scanNewline_fresh fun i inside => ?_
  rw [storeAt_inside inside]
  exact fun same => fresh (same ▸ List.getElem_mem inside)

theorem scanNewline_storeAt_line (mem : Nat → UInt8) (s : Nat) {body after : List UInt8}
    (fresh : newline ∉ body) :
    scanNewline (storeAt mem s (body ++ newline :: after)) s (body ++ newline :: after).length =
      some (s + body.length) := by
  have inside : body.length < (body ++ newline :: after).length := by simp
  refine scanNewline_found inside ?_ ?_
  · intro i below
    rw [storeAt_inside (by omega), List.getElem_append_left below]
    exact fun same => fresh (same ▸ List.getElem_mem below)
  · rw [storeAt_inside inside, List.getElem_append_right le_rfl]
    simp

theorem fillBlock_eq (mem : Nat → UInt8) (s : Nat) :
    fillBlock mem s (List.replicate (s + 2) 0) = firstBytes mem (s + 1) ++ [0] := by
  have rest : (List.replicate (s + 2) (0 : UInt8)).drop (s + 1) = [0] := by
    rw [List.drop_replicate]
    simp
  rw [fillBlock, foldl_set_range mem _ (by simp), rest, ← firstBytes,
    List.set_append_right _ _ (by simp), length_firstBytes, Nat.sub_self]
  rfl

namespace Dev

/-- The fill level and the capacity of the working entry are as the code keeps them. -/
structure Room (d : Dev) : Prop where
  index_le : d.we.index.toNat ≤ d.we.size.toNat
  size_le : d.we.size.toNat ≤ 2 ^ 59

/-- The call's bytes fit behind what is pending, in exact arithmetic. -/
def Fits (d : Dev) (c : WriteCall) : Prop := d.we.index.toNat + c.data.length ≤ d.we.size.toNat

/-- The working entry has taken in the first `n` bytes of the call. -/
def received (d : Dev) (c : WriteCall) (n : Nat) : Dev :=
  (d.copyFromUser c).advance (BitVec.ofNat 64 n)

/-- The finished entry that a line body ends, and its block. -/
def finishedEntry (d : Dev) (body : List UInt8) : BufferEntry Nat :=
  ⟨some d.heap.length, BitVec.ofNat 64 (d.we.index.toNat + body.length) + 1⟩

def withBlock (d : Dev) (bytes : List UInt8) : Dev :=
  { d with heap := d.heap ++ [⟨bytes ++ [0], 0⟩] }

end Dev

/-- The bytes of the call that reach the working entry. -/
def WriteCall.copied (c : WriteCall) : List UInt8 := c.data.take (c.data.length - c.uncopied)

/-- What is asked of `kzalloc` for the line that the call's first newline ends. -/
def Dev.blockSize (d : Dev) (c : WriteCall) : SizeT :=
  BitVec.ofNat 64 (d.we.index.toNat + c.data.idxOf newline) + 2

theorem WriteCall.copied_all {c : WriteCall} (all : c.uncopied = 0) : c.copied = c.data := by
  rw [copied, all, Nat.sub_zero, List.take_length]

theorem blockSize_line (d : Dev) {c : WriteCall} {body after : List UInt8}
    (fresh : newline ∉ body) (line : c.data = body ++ newline :: after) :
    d.blockSize c = BitVec.ofNat 64 (d.we.index.toNat + body.length) + 2 := by
  have first : c.data.idxOf newline = body.length := by
    rw [line, List.idxOf_append_of_notMem fresh, List.idxOf_cons_self, Nat.add_zero]
  rw [Dev.blockSize, first]

theorem WriteCall.count_toNat (c : WriteCall) : c.count.toNat = c.data.length := by
  rw [count, BitVec.toNat_ofNat, Nat.mod_eq_of_lt c.fits]

theorem guard_iff {d : Dev} (room : d.Room) (c : WriteCall) :
    (c.count > d.we.size ∨ c.count + d.we.index > d.we.size) ↔ ¬d.Fits c := by
  have count := c.count_toNat
  have index := room.index_le
  have size := room.size_le
  simp only [Dev.Fits, ← count]
  generalize c.count = n at *
  generalize d.we.index = i at *
  generalize d.we.size = z at *
  bv_omega

theorem received_index {d : Dev} {c : WriteCall} (room : d.Room) (fits : d.Fits c) {n : Nat}
    (short : n ≤ c.data.length) : (d.received c n).we.index.toNat = d.we.index.toNat + n := by
  have size := room.size_le
  simp only [Dev.Fits] at fits
  simp only [Dev.received, Dev.advance, Dev.copyFromUser, BitVec.toNat_add, BitVec.toNat_ofNat]
  omega

theorem received_pending {d : Dev} {c : WriteCall} (room : d.Room) (fits : d.Fits c) {n : Nat}
    (copied : n + c.uncopied ≤ c.data.length) :
    (d.received c n).pending = d.pending ++ c.data.take n := by
  rw [Dev.pending, received_index room fits (by omega)]
  simp only [Dev.received, Dev.advance, Dev.copyFromUser, Dev.pending]
  rw [firstBytes_storeAt _ _ _ (by simp; omega), List.take_append_of_le_length (by simp; omega),
    List.take_take, Nat.min_eq_left (by omega)]

theorem received_all {d : Dev} {c : WriteCall} (room : d.Room) (fits : d.Fits c)
    (all : c.uncopied = 0) : (d.received c c.data.length).pending = d.pending ++ c.data := by
  rw [received_pending room fits (by omega), List.take_length]

/-- What `stage` leads to, with the bytes of the call cut at the first newline. -/
inductive StageOutcome (d : Dev) (pos : LoffT) (c : WriteCall) : Staged × Dev × LoffT → Prop where
  | refused (full : ¬d.Fits c) : StageOutcome d pos c (.out (-ENOMEM), d, pos)
  | short (fits : d.Fits c) (some : c.uncopied ≠ 0) :
      StageOutcome d pos c (.out (-EFAULT), d.received c (c.data.length - c.uncopied),
        pos + BitVec.ofNat 64 (c.data.length - c.uncopied))
  | noLine (fits : d.Fits c) (all : c.uncopied = 0) (fresh : newline ∉ c.data) :
      StageOutcome d pos c (.out c.count.toInt, d.received c c.data.length, pos + c.count)
  | noBlock (fits : d.Fits c) (all : c.uncopied = 0) {body after} (fresh : newline ∉ body)
      (line : c.data = body ++ newline :: after)
      (fails : c.kzallocOk (BitVec.ofNat 64 (d.we.index.toNat + body.length) + 2) = false) :
      StageOutcome d pos c
        (.out (-ENOMEM), (d.received c c.data.length).completed, pos + c.count)
  | line (fits : d.Fits c) (all : c.uncopied = 0) {body after} (fresh : newline ∉ body)
      (line : c.data = body ++ newline :: after)
      (grants : c.kzallocOk (BitVec.ofNat 64 (d.we.index.toNat + body.length) + 2) = true) :
      StageOutcome d pos c
        (.commit (d.finishedEntry body),
          (d.received c c.data.length).completed.withBlock (d.pending ++ body ++ [newline]),
          pos + c.count)

theorem copyFromUser_all {d : Dev} {c : WriteCall} (all : c.uncopied = 0) :
    (d.copyFromUser c).we.buffptr = storeAt d.we.buffptr d.we.index.toNat c.data := by
  simp [Dev.copyFromUser, all]

theorem scan_received {d : Dev} {c : WriteCall} (room : d.Room) (fits : d.Fits c)
    (all : c.uncopied = 0) :
    scanNewline (d.received c c.data.length).we.buffptr d.we.index.toNat
        ((d.received c c.data.length).we.index.toNat - d.we.index.toNat) =
      scanNewline (storeAt d.we.buffptr d.we.index.toNat c.data) d.we.index.toNat
        c.data.length := by
  rw [received_index room fits le_rfl, Nat.add_sub_cancel_left, ← copyFromUser_all all]
  rfl

theorem firstBytes_line {d : Dev} {c : WriteCall} {body after : List UInt8} (all : c.uncopied = 0)
    (line : c.data = body ++ newline :: after) :
    firstBytes (d.received c c.data.length).we.buffptr (d.we.index.toNat + body.length + 1) =
      d.pending ++ body ++ [newline] := by
  have stored : (d.received c c.data.length).we.buffptr =
      storeAt d.we.buffptr d.we.index.toNat c.data := copyFromUser_all all
  have head : c.data.take (body.length + 1) = body ++ [newline] := by
    rw [line, List.take_length_add_append]
    rfl
  rw [stored, Nat.add_assoc, firstBytes_storeAt _ _ _ (by simp [line]), head, List.append_assoc]
  rfl

theorem finishEntry_grants {d : Dev} {s : Nat} {kzallocOk : SizeT → Bool} (small : s + 2 < 2 ^ 64)
    (grants : kzallocOk (BitVec.ofNat 64 s + 2) = true) :
    d.finishEntry s kzallocOk = (.commit ⟨some d.heap.length, BitVec.ofNat 64 s + 1⟩,
      d.completed.withBlock (firstBytes d.we.buffptr (s + 1))) := by
  have two : (2 : SizeT).toNat = 2 := rfl
  have size : (BitVec.ofNat 64 s + 2).toNat = s + 2 := by
    simp only [BitVec.toNat_add, BitVec.toNat_ofNat, two]
    omega
  simp only [Dev.finishEntry, grants, if_true, kzalloc, Dev.completed, Dev.withBlock, size,
    modify_concat, fillBlock_eq]

theorem finishEntry_fails {d : Dev} {s : Nat} {kzallocOk : SizeT → Bool}
    (fails : kzallocOk (BitVec.ofNat 64 s + 2) = false) :
    d.finishEntry s kzallocOk = (.out (-ENOMEM), d.completed) := by
  simp only [Dev.finishEntry, fails, Bool.false_eq_true, if_false]

theorem stage_refused {d : Dev} {c : WriteCall} (room : d.Room) (full : ¬d.Fits c) (pos : LoffT) :
    d.stage pos c = (.out (-ENOMEM), d, pos) := by
  rw [Dev.stage, if_pos ((guard_iff room c).mpr full)]

theorem stage_short {d : Dev} {c : WriteCall} (room : d.Room) (fits : d.Fits c)
    (some : c.uncopied ≠ 0) (pos : LoffT) :
    d.stage pos c = (.out (-EFAULT), d.received c (c.data.length - c.uncopied),
      pos + BitVec.ofNat 64 (c.data.length - c.uncopied)) := by
  have copied : c.count - BitVec.ofNat 64 c.uncopied =
      BitVec.ofNat 64 (c.data.length - c.uncopied) := by
    have fit := c.fits
    have bound := c.uncopied_le
    apply BitVec.eq_of_toNat_eq
    simp only [WriteCall.count, BitVec.toNat_sub, BitVec.toNat_ofNat]
    omega
  rw [Dev.stage, if_neg fun full => (guard_iff room c).mp full fits, if_pos some, copied]
  rfl

theorem stage_copied {d : Dev} {c : WriteCall} (room : d.Room) (fits : d.Fits c)
    (all : c.uncopied = 0) (pos : LoffT) :
    d.stage pos c =
      match scanNewline (storeAt d.we.buffptr d.we.index.toNat c.data) d.we.index.toNat
          c.data.length with
      | none => (.out c.count.toInt, d.received c c.data.length, pos + c.count)
      | some s =>
        let (staged, d) := (d.received c c.data.length).finishEntry s c.kzallocOk
        (staged, d, pos + c.count) := by
  rw [Dev.stage, if_neg fun full => (guard_iff room c).mp full fits, if_neg (not_not.mpr all),
    ← scan_received room fits all]
  rfl

theorem stage_outcome {d : Dev} (room : d.Room) (pos : LoffT) (c : WriteCall) :
    StageOutcome d pos c (d.stage pos c) := by
  by_cases fits : d.Fits c
  · by_cases all : c.uncopied = 0
    · rw [stage_copied room fits all]
      by_cases present : newline ∈ c.data
      · obtain ⟨body, after, line, fresh⟩ := List.eq_append_cons_of_mem present
        have found : scanNewline (storeAt d.we.buffptr d.we.index.toNat c.data) d.we.index.toNat
            c.data.length = some (d.we.index.toNat + body.length) := by
          rw [line]
          exact scanNewline_storeAt_line _ _ fresh
        rw [found]
        cases grants : c.kzallocOk (BitVec.ofNat 64 (d.we.index.toNat + body.length) + 2) with
        | false =>
            simp only [finishEntry_fails grants]
            exact .noBlock fits all fresh line grants
        | true =>
            have small : d.we.index.toNat + body.length + 2 < 2 ^ 64 := by
              have size := room.size_le
              have length : c.data.length = body.length + 1 + after.length := by
                rw [line, List.length_append, List.length_cons]
                omega
              simp only [Dev.Fits] at fits
              omega
            simp only [finishEntry_grants small grants, firstBytes_line all line]
            exact .line fits all fresh line grants
      · rw [scanNewline_storeAt_fresh _ _ present]
        exact .noLine fits all present
    · rw [stage_short room fits all]
      exact .short fits all
  · rw [stage_refused room fits]
    exact .refused fits

/-- The exits of `aesd_write`: interrupted before anything, leaving between the
    locks, interrupted with a finished entry in hand, or the entry stored. -/
inductive WriteOutcome (d : Dev) (pos : LoffT) (c : WriteCall) : Int × Dev × LoffT → Prop where
  | weInterrupted (lock : c.weLock = .interrupted) : WriteOutcome d pos c (-ERESTARTSYS, d, pos)
  | out (lock : c.weLock = .granted) {retval d' pos'}
      (staged : StageOutcome d pos c (.out retval, d', pos')) :
      WriteOutcome d pos c (retval, d', pos')
  | cbInterrupted (lock : c.weLock = .granted) (cbLock : c.cbLock = .interrupted)
      {finished d' pos'} (staged : StageOutcome d pos c (.commit finished, d', pos')) :
      WriteOutcome d pos c (-ERESTARTSYS, d', pos')
  | committed (lock : c.weLock = .granted) (cbLock : c.cbLock = .granted)
      {finished d' pos'} (staged : StageOutcome d pos c (.commit finished, d', pos')) :
      WriteOutcome d pos c (c.count.toInt, (d'.insert finished).resetWorking, pos')

theorem aesdWrite_outcome {d : Dev} (room : d.Room) (pos : LoffT) (c : WriteCall) :
    WriteOutcome d pos c (aesdWrite d pos c) := by
  have staged := stage_outcome room pos c
  cases lock : c.weLock with
  | interrupted =>
      simp only [aesdWrite, lock]
      exact .weInterrupted lock
  | granted =>
      match value : d.stage pos c with
      | (.out retval, d', pos') =>
          rw [value] at staged
          simp only [aesdWrite, lock, value]
          exact .out lock staged
      | (.commit finished, d', pos') =>
          rw [value] at staged
          cases cbLock : c.cbLock with
          | interrupted =>
              simp only [aesdWrite, lock, value, cbLock]
              exact .cbInterrupted lock cbLock staged
          | granted =>
              simp only [aesdWrite, lock, value, cbLock]
              exact .committed lock cbLock staged

end Aesd.Driver
