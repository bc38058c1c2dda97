import Aesd.Driver.Reachable

/-! # Where a write reads and stores

`writeTrace` is `aesd_write` with what it does to memory written down: each byte
of the working buffer and of the new block that it reads or stores, each value it
gives `we.index`, and whether the check for space turned the call away.  The
invariant of the driver keeps all of it inside.
-/

namespace Aesd.Driver

open Aesd.Lib Aesd.Lib.Memory

/-- One thing a write does, in the order of the code. -/
inductive Touch where
  /-- `count > we.size || count + we.index > we.size` holds. -/
  | refused
  /-- A byte of the working buffer is read or stored. -/
  | working (i : Nat)
  /-- A byte is stored into a block of the size requested. -/
  | block (requested : SizeT) (i : Nat)
  /-- `we.index` gets a new value. -/
  | index (n : SizeT)
  deriving DecidableEq

/-- Bytes touched lie inside what they belong to, and the index inside the working buffer. -/
def Touch.Inside (size : SizeT) : Touch → Prop
  | .refused => False
  | .working i => i < size.toNat
  | .block requested i => i < requested.toNat
  | .index n => n.toNat ≤ size.toNat

/-- `scanNewline`, with the bytes it reads. -/
def scanTrace (mem : Nat → UInt8) : Nat → Nat → Option Nat × List Touch
  | _, 0 => (none, [])
  | s, n + 1 =>
    if mem s = newline then (some s, [.working s])
    else
      let (found, touched) := scanTrace mem (s + 1) n
      (found, .working s :: touched)

/-- `for(i=0; i<s+1; i++) b[i] = buffptr[i]; b[s+1] = '\0'`. -/
def fillTouches (requested : SizeT) (s : Nat) : List Touch :=
  ((List.range (s + 1)).flatMap fun i => [.working i, .block requested i]) ++
    [.block requested (s + 1)]

namespace Dev

/-- `copy_from_user` stores `count` bytes from `we.index` on, zeroes included. -/
def copyTouches (d : Dev) (c : WriteCall) : List Touch :=
  (List.range c.data.length).map fun i => .working (d.we.index.toNat + i)

/-- `finishEntry`, with what it touches. -/
def finishTrace (d : Dev) (s : Nat) (kzallocOk : SizeT → Bool) : (Staged × Dev) × List Touch :=
  let requested : SizeT := BitVec.ofNat 64 s + 2
  (d.finishEntry s kzallocOk, if kzallocOk requested then fillTouches requested s else [])

/-- `stage`, with what it touches. -/
def stageTrace (d : Dev) (pos : LoffT) (c : WriteCall) : (Staged × Dev × LoffT) × List Touch :=
  if c.count > d.we.size ∨ c.count + d.we.index > d.we.size then
    ((.out (-ENOMEM), d, pos), [.refused])
  else
    let copies := d.copyTouches c
    if c.uncopied ≠ 0 then
      let copied := c.count - BitVec.ofNat 64 c.uncopied
      let d := (d.copyFromUser c).advance copied
      ((.out (-EFAULT), d, pos + copied), copies ++ [.index d.we.index])
    else
      let s := d.we.index
      let d := (d.copyFromUser c).advance c.count
      let pos := pos + c.count
      let (found, scanned) := scanTrace d.we.buffptr s.toNat (d.we.index.toNat - s.toNat)
      let touched := copies ++ .index d.we.index :: scanned
      match found with
      | none => ((.out c.count.toInt, d, pos), touched)
      | some s =>
        let ((staged, d), filled) := d.finishTrace s c.kzallocOk
        ((staged, d, pos), touched ++ filled)

end Dev

/-- `aesdWrite`, with what it touches. -/
def writeTrace (d : Dev) (pos : LoffT) (c : WriteCall) : (Int × Dev × LoffT) × List Touch :=
  match c.weLock with
  | .interrupted => ((-ERESTARTSYS, d, pos), [])
  | .granted =>
    match d.stageTrace pos c with
    | ((.out retval, d, pos), touched) => ((retval, d, pos), touched)
    | ((.commit finished, d, pos), touched) =>
      match c.cbLock with
      | .interrupted => ((-ERESTARTSYS, d, pos), touched)
      | .granted =>
        let d := (d.insert finished).resetWorking
        ((c.count.toInt, d, pos), touched ++ [.index d.we.index])

/-- What is asked of one call of `aesd_write`. -/
structure WriteInside (d : Dev) (pos : LoffT) (c : WriteCall) : Prop where
  index_le : d.we.index.toNat ≤ d.we.size.toNat
  /-- The call is turned away for lack of space, in exact arithmetic. -/
  refused_iff : .refused ∈ (writeTrace d pos c).2 ↔
    c.weLock = .granted ∧ d.we.size.toNat < d.we.index.toNat + c.data.length
  /-- A call turned away does nothing else. -/
  refused : .refused ∈ (writeTrace d pos c).2 → aesdWrite d pos c = (-ENOMEM, d, pos)
  inside : ∀ t ∈ (writeTrace d pos c).2, t = .refused ∨ t.Inside d.we.size
  /-- The call written down is the call itself. -/
  faithful : (writeTrace d pos c).1 = aesdWrite d pos c

theorem scanTrace_fst (mem : Nat → UInt8) (s n : Nat) :
    (scanTrace mem s n).1 = scanNewline mem s n := by
  induction n generalizing s with
  | zero => rfl
  | succ n ih =>
      unfold scanTrace scanNewline
      split
      · rfl
      · exact ih (s + 1)

theorem Dev.stageTrace_fst (d : Dev) (pos : LoffT) (c : WriteCall) :
    (d.stageTrace pos c).1 = d.stage pos c := by
  unfold stageTrace stage
  split
  · rfl
  · split
    · rfl
    · dsimp only
      rw [← scanTrace_fst]
      generalize scanTrace _ _ _ = traced
      obtain ⟨found, scanned⟩ := traced
      cases found <;> rfl

theorem writeTrace_fst (d : Dev) (pos : LoffT) (c : WriteCall) :
    (writeTrace d pos c).1 = aesdWrite d pos c := by
  unfold writeTrace aesdWrite
  rw [← d.stageTrace_fst]
  cases c.weLock with
  | interrupted => rfl
  | granted =>
      match d.stageTrace pos c with
      | ((.out retval, d', pos'), touched) => rfl
      | ((.commit finished, d', pos'), touched) => cases c.cbLock <;> rfl

theorem scanTrace_inside {size : SizeT} {mem : Nat → UInt8} {s n : Nat}
    (room : s + n ≤ size.toNat) : ∀ t ∈ (scanTrace mem s n).2, t.Inside size := by
  induction n generalizing s with
  | zero => simp [scanTrace]
  | succ n ih =>
      have first : (Touch.working s).Inside size := by
        simp only [Touch.Inside]
        omega
      unfold scanTrace
      split
      · exact List.forall_mem_singleton.mpr first
      · exact List.forall_mem_cons.mpr ⟨first, ih (by omega)⟩

theorem scanNewline_lt {mem : Nat → UInt8} {s n k : Nat} (found : scanNewline mem s n = some k) :
    k < s + n := by
  induction n generalizing s with
  | zero => cases found
  | succ n ih =>
      unfold scanNewline at found
      split at found
      · have here : s = k := Option.some.inj found
        omega
      · have later := ih found
        omega

theorem fillTouches_inside {size : SizeT} {s : Nat} (below : s < size.toNat) (small : s + 2 < 2 ^ 64) :
    ∀ t ∈ fillTouches (BitVec.ofNat 64 s + 2) s, t.Inside size := by
  have two : (2 : SizeT).toNat = 2 := rfl
  have requested : (BitVec.ofNat 64 s + 2).toNat = s + 2 := by
    simp only [BitVec.toNat_add, BitVec.toNat_ofNat, two]
    omega
  intro t member
  simp only [fillTouches, List.mem_append, List.mem_flatMap, List.mem_range, List.mem_cons,
    List.not_mem_nil, or_false] at member
  rcases member with ⟨i, inside, rfl | rfl⟩ | rfl
  · simp only [Touch.Inside]
    omega
  · simp only [Touch.Inside, requested]
    omega
  · simp only [Touch.Inside, requested]
    omega

namespace Dev

variable {d : Dev} {c : WriteCall}

theorem copyTouches_inside (fits : d.Fits c) : ∀ t ∈ d.copyTouches c, t.Inside d.we.size := by
  unfold copyTouches
  intro t member
  obtain ⟨i, inside, rfl⟩ := List.mem_map.mp member
  rw [List.mem_range] at inside
  simp only [Fits] at fits
  simp only [Touch.Inside]
  omega

theorem finishTrace_inside {size : SizeT} {s : Nat} (kzallocOk : SizeT → Bool)
    (below : s < size.toNat) (small : s + 2 < 2 ^ 64) :
    ∀ t ∈ (d.finishTrace s kzallocOk).2, t.Inside size := by
  unfold finishTrace
  dsimp only
  split
  · exact fillTouches_inside below small
  · simp

theorem stageTrace_refused (room : d.Room) (full : ¬d.Fits c) (pos : LoffT) :
    d.stageTrace pos c = ((.out (-ENOMEM), d, pos), [.refused]) := by
  rw [stageTrace, if_pos ((guard_iff room c).mpr full)]

theorem stageTrace_inside (room : d.Room) (fits : d.Fits c) (pos : LoffT) :
    ∀ t ∈ (d.stageTrace pos c).2, t.Inside d.we.size := by
  have copies := copyTouches_inside fits
  have bound := c.uncopied_le
  have count := c.count_toNat
  have size := room.size_le
  have fits' : d.we.index.toNat + c.data.length ≤ d.we.size.toNat := fits
  rw [stageTrace, if_neg fun full => (guard_iff room c).mp full fits]
  split
  · -- the copy falls short; the index moves by what was copied
    dsimp only
    refine List.forall_mem_append.mpr ⟨copies, List.forall_mem_singleton.mpr ?_⟩
    simp only [advance, copyFromUser, Touch.Inside, BitVec.toNat_add, BitVec.toNat_sub,
      BitVec.toNat_ofNat, count]
    omega
  · have index : ((d.copyFromUser c).advance c.count).we.index.toNat =
        d.we.index.toNat + c.data.length := by
      simp only [advance, copyFromUser, BitVec.toNat_add, count]
      omega
    have scan : ∀ mem, ∀ t ∈ (scanTrace mem d.we.index.toNat c.data.length).2, t.Inside d.we.size :=
      fun mem => scanTrace_inside fits'
    have moved : (Touch.index ((d.copyFromUser c).advance c.count).we.index).Inside d.we.size := by
      simp only [Touch.Inside, index]
      exact fits'
    have found := scanTrace_fst ((d.copyFromUser c).advance c.count).we.buffptr d.we.index.toNat
      c.data.length
    dsimp only
    rw [index, Nat.add_sub_cancel_left]
    have scanned := scan ((d.copyFromUser c).advance c.count).we.buffptr
    generalize scanTrace _ _ _ = traced at found scanned
    obtain ⟨line, touched⟩ := traced
    have first : ∀ t ∈ d.copyTouches c ++
        .index ((d.copyFromUser c).advance c.count).we.index :: touched, t.Inside d.we.size :=
      List.forall_mem_append.mpr ⟨copies, List.forall_mem_cons.mpr ⟨moved, scanned⟩⟩
    cases line with
    | none => exact first
    | some s =>
        have below := scanNewline_lt found.symm
        refine List.forall_mem_append.mpr ⟨first, ?_⟩
        exact finishTrace_inside c.kzallocOk (by omega) (by omega)

end Dev

/-- Resetting the index is the only thing a write adds after its first part. -/
theorem mem_writeTrace {d : Dev} {pos : LoffT} {c : WriteCall} {t : Touch}
    (member : t ∈ (writeTrace d pos c).2) :
    c.weLock = .granted ∧ (t ∈ (d.stageTrace pos c).2 ∨ t = .index 0) := by
  unfold writeTrace at member
  cases lock : c.weLock with
  | interrupted => simp [lock] at member
  | granted =>
      refine ⟨rfl, ?_⟩
      rw [lock] at member
      match value : d.stageTrace pos c with
      | ((.out retval, d', pos'), touched) =>
          rw [value] at member
          exact .inl member
      | ((.commit finished, d', pos'), touched) =>
          rw [value] at member
          cases cbLock : c.cbLock with
          | interrupted =>
              rw [cbLock] at member
              exact .inl member
          | granted =>
              rw [cbLock] at member
              exact (List.mem_append.mp member).imp_right List.mem_singleton.mp

theorem writeTrace_refused {d : Dev} {c : WriteCall} (room : d.Room) (lock : c.weLock = .granted)
    (full : ¬d.Fits c) (pos : LoffT) :
    writeTrace d pos c = ((-ENOMEM, d, pos), [.refused]) := by
  unfold writeTrace
  rw [lock, Dev.stageTrace_refused room full]

/-- In every state that calls with any outcomes lead to, a write of any size
    stays inside the working buffer and its block, and is turned away exactly when
    the bytes do not fit. -/
theorem write_inside {K : Kernel} {d : Dev} (reachable : Reachable K d) (pos : LoffT)
    (c : WriteCall) : WriteInside d pos c := by
  obtain ⟨_, _, models⟩ := reachable.models
  have room := models.room
  by_cases fits : d.Fits c
  · have inside : ∀ t ∈ (writeTrace d pos c).2, t.Inside d.we.size := by
      intro t member
      rcases (mem_writeTrace member).2 with staged | rfl
      · exact Dev.stageTrace_inside room fits pos t staged
      · exact Nat.zero_le _
    have kept : .refused ∉ (writeTrace d pos c).2 := fun member => inside .refused member
    refine ⟨room.index_le, ?_, fun member => absurd member kept,
      fun t member => .inr (inside t member), writeTrace_fst d pos c⟩
    apply iff_of_false kept
    simp only [Dev.Fits] at fits
    omega
  · cases lock : c.weLock with
    | interrupted =>
        have untouched : writeTrace d pos c = ((-ERESTARTSYS, d, pos), []) := by
          simp only [writeTrace, lock]
        have result := writeTrace_fst d pos c
        constructor <;> simp [untouched, lock, room.index_le, ← result]
    | granted =>
        have refused := writeTrace_refused room lock fits pos
        have result := writeTrace_fst d pos c
        rw [refused] at result
        constructor
        · exact room.index_le
        · simpa [refused, lock, Dev.Fits] using fits
        · exact fun _ => result.symm
        · simp [refused]
        · exact writeTrace_fst d pos c

/-- The rest of a line, behind what an earlier write left pending. -/
theorem write_inside_pending :
    let rest : WriteCall := ⟨[98, newline], by decide, .granted, 0, by decide, fun _ => true, .granted⟩
    let begun : WriteCall := ⟨[97], by decide, .granted, 0, by decide, fun _ => true, .granted⟩
    WriteInside (aesdWrite (Dev.afterInit .pc) 0 begun).2.1 1 rest :=
  write_inside (Reachable.write (Lts.Reach.init rfl) 0 _) 1 _

end Aesd.Driver
