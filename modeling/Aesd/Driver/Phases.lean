import Aesd.Driver.Interleaving
import Aesd.Driver.Reachable
import Aesd.Lib.Section

/-! # The device while calls are in progress

Between two steps of an interleaving the device need not be as a whole call
leaves it: one writer at a time may be half-way through its critical section.
`Phase` says what the device is then, relative to the program point of that
writer: which history it models, once the pending accounting is done, and for
each entry block whether it is in the buffer, in the writer's hand, on its way
to `kfree`, or released.
-/

namespace Aesd.Driver

open Aesd.Lib Aesd.Lib.Mutex

namespace Pc

/-- The device as it is once `cb_size` has been brought up to date. -/
def settled : Pc → Dev → Dev
  | .writeAccount _ finished oldsize _, d => d.accountSize finished oldsize
  | _, d => d

/-- The finished entry that is not in the buffer yet. -/
def finished : Pc → Option (BufferEntry Nat)
  | .writeLock _ finished | .writeInsert _ finished => some finished
  | _ => none

/-- The block that the buffer gave back and that is not released yet. -/
def replaced : Pc → Option Nat
  | .writeAccount _ _ _ oldbuffptr | .writeFree _ oldbuffptr => oldbuffptr
  | _ => none

end Pc

/-- The pointers that the buffer has given back so far. -/
def gone (added : List (BufferEntry Nat)) : List (Option Nat) :=
  (added.take (added.length - 10)).map BufferEntry.buffptr

/-- Every block with its owner: the buffer, a writer that has finished an entry,
    a writer that is about to release it, or nobody any more. -/
structure Blocks (K : Kernel) (heap : Heap) (added : List (BufferEntry Nat))
    (finished : Option (BufferEntry Nat)) (replaced : Option Nat) : Prop where
  distinct : (added.map BufferEntry.buffptr).Nodup
  released : ∀ (b : Nat) (block : Block), heap[b]? = some block →
    block.released = if some b ∈ gone added ∧ replaced ≠ some b then 1 else 0
  inHand : ∀ e, finished = some e → e.buffptr ∉ added.map BufferEntry.buffptr ∧
    ∃ line, StandsFor heap e line ∧ 0 < line.length ∧ line.length ≤ K.kmallocMaxSize.toNat
  onItsWay : ∀ b, replaced = some b → some b ∈ gone added

/-- What the device is while a writer stands at `pc`; at a program point outside
    the section of `we_mutex` this is the idle device. -/
def Phase (K : Kernel) (pc : Pc) (d : Dev) (added : List (BufferEntry Nat))
    (committed : List (List UInt8)) : Prop :=
  Models K (pc.settled d) added committed ∧ Blocks K d.heap added pc.finished pc.replaced

namespace Blocks

variable {K : Kernel} {heap : Heap} {added : List (BufferEntry Nat)}
  {finished : Option (BufferEntry Nat)} {replaced : Option Nat}

theorem gone_subset {ptr : Option Nat} (member : ptr ∈ gone added) :
    ptr ∈ added.map BufferEntry.buffptr :=
  (List.take_subset _ _ |> List.map_subset _) member

theorem append (blocks : Blocks K heap added none none)
    (inside : ∀ ptr ∈ added.map BufferEntry.buffptr, ∃ b, ptr = some b ∧ b < heap.length)
    {e : BufferEntry Nat} {line : List UInt8} {bytes : List UInt8} (ptr : e.buffptr = some heap.length)
    (stands : StandsFor (heap ++ [⟨bytes, 0⟩]) e line) (nonempty : 0 < line.length)
    (short : line.length ≤ K.kmallocMaxSize.toNat) :
    Blocks K (heap ++ [⟨bytes, 0⟩]) added (some e) none where
  distinct := blocks.distinct
  released := by
    intro b block found
    by_cases old : b < heap.length
    · rw [List.getElem?_append_left old] at found
      exact blocks.released b block found
    · have fresh : ¬(some b ∈ gone added ∧ none ≠ some b) := by
        rintro ⟨member, _⟩
        obtain ⟨b', same, short⟩ := inside _ (gone_subset member)
        obtain rfl := Option.some.inj same
        exact old short
      rw [List.getElem?_append_right (Nat.le_of_not_lt old), List.getElem?_singleton] at found
      split at found
      · rw [if_neg fresh, ← Option.some.inj found]
      · cases found
  inHand := by
    rintro _ ⟨⟩
    refine ⟨fun member => ?_, line, stands, nonempty, short⟩
    obtain ⟨b, same, short⟩ := inside _ member
    rw [ptr] at same
    obtain rfl := Option.some.inj same
    exact Nat.lt_irrefl _ short
  onItsWay := fun _ none => nomatch none

theorem forget (blocks : Blocks K heap added finished replaced) :
    Blocks K heap added none replaced :=
  { blocks with inHand := fun _ none => nomatch none }

theorem gone_concat {cb : CircularBuffer Nat} (stores : cb.Stores added) (e : BufferEntry Nat) :
    gone (added ++ [e]) =
      gone added ++ (if added.length < 10 then [] else [(cb.addEntry e).2]) := by
  rw [gone, gone, stores.addEntry_snd, List.length_append, List.length_singleton]
  by_cases room : added.length < 10
  · have none : added.length + 1 - 10 = 0 := by omega
    have none' : added.length - 10 = 0 := by omega
    rw [if_pos room, none, none', List.take_zero, List.take_zero, List.append_nil]
  · have next : added.length + 1 - 10 = added.length - 10 + 1 := by omega
    have inside : added.length - 10 < added.length := by omega
    rw [if_neg room, if_neg room, next, List.take_append_of_le_length (by omega),
      List.take_succ_eq_append_getElem inside, List.map_append, List.getElem?_eq_getElem inside]
    rfl

theorem insert {cb : CircularBuffer Nat} (stores : cb.Stores added) {e : BufferEntry Nat}
    (blocks : Blocks K heap added (some e) none) :
    Blocks K heap (added ++ [e]) none (cb.addEntry e).2 where
  distinct := by
    rw [List.map_append, List.map_singleton, ← List.concat_eq_append]
    exact blocks.distinct.concat (blocks.inHand e rfl).1
  released := by
    intro b block found
    rw [blocks.released b block found, gone_concat stores e]
    by_cases room : added.length < 10
    · simp [stores.addEntry_snd, room]
    · simp only [if_neg room, List.mem_append, List.mem_singleton, ne_eq, reduceCtorEq,
        not_false_eq_true, and_true]
      by_cases old : (cb.addEntry e).2 = some b
      · -- the pointer pushed out was still in the window
        have kept : some b ∉ gone added := by
          intro member
          have inside : added.length - 10 < added.length := by omega
          rw [stores.addEntry_snd, if_neg room, List.getElem?_eq_getElem inside,
            Option.bind_some] at old
          have twice := blocks.distinct
          rw [← List.take_append_drop (added.length - 10) added, List.map_append,
            List.nodup_append] at twice
          refine twice.2.2 _ member (some b) ?_ rfl
          rw [List.drop_eq_getElem_cons inside, List.map_cons, old]
          exact List.mem_cons_self
        simp [old, kept]
      · simp [old, Ne.symm old]
  inHand := fun _ none => nomatch none
  onItsWay := by
    intro b old
    rw [gone_concat stores e, old]
    by_cases room : added.length < 10
    · simp [stores.addEntry_snd, room] at old
    · rw [if_neg room]
      exact List.mem_append_right _ (List.mem_singleton_self _)

theorem free (blocks : Blocks K heap added none replaced) :
    Blocks K (kfree heap replaced) added none none where
  distinct := blocks.distinct
  released := by
    intro b block found
    cases replaced with
    | none => exact blocks.released b block found
    | some old =>
        by_cases same : old = b
        · subst same
          simp only [kfree, List.getElem?_modify_eq, Option.map_eq_map,
            Option.map_eq_some_iff] at found
          obtain ⟨before, there, rfl⟩ := found
          have member := blocks.onItsWay old rfl
          simp [blocks.released old before there, member]
        · have other : some old ≠ some b := fun eq => same (Option.some.inj eq)
          simp only [kfree, List.getElem?_modify_ne _ _ same] at found
          simp [blocks.released b block found, other]
  inHand := fun _ none => nomatch none
  onItsWay := fun _ none => nomatch none

end Blocks

section

variable {K : Kernel} {f : FixedSizeLlseek} {pc pc' : Pc} {d d' : Dev}
  {added : List (BufferEntry Nat)} {committed : List (List UInt8)} {op : LockOp DevMutex}

@[simp] theorem settled_heap (pc : Pc) (d : Dev) : (pc.settled d).heap = d.heap := by
  cases pc <;> rfl

@[simp] theorem settled_cb (pc : Pc) (d : Dev) : (pc.settled d).cb = d.cb := by
  cases pc <;> rfl

@[simp] theorem settled_liveContents (pc : Pc) (d : Dev) :
    (pc.settled d).liveContents = d.liveContents := by
  cases pc <;> rfl

theorem Models.ptr_inside (models : Models K d added committed) {ptr : Option Nat}
    (member : ptr ∈ added.map BufferEntry.buffptr) : ∃ b, ptr = some b ∧ b < d.heap.length := by
  obtain ⟨e, inside, rfl⟩ := List.mem_map.mp member
  obtain ⟨b, block, own, found, _⟩ := models.standsFor_mem inside
  exact ⟨b, own, (List.getElem?_eq_some_iff.mp found).1⟩

theorem Phase.afterInit (K : Kernel) : Phase K (.user none) (Dev.afterInit K) [] [] where
  left := Models.afterInit K
  right :=
    { distinct := .nil
      released := by
        intro b block found
        simp [Dev.afterInit] at found
      inHand := fun _ none => nomatch none
      onItsWay := fun _ none => nomatch none }

theorem Phase.fill {pos : LoffT} {c : WriteCall} (phase : Phase K (.writeFill pos c) d added committed)
    (taken : Pc.next f (.writeFill pos c) d = some (op, pc', d')) :
    Phase K pc' d' added committed := by
  obtain ⟨models, blocks⟩ := phase
  simp only [Pc.settled, Pc.finished, Pc.replaced] at models blocks
  have outcome := stage_outcome models.room pos c
  simp only [Pc.next] at taken
  generalize d.stage pos c = staged at outcome taken
  cases outcome with
  | refused full =>
      cases taken
      exact ⟨models, blocks⟩
  | short fits some =>
      cases taken
      exact ⟨models.received fits (Nat.sub_le _ _), blocks⟩
  | noLine fits all fresh =>
      cases taken
      exact ⟨models.received fits le_rfl, blocks⟩
  | noBlock fits all fresh line fails =>
      cases taken
      exact ⟨(models.received fits le_rfl).completed, blocks⟩
  | @line fits all body after fresh line grants =>
      cases taken
      refine ⟨(models.received fits le_rfl).completed.withBlock _, ?_⟩
      exact blocks.append (fun _ member => models.ptr_inside member) rfl
        (standsFor_finishedEntry models fits line) (by simp) (length_line_le models fits line)

/-- The histories after a step: only putting an entry into the buffer extends them. -/
def Extends : Pc → List (BufferEntry Nat) → List (BufferEntry Nat) → List (List UInt8) →
    List (List UInt8) → Prop
  | .writeInsert _ finished, added, added', committed, committed' =>
    added' = added ++ [finished] ∧ ∃ line, committed' = committed ++ [line]
  | _, added, added', committed, committed' => added' = added ∧ committed' = committed

/-- What one step of any process makes of the device, relative to itself. -/
theorem Phase.next (phase : Phase K pc d added committed)
    (taken : Pc.next f pc d = some (op, pc', d')) :
    ∃ added' committed', Phase K pc' d' added' committed' ∧
      Extends pc added added' committed committed' := by
  cases pc with
  | user => cases taken
  | writeFill pos c => exact ⟨added, committed, phase.fill taken, rfl, rfl⟩
  | writeLock c finished =>
      obtain ⟨models, blocks⟩ := phase
      simp only [Pc.next] at taken
      split at taken <;> cases taken
      · exact ⟨added, committed, ⟨models, blocks.forget⟩, rfl, rfl⟩
      · exact ⟨added, committed, ⟨models, blocks⟩, rfl, rfl⟩
  | writeInsert c finished =>
      obtain ⟨models, blocks⟩ := phase
      obtain ⟨_, line, stands, nonempty, short⟩ := blocks.inHand finished rfl
      cases taken
      exact ⟨_, _, ⟨models.account stands nonempty short, blocks.insert models.stores⟩,
        rfl, line, rfl⟩
  | writeAccount c finished oldsize oldbuffptr =>
      cases taken
      exact ⟨added, committed, phase, rfl, rfl⟩
  | writeFree c oldbuffptr =>
      obtain ⟨models, blocks⟩ := phase
      cases taken
      exact ⟨added, committed, ⟨models.freeOld _, blocks.free⟩, rfl, rfl⟩
  | writeUnlock | writeOut | readOut | seekOut | llseek =>
      cases taken
      exact ⟨added, committed, phase, rfl, rfl⟩
  | writeReset =>
      obtain ⟨models, blocks⟩ := phase
      cases taken
      exact ⟨added, committed, ⟨models.resetWorking, blocks⟩, rfl, rfl⟩
  | write | read | ioctl | seek =>
      simp only [Pc.next] at taken
      split at taken <;> cases taken <;> exact ⟨added, committed, phase, rfl, rfl⟩
  | readBody pos c =>
      obtain ⟨r, _, step⟩ := Option.map_eq_some_iff.mp taken
      cases step
      exact ⟨added, committed, phase, rfl, rfl⟩
  | seekBody st =>
      obtain ⟨models, blocks⟩ := phase
      simp only [Pc.next] at taken
      split at taken
      · cases taken
      · cases taken
      · cases taken
        exact ⟨added, committed, ⟨models, blocks⟩, rfl, rfl⟩
      · rename_i fp adjusted
        cases taken
        exact ⟨added, committed, ⟨models.seek adjusted, blocks⟩, rfl, rfl⟩

theorem next_aside (taken : Pc.next f pc d = some (op, pc', d')) (away : ¬pc.holds .we) :
    d' = d ∨ ∃ (st : SeekCall) (fp : LoffT),
      seekBody d.cb st.beyond st.writeCmd st.writeCmdOffset = .adjusted fp ∧
        d' = { d with cbIoctlOffs := fp } := by
  cases pc with
  | user => cases taken
  | writeFill | writeLock | writeInsert | writeAccount | writeFree | writeUnlock | writeReset
  | writeOut => simp [Pc.holds] at away
  | readOut | seekOut | llseek =>
      cases taken
      exact .inl rfl
  | write | read | ioctl | seek =>
      simp only [Pc.next] at taken
      split at taken <;> cases taken <;> exact .inl rfl
  | readBody pos c =>
      obtain ⟨r, _, step⟩ := Option.map_eq_some_iff.mp taken
      cases step
      exact .inl rfl
  | seekBody st =>
      simp only [Pc.next] at taken
      split at taken
      · cases taken
      · cases taken
      · cases taken
        exact .inl rfl
      · rename_i fp adjusted
        cases taken
        exact .inr ⟨st, fp, adjusted, rfl⟩

theorem Pc.handsFree (away : ¬pc.holds .we) :
    (∀ d, pc.settled d = d) ∧ pc.finished = none ∧ pc.replaced = none := by
  cases pc with
  | writeFill | writeLock | writeInsert | writeAccount | writeFree | writeUnlock | writeReset
  | writeOut => simp [Pc.holds] at away
  | _ => exact ⟨fun _ => rfl, rfl, rfl⟩

/-- Outside the section every program point sees the idle device. -/
theorem phase_away (away : ¬pc.holds .we) :
    Phase K pc d added committed ↔ Phase K (.user none) d added committed := by
  obtain ⟨settled, finished, replaced⟩ := Pc.handsFree away
  rw [Phase, settled, finished, replaced]
  exact Iff.rfl

end

/-- The device relative to the process in the section of `we_mutex`, with a
    further property of that program point, the device and its history. -/
def InPhase (K : Kernel) (P : Pc → Dev → List (BufferEntry Nat) → Prop) (occupant : Option Pc)
    (d : Dev) : Prop :=
  ∃ added committed, Phase K (occupant.getD (.user none)) d added committed ∧
    P (occupant.getD (.user none)) d added

theorem driverCode_excludes (f : FixedSizeLlseek) : Excludes (driverCode f) Pc.holds where
  outside _ l out := not_holds_of_outside out l
  enter := not_holds_enter
  next := by
    intro pc d op pc' d' taken l held
    rcases next_holds taken with same | ⟨_, _, _, rfl, _⟩
    · exact (same l).mp held
    · exact held.elim
  unlock _ _ _ _ _ taken := unlock_holds taken

/-- A property goes along with the phases when steps keep it, program points
    outside the section agree on it, and the seek offset does not matter to it. -/
theorem carries_inPhase (K : Kernel) (f : FixedSizeLlseek) {ok : Pc → Dev → Prop}
    {P : Pc → Dev → List (BufferEntry Nat) → Prop}
    (away : ∀ pc d added, ¬pc.holds .we → (P pc d added ↔ P (.user none) d added))
    (offset : ∀ pc d added fp, P pc d added → P pc { d with cbIoctlOffs := fp } added)
    (step : ∀ pc d op pc' d' added added' committed committed', ok pc d →
      Pc.next f pc d = some (op, pc', d') → Phase K pc d added committed →
        Extends pc added added' committed committed' → P pc d added → P pc' d' added') :
    Carries (driverCode f) ok Pc.holds .we (InPhase K P) := by
  have inPhase_iff : ∀ {pc d o}, Occupant Pc.holds .we pc o →
      (InPhase K P o d ↔ ∃ added committed, Phase K pc d added committed ∧ P pc d added) := by
    intro pc d o occupant
    cases occupant with
    | inside held => exact Iff.rfl
    | away free =>
        exact exists_congr fun _ => exists_congr fun _ =>
          and_congr (phase_away free).symm (away _ _ _ free).symm
  constructor
  · intro pc d op pc' d' allowed taken o o' before after phase
    obtain ⟨added, committed, phase, extra⟩ := (inPhase_iff before).mp phase
    obtain ⟨added', committed', phase', longer⟩ := phase.next taken
    exact (inPhase_iff after).mpr ⟨added', committed', phase',
      step _ _ _ _ _ _ _ _ _ allowed taken phase longer extra⟩
  · rintro pc d op pc' d' _ taken free _ other _ ⟨added, committed, ⟨models, blocks⟩, extra⟩
    rcases next_aside taken free with rfl | ⟨st, fp, adjusted, rfl⟩
    · exact ⟨added, committed, ⟨models, blocks⟩, extra⟩
    · refine ⟨added, committed, ⟨?_, blocks⟩, offset _ _ _ _ extra⟩
      rw [← settled_cb other] at adjusted
      have after := models.seek adjusted
      cases other <;> exact after

section

variable {Pid : Type} [DecidableEq Pid] {f : FixedSizeLlseek} {K : Kernel} {s : DriverSystem Pid}
  {allowed : DriverSystem Pid → Pid × Option Op → Prop}

theorem guarded_users (reach : (users Pid f K).Reach allowed s) : Guarded Pc.holds s :=
  guarded_of_reach (driverCode_excludes f) reach

theorem kept_users (reach : (users Pid f K).Reach allowed s) :
    Kept Pc.holds .we (InPhase K fun _ _ _ => True) s := by
  have carries : Carries (driverCode f) (fun _ _ => True) Pc.holds .we
      (InPhase K fun _ _ _ => True) :=
    carries_inPhase K f (fun _ _ _ _ => Iff.rfl) (fun _ _ _ _ => id)
      (fun _ _ _ _ _ _ _ _ _ _ _ _ _ => id)
  refine kept_of_reach (driverCode_excludes f) carries ?_ (fun _ _ _ _ => trivial) reach
  rintro _ rfl
  exact ⟨[], [], Phase.afterInit K, trivial⟩

/-- The phase of the device in every state of every interleaving: that of the
    writer in the section of `we_mutex`, or the idle one. -/
theorem phase_of_reach (reach : (users Pid f K).Reach allowed s) :
    ∃ pc added committed, Phase K pc s.data added committed ∧
      (pc = .user none ∨ ∃ p, s.pc p = pc) := by
  obtain ⟨o, ⟨added, committed, phase, _⟩, place⟩ := (kept_users reach).occupant
  refine ⟨_, added, committed, phase, ?_⟩
  cases o with
  | none => exact .inl rfl
  | some pc => exact .inr (place pc rfl)

theorem settled_of_not_holds {pc : Pc} (away : ¬pc.holds .cb) (d : Dev) : pc.settled d = d := by
  cases pc with
  | writeAccount => simp [Pc.holds] at away
  | _ => rfl

/-- While `cb_mutex` is free the device is as between two whole calls. -/
theorem models_of_free (reach : (users Pid f K).Reach allowed s) (free : s.owner .cb = none) :
    ∃ added committed, Models K s.data added committed := by
  obtain ⟨pc, added, committed, ⟨models, _⟩, place⟩ := phase_of_reach reach
  have away : ¬pc.holds .cb := by
    rcases place with rfl | ⟨p, rfl⟩
    · exact id
    · intro held
      rw [guarded_users reach .cb p held] at free
      cases free
  rw [settled_of_not_holds away] at models
  exact ⟨added, committed, models⟩

end

end Aesd.Driver
