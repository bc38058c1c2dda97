import Aesd.Driver.Phases

/-! # The entry blocks on the ledger of `kzalloc` and `kfree`

The heap of the model forgets nothing, so it is the ledger itself: a block is
outstanding until `kfree` is given it, and how often that happens is counted.
Every block has one owner at a time, hence none is released twice and none that
is still live is released at all.
-/

namespace Aesd.Driver

open Aesd.Lib Aesd.Lib.Mutex CircularBuffer

/-- `aesd_cleanup_module`, as far as the entry blocks go: `kfree` of the
    `buffptr` of all ten slots. -/
def aesdCleanupModule (d : Dev) : Dev :=
  { d with heap := ((List.range 10).map fun i => (d.cb.slot i).buffptr).foldl kfree d.heap }

/-- The pointer leads to a block that was allocated and not released. -/
def Dev.Usable (d : Dev) (ptr : Option Nat) : Prop :=
  ∃ (b : Nat) (block : Block), ptr = some b ∧ d.heap[b]? = some block ∧ block.released = 0

theorem getElem?_kfree (heap : Heap) (ptr : Option Nat) (b : Nat) :
    (kfree heap ptr)[b]? = heap[b]?.map fun block =>
      { block with released := block.released + if ptr = some b then 1 else 0 } := by
  cases ptr with
  | none => simp [kfree]
  | some old =>
      by_cases same : old = b
      · subst same
        simp [kfree]
      · simp [kfree, List.getElem?_modify_ne _ _ same, same]

theorem getElem?_foldl_kfree (ptrs : List (Option Nat)) (heap : Heap) (b : Nat) :
    (ptrs.foldl kfree heap)[b]? = heap[b]?.map fun block =>
      { block with released := block.released + ptrs.count (some b) } := by
  induction ptrs generalizing heap with
  | nil => simp
  | cons ptr ptrs ih =>
      rw [List.foldl_cons, ih, getElem?_kfree, Option.map_map, List.count_cons]
      congr 1
      funext block
      simp only [Function.comp_apply, beq_iff_eq]
      congr 1
      omega

section

variable {cb : CircularBuffer Nat} {added : List (BufferEntry Nat)}

theorem CircularBuffer.Stores.slot_cases (stores : cb.Stores added) {i : Nat} (small : i < 10) :
    cb.slot i = .zero ∨ ∃ (m : Nat) (inside : m < added.length), m % 10 = i ∧
      added.length ≤ m + 10 ∧ cb.slot i = added[m] := by
  by_cases unused : added.length ≤ i
  · exact .inl (stores.slots.unused i unused small)
  · have last : added.length - 1 - (added.length - 1 - i) % 10 < added.length := by omega
    have turn : (added.length - 1 - (added.length - 1 - i) % 10) % 10 = i := by omega
    refine .inr ⟨_, last, turn, by omega, ?_⟩
    have recent := stores.slots.recent _ last (by omega)
    rwa [turn] at recent

/-- No block stands in two slots. -/
theorem count_slots_le_one (stores : cb.Stores added)
    (distinct : (added.map BufferEntry.buffptr).Nodup) (b : Nat) :
    ((List.range 10).map fun i => (cb.slot i).buffptr).count (some b) ≤ 1 := by
  have turn : ∀ i b, b ∈ (cb.slot i).buffptr →
      ∃ m, m % 10 = i ∧ (added.map BufferEntry.buffptr)[m]? = some (some b) := by
    intro i b own
    have small : i < 10 := by
      by_contra large
      have none : cb.slot i = .zero := by
        rw [slot, Vector.getElem?_eq_none (Nat.le_of_not_lt large), Option.getD_none]
      rw [none] at own
      cases own
    rcases stores.slot_cases small with blank | ⟨m, inside, turn, _, slot⟩
    · rw [blank] at own
      cases own
    · refine ⟨m, turn, ?_⟩
      rw [List.getElem?_map, List.getElem?_eq_getElem inside, Option.map_some, ← slot, own]
  have slots : ((List.range 10).filterMap fun i => (cb.slot i).buffptr).Nodup := by
    refine List.Nodup.filterMap ?_ List.nodup_range
    intro i j b own own'
    obtain ⟨m, rfl, first⟩ := turn i b own
    obtain ⟨n, rfl, second⟩ := turn j b own'
    have inside := (List.getElem?_eq_some_iff.mp first).1
    rw [(List.getElem?_inj inside distinct).mp (first.trans second.symm)]
  have each := List.nodup_iff_count_le_one.mp slots b
  rw [List.count_filterMap] at each
  rwa [List.count_eq_countP, List.countP_map]

end

section

variable {K : Kernel} {pc : Pc} {d : Dev} {added : List (BufferEntry Nat)}
  {committed : List (List UInt8)}

theorem Phase.stores (phase : Phase K pc d added committed) : d.cb.Stores added := by
  have stores := phase.1.stores
  rwa [settled_cb] at stores

theorem Phase.released_le_one (phase : Phase K pc d added committed) {b : Nat} {block : Block}
    (found : d.heap[b]? = some block) : block.released ≤ 1 := by
  rw [phase.2.released b block found]
  split <;> omega

theorem Phase.not_gone (phase : Phase K pc d added committed) {e : BufferEntry Nat}
    (live : e ∈ d.cb.live) : e.buffptr ∉ gone added := by
  intro member
  have twice := phase.2.distinct
  rw [phase.stores.live, List.rtake] at live
  rw [← List.take_append_drop (added.length - 10) added, List.map_append, List.nodup_append] at twice
  exact twice.2.2 _ member _ (List.mem_map_of_mem live) rfl

theorem Phase.usable_live (phase : Phase K pc d added committed) {e : BufferEntry Nat}
    (live : e ∈ d.cb.live) : d.Usable e.buffptr := by
  have models := phase.1
  rw [← settled_cb pc] at live
  obtain ⟨b, block, ptr, found, _⟩ := models.standsFor_live live
  rw [settled_heap] at found
  rw [settled_cb] at live
  have kept := phase.not_gone live
  rw [ptr] at kept
  exact ⟨b, block, ptr, found, by simp [phase.2.released b block found, kept]⟩

theorem Phase.usable_found (phase : Phase K pc d added committed) {off : SizeT} {slot : Nat}
    {rest : SizeT} (found : d.cb.findEntryOffsetForFpos off = some (some (slot, rest))) :
    d.Usable (d.cb.slot slot).buffptr := by
  have lookup := phase.1.find off
  rw [settled_cb, found, settled_liveContents] at lookup
  obtain ⟨⟨k, i⟩, place, same⟩ := Option.map_eq_some_iff.mp (Option.some.inj lookup).symm
  obtain ⟨inside, _⟩ := Locate.locate_some_iff.mp place
  obtain ⟨rfl, _⟩ := Prod.mk.inj same
  rw [List.length_map, Dev.liveContents, List.length_map] at inside
  rw [slot_live phase.stores inside]
  exact phase.usable_live (List.getElem_mem inside)

/-- `aesd_cleanup_module` releases each block of the buffer once, and no other. -/
theorem Phase.cleanup_le_one (phase : Phase K pc d added committed) {b : Nat} {block : Block}
    (found : (aesdCleanupModule d).heap[b]? = some block) : block.released ≤ 1 := by
  rw [aesdCleanupModule, getElem?_foldl_kfree] at found
  obtain ⟨before, there, rfl⟩ := Option.map_eq_some_iff.mp found
  have once := count_slots_le_one phase.stores phase.2.distinct b
  by_cases none : ((List.range 10).map fun i => (d.cb.slot i).buffptr).count (some b) = 0
  · simpa only [none, Nat.add_zero] using phase.released_le_one there
  · have member := List.count_pos_iff.mp (Nat.pos_of_ne_zero none)
    obtain ⟨i, small, own⟩ := List.mem_map.mp member
    rcases phase.stores.slot_cases (List.mem_range.mp small) with blank | ⟨m, inside, _, recent, slot⟩
    · rw [blank] at own
      cases own
    · have live : added[m] ∈ d.cb.live := by
        rw [phase.stores.live, List.rtake]
        exact List.mem_drop_iff_getElem.mpr ⟨m - (added.length - 10), by omega, by congr 1; omega⟩
      obtain ⟨b', kept, ptr, there', unreleased⟩ := phase.usable_live live
      rw [← slot, own] at ptr
      obtain rfl := Option.some.inj ptr
      rw [there] at there'
      obtain rfl := Option.some.inj there'
      simp only [unreleased]
      omega

end

/-- What the ledger must say: no block is released twice, not even by a cleanup
    when no call is in progress, and neither a live entry nor what a reader is
    about to copy from is a released block. -/
structure LedgerSafe {Pid : Type} (s : DriverSystem Pid) : Prop where
  once : ∀ (b : Nat) (block : Block), s.data.heap[b]? = some block → block.released ≤ 1
  cleanup : (∀ p, (s.pc p).outside) → ∀ (b : Nat) (block : Block),
    (aesdCleanupModule s.data).heap[b]? = some block → block.released ≤ 1
  live : ∀ e ∈ s.data.cb.live, s.data.Usable e.buffptr
  copied : ∀ p pos c, s.pc p = .readBody pos c → ∀ slot rest,
    s.data.cb.findEntryOffsetForFpos (pos + s.data.cbIoctlOffs) = some (some (slot, rest)) →
      s.data.Usable (s.data.cb.slot slot).buffptr

/-- Whatever the calls, their outcomes and their order, the ledger stays safe. -/
theorem ledger_safe {Pid : Type} [DecidableEq Pid] {f : FixedSizeLlseek} {K : Kernel}
    {s : DriverSystem Pid} (reach : (users Pid f K).Reach Lts.anyStep s) : LedgerSafe s := by
  obtain ⟨_, _, _, phase, _⟩ := phase_of_reach reach
  exact
    { once := fun _ _ found => phase.released_le_one found
      cleanup := fun _ _ _ found => phase.cleanup_le_one found
      live := fun _ member => phase.usable_live member
      copied := fun _ _ _ _ _ _ found => phase.usable_found found }

/-- Behind the eviction, process 2 stands under the lock of a read, in front of which
    process 0 waits with a twelfth line; in the end both have returned, and a cleanup
    releases what is left. -/
theorem ledger_safe_evicting : ∃ s t : DriverSystem (Fin 3),
    (s.data.heap.map Block.released = 1 :: List.replicate 11 0 ∧ s.owner .cb = some (2, 1) ∧
      s.data.cb.findEntryOffsetForFpos (3 + s.data.cbIoctlOffs) = some (some (2, 1)) ∧
      LedgerSafe s) ∧
    t.data.heap.map Block.released = 1 :: 1 :: List.replicate 10 0 ∧ (∀ p, (t.pc p).outside) ∧
      (aesdCleanupModule t.data).heap.map Block.released = List.replicate 12 1 ∧ LedgerSafe t := by
  let reading : List (Fin 3 × Option Op) := evicting ++
    [(2, some (.read 3 ⟨4, .granted, false⟩)), (0, some (.write 0 (.ofBytes .pc [newline] (by decide)))),
      (0, none), (2, none), (0, none)]
  obtain ⟨s, reach, released, owner, found⟩ := users_run Lts.anyStep
    (fun s => s.data.heap.map Block.released = 1 :: List.replicate 11 0 ∧
      s.owner .cb = some (2, 1) ∧
        s.data.cb.findEntryOffsetForFpos (3 + s.data.cbIoctlOffs) = some (some (2, 1)))
    reading (by decide +kernel)
  obtain ⟨t, reach', released', out, cleaned⟩ := users_run Lts.anyStep
    (fun s => s.data.heap.map Block.released = 1 :: 1 :: List.replicate 10 0 ∧
      (∀ p, (s.pc p).outside) ∧
        (aesdCleanupModule s.data).heap.map Block.released = List.replicate 12 1) (reading ++ [(2, none), (2, none)] ++ List.replicate 7 (0, none))
    (by decide +kernel)
  exact ⟨s, t, ⟨released, owner, found, ledger_safe reach⟩, released', out, cleaned, ledger_safe reach'⟩

end Aesd.Driver
