import Aesd.Driver.Stream

/-! # One entry is one command

A call scans only the bytes it appended itself, so a newline that some call
leaves behind in the working entry is never looked at again.  The exits that
leave one behind are exactly those of a call that copies a newline and then does
not store its line.
-/

namespace Aesd.Driver

open Aesd.Lib Aesd.Lib.Lines

/-- Nothing pending is a complete command, and every live entry is exactly one. -/
structure Dev.OneCommandEach (d : Dev) : Prop where
  pending : newline ∉ d.pending
  entries : ∀ e ∈ d.cb.live,
    1 ≤ e.size.toNat ∧ (d.contents e).length = e.size.toNat ∧ IsLine newline (d.contents e)

/-- A call that copies a newline also stores its line: the copy is complete, the
    block is granted, and the circular buffer gets locked. -/
def StoresItsLine (d : Dev) (c : WriteCall) : Prop :=
  c.weLock = .granted → d.Fits c → newline ∈ c.copied →
    c.uncopied = 0 ∧ c.kzallocOk (d.blockSize c) = true ∧ c.cbLock = .granted

/-- The same of the log: each committed item is one line. -/
structure LineLog.Clean (log : LineLog) : Prop where
  pending : newline ∉ log.pending
  committed : ∀ line ∈ log.committed, IsLine newline line

namespace LineLog.Clean

variable {log : LineLog}

theorem grow (clean : log.Clean) {bytes : List UInt8} (fresh : newline ∉ bytes) :
    (log.grow bytes).Clean where
  pending := by simp [LineLog.grow, clean.pending, fresh]
  committed := clean.committed

theorem complete (clean : log.Clean) {body : List UInt8} (fresh : newline ∉ body) :
    (log.complete body).Clean where
  pending := by simp [LineLog.complete]
  committed := by
    intro line member
    rcases List.mem_append.mp member with old | new
    · exact clean.committed line old
    · obtain rfl := List.mem_singleton.mp new
      exact ⟨log.pending ++ body, by simp [clean.pending, fresh], rfl⟩

end LineLog.Clean

section

variable {K : Kernel} {d : Dev} {added : List (BufferEntry Nat)} {committed : List (List UInt8)}

theorem Models.oneCommandEach (models : Models K d added committed)
    (clean : (d.log committed).Clean) : d.OneCommandEach where
  pending := clean.pending
  entries := by
    intro e member
    have stands := models.standsFor_live member
    have old : d.contents e ∈ committed := by
      have inside : d.contents e ∈ d.liveContents := List.mem_map_of_mem member
      rw [models.liveContents] at inside
      exact Ring.mem_of_mem_rtake inside
    rw [stands.size_toNat]
    exact ⟨(models.bounded _ old).1, rfl, clean.committed _ old⟩

theorem Models.write_clean (models : Models K d added committed) (clean : (d.log committed).Clean)
    (pos : LoffT) (c : WriteCall) :
    ∃ added' committed', Models K (aesdWrite d pos c).2.1 added' committed' ∧
      (StoresItsLine d c ∧ ((aesdWrite d pos c).2.1.log committed').Clean ∨
        ¬StoresItsLine d c ∧ newline ∈ (aesdWrite d pos c).2.1.pending) := by
  have logFits := log_fits_iff models c
  obtain ⟨added', log', write, after, pending⟩ := models.write pos c
  refine ⟨added', log'.committed, after, ?_⟩
  rw [Dev.log, pending]
  generalize (aesdWrite d pos c).1 = retval at write
  cases write with
  | interrupted lock =>
      refine .inl ⟨fun taken => ?_, clean⟩
      rw [lock] at taken
      cases taken
  | refused lock full => exact .inl ⟨fun _ fits => absurd (logFits.mpr fits) full, clean⟩
  | short lock fits some =>
      by_cases present : newline ∈ c.copied
      · exact .inr ⟨fun stores => some (stores lock (logFits.mp fits) present).1,
          List.mem_append_right _ present⟩
      · exact .inl ⟨fun _ _ member => absurd member present, clean.grow present⟩
  | grew lock fits all fresh =>
      refine .inl ⟨fun _ _ member => ?_, clean.grow fresh⟩
      rw [c.copied_all all] at member
      exact absurd member fresh
  | noBlock lock fits all fresh line fails =>
      have present : newline ∈ c.data := by simp [line]
      rw [log_blockSize d committed fresh line] at fails
      refine .inr ⟨fun stores => ?_, List.mem_append_right _ present⟩
      have grants := (stores lock (logFits.mp fits) (c.copied_all all ▸ present)).2.1
      rw [fails] at grants
      cases grants
  | cbInterrupted lock fits all fresh line grants cbLock =>
      have present : newline ∈ c.data := by simp [line]
      refine .inr ⟨fun stores => ?_, List.mem_append_right _ present⟩
      have locked := (stores lock (logFits.mp fits) (c.copied_all all ▸ present)).2.2
      rw [cbLock] at locked
      cases locked
  | stored lock fits all fresh line grants cbLock =>
      rw [log_blockSize d committed fresh line] at grants
      exact .inl ⟨fun _ _ _ => ⟨all, grants, cbLock⟩, clean.complete fresh⟩

end

theorem clean_log {K : Kernel} {d : Dev}
    (reach : (writes K).Reach (fun d call => StoresItsLine d call.2) d) :
    ∃ added committed, Models K d added committed ∧ (d.log committed).Clean := by
  refine Lts.Reach.induct
    (fun d => ∃ added committed, Models K d added committed ∧ (d.log committed).Clean)
    ?_ ?_ reach
  · rintro _ rfl
    refine ⟨[], [], Models.afterInit K, ?_, by simp [Dev.log]⟩
    simp [Dev.log, Dev.pending, Dev.afterInit, Memory.firstBytes]
  · rintro d ⟨pos, c⟩ _ ⟨added, committed, models, clean⟩ stores rfl
    obtain ⟨added', committed', after, ⟨_, clean'⟩ | ⟨leaves, _⟩⟩ := models.write_clean clean pos c
    · exact ⟨added', committed', after, clean'⟩
    · exact absurd stores leaves

/-- As long as every call that copies a newline stores its line, one entry is one
    command, and the first call that does not breaks it. -/
theorem one_command_each {K : Kernel} {d : Dev}
    (reach : (writes K).Reach (fun d call => StoresItsLine d call.2) d) :
    d.OneCommandEach ∧
      ∀ pos c, (aesdWrite d pos c).2.1.OneCommandEach ↔ StoresItsLine d c := by
  obtain ⟨added, committed, models, clean⟩ := clean_log reach
  refine ⟨models.oneCommandEach clean, fun pos c => ?_⟩
  obtain ⟨added', committed', after, ⟨stores, clean'⟩ | ⟨leaves, left⟩⟩ :=
    models.write_clean clean pos c
  · exact ⟨fun _ => stores, fun _ => after.oneCommandEach clean'⟩
  · exact ⟨fun one => absurd left one.pending, fun stores => absurd stores leaves⟩

theorem one_command_each_one_line :
    let d := (aesdWrite (Dev.afterInit .pc) 0 (.ofBytes .pc [97, newline] (by decide))).2.1
    d.OneCommandEach ∧
      ∀ pos c, (aesdWrite d pos c).2.1.OneCommandEach ↔ StoresItsLine d c :=
  one_command_each
    (writesFrom_write (Lts.Reach.init rfl) 0 (.ofBytes .pc [97, newline] (by decide))
      fun _ _ _ => ⟨rfl, by decide, rfl⟩)

/-- A copy that faults right behind a newline leaves that newline pending. -/
theorem newline_left_pending :
    ¬∀ (K : Kernel) (d : Dev), (writes K).Reach Lts.anyStep d → d.OneCommandEach := by
  intro claim
  let c : WriteCall :=
    { WriteCall.ofBytes .pc [newline, 97] (by decide) with uncopied := 1, uncopied_le := by decide }
  have reach : (writes .pc).Reach Lts.anyStep (aesdWrite (Dev.afterInit .pc) 0 c).2.1 :=
    writesFrom_write (Lts.Reach.init rfl) 0 c trivial
  exact (claim _ _ reach).pending (by decide)

end Aesd.Driver
