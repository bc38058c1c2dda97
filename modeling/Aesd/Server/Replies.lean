import Aesd.Server.Rounds

/-! # When the client is answered

The echo of the data source depends on how many bytes `read` has delivered, and
on nothing else.  A newline is what ends a packet; `find_eoc` would look for it.
-/

namespace Aesd.Server

open Aesd.Lib

/-- The data source is echoed after the chunks that complete a packet, and after no others. -/
def RepliesRight (rs : List Round) : Prop := ∀ r ∈ rs, (r.echoed = true ↔ newline ∈ r.chunk)

/-- `find_eoc`, asked about what was received, would decide right whatever else is in
    the buffer. -/
theorem repliesRight_iff_findEoc {rs : List Round} (behind : List UInt8) :
    RepliesRight rs ↔
      ∀ r ∈ rs, (r.echoed = true ↔ 0 ≤ findEoc (r.chunk ++ behind) r.chunk.length 0) := by
  simp only [RepliesRight, findEoc_nonneg_iff]

/-- Between chunks of an untroubled connection, the replies so far are right
    exactly when the chunks with a newline are those that did not fill the buffer. -/
theorem repliesRight_iff {labels : List (Request × Answer)} {pc : AppendPc}
    (run : connection.Run untroubled labels pc) (idle : pc.idle) :
    RepliesRight (rounds labels) ↔
      ∀ chunk ∈ chunks labels, (chunk.length < 1024 ↔ newline ∈ chunk) := by
  have handled := handled_of_run run idle
  have mem : ∀ chunk, chunk ∈ chunks labels ↔ ∃ r ∈ rounds labels, r.chunk = chunk := by
    intro chunk
    rw [chunks, List.mem_map]
    simp only [List.mem_reverse]
  constructor
  · intro right chunk member
    obtain ⟨r, inside, rfl⟩ := (mem chunk).mp member
    rw [← right r inside]
    exact (handled r inside).echoed.symm
  · intro agree r inside
    rw [(handled r inside).echoed]
    exact agree r.chunk ((mem _).mpr ⟨r, inside, rfl⟩)

/-- A full buffer without a newline, which is not answered, and then the end of the line. -/
def longPacket : List Answer :=
  [.done, .bytes (List.replicate 1024 97), .done, .count 1024, .done, .bytes [98, newline], .done,
    .count 2, .done, .bytes [97, 98, newline], .count 3, .bytes []]

/-- What the kernel answers when the packet of an `a` and a newline arrives in
    two chunks and the data file is empty before. -/
def splitPacket : List Answer :=
  [.done, .bytes [97], .done, .count 1, .done, .bytes [97], .count 1, .bytes [],
    .bytes [newline], .done, .count 1, .done, .bytes [97, newline], .count 2, .bytes []]

theorem splitPacket_run : ∃ labels pc, connection.Run untroubled labels pc ∧ pc.idle ∧
    rounds labels = [⟨[newline], [], [newline], [97, newline], [97, newline], true⟩,
      ⟨[97], [], [97], [97], [97], true⟩] :=
  untroubled_run_seen splitPacket (by decide +kernel)

/-- Of the two packets, each in two chunks, the first is answered as it should be. -/
theorem repliesRight_iff_packets : ∃ long split : List (Request × Answer),
    (chunks long).map List.length = [1024, 2] ∧ RepliesRight (rounds long) ∧
      chunks split = [[97], [newline]] ∧ ¬RepliesRight (rounds split) := by
  obtain ⟨long, pc, run, idle, seen⟩ : ∃ labels pc, connection.Run untroubled labels pc ∧ pc.idle ∧
      ((chunks labels).map List.length,
        decide (∀ chunk ∈ chunks labels, (chunk.length < 1024 ↔ newline ∈ chunk))) = ([1024, 2], true) :=
    untroubled_run_seen longPacket (by decide +kernel)
  obtain ⟨lengths, agree⟩ := Prod.mk.inj seen
  have agree := of_decide_eq_true agree
  obtain ⟨split, pc', run', idle', rs⟩ := splitPacket_run
  have received : chunks split = [[97], [newline]] := by
    rw [chunks, rs]
    rfl
  refine ⟨long, split, lengths, (repliesRight_iff run idle).mpr agree, received, ?_⟩
  intro right
  have agree := (repliesRight_iff run' idle').mp right
  rw [received] at agree
  exact absurd ((agree [97] List.mem_cons_self).mp (by decide)) (by decide)

/-- The first of two chunks of one packet is answered already. -/
theorem replies_inside_packet :
    ¬∀ (labels : List (Request × Answer)) (pc : AppendPc), connection.Run untroubled labels pc →
      pc.idle → (∀ b ∈ (chunks labels).flatten.getLast?, b = newline) →
        RepliesRight (rounds labels) := by
  intro claim
  obtain ⟨labels, pc, run, idle, rs⟩ := splitPacket_run
  have packets : ∀ b ∈ (chunks labels).flatten.getLast?, b = newline := by
    rw [chunks, rs]
    exact fun b last => (Option.some.inj last).symm
  have right := claim labels pc run idle packets
  rw [rs] at right
  exact absurd (right _ (.tail _ (.head _))) (by decide)

end Aesd.Server
