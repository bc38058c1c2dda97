import Aesd.Server.EchoLoop
import Aesd.Server.Truncation

/-! # Replies from the plain data file

A reply is read off the data file block by block, while other threads append to the
file.  The blocks fit together all the same: a file that only grows looks at its end
as if it had been read at one moment.  So a complete reply is the data file at the
time of its last `pread`, whoever wrote meanwhile, unless a connection is opened and
truncates the file under it.
-/

namespace Aesd.Server

open Aesd.Lib Function

variable {Pid : Type}

def truncates (label : Pid × Request × Answer) : Bool := label.2 = (.openDataFile, .done)

/-- What a call makes of the data file. -/
def fileStep (content : List UInt8) : Pid × Request × Answer → List UInt8
  | (_, .openDataFile, .done) => []
  | (_, .writeData bytes, .count n) => content ++ bytes.take n
  | _ => content

def fileAfter (labels : List (Pid × Request × Answer)) : List UInt8 := labels.foldl fileStep []

theorem fileAfter_concat (labels : List (Pid × Request × Answer)) (label : Pid × Request × Answer) :
    fileAfter (labels ++ [label]) = fileStep (fileAfter labels) label := List.foldl_concat ..

theorem fileStep_grows (content : List UInt8) {label : Pid × Request × Answer}
    (grows : truncates label = false) : content <+: fileStep content label := by
  obtain ⟨p, r, a⟩ := label
  unfold fileStep
  split
  · rename_i opened
    cases opened
    simp [truncates] at grows
  · exact List.prefix_append _ _
  · exact List.prefix_rfl

theorem fileAfter_grows (labels : List (Pid × Request × Answer)) {more : List (Pid × Request × Answer)}
    (grow : ∀ label ∈ more, truncates label = false) :
    fileAfter labels <+: fileAfter (labels ++ more) := by
  induction more using List.reverseRecOn with
  | nil => rw [List.append_nil]
  | append_singleton more label ih =>
      rw [← List.append_assoc, fileAfter_concat]
      apply (ih fun label inside => grow label (List.mem_append_left _ inside)).trans
      exact fileStep_grows _ (grow label (List.mem_append_right _ (List.mem_singleton_self _)))

theorem act_fileStep {s s' : Source Pid} {p : Pid} {r : Request} {a : Answer}
    (acts : (dataSource Pid false).act s p r a = some s') : s'.content = fileStep s.content (p, r, a) := by
  unfold dataSource at acts
  dsimp only at acts
  split at acts
  · cases acts
    rfl
  · split at acts <;> cases acts
    rfl
  · cases acts
    rfl
  · split at acts <;> cases acts
    rfl
  · split at acts <;> cases acts
    rfl
  · rename_i opens _ _ writes _
    cases acts
    unfold fileStep
    split
    · rename_i same
      cases same
      exact absurd rfl (opens rfl)
    · rename_i same
      cases same
      exact absurd rfl (writes _ _ rfl)
    · rfl

variable [DecidableEq Pid]

theorem content_eq_fileAfter {ok : World Pid ThreadPc (Source Pid) → Pid × Request × Answer → Prop}
    {labels : List (Pid × Request × Answer)} {w : World Pid ThreadPc (Source Pid)}
    (run : (threads Pid false).Run ok labels w) : w.shared.content = fileAfter labels := by
  refine run.induct (fun labels w => w.shared.content = fileAfter labels) ?_ ?_
  · rintro w ⟨⟨_, empty⟩, _⟩
    exact empty
  · rintro labels w ⟨p, r, a⟩ w' content _ taken
    obtain ⟨shared, pc, _, acts, _, rfl⟩ := Machine.next_cases taken
    rw [fileAfter_concat, ← content]
    exact act_fileStep acts

/-- A complete reply at the end of these calls: the thread stores something, makes no
    call for another packet, and gets to the end of the file, which nobody truncates
    meanwhile. -/
inductive Completes (p : Pid) : List (Pid × Request × Answer) → List UInt8 → List UInt8 → Prop where
  | intro {before between : List (Pid × Request × Answer)} {bytes : List UInt8} {n pos : Nat}
      (round : ∀ label ∈ between, label.1 = p → label.2.1 ≠ .readSocket)
      (kept : ∀ label ∈ between, truncates label = false) :
      Completes p (before ++ [(p, .writeData bytes, .count n)] ++ between ++ [(p, .pread pos, .bytes [])])
        (bytes.take n) ((Machine.share p between).flatMap delivered)

/-- Where a thread is that has stored something, with what it has sent since, and the
    file.  Behind the reply it is in front of a call for the next packet or on its way out. -/
inductive Replying (content sent : List UInt8) : ThreadPc → Prop where
  | unlock {buf readcount failed} (nothing : sent = []) :
      Replying content sent (.append (.unlock buf readcount failed))
  | echo {buf pos} (inside : pos ≤ content.length) (read : sent = content.take pos) :
      Replying content sent (.append (.echo buf pos))
  | send {buf pos rc} (inside : pos + rc ≤ content.length)
      (block : buf.bytes.take rc = (content.drop pos).take rc) (read : sent = content.take pos) :
      Replying content sent (.append (.send buf pos rc))
  | loop {buf} : Replying content sent (.append (.loop buf))
  | close {r} : Replying content sent (.append (.close r))
  | returned {r} : Replying content sent (.append (.returned r))
  | undefined : Replying content sent (.append .undefined)
  | timestamp {pc} : Replying content sent (.timestamp pc)

omit [DecidableEq Pid] in
theorem prefix_take {content content' : List UInt8} (grows : content <+: content') {n : Nat}
    (inside : n ≤ content.length) : content'.take n = content.take n := by
  obtain ⟨more, rfl⟩ := grows
  exact List.take_append_of_le_length inside

theorem Replying.mono {content content' sent : List UInt8} {pc : ThreadPc}
    (replying : Replying content sent pc) (grows : content <+: content') :
    Replying content' sent pc := by
  have longer := grows.length_le
  cases replying with
  | unlock nothing => exact .unlock nothing
  | echo inside read => exact .echo (inside.trans longer) (read.trans (prefix_take grows inside).symm)
  | @send buf pos rc inside block read =>
      apply Replying.send (inside.trans longer)
      · obtain ⟨more, rfl⟩ := grows
        rw [block, List.drop_append_of_le_length (by omega), List.take_append_of_le_length]
        rw [List.length_drop]
        omega
      · exact read.trans (prefix_take grows (by omega)).symm
  | loop => exact .loop
  | close => exact .close
  | returned => exact .returned
  | undefined => exact .undefined
  | timestamp => exact .timestamp

omit [DecidableEq Pid] in
theorem Replying.call {s s' : Source Pid} {p : Pid} {sent : List UInt8} {pc pc' : ThreadPc}
    {r : Request} {a : Answer} (replying : Replying s.content sent pc) (other : r ≠ .readSocket)
    (acts : (dataSource Pid false).act s p r a = some s') (asks : server.request pc = some r)
    (resumes : server.resume pc a = some pc') :
    Replying s'.content (sent ++ delivered (r, a)) pc' := by
  cases pc with
  | timestamp pc =>
      obtain ⟨next, _, rfl⟩ := Option.map_eq_some_iff.mp resumes
      exact .timestamp
  | append pc =>
      obtain ⟨next, goes, rfl⟩ := Option.map_eq_some_iff.mp resumes
      have step := appendStep_of asks goes
      have content := act_fileStep acts
      cases replying with
      | unlock nothing =>
          cases step with
          | unlocked buf readcount =>
              rw [AppendPc.replyOrNext]
              split
              · apply Replying.echo (Nat.zero_le _)
                rw [nothing]
                rfl
              · exact .loop
          | unlockedFailed => exact .close
      | @echo buf pos inside read =>
          cases step with
          | preadFailed => exact .close
          | preadEnd => exact .loop
          | @preadBlock _ _ data nonempty short =>
              simp only [dataSource, Bool.false_eq_true, false_or] at acts
              split at acts <;> cases acts
              rename_i block
              have length := congrArg List.length block
              rw [List.length_take, List.length_drop] at length
              apply Replying.send
              · omega
              · rw [buf.take_fill short]
                apply List.prefix_iff_eq_take.mp
                rw [block]
                exact List.take_prefix _ _
              · exact (List.append_nil _).trans read
      | @send buf pos rc inside block read =>
          cases step with
          | sendFailed | sendShort => exact .close
          | sent =>
              have same : s'.content = s.content := content
              rw [AppendPc.advance]
              split
              · rw [same]
                apply Replying.echo inside
                rw [read, delivered, block, List.take_take, Nat.min_self, List.take_add]
              · exact .undefined
      | loop => cases step <;> exact absurd rfl other
      | close =>
          cases step
          exact .returned
      | returned | undefined => cases asks

section

variable {labels : List (Pid × Request × Answer)} {w w' : World Pid ThreadPc (Source Pid)} {p : Pid}

theorem replying_of_run (here : Replying w.shared.content [] (w.pc p))
    (run : ((threads Pid false).startingAt w).Run Lts.anyStep labels w')
    (round : ∀ label ∈ labels, label.1 = p → label.2.1 ≠ .readSocket)
    (kept : ∀ label ∈ labels, truncates label = false) :
    Replying w'.shared.content ((Machine.share p labels).flatMap delivered) (w'.pc p) := by
  revert round kept
  refine run.induct (fun labels w' => (∀ label ∈ labels, label.1 = p → label.2.1 ≠ .readSocket) →
    (∀ label ∈ labels, truncates label = false) →
      Replying w'.shared.content ((Machine.share p labels).flatMap delivered) (w'.pc p)) ?_ ?_
  · rintro _ rfl _ _
    exact here
  · rintro labels w₁ ⟨q, r, a⟩ w₂ replying _ taken round kept
    obtain ⟨shared, pc, asks, acts, resumes, rfl⟩ := Machine.next_cases taken
    dsimp only at asks acts resumes ⊢
    rw [List.forall_mem_append, List.forall_mem_singleton] at round kept
    have replying := replying round.1 kept.1
    rw [Machine.share_append]
    by_cases same : q = p
    · subst same
      rw [Machine.share_self, List.flatMap_append, List.flatMap_singleton, update_self]
      exact replying.call (round.2 rfl) acts asks resumes
    · rw [Machine.share_other same, List.append_nil, update_of_ne (Ne.symm same)]
      apply replying.mono
      rw [act_fileStep acts]
      exact fileStep_grows _ kept.2

theorem replying_of_write {bytes : List UInt8} {a : Answer}
    (taken : (threads Pid false).step w (p, .writeData bytes, a) w') :
    Replying w'.shared.content [] (w'.pc p) := by
  obtain ⟨shared, pc, asks, acts, resumes, rfl⟩ := Machine.next_cases taken
  dsimp only at asks resumes ⊢
  rw [update_self]
  revert asks resumes
  cases w.pc p with
  | timestamp here =>
      intro asks resumes
      obtain ⟨next, _, rfl⟩ := Option.map_eq_some_iff.mp resumes
      exact .timestamp
  | append here =>
      intro asks resumes
      obtain ⟨next, goes, rfl⟩ := Option.map_eq_some_iff.mp resumes
      cases appendStep_of asks goes with
      | wrote | writeFailed => exact .unlock rfl

theorem Replying.ended {sent : List UInt8} {pos : Nat} (replying : Replying w.shared.content sent (w.pc p))
    (taken : (threads Pid false).step w (p, .pread pos, .bytes []) w') : sent = w.shared.content := by
  obtain ⟨shared, pc, asks, acts, resumes, rfl⟩ := Machine.next_cases taken
  simp only [dataSource, Bool.false_eq_true, false_or] at acts
  split at acts <;> cases acts
  rename_i nothing
  dsimp only at asks
  revert replying asks
  generalize w.pc p = here
  intro replying asks
  cases replying with
  | echo inside read =>
      cases asks
      rw [eq_comm, List.take_eq_nil_iff, List.drop_eq_nil_iff] at nothing
      rw [read]
      exact List.take_of_length_le (nothing.resolve_left (by decide))
  | @timestamp pc => cases pc <;> cases asks
  | _ => cases asks

/-- A complete reply is the data file as it then is, with what the thread has stored. -/
theorem Completes.snapshot {stored reply : List UInt8} (completes : Completes p labels stored reply)
    (run : (threads Pid false).Run Lts.anyStep labels w) :
    reply = fileAfter labels ∧ stored <:+: reply := by
  cases completes with
  | @intro before between bytes n pos round kept =>
      obtain ⟨w₃, read, last⟩ := run.split
      obtain ⟨w₂, stored, middle⟩ := read.split
      obtain ⟨w₁, _, first⟩ := stored.split
      have replying := replying_of_run (replying_of_write first.one) middle round kept
      have whole := replying.ended last.one
      rw [content_eq_fileAfter read] at whole
      have grows := fileAfter_grows (before ++ [(p, .writeData bytes, .count n)]) kept
      rw [fileAfter_concat] at grows
      refine ⟨?_, ?_⟩
      · rw [whole, fileAfter_concat]
        rfl
      · rw [whole]
        exact (List.suffix_append (fileAfter before) _).isInfix.trans grows.isInfix

/-- A complete reply is the data file at its last `pread`, the thread's own packet
    included, and replies of any threads agree: for as long as the file is not
    truncated, one begins with those before it. -/
theorem replies_snapshot {more : List (Pid × Request × Answer)} {stored reply : List UInt8}
    (run : (threads Pid false).Run Lts.anyStep (labels ++ more) w)
    (completes : Completes p labels stored reply) :
    reply = fileAfter labels ∧ stored <:+: reply ∧
      ∀ q stored' reply', Completes q (labels ++ more) stored' reply' →
        (∀ label ∈ more, truncates label = false) → reply <+: reply' := by
  obtain ⟨between, before, _⟩ := run.split
  obtain ⟨whole, own⟩ := completes.snapshot before
  refine ⟨whole, own, fun q stored' reply' later kept => ?_⟩
  rw [whole, (later.snapshot run).1]
  exact fileAfter_grows labels kept

end

/-- Thread 1 stores its line in the middle of the reply of thread 0. -/
def storesBetween : List (Nat × Request × Answer) :=
  [(0, .unlock, .done), (0, .pread 0, .bytes [97, newline]), (1, .lock, .done),
    (0, .writeSocket [97, newline], .count 2), (1, .writeData [98, newline], .count 2),
    (0, .pread 2, .bytes [98, newline]), (0, .writeSocket [98, newline], .count 2)]

theorem replies_snapshot_between : ∃ (labels : List (Nat × Request × Answer)) (reply : List UInt8),
    reply = [97, newline, 98, newline] ∧ reply = fileAfter labels ∧ [97, newline] <:+: reply ∧
      ∀ q stored' reply', Completes q (labels ++ []) stored' reply' →
        (∀ label ∈ ([] : List (Nat × Request × Answer)), truncates label = false) →
          reply <+: reply' := by
  let before : List (Nat × Request × Answer) :=
    [(0, .openDataFile, .done), (1, .openDataFile, .done), (0, .readSocket, .bytes [97, newline]),
      (1, .readSocket, .bytes [98, newline]), (0, .lock, .done)]
  let labels := before ++ [(0, .writeData [97, newline], .count 2)] ++ storesBetween ++
    [(0, .pread 4, .bytes [])]
  have runs : (server.exec (dataSource Nat false) serverStart
      (labels.map fun label => (label.1, label.2.2))).map Prod.fst = some labels := by
    decide +kernel
  obtain ⟨⟨_, w⟩, executes, rfl⟩ := Option.map_eq_some_iff.mp runs
  have run : (threads Nat false).Run Lts.anyStep ([] ++ labels) w :=
    Machine.run_of_exec serverStart_run executes fun _ _ _ => trivial
  have run : (threads Nat false).Run Lts.anyStep (labels ++ []) w := (List.append_nil labels).symm ▸ run
  exact ⟨labels, _, rfl, replies_snapshot run (.intro (by decide) (by decide))⟩

end Aesd.Server
