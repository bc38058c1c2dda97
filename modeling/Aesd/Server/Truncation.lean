import Aesd.Server.DataFile

/-! # What the plain data file keeps

Every connection opens the data file for itself, with `O_TRUNC`.  The file is
the writes so far, in the order of the mutex, for as long as no connection opens
it when there is something in it.
-/

namespace Aesd.Server

open Aesd.Lib Function

variable {Pid : Type}

/-- Everything that was written, in order. -/
def written (labels : List (Pid × Request × Answer)) : List UInt8 :=
  labels.flatMap fun
    | (_, .writeData bytes, _) => bytes
    | _ => []

/-- Every `write` to the data file completes. -/
def completes : Pid × Request × Answer → Bool
  | (_, .writeData bytes, a) => a = .count bytes.length
  | _ => true

/-- A file that is opened is empty. -/
def opensEmpty (w : World Pid ThreadPc (Source Pid)) (label : Pid × Request × Answer) : Prop :=
  label.2.1 = .openDataFile → label.2.2 = .done → w.shared.content = []

instance (w : World Pid ThreadPc (Source Pid)) (label : Pid × Request × Answer) :
    Decidable (opensEmpty w label) :=
  inferInstanceAs (Decidable (_ → _ → _))

/-- The file is what was written to it, and each write is made under the mutex. -/
structure FileKept (labels : List (Pid × Request × Answer)) (w : World Pid ThreadPc (Source Pid)) :
    Prop where
  content : w.shared.content = written labels
  guarded : Protected w

theorem written_append (labels : List (Pid × Request × Answer)) (label : Pid × Request × Answer) :
    written (labels ++ [label]) = written labels ++ written [label] := List.flatMap_append

/-- A complete write appends, an open of an empty file changes nothing, and
    nothing else does. -/
theorem act_content {s s' : Source Pid} {p : Pid} {r : Request} {a : Answer}
    (acts : (dataSource Pid false).act s p r a = some s') (whole : completes (p, r, a))
    (empty : r = .openDataFile → a = .done → s.content = []) :
    s'.content = s.content ++ written [(p, r, a)] := by
  have unwritten : (∀ bytes, r ≠ .writeData bytes) → written [(p, r, a)] = [] := by
    intro other
    cases r with
    | writeData bytes => exact absurd rfl (other bytes)
    | _ => rfl
  unfold dataSource at acts
  dsimp only at acts
  split at acts
  · rw [unwritten (fun _ => Request.noConfusion), List.append_nil, empty rfl rfl]
    cases acts
    rfl
  · rw [unwritten (fun _ => Request.noConfusion), List.append_nil]
    split at acts <;> cases acts
    rfl
  · rw [unwritten (fun _ => Request.noConfusion), List.append_nil]
    cases acts
    rfl
  · rename_i bytes n
    obtain rfl : n = bytes.length := by simpa [completes] using whole
    split at acts <;> cases acts
    simp [written]
  · rw [unwritten (fun _ => Request.noConfusion), List.append_nil]
    split at acts <;> cases acts
    rfl
  · rename_i opens _ _ writes _
    cases acts
    cases r with
    | writeData bytes =>
        have count : a = .count bytes.length := by simpa [completes] using whole
        exact absurd count (writes bytes _ rfl)
    | _ => rw [unwritten (fun _ => Request.noConfusion), List.append_nil]

section

variable [DecidableEq Pid] {labels : List (Pid × Request × Answer)}
  {w w' : World Pid ThreadPc (Source Pid)}

/-- The steps that keep the file: complete writes, and opens of an empty file. -/
def keeps (w : World Pid ThreadPc (Source Pid)) (label : Pid × Request × Answer) : Prop :=
  completes label ∧ opensEmpty w label

instance (w : World Pid ThreadPc (Source Pid)) (label : Pid × Request × Answer) :
    Decidable (keeps w label) :=
  inferInstanceAs (Decidable (_ ∧ _))

theorem content_eq_written (run : (threads Pid false).Run keeps labels w) :
    w.shared.content = written labels := by
  refine run.induct (fun labels w => w.shared.content = written labels) ?_ ?_
  · rintro w ⟨⟨_, empty⟩, _⟩
    exact empty
  · rintro labels w ⟨p, r, a⟩ w' content ⟨whole, opens⟩ taken
    obtain ⟨shared, pc, _, acts, _, rfl⟩ := Machine.next_cases taken
    rw [written_append, ← content]
    exact act_content acts whole opens

/-- The data file is kept along every run in which it is opened only while it is
    empty, and the first open that finds something in it loses that. -/
theorem file_kept (run : (threads Pid false).Run keeps labels w) :
    FileKept labels w ∧ ∀ label w', (threads Pid false).step w label w' → ¬opensEmpty w label →
      ¬FileKept (labels ++ [label]) w' := by
  have content := content_eq_written run
  refine ⟨⟨content, protected_of_reach ⟨labels, run⟩⟩, ?_⟩
  rintro ⟨p, r, a⟩ w' taken full kept
  simp only [opensEmpty, Classical.not_imp] at full
  obtain ⟨rfl, rfl, something⟩ := full
  obtain ⟨shared, pc, _, acts, _, rfl⟩ := Machine.next_cases taken
  have emptied : shared.content = [] := by
    cases acts
    rfl
  have after := kept.content
  rw [written_append, ← content] at after
  simp only [emptied] at after
  exact something (List.append_eq_nil_iff.mp after.symm).1

end

/-- The server right after its set-up: connections, and thread 2 for the timestamps. -/
def serverStart : World Nat ThreadPc (Source Nat) where
  shared := ⟨none, []⟩
  pc p := if p = 2 then .timestamp .sleep else .append (.start Buf.zero)

theorem serverStart_init {dev : Bool} : (threads Nat dev).init serverStart := by
  refine ⟨⟨rfl, rfl⟩, fun p => ?_⟩
  simp only [serverStart]
  split
  · rfl
  · exact ⟨Buf.zero, rfl⟩

theorem serverStart_run {dev : Bool}
    {ok : World Nat ThreadPc (Source Nat) → Nat × Request × Answer → Prop} :
    (threads Nat dev).Run ok [] serverStart :=
  .nil serverStart_init

theorem server_run (ok : World Nat ThreadPc (Source Nat) → Nat × Request × Answer → Prop)
    [∀ w label, Decidable (ok w label)] (P : World Nat ThreadPc (Source Nat) → Prop)
    [DecidablePred P] (labels : List (Nat × Request × Answer))
    (computed : (labels.foldlM (Lts.allowing ok (server.play (dataSource Nat false)))
      serverStart).any (fun w => decide (P w)) = true) :
    ∃ w, (threads Nat false).Run ok labels w ∧ P w :=
  Lts.exists_run (fun _ _ _ => Machine.step_of_play) serverStart_init labels computed

/-- Two connections are open before anything is stored; then a timestamp and their lines are. -/
def threeWriters : List (Nat × Request × Answer) :=
  [(0, .openDataFile, .done), (1, .openDataFile, .done), (2, .sleep, .done),
    (0, .readSocket, .bytes [97, newline]), (2, .lock, .done), (2, .strftime, .bytes [49]),
    (1, .readSocket, .bytes [98, newline]), (2, .writeData (timestampText [49]), .count 12),
    (2, .unlock, .done), (1, .lock, .done), (1, .writeData [98, newline], .count 2),
    (1, .unlock, .done), (0, .lock, .done), (0, .writeData [97, newline], .count 2)]

/-- The file has all three lines in the order of the mutex, until another connection comes. -/
theorem file_kept_threeWriters : ∃ w w' : World Nat ThreadPc (Source Nat),
    w.shared.content = timestampText [49] ++ [98, newline] ++ [97, newline] ∧
      FileKept threeWriters w ∧ ¬FileKept (threeWriters ++ [(3, .openDataFile, .done)]) w' := by
  obtain ⟨w, run, content, full, opens⟩ := server_run keeps
    (fun w => w.shared.content = timestampText [49] ++ [98, newline] ++ [97, newline] ∧
      ¬opensEmpty w (3, .openDataFile, .done) ∧
        (server.play (dataSource Nat false) w (3, .openDataFile, .done)).isSome)
    threeWriters (by decide +kernel)
  obtain ⟨w', opened⟩ := Option.isSome_iff_exists.mp opens
  have kept := file_kept run
  exact ⟨w, w', content, kept.1, kept.2 _ w' (Machine.step_of_play opened) full⟩

/-- Thread 0 stores a packet, then thread 1 gets its connection. -/
def secondConnection : List (Nat × Answer) :=
  [(0, .done), (0, .bytes [97, newline]), (0, .done), (0, .count 2), (0, .done), (1, .done)]

/-- A second connection discards what the first has stored. -/
theorem open_discards :
    ¬∀ (labels : List (Nat × Request × Answer)) (w : World Nat ThreadPc (Source Nat)),
      (threads Nat false).Run (fun _ label => completes label) labels w →
        w.shared.content = written labels := by
  intro claim
  have runs : ((server.exec (dataSource Nat false) serverStart secondConnection).map
      fun (labels, w) => (w.shared.content, written labels, labels.all completes)) =
      some ([], [97, newline], true) := by
    decide +kernel
  obtain ⟨⟨labels, w⟩, executes, result⟩ := Option.map_eq_some_iff.mp runs
  simp only [Prod.mk.injEq] at result
  obtain ⟨gone, stored, whole⟩ := result
  have kept := claim labels w (Machine.run_of_exec serverStart_run executes
    fun label member _ => List.all_eq_true.mp whole label member)
  rw [gone, stored] at kept
  cases kept

end Aesd.Server
