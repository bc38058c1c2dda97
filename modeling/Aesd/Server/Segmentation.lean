import Aesd.Lib.Segments
import Aesd.Server.Rounds

/-! # How much the cut of the stream matters

Each chunk is taken for itself: nothing joins the pieces of a command that
arrives in two.  So the seeks and the data that come of a stream depend on where
`read` cuts it.  They do not as long as every command arrives as a chunk of its
own: then the cuts in the data between the commands leave no trace.
-/

namespace Aesd.Server

open Aesd.Lib Aesd.Lib.Segments

/-- The chunk starts with the word. -/
abbrev IsCommand (chunk : List UInt8) : Prop := iocString <+: chunk

/-- A complete command by itself, or data in which the word is not to be found,
    nor the chunk a part of the word. -/
inductive Clean (chunk : List UInt8) : Prop where
  | command (x y : List UInt8) (st : Seekto) (first : IsNumeral x st.writeCmd)
      (second : IsNumeral y st.writeCmdOffset) (text : chunk = commandText x y)
  | data (absent : ¬iocString <:+: chunk) (apart : ¬chunk <+: iocString)

/-- What a command chunk asks for. -/
def chunkSeekto (chunk : List UInt8) : Seekto := parseIocCommand ⟨⟨0, 0⟩, [], []⟩ chunk 0

theorem Effect.clean {chunk : List UInt8} {commands : List Seekto} {handed : List UInt8}
    (effect : Effect chunk commands handed) (clean : Clean chunk) :
    commands = (if IsCommand chunk then [chunkSeekto chunk] else []) ∧
      handed = if IsCommand chunk then [] else chunk := by
  cases clean with
  | command x y st first second text =>
      have word : IsCommand chunk := by
        rw [text]
        exact ⟨[58] ++ x ++ [44] ++ y ++ [newline], by simp [commandText]⟩
      have reads : ∀ env behind, parseIocCommand env (chunk ++ behind) 0 = st := by
        intro env behind
        rw [text]
        exact parseIocCommand_commandText first second env behind 0
      have asked : chunkSeekto chunk = st := by
        have plain := reads ⟨⟨0, 0⟩, [], []⟩ []
        rwa [List.append_nil] at plain
      rw [if_pos word, if_pos word, asked]
      cases effect with
      | command behind env _ => exact ⟨congrArg (· :: []) (reads env behind), rfl⟩
      | data behind plain => exact absurd (word.trans (List.prefix_append _ _)) plain
  | data absent apart =>
      have plain : ¬IsCommand chunk := fun word => absent word.isInfix
      rw [if_neg plain, if_neg plain]
      cases effect with
      | data behind _ => exact ⟨rfl, rfl⟩
      | command behind env word =>
          exfalso
          rcases List.prefix_or_prefix_of_prefix word (List.prefix_append chunk behind) with here | part
          · exact plain here
          · exact apart part

theorem flatMap_handled {rs : List Round} (handled : ∀ r ∈ rs, Handled r)
    (clean : ∀ r ∈ rs, Clean r.chunk) :
    rs.flatMap Round.commands =
        ((rs.map Round.chunk).filter fun chunk => IsCommand chunk).map chunkSeekto ∧
      rs.flatMap Round.handed = unmarked IsCommand (rs.map Round.chunk) := by
  induction rs with
  | nil => exact ⟨rfl, rfl⟩
  | cons r rs ih =>
      obtain ⟨last, others⟩ := List.forall_mem_cons.mp handled
      obtain ⟨tidy, rest⟩ := List.forall_mem_cons.mp clean
      obtain ⟨commands, handed⟩ := last.effect.clean tidy
      obtain ⟨seeks, data⟩ := ih others rest
      simp only [unmarked] at data
      simp only [List.flatMap_cons, List.map_cons, unmarked, commands, handed, seeks, data]
      by_cases word : IsCommand r.chunk
      · simp [word]
      · simp [word]

theorem effect_of_run {labels : List (Request × Answer)} {pc : AppendPc}
    (run : connection.Run untroubled labels pc) (idle : pc.idle)
    (clean : ∀ chunk ∈ chunks labels, Clean chunk) :
    commands labels = ((chunks labels).filter fun chunk => IsCommand chunk).map chunkSeekto ∧
      handed labels = unmarked IsCommand (chunks labels) := by
  refine flatMap_handled (fun r member => ?_) fun r member => ?_
  · exact handled_of_run run idle r (List.mem_reverse.mp member)
  · exact clean r.chunk (List.mem_map_of_mem member)

/-- Two connections that receive one stream, with every command in a chunk of
    its own at the same places, send the same seeks and hand on the same data. -/
theorem effect_of_stream {labels labels' : List (Request × Answer)} {pc pc' : AppendPc}
    (run : connection.Run untroubled labels pc) (run' : connection.Run untroubled labels' pc')
    (idle : pc.idle) (idle' : pc'.idle)
    (same : (chunks labels).flatten = (chunks labels').flatten)
    (clean : ∀ chunk ∈ chunks labels, Clean chunk)
    (clean' : ∀ chunk ∈ chunks labels', Clean chunk)
    (cut : stretches IsCommand 0 (chunks labels) = stretches IsCommand 0 (chunks labels')) :
    commands labels = commands labels' ∧ handed labels = handed labels' := by
  obtain ⟨seeks, data⟩ := effect_of_run run idle clean
  obtain ⟨seeks', data'⟩ := effect_of_run run' idle' clean'
  constructor
  · rw [seeks, seeks', filter_eq_of_stretches cut]
  · rw [data, data', unmarked_eq_of_stretches same cut]

/-- A line, a seek that the data file refuses, and another line, in a chunk each. -/
def linesWhole : List Answer :=
  [.done, .bytes [97, newline], .done, .count 2, .done, .bytes [97, newline], .count 2, .bytes [],
    .bytes (commandText [48] [49]), .parsed ⟨⟨0, 0⟩, [], []⟩, .failed, .bytes [97, newline], .count 2,
    .bytes [], .bytes [98, newline], .done, .count 2, .done, .bytes [97, newline, 98, newline], .count 4,
    .bytes []]

/-- The same, with the first line in two chunks. -/
def linesCut : List Answer :=
  [.done, .bytes [97], .done, .count 1, .done, .bytes [97], .count 1, .bytes [],
    .bytes [newline], .done, .count 1, .done, .bytes [97, newline], .count 2, .bytes [],
    .bytes (commandText [48] [49]), .parsed ⟨⟨7, 7⟩, [], []⟩, .failed, .bytes [97, newline], .count 2,
    .bytes [], .bytes [98, newline], .done, .count 2, .done, .bytes [97, newline, 98, newline], .count 4,
    .bytes []]

theorem effect_of_lines : ∃ labels labels',
    chunks labels = [[97, newline], commandText [48] [49], [98, newline]] ∧
      chunks labels' = [[97], [newline], commandText [48] [49], [98, newline]] ∧
        commands labels = [⟨0, 1⟩] ∧
          commands labels = commands labels' ∧ handed labels = handed labels' := by
  obtain ⟨labels, pc, run, idle, seen⟩ : ∃ labels pc, connection.Run untroubled labels pc ∧
      pc.idle ∧ (chunks labels, commands labels) =
        ([[97, newline], commandText [48] [49], [98, newline]], [⟨0, 1⟩]) :=
    untroubled_run_seen linesWhole (by decide +kernel)
  obtain ⟨labels', pc', run', idle', pieces⟩ : ∃ labels pc, connection.Run untroubled labels pc ∧
      pc.idle ∧ chunks labels = [[97], [newline], commandText [48] [49], [98, newline]] :=
    untroubled_run_seen linesCut (by decide +kernel)
  obtain ⟨whole, sought⟩ := Prod.mk.inj seen
  have line : ∀ chunk ∈ [[97, newline], [98, newline], [97], [newline]], Clean chunk := by
    intro chunk member
    refine .data ?_ ?_ <;> revert chunk <;> decide
  have seek : Clean (commandText [48] [49]) :=
    .command [48] [49] ⟨0, 1⟩ ⟨List.cons_ne_nil _ _, List.forall_mem_singleton.mpr rfl, rfl⟩
      ⟨List.cons_ne_nil _ _, List.forall_mem_singleton.mpr rfl, rfl⟩ rfl
  refine ⟨labels, labels', whole, pieces, sought, ?_⟩
  refine effect_of_stream run run' idle idle' ?_ ?_ ?_ ?_
  · rw [whole, pieces]
    rfl
  · simp [whole, line, seek]
  · simp [pieces, line, seek]
  · rw [whole, pieces]
    decide

/-- A seek to byte 1 of command 0, in one chunk and cut inside the word, to an
    empty data file. -/
def seekWhole : List Answer :=
  [.done, .bytes (commandText [48] [49]), .parsed ⟨⟨0, 0⟩, [], []⟩, .failed, .bytes []]

def seekCut : List Answer :=
  [.done, .bytes [65, 69, 83, 68], .done, .count 4, .done, .bytes [65, 69, 83, 68], .count 4, .bytes [],
    .bytes ((commandText [48] [49]).drop 4), .done, .count 19, .done,
    .bytes (commandText [48] [49]), .count 23, .bytes []]

/-- A command that is cut inside the word is stored as data. -/
theorem cut_command_is_data :
    ¬∀ (labels labels' : List (Request × Answer)) (pc pc' : AppendPc),
      connection.Run untroubled labels pc → connection.Run untroubled labels' pc' →
        pc.idle → pc'.idle → (chunks labels).flatten = (chunks labels').flatten →
          commands labels = commands labels' ∧ handed labels = handed labels' := by
  intro claim
  let view labels := ((chunks labels).flatten, handed labels)
  obtain ⟨labels, pc, run, idle, whole⟩ : ∃ labels pc, connection.Run untroubled labels pc ∧
      pc.idle ∧ view labels = (commandText [48] [49], []) :=
    untroubled_run_seen seekWhole (by decide +kernel)
  obtain ⟨labels', pc', run', idle', cut⟩ : ∃ labels pc, connection.Run untroubled labels pc ∧
      pc.idle ∧ view labels = (commandText [48] [49], commandText [48] [49]) :=
    untroubled_run_seen seekCut (by decide +kernel)
  obtain ⟨stream, none⟩ := Prod.mk.inj whole
  obtain ⟨stream', stored⟩ := Prod.mk.inj cut
  obtain ⟨_, data⟩ := claim labels labels' pc pc' run run' idle idle' (stream.trans stream'.symm)
  rw [none, stored] at data
  exact absurd data (by decide)

end Aesd.Server
