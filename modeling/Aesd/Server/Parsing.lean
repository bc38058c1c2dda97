import Aesd.Server.StaleBuffer

/-! # Where the seek arguments come from

`parse_ioc_command` is told where the command starts and does not use it, and the
struct it returns is whatever `malloc` found there except for the fields that
`sscanf` assigned.  Both are harmless exactly when the buffer itself begins with a
complete command: two numbers that fit, and a byte that ends the second.
-/

namespace Aesd.Server

open Aesd.Lib

/-- The text begins with a command that denotes `st`, to the end of its second number. -/
inductive CommandPrefix (st : Seekto) : List UInt8 → Prop where
  | mk {negative digits number negative' digits' number' stop tail}
      (x : NumberText negative digits number) (some : digits ≠ []) (fits : Fits negative digits)
      (writeCmd : st.writeCmd = BitVec.ofNat 32 (numeral digits))
      (y : NumberText negative' digits' number') (some' : digits' ≠ []) (fits' : Fits negative' digits')
      (writeCmdOffset : st.writeCmdOffset = BitVec.ofNat 32 (numeral digits'))
      (stops : isDigit stop = false) :
      CommandPrefix st (iocString ++ 58 :: (number ++ 44 :: (number' ++ stop :: tail)))

/-- Whatever is left in the buffer and whatever the memory around it holds, a
    seek sent for the chunk has the same arguments. -/
def SeekFromChunk (chunk : List UInt8) : Prop :=
  ∃ st, ∀ buf env r, treatment buf chunk env = some (.ioctl r) → r = st

/-- Both fields are assigned the values of `st`. -/
def Seekto.assigned (st : Seekto) : Assigned × Assigned := (.value st.writeCmd, .value st.writeCmdOffset)

theorem assign_value_iff {negative : Bool} {digits : List UInt8} {v : BitVec 32} :
    assign negative digits = .value v ↔
      digits ≠ [] ∧ Fits negative digits ∧ v = BitVec.ofNat 32 (numeral digits) := by
  unfold assign
  split
  · simp_all
  · split <;> simp_all [eq_comm]

theorem scanLiteral_sound {literal text rest : List UInt8} (h : scanLiteral literal text = some rest) :
    text = literal ++ rest := by
  induction literal generalizing text with
  | nil => cases text <;> simp_all [scanLiteral]
  | cons c literal ih =>
      cases text with
      | nil => cases h
      | cons b text =>
          simp only [scanLiteral] at h
          split at h
          · rename_i same
            rw [same, ih h, List.cons_append]
          · cases h

theorem fieldAt_value {text : List UInt8} {v : BitVec 32} (read : (fieldAt text).1 = .value v)
    (settled : ∀ negative digits, ¬NumberText negative digits text) :
    ∃ negative digits number stop tail, NumberText negative digits number ∧
      assign negative digits = .value v ∧ isDigit stop = false ∧ text = number ++ stop :: tail := by
  rcases numberAt_cases text with
    ⟨negative, digits, y⟩ | ⟨negative, digits, number, stop, tail, y, stops, shape, scan⟩
  · exact absurd y (settled negative digits)
  · refine ⟨negative, digits, number, stop, tail, y, ?_, stops, shape⟩
    have alone := scan []
    rw [List.append_nil] at alone
    unfold fieldAt at read
    rwa [alone] at read

theorem fields_value {text : List UInt8} {st : Seekto} (read : fields text = st.assigned)
    (settled : ¬Unfinished (58 :: text)) :
    ∃ negative digits number rest, NumberText negative digits number ∧
      assign negative digits = .value st.writeCmd ∧ text = number ++ 44 :: rest ∧
        (fieldAt rest).1 = .value st.writeCmdOffset := by
  have first := congrArg Prod.fst read
  rw [fields_fst] at first
  have closed : ∀ negative digits, ¬NumberText negative digits text :=
    fun _ _ x => settled (.first x)
  obtain ⟨negative, digits, number, stop, tail, x, value, stops, rfl⟩ := fieldAt_value first closed
  have some := (assign_value_iff.mp value).1
  by_cases comma : stop = 44
  · subst comma
    rw [x.fields_comma some] at read
    exact ⟨negative, digits, number, tail, x, value, rfl, congrArg Prod.snd read⟩
  · rw [x.fields_other some stops comma] at read
    cases congrArg Prod.snd read

theorem CommandPrefix.of_assigned {text : List UInt8} {st : Seekto} (settled : ¬Unfinished text)
    (read : Server.assigned (iocString ++ text) = st.assigned) :
    CommandPrefix st (iocString ++ text) := by
  cases text with
  | nil => exact absurd .word settled
  | cons b text =>
      by_cases colon : b = 58
      · subst colon
        rw [assigned_colon] at read
        obtain ⟨_, _, _, rest, x, value, rfl, second⟩ := fields_value read settled
        obtain ⟨some, fits, writeCmd⟩ := assign_value_iff.mp value
        have closed : ∀ negative digits, ¬NumberText negative digits rest :=
          fun _ _ y => settled (.second x some y)
        obtain ⟨_, _, _, stop, tail, y, value', stops, rfl⟩ := fieldAt_value second closed
        obtain ⟨some', fits', writeCmdOffset⟩ := assign_value_iff.mp value'
        exact .mk x some fits writeCmd y some' fits' writeCmdOffset stops
      · rw [assigned_other colon] at read
        cases congrArg Prod.fst read

theorem CommandPrefix.reads {text : List UInt8} {st : Seekto} (command : CommandPrefix st text)
    (more : List UInt8) : Server.assigned (text ++ more) = st.assigned := by
  cases command with
  | @mk _ _ _ _ _ _ stop tail x some fits writeCmd y some' fits' writeCmdOffset stops =>
      simp only [List.append_assoc, List.cons_append]
      rw [assigned_command x some y some' stops, assign_value_iff.mpr ⟨some, fits, writeCmd⟩,
        assign_value_iff.mpr ⟨some', fits', writeCmdOffset⟩]
      rfl

theorem CommandPrefix.starts {text : List UInt8} {st : Seekto} (command : CommandPrefix st text) :
    iocString ++ [58] <+: text := by
  cases command with
  | mk => exact ⟨_, by rw [List.append_assoc]; rfl⟩

theorem ParseEnv.store_assigned (env : ParseEnv) (st : Seekto) : env.store st.assigned = st := rfl

theorem assigned_of_store {a : Assigned × Assigned} {st : Seekto}
    (same : ∀ fresh unfit beyond, ParseEnv.store ⟨fresh, unfit, beyond⟩ a = st) : a = st.assigned := by
  apply ParseEnv.eq_of_store
  intro fresh unfit beyond
  rw [same, ParseEnv.store_assigned]

theorem parseIocCommand_iff (buf : List UInt8) (startpos : Int) (st : Seekto) :
    (∀ env, parseIocCommand env buf startpos = st) ↔ CommandPrefix st buf := by
  constructor
  · intro parses
    have reads : ∀ beyond, assigned (buf ++ beyond) = st.assigned := by
      intro beyond
      apply assigned_of_store
      intro fresh unfit _
      have result := parses ⟨fresh, unfit, beyond⟩
      rwa [parseIocCommand_eq] at result
    have alone := reads []
    rw [List.append_nil] at alone
    have word : iocString <+: buf := by
      unfold assigned at alone
      split at alone
      · cases congrArg Prod.fst alone
      · rename_i text scan
        rw [scanLiteral_sound scan, List.append_assoc]
        exact List.prefix_append _ _
    obtain ⟨text, rfl⟩ := word
    exact .of_assigned (not_unfinished_of_assigned reads) alone
  · intro command env
    rw [parseIocCommand_eq, command.reads, ParseEnv.store_assigned]

theorem SeekFromChunk.assigned {text : List UInt8} {st : Seekto}
    (only : ∀ buf env r, treatment buf (iocString ++ text) env = some (.ioctl r) → r = st)
    (short : (iocString ++ text).length ≤ bufLen) {rest : List UInt8}
    (whole : (iocString ++ text).length + rest.length = 1025) (beyond : List UInt8) :
    Server.assigned (iocString ++ text ++ (rest ++ beyond)) = st.assigned := by
  have nonempty : iocString ++ text ≠ [] := List.append_ne_nil_of_left_ne_nil (by decide) text
  apply assigned_of_store
  intro fresh unfit _
  have sent := treatment_eq nonempty short (.withRest _ _ whole) ⟨fresh, unfit, beyond⟩
  rw [Buf.drop_withRest, if_pos (word_begins text rest)] at sent
  exact only _ _ _ sent

theorem not_seekFromChunk_word {chunk : List UInt8} (nonempty : chunk ≠ [])
    (short : chunk.length ≤ bufLen) (begins : chunk <+: iocString) : ¬SeekFromChunk chunk := by
  rintro ⟨st, only⟩
  -- the rest of the word, and then nothing of a command
  obtain ⟨tail, split⟩ := begins
  obtain ⟨whole, word⟩ := rest_of_word split
  have blank : ∀ beyond, assigned (chunk ++ (tail ++ List.replicate 1007 0 ++ beyond)) =
      (.kept, .kept) := by
    intro beyond
    rw [← List.append_assoc, ← List.append_assoc, split, List.append_assoc, List.replicate_succ,
      List.cons_append]
    exact assigned_other (by decide) _
  have fresh : ∀ fresh, fresh = st := by
    intro fresh
    have sent := treatment_eq nonempty short (.withRest _ _ whole) ⟨fresh, [], []⟩
    rw [Buf.drop_withRest, if_pos word, blank] at sent
    exact only _ _ _ sent
  have zero := fresh ⟨0, 0⟩
  rw [← fresh ⟨1, 1⟩] at zero
  exact absurd zero (by decide)

theorem commandPrefix_of_seekFromChunk {text : List UInt8} (short : (iocString ++ text).length ≤ bufLen)
    (determined : SeekFromChunk (iocString ++ text)) : ∃ st, CommandPrefix st (iocString ++ text) := by
  obtain ⟨st, only⟩ := determined
  have reads : ∀ {rest : List UInt8}, (iocString ++ text).length + rest.length = 1025 →
      ∀ beyond, assigned (iocString ++ text ++ (rest ++ beyond)) = st.assigned :=
    fun {_} => SeekFromChunk.assigned only short
  simp only [bufLen] at short
  have settled : ¬Unfinished text := by
    intro unfinished
    obtain ⟨rest, rest', beyond, length, length', differ⟩ :=
      unfinished.depends (1024 - (iocString ++ text).length)
    exact differ ((reads (by omega) beyond).trans (reads (by omega) beyond).symm)
  have blank : (iocString ++ text).length +
      (List.replicate (1025 - (iocString ++ text).length) (0 : UInt8)).length = 1025 := by
    rw [List.length_replicate]
    omega
  have alone := reads blank []
  rw [assigned_settled settled] at alone
  exact ⟨st, .of_assigned settled alone⟩

/-- A chunk without the word and without a beginning of it is data. -/
theorem seekFromChunk_of_data {chunk : List UInt8} (nonempty : chunk ≠ [])
    (short : chunk.length ≤ bufLen) (begins : ¬chunk <+: iocString) (word : ¬iocString <+: chunk) :
    SeekFromChunk chunk := by
  have closed : ¬Open chunk := by
    intro unsettled
    cases unsettled with
    | word part _ => exact begins part
    | command _ => exact word (List.prefix_append _ _)
  refine ⟨⟨0, 0⟩, fun buf env r sent => ?_⟩
  rw [treatment_eq nonempty short, if_neg (no_word word closed _)] at sent
  cases Option.some.inj sent

theorem CommandPrefix.seekFromChunk {chunk : List UInt8} {st : Seekto} (nonempty : chunk ≠ [])
    (short : chunk.length ≤ bufLen) (command : CommandPrefix st chunk) : SeekFromChunk chunk := by
  have word : ∀ rest, iocString <+: chunk ++ rest := fun rest =>
    ((List.prefix_append _ _).trans command.starts).trans (List.prefix_append _ _)
  refine ⟨st, fun buf env r sent => ?_⟩
  rw [treatment_eq nonempty short, if_pos (word _), command.reads, ParseEnv.store_assigned,
    Option.some.injEq, Request.ioctl.injEq] at sent
  exact sent.symm

theorem seekFromChunk_iff {chunk : List UInt8} (nonempty : chunk ≠ []) (short : chunk.length ≤ bufLen) :
    SeekFromChunk chunk ↔
      (¬chunk <+: iocString ∧ ¬iocString <+: chunk) ∨ ∃ st, CommandPrefix st chunk := by
  constructor
  · intro determined
    by_cases begins : chunk <+: iocString
    · exact absurd determined (not_seekFromChunk_word nonempty short begins)
    · by_cases word : iocString <+: chunk
      · obtain ⟨text, rfl⟩ := word
        exact .inr (commandPrefix_of_seekFromChunk short determined)
      · exact .inl ⟨begins, word⟩
  · rintro (⟨begins, word⟩ | ⟨st, command⟩)
    · exact seekFromChunk_of_data nonempty short begins word
    · exact command.seekFromChunk nonempty short

/-- A command at a position is read back exactly when the buffer begins with one
    for the same numbers, and a seek depends on nothing but the chunk exactly when the
    chunk has nothing to do with the word or begins with a complete command. -/
theorem seekto_read_iff (buf : List UInt8) (startpos : Nat) (chunk : List UInt8) :
    (∀ (x y : List UInt8) (st : Seekto), IsNumeral x st.writeCmd → IsNumeral y st.writeCmdOffset →
      commandText x y <+: buf.drop startpos →
        ((∀ env, parseIocCommand env buf startpos = st) ↔ CommandPrefix st buf)) ∧
      (chunk ≠ [] → chunk.length ≤ bufLen →
        (SeekFromChunk chunk ↔
          (¬chunk <+: iocString ∧ ¬iocString <+: chunk) ∨ ∃ st, CommandPrefix st chunk)) := by
  constructor
  · intro _ _ st _ _ _
    exact parseIocCommand_iff buf startpos st
  · intro nonempty short
    exact seekFromChunk_iff nonempty short

theorem isNumeral_one : IsNumeral [49] 1 := by
  refine ⟨by decide, ?_, rfl⟩
  intro b member
  rw [List.mem_singleton.mp member]
  decide

theorem seekto_read_iff_one :
    let buf := commandText [49] [49] ++ commandText [49] [49]
    ((∀ env, parseIocCommand env buf (23 : Nat) = ⟨1, 1⟩) ↔ CommandPrefix ⟨1, 1⟩ buf) ∧
      (SeekFromChunk buf ↔
        (¬buf <+: iocString ∧ ¬iocString <+: buf) ∨ ∃ st, CommandPrefix st buf) :=
  let ⟨parses, seeks⟩ := seekto_read_iff _ 23 _
  ⟨parses [49] [49] ⟨1, 1⟩ isNumeral_one isNumeral_one List.prefix_rfl, seeks (by decide) (by decide)⟩

/-- A byte in front of a command makes the parse leave the struct as it was, and a
    word without numbers sends such a struct to the driver. -/
theorem arguments_not_read :
    (¬∀ (buf : List UInt8) (startpos : Nat) (x y : List UInt8) (st : Seekto),
      IsNumeral x st.writeCmd → IsNumeral y st.writeCmdOffset →
        commandText x y <+: buf.drop startpos → ∀ env, parseIocCommand env buf startpos = st) ∧
      ¬∀ chunk : List UInt8, chunk ≠ [] → chunk.length ≤ bufLen → iocString <+: chunk →
        (∀ (x y : List UInt8) (st : Seekto), IsNumeral x st.writeCmd →
          IsNumeral y st.writeCmdOffset → ¬commandText x y <+: chunk) → SeekFromChunk chunk := by
  constructor
  · intro claim
    have parses := claim (newline :: commandText [49] [49]) 1 [49] [49] ⟨1, 1⟩ isNumeral_one
      isNumeral_one List.prefix_rfl ⟨⟨0, 0⟩, [], []⟩
    exact absurd parses (by decide)
  · intro claim
    have word : iocString <+: iocString ++ [newline] := List.prefix_append _ _
    have noColon : ¬iocString ++ [58] <+: iocString ++ [newline] := by decide
    have determined := claim (iocString ++ [newline]) (by decide) (by decide) word ?_
    · rcases (seekFromChunk_iff (by decide) (by decide)).mp determined with
        ⟨_, without⟩ | ⟨st, command⟩
      · exact without word
      · exact noColon command.starts
    · intro x y _ _ _ command
      apply noColon
      refine List.IsPrefix.trans ?_ command
      exact ⟨x ++ ([44] ++ (y ++ [newline])), by simp only [commandText, List.append_assoc]⟩

end Aesd.Server
