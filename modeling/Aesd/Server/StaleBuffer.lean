import Aesd.Server.AppendData
import Aesd.Server.Scanning
import Aesd.Server.Search

/-! # What is left in the buffer

`appenddata` receives into one buffer, never clears it, and hands all of it to the
scan and to the parse.  A chunk is treated by its own bytes alone unless it ends
where the scan or the parse still wants more: then what was in the buffer before,
or behind it, is read as if it had been received.
-/

namespace Aesd.Server

open Aesd.Lib

/-- Texts behind the word after which `sscanf` still looks at the next character. -/
inductive Unfinished : List UInt8 → Prop where
  | word : Unfinished []
  | first {negative digits number} (x : NumberText negative digits number) :
      Unfinished (58 :: number)
  | second {negative digits number negative' digits' number'}
      (x : NumberText negative digits number) (some : digits ≠ [])
      (y : NumberText negative' digits' number') :
      Unfinished (58 :: number ++ 44 :: number')

/-- Chunks that do not settle what is done with them. -/
inductive Open : List UInt8 → Prop where
  | word {chunk} (begins : chunk <+: iocString) (proper : chunk ≠ iocString) : Open chunk
  | command {text} (unfinished : Unfinished text) : Open (iocString ++ text)

/-- What `appenddata` asks for once it has a chunk: the seek, with the result of
    the parse, or the write. -/
def treatment (buf : Buf) (chunk : List UInt8) (env : ParseEnv) : Option Request :=
  ((AppendPc.loop buf).resume (.bytes chunk)).bind fun pc =>
    (pc.resume (if pc.request = some .mallocSeekto then .parsed env else .done)).bind
      AppendPc.request

theorem scanLiteral_append_append (start literal text : List UInt8) :
    scanLiteral (start ++ literal) (start ++ text) = scanLiteral literal text := by
  induction start with
  | nil => rfl
  | cons c start ih => simp [scanLiteral, ih]

theorem assigned_colon (text : List UInt8) : assigned (iocString ++ 58 :: text) = fields text := by
  unfold assigned
  rw [scanLiteral_append_append]
  cases text <;> rfl

theorem assigned_other {b : UInt8} (other : b ≠ 58) (text : List UInt8) :
    assigned (iocString ++ b :: text) = (.kept, .kept) := by
  unfold assigned
  rw [scanLiteral_append_append]
  simp only [scanLiteral, if_neg other]

theorem assign_ne_kept {digits : List UInt8} (some : digits ≠ []) (negative : Bool) :
    assign negative digits ≠ .kept := by
  unfold assign
  rw [if_neg some]
  split <;> simp

theorem NumberText.fieldAt {negative : Bool} {digits text : List UInt8}
    (h : NumberText negative digits text) {more : List UInt8} (solid : digits ≠ [] ∨ Plain more) :
    fieldAt (text ++ more) =
      (assign negative (digits ++ more.takeWhile isDigit), more.dropWhile isDigit) := by
  unfold Server.fieldAt
  rw [h.numberAt solid]

theorem NumberText.fieldAt_end {negative : Bool} {digits text : List UInt8}
    (h : NumberText negative digits text) (some : digits ≠ []) :
    Server.fieldAt text = (assign negative digits, []) := by
  have alone : Server.fieldAt (text ++ []) = _ := h.fieldAt (.inl some)
  rwa [List.append_nil, List.takeWhile_nil, List.append_nil] at alone

theorem fields_fst (text : List UInt8) : (fields text).1 = (fieldAt text).1 := by
  unfold fields
  obtain ⟨first, rest⟩ := fieldAt text
  dsimp only
  split
  · rename_i kept
    exact kept.symm
  · split <;> rfl

theorem NumberText.fields_comma {negative : Bool} {digits text : List UInt8}
    (h : NumberText negative digits text) (some : digits ≠ []) (more : List UInt8) :
    fields (text ++ 44 :: more) = (assign negative digits, (Server.fieldAt more).1) := by
  have stop : (44 :: more).takeWhile isDigit = [] := rfl
  have left : (44 :: more).dropWhile isDigit = 44 :: more := rfl
  unfold fields
  rw [h.fieldAt (.inl some), stop, left, List.append_nil]
  dsimp only
  rw [if_neg (assign_ne_kept some negative)]
  cases more <;> rfl

theorem NumberText.fields_other {negative : Bool} {digits text : List UInt8}
    (h : NumberText negative digits text) (some : digits ≠ []) {b : UInt8} (stops : isDigit b = false)
    (other : b ≠ 44) (more : List UInt8) :
    fields (text ++ b :: more) = (assign negative digits, .kept) := by
  have stop : (b :: more).takeWhile isDigit = [] := by rw [List.takeWhile_cons, stops]; rfl
  have left : (b :: more).dropWhile isDigit = b :: more := by rw [List.dropWhile_cons, stops]; rfl
  unfold fields
  rw [h.fieldAt (.inl some), stop, left, List.append_nil]
  dsimp only
  rw [if_neg (assign_ne_kept some negative)]
  simp only [scanLiteral, if_neg other]

theorem numberAt_cases (text : List UInt8) :
    (∃ negative digits, NumberText negative digits text) ∨
      ∃ negative digits number b rest, NumberText negative digits number ∧ isDigit b = false ∧
        text = number ++ b :: rest ∧ ∀ more, numberAt (text ++ more) = (negative, digits, b :: rest ++ more) := by
  obtain ⟨number, x, shape, stopped⟩ := numberAt_sound text
  generalize read : numberAt text = result at x shape stopped
  obtain ⟨negative, digits, rest⟩ := result
  cases rest with
  | nil =>
      have whole : text = number := by simpa using shape
      exact .inl ⟨negative, digits, whole ▸ x⟩
  | cons b rest =>
      exact .inr ⟨negative, digits, number, b, rest, x, stopped b rfl, shape,
        numberAt_append read (List.cons_ne_nil b rest)⟩

theorem fieldAt_settled {text : List UInt8}
    (settled : ∀ negative digits, ¬NumberText negative digits text) (more : List UInt8) :
    (fieldAt (text ++ more)).1 = (fieldAt text).1 := by
  rcases numberAt_cases text with ⟨negative, digits, y⟩ | ⟨negative, digits, _, b, rest, _, _, _, read⟩
  · exact absurd y (settled negative digits)
  · have alone := read []
    rw [List.append_nil] at alone
    unfold fieldAt
    rw [read more, alone]

theorem assigned_settled {text : List UInt8} (settled : ¬Unfinished text) (more : List UInt8) :
    assigned (iocString ++ text ++ more) = assigned (iocString ++ text) := by
  cases text with
  | nil => exact absurd .word settled
  | cons b text =>
      rw [List.append_assoc, List.cons_append]
      by_cases colon : b = 58
      · subst colon
        rw [assigned_colon, assigned_colon]
        rcases numberAt_cases text with
          ⟨_, _, x⟩ | ⟨negative, digits, number, c, rest, x, stops, rfl, read⟩
        · exact absurd (.first x) settled
        · by_cases some : digits = []
          · -- the first directive does not match
            have alone := read []
            rw [List.append_nil] at alone
            unfold fields fieldAt
            simp only [read more, alone, assign, some, if_true]
          · rw [List.append_assoc, List.cons_append]
            by_cases comma : c = 44
            · subst comma
              rw [x.fields_comma some, x.fields_comma some, fieldAt_settled]
              exact fun _ _ y => settled (.second x some y)
            · rw [x.fields_other some stops comma, x.fields_other some stops comma]
      · rw [assigned_other colon, assigned_other colon]

theorem numeral_snoc (digits : List UInt8) : numeral (digits ++ [49]) = 10 * numeral digits + 1 := by
  unfold numeral
  rw [List.foldl_append]
  rfl

theorem assign_snoc (negative : Bool) (digits : List UInt8) :
    assign negative (digits ++ [49]) ≠ assign negative digits := by
  by_cases none : digits = []
  · subst none
    exact assign_ne_kept (List.cons_ne_nil 49 []) negative
  · have some : digits ++ [49] ≠ [] := by simp
    simp only [assign, if_neg some, if_neg none]
    split
    · rename_i fits'
      split
      · rename_i fits
        intro same
        have value := congrArg BitVec.toNat (Assigned.value.inj same)
        have bound := fits.1
        have bound' := fits'.1
        rw [BitVec.toNat_ofNat, BitVec.toNat_ofNat, Nat.mod_eq_of_lt bound', Nat.mod_eq_of_lt bound,
          numeral_snoc] at value
        omega
      · simp
    · split <;> simp

theorem fieldAt_zeros (n : Nat) : (fieldAt (List.replicate (n + 1) 48)).1 ≠ .kept := by
  have decimal : ∀ b ∈ List.replicate (n + 1) (48 : UInt8), isDigit b := by
    intro b member
    rw [List.eq_of_mem_replicate member]
    decide
  have some : List.replicate (n + 1) (48 : UInt8) ≠ [] := by simp
  have number : fieldAt ([] ++ List.replicate (n + 1) 48) = _ :=
    (NumberText.plain (List.forall_mem_nil _) decimal).fieldAt_end some
  rw [List.nil_append] at number
  rw [number]
  exact assign_ne_kept some false

theorem filler_stops (n : Nat) : (List.replicate n (120 : UInt8)).takeWhile isDigit = [] := by
  cases n <;> rfl

theorem plain_replicate {b : UInt8} (plain : isSpace b = false ∧ b ≠ 43 ∧ b ≠ 45) (n : Nat) :
    Plain (List.replicate n b) := by
  intro c head
  rw [List.eq_of_mem_replicate (List.mem_of_head? head)]
  exact plain

/-- There are `n + 1` bytes that make a difference behind a text, and others. -/
def Depends (text : List UInt8) (n : Nat) : Prop :=
  ∃ rest rest' beyond, rest.length = n + 1 ∧ rest'.length = n + 1 ∧
    assigned (iocString ++ text ++ (rest ++ beyond)) ≠ assigned (iocString ++ text ++ (rest' ++ beyond))

theorem zeros_snoc (n : Nat) : List.replicate n (48 : UInt8) ++ [48] = List.replicate (n + 1) 48 :=
  List.replicate_succ'.symm

theorem depends_word (n : Nat) : Depends [] n := by
  refine ⟨58 :: List.replicate n 48, 120 :: List.replicate n 120, [48], by simp, by simp, ?_⟩
  rw [List.append_nil, List.cons_append, zeros_snoc, assigned_colon, List.cons_append,
    assigned_other (by decide)]
  intro same
  have first := congrArg Prod.fst same
  rw [fields_fst] at first
  exact fieldAt_zeros n first

section

variable {negative : Bool} {digits number : List UInt8}

theorem NumberText.depends_none (x : NumberText negative [] number) (n : Nat) :
    Depends (58 :: number) n := by
  refine ⟨List.replicate (n + 1) 48, List.replicate (n + 1) 120, [], by simp, by simp, ?_⟩
  simp only [List.append_assoc, List.cons_append, assigned_colon, List.append_nil]
  intro same
  have first := congrArg Prod.fst same
  rw [fields_fst, fields_fst, x.fieldAt (.inr (plain_replicate (by decide) _)),
    x.fieldAt (.inr (plain_replicate (by decide) _)), filler_stops] at first
  have none : assign negative ([] ++ []) = .kept := rfl
  have some : [] ++ (List.replicate (n + 1) (48 : UInt8)).takeWhile isDigit ≠ [] := by
    simp [List.replicate_succ, isDigit]
  exact assign_ne_kept some negative (first.trans none)

theorem NumberText.depends_some (x : NumberText negative digits number) (some : digits ≠ [])
    (n : Nat) : Depends (58 :: number) n := by
  refine ⟨44 :: List.replicate n 48, 120 :: List.replicate n 120, [48], by simp, by simp, ?_⟩
  simp only [List.append_assoc, List.cons_append, assigned_colon]
  rw [zeros_snoc, x.fields_comma some, x.fields_other some (by decide) (by decide)]
  intro same
  exact fieldAt_zeros n (congrArg Prod.snd same)

theorem NumberText.depends_second (x : NumberText negative digits number) (some : digits ≠ [])
    {negative' : Bool} {digits' number' : List UInt8} (y : NumberText negative' digits' number')
    (n : Nat) : Depends (58 :: number ++ 44 :: number') n := by
  refine ⟨49 :: List.replicate n 120, List.replicate (n + 1) 120, [], by simp, by simp, ?_⟩
  have one : (49 :: List.replicate n (120 : UInt8)).takeWhile isDigit = [49] := by
    rw [List.takeWhile_cons_of_pos (by decide), filler_stops]
  have digit : Plain (49 :: List.replicate n (120 : UInt8)) := by
    intro b head
    obtain rfl : 49 = b := Option.some.inj head
    decide
  simp only [List.append_assoc, List.cons_append, assigned_colon, x.fields_comma some, List.append_nil]
  intro same
  have last := congrArg Prod.snd same
  dsimp only at last
  rw [y.fieldAt (.inr digit), y.fieldAt (.inr (plain_replicate (by decide) _)), one,
    filler_stops, List.append_nil] at last
  exact assign_snoc negative' digits' last

end

/-- Whatever number of bytes is left, and at least one, they can make a difference. -/
theorem Unfinished.depends {text : List UInt8} (h : Unfinished text) (n : Nat) : Depends text n := by
  cases h with
  | word => exact depends_word n
  | @first negative digits number x =>
      by_cases some : digits = []
      · subst some
        exact x.depends_none n
      · exact x.depends_some some n
  | second x some y => exact x.depends_second some y n

theorem not_unfinished_of_assigned {text : List UInt8} {a : Assigned × Assigned}
    (reads : ∀ more, assigned (iocString ++ text ++ more) = a) : ¬Unfinished text := by
  intro unfinished
  obtain ⟨rest, rest', beyond, _, _, differ⟩ := unfinished.depends 0
  exact differ ((reads _).trans (reads _).symm)

theorem assigned_command {negative negative' : Bool} {digits number digits' number' : List UInt8}
    (x : NumberText negative digits number) (some : digits ≠ [])
    (y : NumberText negative' digits' number') (some' : digits' ≠ []) {stop : UInt8}
    (stops : isDigit stop = false) (more : List UInt8) :
    assigned (iocString ++ 58 :: (number ++ 44 :: (number' ++ stop :: more))) =
      (assign negative digits, assign negative' digits') := by
  have ended : (stop :: more).takeWhile isDigit = [] := by
    rw [List.takeWhile_cons, stops]
    rfl
  rw [assigned_colon, x.fields_comma some, y.fieldAt (.inl some'), ended, List.append_nil]

theorem open_command_iff {text : List UInt8} : Open (iocString ++ text) ↔ Unfinished text := by
  refine ⟨fun unsettled => ?_, .command⟩
  generalize chunk : iocString ++ text = c at unsettled
  cases unsettled with
  | word begins proper =>
      subst chunk
      have short := begins.length_le
      rw [List.length_append] at short
      obtain rfl := List.length_eq_zero_iff.mp (show text.length = 0 by omega)
      exact absurd (List.append_nil _) proper
  | command unfinished => exact List.append_cancel_left chunk ▸ unfinished

/-- A buffer with the given bytes behind the first `n`. -/
def Buf.withRest (n : Nat) (rest : List UInt8) (whole : n + rest.length = 1025) : Buf where
  bytes := List.replicate n 0 ++ rest
  length_eq := by rw [List.length_append, List.length_replicate, whole]

theorem Buf.drop_withRest {n : Nat} {rest : List UInt8} (whole : n + rest.length = 1025) :
    (Buf.withRest n rest whole).bytes.drop n = rest := by
  unfold withRest
  rw [List.drop_left' List.length_replicate]

theorem received_eq {chunk : List UInt8} (nonempty : chunk ≠ []) (short : chunk.length ≤ bufLen)
    (buf : Buf) :
    AppendPc.received buf chunk =
      if iocString <+: chunk ++ buf.bytes.drop chunk.length then
        .parse (buf.fill chunk) chunk.length 0
      else .lock (buf.fill chunk) chunk.length := by
  have scan := @findIocCommand_eq (buf.fill chunk).bytes bufLen (by decide)
  rw [buf.fill_bytes short] at scan
  unfold AppendPc.received
  rw [if_neg nonempty]
  dsimp only
  rw [buf.fill_bytes short, scan]
  split
  · rfl
  · rfl

theorem treatment_eq {chunk : List UInt8} (nonempty : chunk ≠ []) (short : chunk.length ≤ bufLen)
    (buf : Buf) (env : ParseEnv) :
    treatment buf chunk env =
      if iocString <+: chunk ++ buf.bytes.drop chunk.length then
        some (.ioctl (env.store (assigned (chunk ++ (buf.bytes.drop chunk.length ++ env.beyond)))))
      else some (.writeData chunk) := by
  have bytes := buf.fill_bytes short
  have resumed : (AppendPc.loop buf).resume (.bytes chunk) = some (.received buf chunk) :=
    if_pos short
  have received := received_eq nonempty short buf
  unfold treatment
  rw [resumed, Option.bind_some]
  by_cases word : iocString <+: chunk ++ buf.bytes.drop chunk.length
  · rw [if_pos word] at received
    rw [received, if_pos word, ← List.append_assoc, ← bytes,
      ← parseIocCommand_eq env (buf.fill chunk).bytes 0]
    rfl
  · rw [if_neg word] at received
    have written : (buf.fill chunk).bytes.take chunk.length = chunk := buf.take_fill short
    rw [received, if_neg word]
    change some (Request.writeData ((buf.fill chunk).bytes.take chunk.length)) = _
    rw [written]

theorem word_begins (text rest : List UInt8) : iocString <+: iocString ++ text ++ rest := by
  rw [List.append_assoc]
  exact List.prefix_append _ _

theorem no_word {chunk : List UInt8} (without : ¬iocString <+: chunk) (closed : ¬Open chunk)
    (rest : List UInt8) : ¬iocString <+: chunk ++ rest := by
  intro word
  rcases List.prefix_or_prefix_of_prefix word (List.prefix_append chunk rest) with whole | begins
  · exact without whole
  · apply closed
    refine .word begins ?_
    rintro rfl
    exact without List.prefix_rfl

theorem treatment_closed {chunk : List UInt8} (nonempty : chunk ≠ []) (short : chunk.length ≤ bufLen)
    (closed : ¬Open chunk) (buf buf' : Buf) (env : ParseEnv) :
    treatment buf chunk env = treatment buf' chunk env := by
  rw [treatment_eq nonempty short, treatment_eq nonempty short]
  by_cases whole : iocString <+: chunk
  · obtain ⟨text, rfl⟩ := whole
    have settled : ¬Unfinished text := fun unfinished => closed (.command unfinished)
    rw [if_pos (word_begins text _), if_pos (word_begins text _), assigned_settled settled,
      assigned_settled settled]
  · rw [if_neg (no_word whole closed _), if_neg (no_word whole closed _)]

theorem rest_of_word {chunk tail : List UInt8} (split : chunk ++ tail = iocString) :
    chunk.length + (tail ++ List.replicate 1007 0).length = 1025 ∧
      iocString <+: chunk ++ (tail ++ List.replicate 1007 0) := by
  have lengths := congrArg List.length split
  rw [List.length_append, length_iocString] at lengths
  constructor
  · rw [List.length_append, List.length_replicate]
    omega
  · rw [← List.append_assoc, split]
    exact List.prefix_append _ _

/-- A chunk inside the word: the rest of the word may be left over, or not. -/
theorem treatment_word {chunk : List UInt8} (nonempty : chunk ≠ []) (short : chunk.length ≤ bufLen)
    (begins : chunk <+: iocString) (proper : chunk ≠ iocString) (env : ParseEnv) :
    ∃ buf buf', treatment buf chunk env ≠ treatment buf' chunk env := by
  obtain ⟨tail, split⟩ := begins
  have left : tail ≠ [] := by
    rintro rfl
    exact proper (by simpa using split)
  obtain ⟨whole, word⟩ := rest_of_word split
  have blank : chunk.length + (List.replicate (1007 + tail.length) (0 : UInt8)).length = 1025 := by
    rw [List.length_append, List.length_replicate] at whole
    rw [List.length_replicate]
    omega
  refine ⟨.withRest _ _ whole, .withRest _ _ blank, ?_⟩
  rw [treatment_eq nonempty short, treatment_eq nonempty short, Buf.drop_withRest, Buf.drop_withRest]
  have noWord : ¬iocString <+: chunk ++ List.replicate (1007 + tail.length) 0 := by
    rw [← split, List.prefix_append_right_inj]
    intro zeros
    obtain ⟨b, tail, rfl⟩ := List.exists_cons_of_ne_nil left
    have zero : b = 0 := List.eq_of_mem_replicate (zeros.subset List.mem_cons_self)
    have plain : iocString.all (· ≠ 0) = true := by decide
    have member : b ∈ iocString := by
      rw [← split]
      simp
    exact absurd zero (of_decide_eq_true (List.all_eq_true.mp plain b member))
  rw [if_pos word, if_neg noWord]
  intro same
  cases Option.some.inj same

theorem treatment_command {text : List UInt8} (short : (iocString ++ text).length ≤ bufLen)
    (unfinished : Unfinished text) :
    ∃ buf buf' env, treatment buf (iocString ++ text) env ≠ treatment buf' (iocString ++ text) env := by
  have nonempty : iocString ++ text ≠ [] := by simp [iocString]
  simp only [bufLen] at short
  obtain ⟨rest, rest', beyond, length, length', differ⟩ :=
    unfinished.depends (1024 - (iocString ++ text).length)
  have whole : (iocString ++ text).length + rest.length = 1025 := by omega
  have whole' : (iocString ++ text).length + rest'.length = 1025 := by omega
  by_contra same
  simp only [not_exists, ne_eq, not_not] at same
  apply differ
  apply ParseEnv.eq_of_store
  intro fresh unfit _
  have equal := same (.withRest _ _ whole) (.withRest _ _ whole') ⟨fresh, unfit, beyond⟩
  rw [treatment_eq nonempty short, treatment_eq nonempty short, Buf.drop_withRest,
    Buf.drop_withRest, if_pos (word_begins text _), if_pos (word_begins text _),
    Option.some.injEq, Request.ioctl.injEq] at equal
  exact equal

/-- What was in the buffer makes no difference to a chunk exactly when the chunk
    is not open. -/
theorem treatment_same_iff {chunk : List UInt8} (nonempty : chunk ≠ [])
    (short : chunk.length ≤ bufLen) :
    (∀ buf buf' env, treatment buf chunk env = treatment buf' chunk env) ↔ ¬Open chunk := by
  constructor
  · intro same unsettled
    cases unsettled with
    | word begins proper =>
        obtain ⟨buf, buf', differ⟩ := treatment_word nonempty short begins proper ⟨⟨0, 0⟩, [], []⟩
        exact differ (same buf buf' _)
    | command unfinished =>
        obtain ⟨buf, buf', env, differ⟩ := treatment_command short unfinished
        exact differ (same buf buf' env)
  · exact treatment_closed nonempty short

/-- The offset 2^32 does not fit.  What is stored for it may change with a stale digit
    behind it, and not behind a newline. -/
theorem treatment_same_iff_large :
    let text : List UInt8 := [58, 48, 44, 52, 50, 57, 52, 57, 54, 55, 50, 57, 54]
    (¬∀ buf buf' env, treatment buf (iocString ++ text) env = treatment buf' (iocString ++ text) env) ∧
      ∀ buf buf' env, treatment buf (iocString ++ (text ++ [newline])) env =
        treatment buf' (iocString ++ (text ++ [newline])) env := by
  have x : NumberText false [48] ([] ++ [48]) :=
    .plain (List.forall_mem_nil _) (List.forall_mem_singleton.mpr rfl)
  have y : NumberText false [52, 50, 57, 52, 57, 54, 55, 50, 57, 54]
      ([] ++ [52, 50, 57, 52, 57, 54, 55, 50, 57, 54]) :=
    .plain (List.forall_mem_nil _) (by decide +kernel)
  constructor
  · intro same
    exact (treatment_same_iff (by decide) (by decide)).mp same
      (.command (.second x (List.cons_ne_nil _ _) y))
  · refine (treatment_same_iff (by decide) (by decide)).mpr fun unsettled => ?_
    exact not_unfinished_of_assigned
      (fun more => assigned_command x (List.cons_ne_nil _ _) y (List.cons_ne_nil _ _) rfl more)
      (open_command_iff.mp unsettled)

/-- The first letter of the word, alone in a chunk. -/
theorem stale_bytes_decide :
    ¬∀ chunk : List UInt8, chunk ≠ [] → chunk.length ≤ bufLen →
      ∀ buf buf' env, treatment buf chunk env = treatment buf' chunk env := by
  intro claim
  have begins : [65] <+: iocString := ⟨iocString.tail, rfl⟩
  obtain ⟨buf, buf', differ⟩ :=
    treatment_word (by decide) (by decide) begins (by decide) ⟨⟨0, 0⟩, [], []⟩
  exact differ (claim [65] (by decide) (by decide) buf buf' _)

end Aesd.Server
