import Aesd.Lib.Scan
import Aesd.Server.Command
import Mathlib.Data.List.TakeWhile

/-! # What a parse assigns

`sscanfSeekto` with its surroundings taken out: `assigned` says of either field
whether the text gives it a value, and which.  A directive looks no further than
the character that stops it, so text that goes on behind that character changes
nothing.
-/

namespace Aesd.Server

open Aesd.Lib

/-- What a directive `%u` does to its field. -/
inductive Assigned where
  /-- The directive is not reached, or does not match. -/
  | kept
  /-- The numeral does not fit. -/
  | unfit (negative : Bool) (digits : List UInt8)
  | value (v : BitVec 32)
  deriving Repr, DecidableEq

/-- The field afterwards. -/
def Assigned.get (fresh : BitVec 32) (unfit : Bool → List UInt8 → BitVec 32) : Assigned → BitVec 32
  | .kept => fresh
  | .unfit negative digits => unfit negative digits
  | .value v => v

/-- A numeral with its sign has an `unsigned` value. -/
def Fits (negative : Bool) (digits : List UInt8) : Prop :=
  numeral digits < 2 ^ 32 ∧ (negative → numeral digits = 0)

instance (negative : Bool) (digits : List UInt8) : Decidable (Fits negative digits) :=
  inferInstanceAs (Decidable (_ ∧ _))

/-- The sign and the digits that `%u` reads, and the rest of the text. -/
def numberAt (text : List UInt8) : Bool × List UInt8 × List UInt8 :=
  let (negative, text) := scanSign (text.dropWhile isSpace)
  (negative, text.takeWhile isDigit, text.dropWhile isDigit)

def assign (negative : Bool) (digits : List UInt8) : Assigned :=
  if digits = [] then .kept
  else if Fits negative digits then .value (BitVec.ofNat 32 (numeral digits))
  else .unfit negative digits

/-- `%u`: what it does to the field, and the rest of the text. -/
def fieldAt (text : List UInt8) : Assigned × List UInt8 :=
  let (negative, digits, rest) := numberAt text
  (assign negative digits, rest)

/-- The two fields behind the word and the colon. -/
def fields (text : List UInt8) : Assigned × Assigned :=
  let (first, text) := fieldAt text
  if first = .kept then (.kept, .kept)
  else match scanLiteral [44] text with
    | none => (first, .kept)
    | some text => (first, (fieldAt text).1)

/-- `sscanf(text, AESD_SOCKET_IOC_STRING ":%u,%u\n", …)`, field by field. -/
def assigned (text : List UInt8) : Assigned × Assigned :=
  match scanLiteral (iocString ++ [58]) text with
  | none => (.kept, .kept)
  | some text => fields text

/-- The struct after a parse. -/
def ParseEnv.store (env : ParseEnv) (a : Assigned × Assigned) : Seekto where
  writeCmd := a.1.get env.fresh.writeCmd env.unfitValue
  writeCmdOffset := a.2.get env.fresh.writeCmdOffset env.unfitValue

theorem scanUnsigned_eq (unfit : Bool → List UInt8 → BitVec 32) (text : List UInt8) :
    scanUnsigned unfit text =
      match fieldAt text with
      | (.kept, _) => none
      | (.unfit negative digits, rest) => some (unfit negative digits, rest)
      | (.value v, rest) => some (v, rest) := by
  unfold scanUnsigned fieldAt numberAt assign
  dsimp only
  by_cases blank : (scanSign (text.dropWhile isSpace)).2.takeWhile isDigit = []
  · simp only [blank, if_true]
  · simp only [if_neg blank]
    by_cases fits : Fits (scanSign (text.dropWhile isSpace)).1
        ((scanSign (text.dropWhile isSpace)).2.takeWhile isDigit)
    · rw [if_pos fits]
      exact if_pos fits
    · rw [if_neg fits]
      exact if_neg fits

theorem sscanfSeekto_eq (env : ParseEnv) (text : List UInt8) :
    sscanfSeekto env text = env.store (assigned text) := by
  unfold sscanfSeekto assigned
  cases scanLiteral (iocString ++ [58]) text with
  | none => rfl
  | some text =>
      dsimp only
      unfold fields
      rw [scanUnsigned_eq]
      obtain ⟨first, text⟩ := fieldAt text
      cases first with
      | kept => rfl
      | unfit | value =>
          dsimp only
          simp only [reduceCtorEq, if_false]
          cases scanLiteral [44] text with
          | none => rfl
          | some text =>
              dsimp only
              rw [scanUnsigned_eq]
              obtain ⟨second, rest⟩ := fieldAt text
              cases second <;> rfl

theorem unfitValue_nil (fresh : Seekto) (beyond : List UInt8) (negative : Bool)
    (digits : List UInt8) : ParseEnv.unfitValue ⟨fresh, [], beyond⟩ negative digits = 0 := rfl

theorem unfitValue_one (fresh : Seekto) (beyond : List UInt8) (negative negative' : Bool)
    (digits digits' : List UInt8) :
    ParseEnv.unfitValue ⟨fresh, [((negative, digits), 1)], beyond⟩ negative' digits' =
      if negative' = negative ∧ digits' = digits then 1 else 0 := by
  rw [ParseEnv.unfitValue, List.lookup_cons]
  by_cases same : negative' = negative ∧ digits' = digits
  · simp [same]
  · have apart : ((negative', digits') == (negative, digits)) = false := by simpa using same
    rw [apart, if_neg same]
    rfl

/-- Different assignments can be told apart by what the fields held before and by
    what is stored for a numeral that does not fit. -/
theorem Assigned.eq_of_get {a b : Assigned}
    (same : ∀ fresh (env : ParseEnv), a.get fresh env.unfitValue = b.get fresh env.unfitValue) :
    a = b := by
  have low := same 0 ⟨⟨0, 0⟩, [], []⟩
  have high := same 1 ⟨⟨0, 0⟩, [], []⟩
  -- a table with one entry tells its numeral from everything else
  have marked : ∀ negative digits, a = .unfit negative digits ∨ b = .unfit negative digits → a = b := by
    intro negative digits
    have one := same 0 ⟨⟨0, 0⟩, [((negative, digits), 1)], []⟩
    rintro (rfl | rfl)
    · cases b <;> simp only [get, unfitValue_nil, unfitValue_one] at low high one <;> grind
    · cases a <;> simp only [get, unfitValue_nil, unfitValue_one] at low high one <;> grind
  cases a with
  | unfit negative digits => exact marked _ _ (.inl rfl)
  | kept | value =>
      cases b with
      | unfit negative digits => exact marked _ _ (.inr rfl)
      | kept | value => simp only [get] at low high; grind

theorem ParseEnv.eq_of_store {a b : Assigned × Assigned}
    (same : ∀ fresh unfit beyond, ParseEnv.store ⟨fresh, unfit, beyond⟩ a =
      ParseEnv.store ⟨fresh, unfit, beyond⟩ b) : a = b := by
  apply Prod.ext
  · apply Assigned.eq_of_get
    intro fresh env
    exact congrArg Seekto.writeCmd (same ⟨fresh, 0⟩ env.unfit [])
  · apply Assigned.eq_of_get
    intro fresh env
    exact congrArg Seekto.writeCmdOffset (same ⟨0, fresh⟩ env.unfit [])

theorem scanLiteral_cut {literal : List UInt8} (plain : 0 ∉ literal) (text : List UInt8) :
    scanLiteral literal (Scan.cut 0 text) = (scanLiteral literal text).map (Scan.cut 0) := by
  induction literal generalizing text with
  | nil => cases text <;> rfl
  | cons c literal ih =>
      cases text with
      | nil => rfl
      | cons b text =>
          rw [Scan.cut_cons]
          split
          · rename_i terminator
            have other : b ≠ c := by grind
            simp only [scanLiteral, if_neg other, Option.map_none]
          · simp only [scanLiteral]
            split
            · exact ih (by grind) text
            · rfl

theorem scanSign_cut (text : List UInt8) :
    scanSign (Scan.cut 0 text) = ((scanSign text).1, Scan.cut 0 (scanSign text).2) := by
  cases text with
  | nil => rfl
  | cons b text =>
      simp only [Scan.cut_cons, scanSign]
      grind [scanSign, Scan.cut_cons]

theorem numberAt_cut (text : List UInt8) :
    numberAt (Scan.cut 0 text) =
      ((numberAt text).1, (numberAt text).2.1, Scan.cut 0 (numberAt text).2.2) := by
  unfold numberAt
  rw [Scan.dropWhile_cut (by decide), scanSign_cut]
  dsimp only
  rw [Scan.takeWhile_cut (by decide), Scan.dropWhile_cut (by decide)]

theorem fieldAt_cut (text : List UInt8) :
    fieldAt (Scan.cut 0 text) = ((fieldAt text).1, Scan.cut 0 (fieldAt text).2) := by
  unfold fieldAt
  rw [numberAt_cut]

theorem fields_cut (text : List UInt8) : fields (Scan.cut 0 text) = fields text := by
  unfold fields
  rw [fieldAt_cut]
  dsimp only
  rw [scanLiteral_cut (by decide)]
  cases scanLiteral [44] (fieldAt text).2 with
  | none => rfl
  | some text =>
      dsimp only [Option.map_some]
      rw [fieldAt_cut]

theorem assigned_cut (text : List UInt8) : assigned (Scan.cut 0 text) = assigned text := by
  unfold assigned
  rw [scanLiteral_cut (by decide)]
  cases scanLiteral (iocString ++ [58]) text with
  | none => rfl
  | some text => exact fields_cut text

/-- The parse reads the buffer from its start and goes on behind it. -/
theorem parseIocCommand_eq (env : ParseEnv) (buf : List UInt8) (startpos : Int) :
    parseIocCommand env buf startpos = env.store (assigned (buf ++ env.beyond)) := by
  rw [← assigned_cut, ← sscanfSeekto_eq]
  rfl

theorem scanSign_append {text : List UInt8} (some : text ≠ []) (more : List UInt8) :
    scanSign (text ++ more) = ((scanSign text).1, (scanSign text).2 ++ more) := by
  cases text with
  | nil => exact absurd rfl some
  | cons b text =>
      simp only [List.cons_append, scanSign]
      split
      · rfl
      · split <;> rfl

theorem numberAt_append {text digits rest : List UInt8} {negative : Bool}
    (read : numberAt text = (negative, digits, rest)) (stopped : rest ≠ []) (more : List UInt8) :
    numberAt (text ++ more) = (negative, digits, rest ++ more) := by
  unfold numberAt at read ⊢
  simp only [Prod.mk.injEq] at read
  obtain ⟨rfl, rfl, rfl⟩ := read
  have some : text.dropWhile isSpace ≠ [] := by
    intro none
    exact stopped (by rw [none]; rfl)
  rw [Scan.dropWhile_append_of_stopped some, scanSign_append some]
  dsimp only
  rw [Scan.takeWhile_append_of_stopped stopped, Scan.dropWhile_append_of_stopped stopped]

/-- White space, an optional sign and decimal digits, perhaps none yet. -/
inductive NumberText : Bool → List UInt8 → List UInt8 → Prop where
  | plain {spaces digits} (blank : ∀ b ∈ spaces, isSpace b) (decimal : ∀ b ∈ digits, isDigit b) :
      NumberText false digits (spaces ++ digits)
  | plus {spaces digits} (blank : ∀ b ∈ spaces, isSpace b) (decimal : ∀ b ∈ digits, isDigit b) :
      NumberText false digits (spaces ++ 43 :: digits)
  | minus {spaces digits} (blank : ∀ b ∈ spaces, isSpace b) (decimal : ∀ b ∈ digits, isDigit b) :
      NumberText true digits (spaces ++ 45 :: digits)

theorem NumberText.decimal {negative : Bool} {digits text : List UInt8}
    (h : NumberText negative digits text) : ∀ b ∈ digits, isDigit b := by
  cases h <;> assumption

theorem numberAt_sound (text : List UInt8) :
    ∃ front, NumberText (numberAt text).1 (numberAt text).2.1 front ∧
      text = front ++ (numberAt text).2.2 ∧ ∀ b ∈ (numberAt text).2.2.head?, isDigit b = false := by
  have blank : ∀ b ∈ text.takeWhile isSpace, isSpace b := fun b => List.mem_takeWhile_imp
  have decimal : ∀ b ∈ (scanSign (text.dropWhile isSpace)).2.takeWhile isDigit, isDigit b :=
    fun b => List.mem_takeWhile_imp
  have whole := (List.takeWhile_append_dropWhile (p := isSpace) (l := text)).symm
  have number := (List.takeWhile_append_dropWhile (p := isDigit)
    (l := (scanSign (text.dropWhile isSpace)).2)).symm
  have stopped : ∀ b ∈ (numberAt text).2.2.head?, isDigit b = false := by
    intro b head
    have result := List.head?_dropWhile_not isDigit (scanSign (text.dropWhile isSpace)).2
    change ((scanSign (text.dropWhile isSpace)).2.dropWhile isDigit).head? = some b at head
    rw [head] at result
    simpa using result
  unfold numberAt at stopped ⊢
  dsimp only at stopped ⊢
  generalize text.dropWhile isSpace = signed at *
  cases signed with
  | nil => exact ⟨_, .plain blank decimal, by simpa [scanSign] using whole, stopped⟩
  | cons c unsigned =>
      by_cases plus : c = 43
      · subst plus
        have rest : scanSign (43 :: unsigned) = (false, unsigned) := rfl
        rw [rest] at number decimal stopped ⊢
        exact ⟨_, .plus blank decimal, by rw [List.append_assoc, List.cons_append, ← number, ← whole], stopped⟩
      · by_cases minus : c = 45
        · subst minus
          have rest : scanSign (45 :: unsigned) = (true, unsigned) := rfl
          rw [rest] at number decimal stopped ⊢
          exact ⟨_, .minus blank decimal, by rw [List.append_assoc, List.cons_append, ← number, ← whole], stopped⟩
        · have rest : scanSign (c :: unsigned) = (false, c :: unsigned) := by
            simp only [scanSign, if_neg plus, if_neg minus]
          rw [rest] at number decimal stopped ⊢
          exact ⟨_, .plain blank decimal, by rw [List.append_assoc, ← number, ← whole], stopped⟩

/-- A character with which digits may start, or nothing of a number. -/
def Plain (text : List UInt8) : Prop := ∀ b ∈ text.head?, isSpace b = false ∧ b ≠ 43 ∧ b ≠ 45

theorem plain_digits {digits : List UInt8} (some : digits ≠ []) (decimal : ∀ b ∈ digits, isDigit b)
    (more : List UInt8) : Plain (digits ++ more) := by
  cases digits with
  | nil => exact absurd rfl some
  | cons d digits =>
      intro b head
      obtain rfl : d = b := Option.some.inj head
      obtain ⟨space, plus, minus, _⟩ := isDigit_plain (decimal d List.mem_cons_self)
      exact ⟨space, plus, minus⟩

theorem Plain.scan {text : List UInt8} (plain : Plain text) :
    text.dropWhile isSpace = text ∧ scanSign text = (false, text) := by
  cases text with
  | nil => exact ⟨rfl, rfl⟩
  | cons b text =>
      obtain ⟨space, plus, minus⟩ := plain b rfl
      constructor
      · rw [List.dropWhile_cons, space]
        rfl
      · simp only [scanSign, if_neg plus, if_neg minus]

theorem NumberText.numberAt {negative : Bool} {digits text : List UInt8}
    (h : NumberText negative digits text) {more : List UInt8} (solid : digits ≠ [] ∨ Plain more) :
    numberAt (text ++ more) = (negative, digits ++ more.takeWhile isDigit, more.dropWhile isDigit) := by
  have digit := h.decimal
  have plain : Plain (digits ++ more) := by
    rcases solid with some | plain
    · exact plain_digits some digit more
    · by_cases none : digits = []
      · simpa [none] using plain
      · exact plain_digits none digit more
  have taken : (digits ++ more).takeWhile isDigit = digits ++ more.takeWhile isDigit :=
    List.takeWhile_append_of_pos digit
  have left : (digits ++ more).dropWhile isDigit = more.dropWhile isDigit :=
    List.dropWhile_append_of_pos digit
  unfold Server.numberAt
  cases h with
  | plain blank _ =>
      rw [List.append_assoc, List.dropWhile_append_of_pos blank, plain.scan.1, plain.scan.2]
      dsimp only
      rw [taken, left]
  | plus blank _ =>
      rw [List.append_assoc, List.cons_append, List.dropWhile_append_of_pos blank]
      change (false, (digits ++ more).takeWhile isDigit, (digits ++ more).dropWhile isDigit) = _
      rw [taken, left]
  | minus blank _ =>
      rw [List.append_assoc, List.cons_append, List.dropWhile_append_of_pos blank]
      change (true, (digits ++ more).takeWhile isDigit, (digits ++ more).dropWhile isDigit) = _
      rw [taken, left]

end Aesd.Server
