import Mathlib.Algebra.Ring.Nat
import Mathlib.Data.List.Infix
import Mathlib.Tactic.Common

/-! # The seek command in a received buffer

`find_ioc_command`, `parse_ioc_command` and `find_eoc` of `aesdsocket.c`.  The
scan is given the capacity of the buffer, not what was received, and compares at
the buffer's start in every round; the parse ignores the position it is given.
`sscanf` leaves a field alone whose directive does not match.
-/

namespace Aesd.Server

def newline : UInt8 := 10

def ENOENT : Int := 2

/-- `AESD_SOCKET_IOC_STRING`, the bytes of `AESDCHAR_IOCSEEKTO`. -/
def iocString : List UInt8 :=
  [65, 69, 83, 68, 67, 72, 65, 82, 95, 73, 79, 67, 83, 69, 69, 75, 84, 79]

/-- `struct aesd_seekto`. -/
structure Seekto where
  writeCmd : BitVec 32
  writeCmdOffset : BitVec 32
  deriving Repr, DecidableEq

/-- `for(size_t i = 0; i < buf_len - s; i++) if(!memcmp(AESD_SOCKET_IOC_STRING, buf, s)) return i`,
    with the rounds still to go. -/
def searchIoc (buf : List UInt8) : Nat → Nat → Int
  | _, 0 => -ENOENT
  | i, rounds + 1 => if buf.take iocString.length = iocString then i else searchIoc buf (i + 1) rounds

/-- `find_ioc_command`, for a `buf_len` that is not negative. -/
def findIocCommand (buf : List UInt8) (bufLen : Nat) : Int :=
  if iocString.length > bufLen then -ENOENT
  else searchIoc buf 0 (bufLen - iocString.length)

/-- `isspace` in the C locale. -/
def isSpace (b : UInt8) : Bool := b = 32 || (9 ≤ b && b ≤ 13)

def isDigit (b : UInt8) : Bool := 48 ≤ b && b ≤ 57

/-- The number that decimal digits denote. -/
def numeral (digits : List UInt8) : Nat :=
  digits.foldl (fun value digit => 10 * value + (digit.toNat - 48)) 0

/-- An optional sign: whether it is a minus, and the rest. -/
def scanSign : List UInt8 → Bool × List UInt8
  | [] => (false, [])
  | b :: text => if b = 43 then (false, text) else if b = 45 then (true, text) else (false, b :: text)

/-- The directive `%u`: the value it stores and the rest of the text.  What is
    stored for a numeral that does not fit is left to the library, which goes by
    the sign and the digits. -/
def scanUnsigned (unfit : Bool → List UInt8 → BitVec 32) (text : List UInt8) :
    Option (BitVec 32 × List UInt8) :=
  let (negative, text) := scanSign (text.dropWhile isSpace)
  let digits := text.takeWhile isDigit
  if digits = [] then none
  else if numeral digits < 2 ^ 32 ∧ (negative → numeral digits = 0) then
    some (BitVec.ofNat 32 (numeral digits), text.dropWhile isDigit)
  else some (unfit negative digits, text.dropWhile isDigit)

/-- Characters of a format that stand for themselves. -/
def scanLiteral : List UInt8 → List UInt8 → Option (List UInt8)
  | [], text => some text
  | _ :: _, [] => none
  | c :: literal, b :: text => if b = c then scanLiteral literal text else none

/-- What a parse finds around it: the fields of the struct that `malloc` returns,
    a table of what `%u` stores for numerals that do not fit, and the memory
    behind the buffer. -/
structure ParseEnv where
  fresh : Seekto
  unfit : List ((Bool × List UInt8) × BitVec 32)
  beyond : List UInt8
  deriving Repr, DecidableEq

/-- The entry of the table; a numeral that has none is stored as 0. -/
def ParseEnv.unfitValue (env : ParseEnv) (negative : Bool) (digits : List UInt8) : BitVec 32 :=
  (env.unfit.lookup (negative, digits)).getD 0

/-- `sscanf(buf, AESD_SOCKET_IOC_STRING ":%u,%u\n", &write_cmd, &write_cmd_offset)`. -/
def sscanfSeekto (env : ParseEnv) (text : List UInt8) : Seekto :=
  match scanLiteral (iocString ++ [58]) text with
  | none => env.fresh
  | some text =>
    match scanUnsigned env.unfitValue text with
    | none => env.fresh
    | some (writeCmd, text) =>
      match scanLiteral [44] text with
      | none => { env.fresh with writeCmd }
      | some text =>
        match scanUnsigned env.unfitValue text with
        | none => { env.fresh with writeCmd }
        | some (writeCmdOffset, _) => ⟨writeCmd, writeCmdOffset⟩

/-- `parse_ioc_command`.  The string that `sscanf` reads ends at the first NUL. -/
def parseIocCommand (env : ParseEnv) (buf : List UInt8) (_startpos : Int) : Seekto :=
  sscanfSeekto env ((buf ++ env.beyond).takeWhile (· ≠ 0))

/-- `for(s = ioc_command_pos; s < buf_len; s++) if(buf[s] == '\n') return s`, with
    the rounds still to go. -/
def searchEoc (buf : List UInt8) : Nat → Nat → Int
  | _, 0 => -ENOENT
  | s, rounds + 1 => if buf[s]? = some newline then s else searchEoc buf (s + 1) rounds

/-- `find_eoc`. -/
def findEoc (buf : List UInt8) (bufLen iocCommandPos : Nat) : Int :=
  searchEoc buf iocCommandPos (bufLen - iocCommandPos)

theorem searchIoc_eq (buf : List UInt8) (i rounds : Nat) :
    searchIoc buf i rounds =
      if 0 < rounds ∧ buf.take iocString.length = iocString then (i : Int) else -ENOENT := by
  induction rounds generalizing i with
  | zero => rfl
  | succ rounds ih =>
      rw [searchIoc]
      by_cases word : buf.take iocString.length = iocString
      · simp [word]
      · simp [word, ih]

/-- The scan tells whether the buffer starts with the word. -/
theorem findIocCommand_eq {buf : List UInt8} {bufLen : Nat} (room : iocString.length < bufLen) :
    findIocCommand buf bufLen = if iocString <+: buf then 0 else -ENOENT := by
  have start : buf.take iocString.length = iocString ↔ iocString <+: buf := by
    rw [List.prefix_iff_eq_take, eq_comm]
  rw [findIocCommand, if_neg (by omega), searchIoc_eq]
  simp only [Nat.sub_pos_of_lt room, true_and, start]
  rfl

theorem scanLiteral_append (literal text : List UInt8) :
    scanLiteral literal (literal ++ text) = some text := by
  induction literal with
  | nil => cases text <;> rfl
  | cons c literal ih => simp [scanLiteral, ih]

/-- Decimal digits, at least one. -/
structure IsNumeral (digits : List UInt8) (value : BitVec 32) : Prop where
  nonempty : digits ≠ []
  decimal : ∀ d ∈ digits, isDigit d
  denotes : numeral digits = value.toNat

theorem isDigit_plain {d : UInt8} (digit : isDigit d) :
    isSpace d = false ∧ d ≠ 43 ∧ d ≠ 45 ∧ d ≠ 0 := by
  have lower : 48 ≤ d := by simp_all [isDigit]
  refine ⟨?_, ?_, ?_, ?_⟩
  · simp only [isSpace, Bool.or_eq_false_iff, decide_eq_false_iff_not, Bool.and_eq_false_iff]
    constructor
    · rintro rfl
      exact absurd lower (by decide)
    · exact .inr fun upper => absurd (UInt8.le_trans lower upper) (by decide)
  all_goals
    rintro rfl
    exact absurd lower (by decide)

theorem scanUnsigned_numeral {digits : List UInt8} {value : BitVec 32}
    (reads : IsNumeral digits value) (unfit : Bool → List UInt8 → BitVec 32) {b : UInt8} (stops : isDigit b = false)
    (text : List UInt8) :
    scanUnsigned unfit (digits ++ b :: text) = some (value, b :: text) := by
  have digit := reads.decimal
  have fits : numeral digits < 2 ^ 32 := by
    rw [reads.denotes]
    exact value.isLt
  have taken : (digits ++ b :: text).takeWhile isDigit = digits := by
    rw [List.takeWhile_append_of_pos digit, List.takeWhile_cons, stops]
    simp
  have left : (digits ++ b :: text).dropWhile isDigit = b :: text := by
    rw [List.dropWhile_append_of_pos digit, List.dropWhile_cons, stops]
    simp
  have unsigned : scanSign ((digits ++ b :: text).dropWhile isSpace) =
      (false, digits ++ b :: text) := by
    cases digits with
    | nil => exact absurd rfl reads.nonempty
    | cons d later =>
        obtain ⟨space, plus, minus, _⟩ := isDigit_plain (digit d List.mem_cons_self)
        rw [List.cons_append, List.dropWhile_cons, space]
        simp [scanSign, plus, minus]
  have stored : BitVec.ofNat 32 (numeral digits) = value := by
    rw [reads.denotes, BitVec.ofNat_toNat, BitVec.setWidth_eq]
  simp only [scanUnsigned, unsigned, taken, left, if_neg reads.nonempty, stored]
  exact if_pos ⟨fits, nofun⟩

/-- A complete command: the word, two numerals and the newline. -/
def commandText (writeCmd writeCmdOffset : List UInt8) : List UInt8 :=
  iocString ++ [58] ++ writeCmd ++ [44] ++ writeCmdOffset ++ [newline]

/-- The parse reads back a complete command whatever stands behind it. -/
theorem parseIocCommand_commandText {x y : List UInt8} {st : Seekto}
    (first : IsNumeral x st.writeCmd) (second : IsNumeral y st.writeCmdOffset) (env : ParseEnv)
    (behind : List UInt8) (startpos : Int) :
    parseIocCommand env (commandText x y ++ behind) startpos = st := by
  have visible : ∀ b ∈ commandText x y, (b ≠ 0 : Bool) := by
    have digits : ∀ {ds : List UInt8} {v : BitVec 32}, IsNumeral ds v → ∀ b ∈ ds, b ≠ 0 :=
      fun reads b member => (isDigit_plain (reads.decimal b member)).2.2.2
    intro b member
    simp only [commandText, List.mem_append, List.mem_singleton] at member
    rw [decide_eq_true_eq]
    rcases member with ((((word | rfl) | cmd) | rfl) | off) | rfl
    · have plain : iocString.all (· ≠ 0) = true := by decide
      exact of_decide_eq_true (List.all_eq_true.mp plain b word)
    · decide
    · exact digits first b cmd
    · decide
    · exact digits second b off
    · decide
  rw [parseIocCommand, List.append_assoc, List.takeWhile_append_of_pos visible]
  generalize ((behind ++ env.beyond).takeWhile fun b => b ≠ 0) = rest
  have shape : commandText x y ++ rest =
      (iocString ++ [58]) ++ (x ++ 44 :: (y ++ newline :: rest)) := by
    simp [commandText]
  have comma : scanLiteral [44] (44 :: (y ++ newline :: rest)) = some (y ++ newline :: rest) :=
    scanLiteral_append [44] _
  rw [shape]
  simp only [sscanfSeekto, scanLiteral_append, scanUnsigned_numeral first _ (b := 44) rfl, comma,
    scanUnsigned_numeral second _ (b := newline) rfl]

theorem searchEoc_nonneg_iff (buf : List UInt8) (s rounds : Nat) :
    0 ≤ searchEoc buf s rounds ↔ newline ∈ (buf.drop s).take rounds := by
  induction rounds generalizing s with
  | zero => simp [searchEoc, ENOENT]
  | succ rounds ih =>
      rw [searchEoc]
      by_cases inside : s < buf.length
      · rw [List.drop_eq_getElem_cons inside, List.take_succ_cons, List.mem_cons,
          List.getElem?_eq_getElem inside]
        by_cases found : buf[s] = newline
        · simp [found]
        · simp [found, Ne.symm found, ih]
      · have later := ih (s + 1)
        rw [List.drop_eq_nil_of_le (by omega)] at later
        rw [List.getElem?_eq_none (by omega), List.drop_eq_nil_of_le (by omega)]
        simpa using later

/-- `find_eoc` on a chunk tells whether it completes a packet. -/
theorem findEoc_nonneg_iff (chunk behind : List UInt8) :
    0 ≤ findEoc (chunk ++ behind) chunk.length 0 ↔ newline ∈ chunk := by
  rw [findEoc, searchEoc_nonneg_iff]
  simp

end Aesd.Server
