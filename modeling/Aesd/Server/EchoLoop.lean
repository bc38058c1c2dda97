import Aesd.Server.AppendData

/-! # The echo loop on a source that does not change

The loop of `appenddata` that reads the data source to its end keeps its position
in an `int`.  Up to the largest `int` it sends the source once and in order, however
`pread` cuts it; a longer source takes the position past that range.
-/

namespace Aesd.Server

open Aesd.Lib

/-- What the data source `D` and a willing client answer. -/
def Serves (D : List UInt8) : Request × Answer → Prop
  | (.pread pos, .bytes data) =>
    data.length ≤ bufLen ∧ data <+: D.drop pos ∧ (data = [] → D.length ≤ pos)
  | (.writeSocket bytes, .count n) => n = bytes.length
  | _ => False

/-- The bytes that a call put into the client's socket. -/
def delivered : Request × Answer → List UInt8
  | (.writeSocket bytes, .count n) => bytes.take n
  | _ => []

/-- The echo loop from its beginning. -/
abbrev echoLoop : Lts AppendPc (Request × Answer) := appenddata.alone fun pc => ∃ buf, pc = .echo buf 0

/-- The steps that `D` and the client allow. -/
def serving (D : List UInt8) (_ : AppendPc) (label : Request × Answer) : Prop := Serves D label

/-- The loop ends, in front of the next `read`, and has sent `D` once and in order. -/
structure EchoesAll (D : List UInt8) : Prop where
  /-- Each byte takes two calls at most, and the end one more. -/
  bounded : ∀ labels pc, echoLoop.Run (serving D) labels pc → labels.length ≤ 2 * D.length + 1
  /-- Where no further call can be made, the loop is over. -/
  complete : ∀ labels pc, echoLoop.Run (serving D) labels pc →
    (∀ label pc', Serves D label → ¬echoLoop.step pc label pc') →
      (∃ buf, pc = .loop buf) ∧ labels.flatMap delivered = D

/-- Where the loop is after the calls it has made. -/
inductive Echoing (D : List UInt8) (labels : List (Request × Answer)) : AppendPc → Prop where
  | echo {buf : Buf} {pos : Nat} (inside : pos ≤ D.length) (sent : labels.flatMap delivered = D.take pos)
      (calls : labels.length ≤ 2 * pos) : Echoing D labels (.echo buf pos)
  | send {buf : Buf} {pos rc : Nat} (some : 0 < rc) (inside : pos + rc ≤ D.length)
      (block : buf.bytes.take rc = (D.drop pos).take rc)
      (sent : labels.flatMap delivered = D.take pos) (calls : labels.length ≤ 2 * pos + 1) :
      Echoing D labels (.send buf pos rc)
  | done {buf : Buf} (sent : labels.flatMap delivered = D) (calls : labels.length ≤ 2 * D.length + 1) :
      Echoing D labels (.loop buf)

theorem flatMap_delivered_append (labels : List (Request × Answer)) (label : Request × Answer) :
    (labels ++ [label]).flatMap delivered = labels.flatMap delivered ++ delivered label := by
  rw [List.flatMap_append, List.flatMap_singleton]

theorem Echoing.step {D : List UInt8} (small : D.length < 2 ^ 31) {labels : List (Request × Answer)}
    {pc pc' : AppendPc} {label : Request × Answer} (here : Echoing D labels pc) (serves : Serves D label)
    (taken : echoLoop.step pc label pc') : Echoing D (labels ++ [label]) pc' := by
  obtain ⟨r, a⟩ := label
  obtain ⟨asks, resumes⟩ := taken
  have step := appendStep_of asks resumes
  have one : (labels ++ [(r, a)]).length = labels.length + 1 := by simp
  have grown := flatMap_delivered_append labels (r, a)
  cases here with
  | done => cases step <;> cases serves
  | @echo buf pos inside sent calls =>
      rw [sent] at grown
      cases step with
      | preadFailed => cases serves
      | preadEnd =>
          have past : D.length ≤ pos := serves.2.2 rfl
          apply Echoing.done
          · rw [grown, List.take_of_length_le past]
            exact List.append_nil D
          · omega
      | @preadBlock _ _ data nonempty short =>
          obtain ⟨_, available, _⟩ := serves
          have length := available.length_le
          rw [List.length_drop] at length
          have some := List.length_pos_of_ne_nil nonempty
          apply Echoing.send some
          · omega
          · rw [buf.take_fill short, List.prefix_iff_eq_take.mp available]
            simp
          · exact grown.trans (List.append_nil _)
          · omega
  | @send buf pos rc some inside block sent calls =>
      rw [sent] at grown
      have whole : (buf.bytes.take rc).length = rc := by
        rw [block, List.length_take, List.length_drop]
        omega
      cases step with
      | sendFailed => cases serves
      | sendShort _ _ short =>
          have all : _ = (buf.bytes.take rc).length := serves
          omega
      | sent =>
          have fits : pos + rc < 2 ^ 31 := by omega
          rw [AppendPc.advance, if_pos fits]
          apply Echoing.echo inside
          · rw [grown, delivered, List.take_take, Nat.min_self, block, List.take_add]
          · omega

theorem Echoing.of_run {D : List UInt8} (small : D.length < 2 ^ 31) {labels : List (Request × Answer)}
    {pc : AppendPc} (run : echoLoop.Run (serving D) labels pc) : Echoing D labels pc := by
  induction run with
  | nil start =>
      obtain ⟨buf, rfl⟩ := start
      exact .echo (Nat.zero_le _) rfl (Nat.zero_le _)
  | snoc _ serves taken ih => exact ih.step small serves taken

theorem Echoing.goes_on {D : List UInt8} {labels : List (Request × Answer)} {pc : AppendPc}
    (here : Echoing D labels pc) (stuck : ∀ label pc', Serves D label → ¬echoLoop.step pc label pc') :
    (∃ buf, pc = .loop buf) ∧ labels.flatMap delivered = D := by
  cases here with
  | @done buf sent _ => exact ⟨⟨buf, rfl⟩, sent⟩
  | @echo buf pos _ _ _ =>
      have short : ((D.drop pos).take bufLen).length ≤ bufLen := List.length_take_le _ _
      have serves : Serves D (.pread pos, .bytes ((D.drop pos).take bufLen)) := by
        refine ⟨short, List.take_prefix _ _, ?_⟩
        intro empty
        simpa [bufLen] using empty
      exact absurd ⟨rfl, if_pos short⟩ (stuck _ _ serves)
  | @send buf pos rc _ inside block _ _ =>
      have serves : Serves D (.writeSocket (buf.bytes.take rc), .count rc) := by
        change rc = _
        rw [block, List.length_take, List.length_drop]
        omega
      exact absurd ⟨rfl, if_pos le_rfl⟩ (stuck _ _ serves)

theorem echoesAll_of_lt {D : List UInt8} (small : D.length < 2 ^ 31) : EchoesAll D where
  bounded := by
    intro labels pc run
    cases Echoing.of_run small run with
    | echo inside _ calls => omega
    | send _ inside _ _ calls => omega
    | done _ calls => exact calls
  complete := by
    intro labels pc run stuck
    exact (Echoing.of_run small run).goes_on stuck

theorem full_block {D : List UInt8} {labels : List (Request × Answer)} {buf : Buf} {pos : Nat}
    (run : echoLoop.Run (serving D) labels (.echo buf pos)) (inside : pos + bufLen ≤ D.length) :
    ∃ labels' buf', echoLoop.Run (serving D) labels' (.advance buf' pos bufLen) := by
  have length : ((D.drop pos).take bufLen).length = bufLen := by
    rw [List.length_take, List.length_drop]
    omega
  have nonempty : (D.drop pos).take bufLen ≠ [] := by
    intro empty
    rw [empty] at length
    cases length
  have read : Serves D (.pread pos, .bytes ((D.drop pos).take bufLen)) :=
    ⟨length.le, List.take_prefix _ _, fun empty => absurd empty nonempty⟩
  have block : (AppendPc.echo buf pos).resume (.bytes ((D.drop pos).take bufLen)) =
      some (.send (buf.fill ((D.drop pos).take bufLen)) pos bufLen) := by
    rw [AppendPc.resume, if_pos length.le, if_neg nonempty, length]
  have bytes : ((buf.fill ((D.drop pos).take bufLen)).bytes.take bufLen).length = bufLen := by
    rw [List.length_take, Buf.length_eq]
    rfl
  have sent : Serves D (.writeSocket ((buf.fill ((D.drop pos).take bufLen)).bytes.take bufLen),
      .count bufLen) := bytes.symm
  have advanced : (AppendPc.send (buf.fill ((D.drop pos).take bufLen)) pos bufLen).resume
      (.count bufLen) = some (.advance (buf.fill ((D.drop pos).take bufLen)) pos bufLen) := by
    rw [AppendPc.resume, if_pos le_rfl, if_neg (Nat.lt_irrefl _)]
  exact ⟨_, _, (run.snoc read ⟨rfl, block⟩).snoc sent ⟨rfl, advanced⟩⟩

theorem blocks {D : List UInt8} (long : 2 ^ 31 ≤ D.length) {k : Nat} (few : k < 2 ^ 21) :
    ∃ labels buf, echoLoop.Run (serving D) labels (.echo buf (bufLen * k)) := by
  induction k with
  | zero => exact ⟨[], Buf.zero, .nil ⟨Buf.zero, rfl⟩⟩
  | succ k ih =>
      obtain ⟨labels, buf, run⟩ := ih (by omega)
      have next : bufLen * k + bufLen = bufLen * (k + 1) := rfl
      have inRange : bufLen * k + bufLen < 2 ^ 31 := by
        simp only [bufLen]
        omega
      obtain ⟨labels', buf', run'⟩ := full_block run (by omega)
      rw [AppendPc.advance, if_pos inRange, next] at run'
      exact ⟨labels', buf', run'⟩

theorem not_echoesAll {D : List UInt8} (long : 2 ^ 31 ≤ D.length) : ¬EchoesAll D := by
  intro all
  obtain ⟨labels, buf, run⟩ := blocks long (k := 2 ^ 21 - 1) (by omega)
  have last : bufLen * (2 ^ 21 - 1) + bufLen = 2 ^ 31 := by
    simp only [bufLen]
    omega
  obtain ⟨labels', buf', run'⟩ := full_block run (last.le.trans long)
  rw [AppendPc.advance, last, if_neg (Nat.lt_irrefl _)] at run'
  have stuck : ∀ label pc', Serves D label → ¬echoLoop.step .undefined label pc' := by
    intro label pc' _ taken
    cases taken.1
  obtain ⟨⟨_, ended⟩, _⟩ := all.complete _ _ run' stuck
  cases ended

/-- The loop sends the whole source exactly when its length is an `int`. -/
theorem echoesAll_iff (D : List UInt8) : EchoesAll D ↔ D.length < 2 ^ 31 := by
  constructor
  · intro all
    by_contra long
    exact not_echoesAll (Nat.le_of_not_lt long) all
  · exact echoesAll_of_lt

/-- A source with one more byte behind the first 2^31. -/
theorem position_overflows : ¬∀ D : List UInt8, EchoesAll D := by
  intro claim
  have long : 2 ^ 31 ≤ (List.replicate (2 ^ 31 + 1) (0 : UInt8)).length := by
    rw [List.length_replicate]
    exact Nat.le_succ _
  exact not_echoesAll long (claim _)

end Aesd.Server
