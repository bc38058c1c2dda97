import Aesd.Lib.Lts
import Mathlib.Data.Finset.Erase
import Mathlib.Data.Finset.Insert
import Mathlib.Logic.Function.Basic

/-! # Commands in child processes

`do_exec` and `do_exec_redirect` fork a child that runs a command, and wait for it.  A
program calls them any number of times and prints in between.  What a process prints stays
in the buffer of its `stdout` for a while, and a child starts with a copy of that buffer.
-/

namespace Aesd.SystemCalls

open Aesd.Lib Function

/-- A call of `do_exec`, or of `do_exec_redirect` if there is an output file. -/
structure Call where
  outputfile : Option String
  path : String
  arguments : List String
  deriving DecidableEq

namespace Call

def command (c : Call) : List String := c.path :: c.arguments

def name (c : Call) : String := if c.outputfile.isSome then "do_exec_redirect" else "do_exec"

/-- What the child of `do_exec` prints. -/
def report (c : Call) : List String :=
  s!"do_exec: child process: command path is {c.path}\n" ::
    c.command.mapIdx fun i arg => s!"do_exec: child process: command arg {i} is {arg}\n"

end Call

/-- Something printed, and the child that has printed it or none for the parent. -/
structure Piece where
  author : Option Nat
  text : String
  deriving DecidableEq

inductive WaitStatus where
  | exited (code : BitVec 8)
  | signaled
  deriving DecidableEq

inductive ChildPc where
  | absent
  | dup2
  | close
  | report (lines : List String)
  | execv
  /-- The command, which `execv` has put in place of all this. -/
  | program
  | exit (code : BitVec 8)
  | zombie (status : WaitStatus)
  | reaped (status : WaitStatus)
  deriving DecidableEq

/-- What descriptor 1 of a child leads to. -/
inductive Target where
  | stdout
  | output
  deriving DecidableEq

structure Child where
  call : Call
  pc : ChildPc
  target : Target
  /-- The buffer of `stdout`. -/
  buf : List Piece
  /-- The command has been run. -/
  ran : Bool

inductive ChildEvent where
  | done
  | failed
  /-- `stdout` is written out up to some piece, as it is when its buffer is full. -/
  | drain (pieces : Nat)
  /-- The command writes to descriptor 1. -/
  | write (text : String)
  | exits (code : BitVec 8)
  | killed

namespace Child

/-- Behind `fork`, with what the parent has in its buffer. -/
def forked (c : Call) (buf : List Piece) : Child :=
  ⟨c, if c.outputfile.isSome then .dup2 else .report c.report, .stdout, buf, false⟩

/-- A step of child `n`, and the pieces it writes to descriptor 1. -/
def next (n : Nat) (c : Child) : ChildPc → ChildEvent → Option (Child × List Piece)
  | .dup2, .done => some ({ c with pc := .close, target := .output }, [])
  | .dup2, .failed => some ({ c with pc := .exit 1 }, [])
  | .close, .done => some ({ c with pc := .execv }, [])
  | .report lines, .done =>
    match lines with
    | line :: later => some ({ c with pc := .report later, buf := c.buf ++ [⟨some n, line⟩] }, [])
    | [] => some ({ c with pc := .execv }, [])
  | .execv, .done => some ({ c with pc := .program, buf := [], ran := true }, [])
  -- `exit(ret)`, where `ret` is -1
  | .execv, .failed => some ({ c with pc := .exit (-1) }, [])
  | .program, .write text => some (c, [⟨some n, text⟩])
  | .program, .exits code => some ({ c with pc := .zombie (.exited code) }, [])
  -- `exit` writes out what is left in the buffer
  | .exit code, .done => some ({ c with pc := .zombie (.exited code), buf := [] }, c.buf)
  | .absent, _ | .zombie _, _ | .reaped _, _ => none
  | .program, .drain _ => none
  | _, .drain pieces => some ({ c with buf := c.buf.drop pieces }, c.buf.take pieces)
  | _, .killed => some ({ c with pc := .zombie .signaled, buf := [] }, [])
  | _, _ => none

end Child

inductive ParentPc where
  /-- Outside of any call. -/
  | idle
  | openFile (c : Call)
  | fflush (c : Call) (fd : Option Nat)
  | fork (c : Call) (fd : Option Nat)
  | close (c : Call) (fd pid : Nat)
  | waitpid (c : Call) (pid : Nat)
  deriving DecidableEq

/-- In front of the first call that can fail. -/
def Call.enter (c : Call) : ParentPc := if c.outputfile.isSome then .openFile c else .fflush c none

/-- Behind `fork`, in the parent. -/
def Call.behindFork (c : Call) (pid : Nat) : Option Nat → ParentPc
  | some fd => .close c fd pid
  | none => .waitpid c pid

inductive ParentEvent where
  | print (text : String)
  | call (c : Call)
  | done
  | failed
  | opened (fd : Nat)
  | drain (pieces : Nat)

/-- What a call has come to. -/
inductive Ending where
  | openFailed
  | forkFailed (fd : Option Nat)
  | waitFailed (pid : Nat)
  | ended (pid : Nat) (status : WaitStatus)
  deriving DecidableEq

structure Result where
  call : Call
  ending : Ending
  returned : Bool

/-- Children go by the order in which they are forked. -/
structure World where
  parent : ParentPc
  buf : List Piece
  /-- All that the parent has printed. -/
  printed : List String
  fds : Finset Nat
  forked : Nat
  child : Nat → Child
  /-- What has been written to the parent's `stdout`, and by each child to its output file. -/
  stdout : List Piece
  output : Nat → List Piece
  results : List Result

namespace World

def printf (w : World) (text : String) : World :=
  { w with buf := w.buf ++ [⟨none, text⟩], printed := w.printed ++ [text] }

def finish (w : World) (c : Call) (ending : Ending) (returned : Bool) : World :=
  { w with parent := .idle, results := w.results ++ [⟨c, ending, returned⟩] }

/-- Behind `waitpid`. -/
def reap (w : World) (c : Call) (pid : Nat) (status : WaitStatus) : World :=
  let w := { w with child := update w.child pid { w.child pid with pc := .reaped status } }
  match status with
  | .signaled => w.finish c (.ended pid status) false
  | .exited code =>
    if code ≠ 0 then w.finish c (.ended pid status) false
    else (w.printf s!"{c.name}: status was {code.toNat}\n").finish c (.ended pid status) true

def parentNext (w : World) : ParentPc → ParentEvent → Option World
  | .idle, .print text => some (w.printf text)
  | .idle, .call c => some { w with parent := c.enter }
  | .openFile c, .failed => some (w.finish c .openFailed false)
  | .openFile c, .opened fd =>
    if fd ∈ w.fds then none
    else some { w with parent := .fflush c (some fd), fds := insert fd w.fds }
  | .fflush c fd, .done => some { w with parent := .fork c fd, buf := [], stdout := w.stdout ++ w.buf }
  | .fflush c fd, .failed => some { w with parent := .fork c fd }
  | .fork c fd, .failed => some (w.finish c (.forkFailed fd) false)
  | .fork c fd, .done =>
    some { w with
      parent := c.behindFork w.forked fd
      forked := w.forked + 1
      child := update w.child w.forked (.forked c w.buf) }
  | .close c fd pid, .done => some { w with parent := .waitpid c pid, fds := w.fds.erase fd }
  | .waitpid c pid, .failed => some (w.finish c (.waitFailed pid) false)
  | .waitpid c pid, .done =>
    match (w.child pid).pc with
    | .zombie status => some (w.reap c pid status)
    | _ => none
  | _, .drain pieces =>
    some { w with buf := w.buf.drop pieces, stdout := w.stdout ++ w.buf.take pieces }
  | _, _ => none

/-- Child `n` writes to its descriptor 1. -/
def emit (w : World) (n : Nat) (pieces : List Piece) : Target → World
  | .stdout => { w with stdout := w.stdout ++ pieces }
  | .output => { w with output := update w.output n (w.output n ++ pieces) }

end World

inductive Event where
  | parent (e : ParentEvent)
  | child (n : Nat) (e : ChildEvent)

def World.next (w : World) : Event → Option World
  | .parent e => w.parentNext w.parent e
  | .child n e =>
    ((w.child n).next n (w.child n).pc e).map fun (c, pieces) =>
      { w with child := update w.child n c }.emit n pieces (w.child n).target

/-- Only the standard streams are open. -/
def World.start : World :=
  ⟨.idle, [], [], {0, 1, 2}, 0, fun _ => ⟨⟨none, "", []⟩, .absent, .stdout, [], false⟩, [],
    fun _ => [], []⟩

def program : Lts World Event where
  init := (· = .start)
  step w e w' := w.next e = some w'

namespace ChildPc

def alive : ChildPc → Bool
  | .absent | .zombie _ | .reaped _ => false
  | _ => true

def isReaped : ChildPc → Bool
  | .reaped _ => true
  | _ => false

end ChildPc

inductive ChildStep (n : Nat) (c : Child) : ChildPc → Child → List Piece → Prop where
  | dup2 : ChildStep n c .dup2 { c with pc := .close, target := .output } []
  | dup2Failed : ChildStep n c .dup2 { c with pc := .exit 1 } []
  | close : ChildStep n c .close { c with pc := .execv } []
  | report (line : String) (later : List String) : ChildStep n c (.report (line :: later))
      { c with pc := .report later, buf := c.buf ++ [⟨some n, line⟩] } []
  | reported : ChildStep n c (.report []) { c with pc := .execv } []
  | execv : ChildStep n c .execv { c with pc := .program, buf := [], ran := true } []
  | execvFailed : ChildStep n c .execv { c with pc := .exit (-1) } []
  | write (text : String) : ChildStep n c .program c [⟨some n, text⟩]
  | exits (code : BitVec 8) : ChildStep n c .program { c with pc := .zombie (.exited code) } []
  | exit (code : BitVec 8) :
      ChildStep n c (.exit code) { c with pc := .zombie (.exited code), buf := [] } c.buf
  | drain {pc} (alive : pc.alive = true) (own : pc ≠ .program) (pieces : Nat) :
      ChildStep n c pc { c with buf := c.buf.drop pieces } (c.buf.take pieces)
  | killed {pc} (alive : pc.alive = true) :
      ChildStep n c pc { c with pc := .zombie .signaled, buf := [] } []

theorem childStep_of {n : Nat} {c c' : Child} {pc : ChildPc} {e : ChildEvent} {pieces : List Piece}
    (taken : c.next n pc e = some (c', pieces)) : ChildStep n c pc c' pieces := by
  cases e with
  | drain k => cases pc <;> cases taken <;> exact .drain rfl (by rintro ⟨⟩) k
  | killed => cases pc <;> cases taken <;> exact .killed rfl
  | write text =>
      cases pc <;> cases taken
      exact .write text
  | exits code =>
      cases pc <;> cases taken
      exact .exits code
  | failed =>
      cases pc <;> cases taken
      · exact .dup2Failed
      · exact .execvFailed
  | done =>
      cases pc with
      | dup2 => cases taken; exact .dup2
      | close => cases taken; exact .close
      | report lines =>
          cases lines with
          | nil => cases taken; exact .reported
          | cons line later => cases taken; exact .report line later
      | execv => cases taken; exact .execv
      | exit code => cases taken; exact .exit code
      | _ => cases taken

inductive ParentStep (w : World) : ParentPc → ParentEvent → World → Prop where
  | print (text : String) : ParentStep w .idle (.print text) (w.printf text)
  | call (c : Call) : ParentStep w .idle (.call c) { w with parent := c.enter }
  | openFailed (c : Call) : ParentStep w (.openFile c) .failed (w.finish c .openFailed false)
  | opened (c : Call) {fd : Nat} (new : fd ∉ w.fds) :
      ParentStep w (.openFile c) (.opened fd)
        { w with parent := .fflush c (some fd), fds := insert fd w.fds }
  | flushed (c : Call) (fd : Option Nat) : ParentStep w (.fflush c fd) .done
      { w with parent := .fork c fd, buf := [], stdout := w.stdout ++ w.buf }
  | flushFailed (c : Call) (fd : Option Nat) :
      ParentStep w (.fflush c fd) .failed { w with parent := .fork c fd }
  | forkFailed (c : Call) (fd : Option Nat) :
      ParentStep w (.fork c fd) .failed (w.finish c (.forkFailed fd) false)
  | forked (c : Call) (fd : Option Nat) : ParentStep w (.fork c fd) .done
      { w with
        parent := c.behindFork w.forked fd
        forked := w.forked + 1
        child := update w.child w.forked (.forked c w.buf) }
  | close (c : Call) (fd pid : Nat) : ParentStep w (.close c fd pid) .done
      { w with parent := .waitpid c pid, fds := w.fds.erase fd }
  | waitFailed (c : Call) (pid : Nat) :
      ParentStep w (.waitpid c pid) .failed (w.finish c (.waitFailed pid) false)
  | reap (c : Call) {pid : Nat} {status : WaitStatus} (ended : (w.child pid).pc = .zombie status) :
      ParentStep w (.waitpid c pid) .done (w.reap c pid status)
  | drain (pc : ParentPc) (pieces : Nat) : ParentStep w pc (.drain pieces)
      { w with buf := w.buf.drop pieces, stdout := w.stdout ++ w.buf.take pieces }

theorem parentStep_of {w w' : World} {pc : ParentPc} {e : ParentEvent}
    (taken : w.parentNext pc e = some w') : ParentStep w pc e w' := by
  cases e with
  | drain pieces => cases pc <;> cases taken <;> exact .drain _ pieces
  | print text =>
      cases pc <;> cases taken
      exact .print text
  | call c =>
      cases pc <;> cases taken
      exact .call c
  | opened fd =>
      cases pc with
      | openFile c =>
          simp only [World.parentNext] at taken
          split at taken <;> cases taken
          exact .opened c (by assumption)
      | _ => cases taken
  | failed =>
      cases pc <;> cases taken
      · exact .openFailed _
      · exact .flushFailed _ _
      · exact .forkFailed _ _
      · exact .waitFailed _ _
  | done =>
      cases pc with
      | idle | openFile => cases taken
      | fflush c fd => cases taken; exact .flushed c fd
      | fork c fd => cases taken; exact .forked c fd
      | close c fd pid => cases taken; exact .close c fd pid
      | waitpid c pid =>
          simp only [World.parentNext] at taken
          split at taken <;> cases taken
          exact .reap c (by assumption)

namespace ParentPc

/-- The descriptor of the output file, while the call has it. -/
def fd : ParentPc → Option Nat
  | .fflush _ fd | .fork _ fd => fd
  | .close _ fd _ => some fd
  | _ => none

/-- The child of the call. -/
def child : ParentPc → Option (Call × Nat)
  | .close c _ pid | .waitpid c pid => some (c, pid)
  | _ => none

end ParentPc

/-- Only the command can have come to a good end. -/
def Child.Ran (c : Child) : Prop :=
  match c.pc with
  | .program => c.ran = true
  | .exit code => code ≠ 0
  | .zombie status | .reaped status => status = .exited 0 → c.ran = true
  | _ => True

theorem Child.Ran.step {n : Nat} {c c' : Child} {pieces : List Piece} (ran : c.Ran)
    (step : ChildStep n c c.pc c' pieces) : c'.Ran := by
  generalize here : c.pc = pc at step
  cases step with
  | dup2Failed => exact (by decide : (1 : BitVec 8) ≠ 0)
  | execvFailed => exact (by decide : (-1 : BitVec 8) ≠ 0)
  | execv => exact rfl
  | write => exact ran
  | exits code =>
      simp only [Child.Ran, here] at ran
      exact fun _ => ran
  | exit code =>
      simp only [Child.Ran, here] at ran
      exact fun good => absurd (WaitStatus.exited.inj good) ran
  | drain => exact ran
  | killed => exact (by rintro ⟨⟩)
  | _ => exact trivial

theorem ChildStep.keeps {n : Nat} {c c' : Child} {pc : ChildPc} {pieces : List Piece}
    (step : ChildStep n c pc c' pieces) (here : c.pc = pc) :
    c'.call = c.call ∧ c.pc.alive = true ∧ c'.pc.isReaped = false := by
  cases step with
  | drain alive own =>
      refine ⟨rfl, here ▸ alive, ?_⟩
      show c.pc.isReaped = false
      rw [here]
      cases pc <;> first | rfl | cases alive
  | killed alive => exact ⟨rfl, here ▸ alive, rfl⟩
  | write => exact ⟨rfl, by rw [here]; rfl, by rw [here]; rfl⟩
  | _ => exact ⟨rfl, by rw [here]; rfl, rfl⟩

structure World.Ledger (w : World) : Prop where
  ran : ∀ n, (w.child n).Ran
  unborn : ∀ n, w.forked ≤ n → (w.child n).pc = .absent
  fds : ∀ fd, fd ∈ w.fds ↔
    fd < 3 ∨ w.parent.fd = some fd ∨ ∃ r ∈ w.results, r.ending = .forkFailed (some fd)
  own : ∀ fd, w.parent.fd = some fd → 3 ≤ fd ∧ ∀ r ∈ w.results, r.ending ≠ .forkFailed (some fd)
  waits : ∀ c n, w.parent.child = some (c, n) → n < w.forked ∧ (w.child n).call = c ∧
    (w.child n).pc.isReaped = false ∧ ∀ r ∈ w.results, r.ending ≠ .waitFailed n
  unreaped : ∀ n, n < w.forked ∧ (w.child n).pc.isReaped = false ↔
    (∃ c, w.parent.child = some (c, n)) ∨ ∃ r ∈ w.results, r.ending = .waitFailed n
  ended : ∀ r ∈ w.results, ∀ n status, r.ending = .ended n status → n < w.forked ∧
    (w.child n).call = r.call ∧ (w.child n).pc = .reaped status
  returned : ∀ r ∈ w.results, (r.returned = true ↔ ∃ n, r.ending = .ended n (.exited 0))

section

variable {w w' : World}

theorem exists_results {results : List Result} {r : Result} {ending : Ending} :
    (∃ r' ∈ results ++ [r], r'.ending = ending) ↔
      (∃ r' ∈ results, r'.ending = ending) ∨ r.ending = ending := by
  simp only [List.mem_append, List.mem_singleton, or_and_right, exists_or, exists_eq_left]

theorem forall_results {results : List Result} {r : Result} {P : Result → Prop} :
    (∀ r' ∈ results ++ [r], P r') ↔ (∀ r' ∈ results, P r') ∧ P r := by
  simp only [List.mem_append, List.mem_singleton, or_imp, forall_and, forall_eq]

theorem World.Ledger.start : World.start.Ledger where
  ran _ := trivial
  unborn _ _ := rfl
  fds fd := by
    simp only [World.start, ParentPc.fd, Finset.mem_insert, Finset.mem_singleton, List.not_mem_nil,
      false_and, exists_false, or_false, reduceCtorEq]
    omega
  own _ := by rintro ⟨⟩
  waits _ _ := by rintro ⟨⟩
  unreaped n := by simp [World.start, ParentPc.child]
  ended _ none := absurd none List.not_mem_nil
  returned _ none := absurd none List.not_mem_nil

theorem World.Ledger.congr (ledger : w.Ledger) (fds : w'.fds = w.fds)
    (fd : w'.parent.fd = w.parent.fd) (pid : w'.parent.child = w.parent.child)
    (forked : w'.forked = w.forked) (child : w'.child = w.child) (results : w'.results = w.results) :
    w'.Ledger where
  ran := by rw [child]; exact ledger.ran
  unborn := by rw [forked, child]; exact ledger.unborn
  fds := by rw [fds, fd, results]; exact ledger.fds
  own := by rw [fd, results]; exact ledger.own
  waits := by rw [pid, forked, child, results]; exact ledger.waits
  unreaped := by rw [pid, forked, child, results]; exact ledger.unreaped
  ended := by rw [forked, child, results]; exact ledger.ended
  returned := by rw [results]; exact ledger.returned

theorem World.Ledger.finish (ledger : w.Ledger) (c : Call) {ending : Ending}
    (fd : ∀ fd, w.parent.fd = some fd ↔ ending = .forkFailed (some fd))
    (pid : ∀ n, (∃ c, w.parent.child = some (c, n)) ↔ ending = .waitFailed n)
    (bad : ∀ n status, ending ≠ .ended n status) : (w.finish c ending false).Ledger where
  ran := ledger.ran
  unborn := ledger.unborn
  fds f := by
    have idle : (w.finish c ending false).parent.fd ≠ some f := by rintro ⟨⟩
    have results : (w.finish c ending false).results = w.results ++ [⟨c, ending, false⟩] := rfl
    rw [or_iff_right idle, results, exists_results, ← fd f]
    exact (ledger.fds f).trans (or_congr_right or_comm)
  own _ := by rintro ⟨⟩
  waits _ _ := by rintro ⟨⟩
  unreaped n := by
    have idle : ¬∃ c', (w.finish c ending false).parent.child = some (c', n) := by rintro ⟨_, ⟨⟩⟩
    have results : (w.finish c ending false).results = w.results ++ [⟨c, ending, false⟩] := rfl
    rw [or_iff_right idle, results, exists_results, ← pid n]
    exact (ledger.unreaped n).trans or_comm
  ended := forall_results.mpr ⟨ledger.ended, fun n status same => absurd same (bad n status)⟩
  returned := forall_results.mpr ⟨ledger.returned, by rintro ⟨⟩, fun ⟨n, good⟩ => absurd good (bad n _)⟩

theorem Call.behindFork_fd (c : Call) (pid : Nat) (fd : Option Nat) : (c.behindFork pid fd).fd = fd := by
  cases fd <;> rfl

theorem Call.behindFork_child (c : Call) (pid : Nat) (fd : Option Nat) :
    (c.behindFork pid fd).child = some (c, pid) := by
  cases fd <;> rfl

theorem Child.forked_keeps (c : Call) (buf : List Piece) : (Child.forked c buf).Ran ∧
    (Child.forked c buf).call = c ∧ (Child.forked c buf).pc.isReaped = false := by
  unfold Child.forked
  split <;> exact ⟨trivial, rfl, rfl⟩

theorem reap_keeps (w : World) (c : Call) (pid : Nat) (status : WaitStatus) :
    (w.reap c pid status).parent = .idle ∧ (w.reap c pid status).fds = w.fds ∧
      (w.reap c pid status).forked = w.forked ∧
      (w.reap c pid status).child = update w.child pid { w.child pid with pc := .reaped status } ∧
      (w.reap c pid status).results =
        w.results ++ [⟨c, .ended pid status, decide (status = .exited 0)⟩] := by
  cases status with
  | signaled => exact ⟨rfl, rfl, rfl, rfl, rfl⟩
  | exited code =>
      by_cases zero : code = 0
      · subst zero
        exact ⟨rfl, rfl, rfl, rfl, rfl⟩
      · have bad : decide (WaitStatus.exited code = .exited 0) = false := by simpa using zero
        rw [bad, World.reap, if_pos zero]
        exact ⟨rfl, rfl, rfl, rfl, rfl⟩

theorem World.Ledger.opened (ledger : w.Ledger) (c : Call) (idle : w.parent = .openFile c) {fd : Nat}
    (new : fd ∉ w.fds) :
    World.Ledger { w with parent := .fflush c (some fd), fds := insert fd w.fds } where
  ran := ledger.ran
  unborn := ledger.unborn
  fds f := by
    have before := ledger.fds f
    rw [idle] at before
    simp only [ParentPc.fd, reduceCtorEq, false_or] at before
    rw [Finset.mem_insert, before]
    simp only [ParentPc.fd, Option.some.injEq]
    rw [or_left_comm, eq_comm]
  own f same := by
    obtain rfl := Option.some.inj same
    have before := (ledger.fds fd).not.mp new
    simp only [not_or, not_exists, not_and] at before
    exact ⟨Nat.le_of_not_lt before.1, before.2.2⟩
  waits _ _ := by rintro ⟨⟩
  unreaped n := by
    have before := ledger.unreaped n
    rw [idle] at before
    exact before
  ended := ledger.ended
  returned := ledger.returned

theorem World.Ledger.forked (ledger : w.Ledger) (c : Call) {fd : Option Nat}
    (here : w.parent = .fork c fd) :
    World.Ledger { w with
      parent := c.behindFork w.forked fd
      forked := w.forked + 1
      child := update w.child w.forked (.forked c w.buf) } where
  ran := (forall_update_iff w.child fun _ c => c.Ran).mpr
    ⟨(Child.forked_keeps c w.buf).1, fun n _ => ledger.ran n⟩
  unborn n above := by
    have above : w.forked + 1 ≤ n := above
    have new : n ≠ w.forked := by omega
    simpa only [update_of_ne new] using ledger.unborn n (by omega)
  fds f := by
    have before := ledger.fds f
    rw [here] at before
    simp only [Call.behindFork_fd]
    exact before
  own f same := by
    simp only [Call.behindFork_fd] at same
    exact ledger.own f (by rw [here]; exact same)
  waits c' n same := by
    rw [Call.behindFork_child] at same
    obtain ⟨rfl, rfl⟩ := Prod.mk.inj (Option.some.inj same)
    obtain ⟨_, call, fresh⟩ := Child.forked_keeps c w.buf
    simp only [update_self]
    refine ⟨Nat.lt_succ_self _, call, fresh, fun r member waited => ?_⟩
    have born := (ledger.unreaped w.forked).mpr (.inr ⟨r, member, waited⟩)
    exact absurd born.1 (Nat.lt_irrefl _)
  unreaped n := by
    have before := ledger.unreaped n
    rw [here] at before
    simp only [ParentPc.child, reduceCtorEq, exists_false, false_or] at before
    rw [Call.behindFork_child, ← before]
    by_cases new : n = w.forked
    · subst new
      simp [(Child.forked_keeps c w.buf).2.2]
    · have other : ¬w.forked = n := Ne.symm new
      simp only [update_of_ne new, Option.some.injEq, Prod.mk.injEq, other, and_false, exists_false,
        false_or]
      exact and_congr_left fun _ => by omega
  ended r member n status same := by
    obtain ⟨born, call, reaped⟩ := ledger.ended r member n status same
    have new : n ≠ w.forked := by omega
    simp only [update_of_ne new]
    exact ⟨Nat.lt_succ_of_lt born, call, reaped⟩
  returned := ledger.returned

theorem World.Ledger.close (ledger : w.Ledger) {c : Call} {fd pid : Nat}
    (here : w.parent = .close c fd pid) :
    World.Ledger { w with parent := .waitpid c pid, fds := w.fds.erase fd } where
  ran := ledger.ran
  unborn := ledger.unborn
  fds f := by
    have before := ledger.fds f
    obtain ⟨high, unlost⟩ := ledger.own fd (by rw [here]; rfl)
    rw [here] at before
    simp only [ParentPc.fd, Option.some.injEq] at before
    simp only [Finset.mem_erase, before, ParentPc.fd, reduceCtorEq, false_or]
    constructor
    · rintro ⟨other, low | same | lost⟩
      · exact .inl low
      · exact absurd same.symm other
      · exact .inr lost
    · rintro (low | ⟨r, member, lost⟩)
      · exact ⟨by omega, .inl low⟩
      · refine ⟨?_, .inr (.inr ⟨r, member, lost⟩)⟩
        rintro rfl
        exact unlost r member lost
  own _ := by rintro ⟨⟩
  waits := by
    have before := ledger.waits
    rw [here] at before
    exact before
  unreaped := by
    have before := ledger.unreaped
    rw [here] at before
    exact before
  ended := ledger.ended
  returned := ledger.returned

theorem World.Ledger.reap (ledger : w.Ledger) {c : Call} {pid : Nat} {status : WaitStatus}
    (here : w.parent = .waitpid c pid) (zombie : (w.child pid).pc = .zombie status) :
    (w.reap c pid status).Ledger := by
  obtain ⟨parent, fds, forked, child, results⟩ := reap_keeps w c pid status
  obtain ⟨born, call, _, unfailed⟩ := ledger.waits c pid (by rw [here]; rfl)
  constructor
  · rw [child]
    refine (forall_update_iff w.child fun _ c => c.Ran).mpr ⟨?_, fun n _ => ledger.ran n⟩
    have ran := ledger.ran pid
    simp only [Child.Ran, zombie] at ran
    exact ran
  · intro n above
    have other : n ≠ pid := by omega
    rw [child, update_of_ne other]
    exact ledger.unborn n (by omega)
  · intro fd
    have before := ledger.fds fd
    rw [here] at before
    rw [fds, parent, results, exists_results]
    simpa [ParentPc.fd] using before
  · rw [parent]
    rintro _ ⟨⟩
  · rw [parent]
    rintro _ _ ⟨⟩
  · intro n
    rw [child, parent, forked, results, exists_results]
    by_cases same : n = pid
    · subst same
      simp [ParentPc.child, ChildPc.isReaped]
      exact unfailed
    · have before := ledger.unreaped n
      rw [here] at before
      simpa [ParentPc.child, same, Ne.symm same] using before
  · rw [results, forall_results, child, forked]
    constructor
    · intro r member n status' same
      obtain ⟨born, call, reaped⟩ := ledger.ended r member n status' same
      have other : n ≠ pid := by
        rintro rfl
        rw [zombie] at reaped
        cases reaped
      simpa only [update_of_ne other] using ⟨born, call, reaped⟩
    · intro n status' same
      cases same
      rw [update_self]
      exact ⟨born, call, rfl⟩
  · rw [results, forall_results]
    refine ⟨ledger.returned, ?_⟩
    simp [eq_comm]

theorem call_update {n : Nat} {c' : Child} (call : c'.call = (w.child n).call) (k : Nat) :
    (update w.child n c' k).call = (w.child k).call := by
  by_cases same : k = n
  · subst same
    rw [update_self, call]
  · rw [update_of_ne same]

theorem World.Ledger.child (ledger : w.Ledger) {n : Nat} {c' : Child} {pieces : List Piece}
    (step : ChildStep n (w.child n) (w.child n).pc c' pieces) :
    World.Ledger { w with child := update w.child n c' } := by
  obtain ⟨call, alive, unreaped⟩ := step.keeps rfl
  have before : (w.child n).pc.isReaped = false := by
    cases here : (w.child n).pc <;> first | rfl | (rw [here] at alive; cases alive)
  have reaped : ∀ k, (update w.child n c' k).pc.isReaped = (w.child k).pc.isReaped := by
    intro k
    by_cases same : k = n
    · subst same
      rw [update_self, unreaped, before]
    · rw [update_of_ne same]
  have calls := call_update call
  constructor
  · exact (forall_update_iff w.child fun _ c => c.Ran).mpr
      ⟨(ledger.ran n).step step, fun k _ => ledger.ran k⟩
  · intro k above
    have other : k ≠ n := by
      rintro rfl
      rw [ledger.unborn k above] at alive
      cases alive
    simpa only [update_of_ne other] using ledger.unborn k above
  · exact ledger.fds
  · exact ledger.own
  · intro c k waiting
    simpa only [calls, reaped] using ledger.waits c k waiting
  · intro k
    simpa only [reaped] using ledger.unreaped k
  · intro r member k status same
    obtain ⟨born, own, ended⟩ := ledger.ended r member k status same
    have other : k ≠ n := by
      rintro rfl
      rw [ended] at alive
      cases alive
    simpa only [update_of_ne other] using ⟨born, own, ended⟩
  · exact ledger.returned

theorem World.Ledger.parent (ledger : w.Ledger) {e : ParentEvent}
    (step : ParentStep w w.parent e w') : w'.Ledger := by
  generalize here : w.parent = pc at step
  cases step with
  | print text => exact ledger.congr rfl rfl rfl rfl rfl rfl
  | call c =>
      have enter : c.enter.fd = none ∧ c.enter.child = none := by
        unfold Call.enter
        split <;> exact ⟨rfl, rfl⟩
      exact ledger.congr rfl (by rw [here]; exact enter.1) (by rw [here]; exact enter.2) rfl rfl rfl
  | openFailed c =>
      refine ledger.finish c (fun fd => ?_) (fun n => ?_) (by rintro _ _ ⟨⟩)
      · rw [here]
        exact ⟨by rintro ⟨⟩, by rintro ⟨⟩⟩
      · rw [here]
        exact ⟨by rintro ⟨_, ⟨⟩⟩, by rintro ⟨⟩⟩
  | opened c new => exact ledger.opened c here new
  | flushed c fd => exact ledger.congr rfl (by rw [here]; rfl) (by rw [here]; rfl) rfl rfl rfl
  | flushFailed c fd => exact ledger.congr rfl (by rw [here]; rfl) (by rw [here]; rfl) rfl rfl rfl
  | forkFailed c fd =>
      refine ledger.finish c (fun f => ?_) (fun n => ?_) (by rintro _ _ ⟨⟩)
      · rw [here]
        exact ⟨congrArg Ending.forkFailed, Ending.forkFailed.inj⟩
      · rw [here]
        exact ⟨by rintro ⟨_, ⟨⟩⟩, by rintro ⟨⟩⟩
  | forked c fd => exact ledger.forked c here
  | close c fd pid => exact ledger.close here
  | waitFailed c pid =>
      refine ledger.finish c (fun f => ?_) (fun n => ?_) (by rintro _ _ ⟨⟩)
      · rw [here]
        exact ⟨by rintro ⟨⟩, by rintro ⟨⟩⟩
      · rw [here]
        constructor
        · rintro ⟨_, same⟩
          exact congrArg Ending.waitFailed (Prod.mk.inj (Option.some.inj same)).2
        · rintro ⟨⟩
          exact ⟨c, rfl⟩
  | reap c ended => exact ledger.reap here ended
  | drain => exact ledger.congr rfl rfl rfl rfl rfl rfl

theorem emit_keeps (w : World) (n : Nat) (pieces : List Piece) (target : Target) :
    (w.emit n pieces target).parent = w.parent ∧ (w.emit n pieces target).fds = w.fds ∧
      (w.emit n pieces target).forked = w.forked ∧ (w.emit n pieces target).child = w.child ∧
      (w.emit n pieces target).results = w.results := by
  cases target <;> exact ⟨rfl, rfl, rfl, rfl, rfl⟩

theorem child_cases {n : Nat} {e : ChildEvent} (taken : w.next (.child n e) = some w') :
    ∃ c' pieces, ChildStep n (w.child n) (w.child n).pc c' pieces ∧
      w' = { w with child := update w.child n c' }.emit n pieces (w.child n).target := by
  obtain ⟨⟨c', pieces⟩, goes, rfl⟩ := Option.map_eq_some_iff.mp taken
  exact ⟨c', pieces, childStep_of goes, rfl⟩

theorem World.Ledger.step (ledger : w.Ledger) {e : Event} (taken : w.next e = some w') : w'.Ledger := by
  cases e with
  | parent e => exact ledger.parent (parentStep_of taken)
  | child n e =>
      obtain ⟨c', pieces, step, rfl⟩ := child_cases taken
      obtain ⟨parent, fds, forked, child, results⟩ :=
        emit_keeps { w with child := update w.child n c' } n pieces (w.child n).target
      exact (ledger.child step).congr fds (by rw [parent]) (by rw [parent]) forked child results

theorem ledger_of_reach {ok : World → Event → Prop} (reach : program.Reach ok w) : w.Ledger := by
  refine reach.induct World.Ledger ?_ fun w e w' ledger _ taken => ledger.step taken
  rintro _ rfl
  exact .start

end

/-- At any time, between calls or inside one. -/
structure World.Accounted (w : World) : Prop where
  /-- True exactly where `execv` has turned the child into the command, and it exited with 0. -/
  returned : ∀ r ∈ w.results, r.returned = true ↔ ∃ n, r.ending = .ended n (.exited 0) ∧
    (w.child n).call = r.call ∧ (w.child n).ran = true ∧ (w.child n).pc = .reaped (.exited 0)
  /-- The descriptors that are lost are those of calls whose `fork` failed. -/
  fds : ∀ fd, fd ∈ w.fds ↔
    fd < 3 ∨ w.parent.fd = some fd ∨ ∃ r ∈ w.results, r.ending = .forkFailed (some fd)
  /-- The children that nobody waits for any more are those of calls whose `waitpid` failed. -/
  unreaped : ∀ n, n < w.forked ∧ (w.child n).pc.isReaped = false ↔
    (∃ c, w.parent.child = some (c, n)) ∨ ∃ r ∈ w.results, r.ending = .waitFailed n

theorem calls_accounted {w : World} (reach : program.Reach Lts.anyStep w) : w.Accounted := by
  have ledger := ledger_of_reach reach
  refine ⟨fun r member => ?_, ledger.fds, ledger.unreaped⟩
  rw [ledger.returned r member]
  constructor
  · rintro ⟨n, good⟩
    obtain ⟨_, call, reaped⟩ := ledger.ended r member n _ good
    have ran := ledger.ran n
    rw [Child.Ran, reaped] at ran
    exact ⟨n, good, call, ran rfl, reaped⟩
  · rintro ⟨n, good, _⟩
    exact ⟨n, good⟩

/-- A call whose `fork` fails behind its `open`, then one that runs its command. -/
def forkFailsOnce : List Event :=
  [.parent (.call ⟨some "/tmp/out", "/bin/ls", []⟩), .parent (.opened 3), .parent .done,
    .parent .failed, .parent (.call ⟨none, "/bin/true", []⟩), .parent .done, .parent .done] ++
  [.done, .done, .done, .done, .exits 0].map (.child 0) ++ [.parent .done]

theorem calls_accounted_forkFailsOnce : ∃ w : World, w.results.map Result.returned = [false, true] ∧
    w.Accounted := by
  obtain ⟨w, runs⟩ : ∃ w, forkFailsOnce.foldlM World.next .start = some w := ⟨_, rfl⟩
  have init : program.Reach Lts.anyStep .start := .init rfl
  have reach := init.foldlM (fun _ _ _ taken => ⟨trivial, taken⟩) runs
  have results : (forkFailsOnce.foldlM World.next .start).map
      (fun w => w.results.map Result.returned) = some [false, true] := rfl
  rw [runs, Option.map_some, Option.some.injEq] at results
  exact ⟨w, results, calls_accounted reach⟩

def Call.goal (c : Call) : Target := if c.outputfile.isSome then .output else .stdout

/-- Where descriptor 1 leads while there may be something to write. -/
def Child.Place (c : Child) : Prop :=
  match c.pc with
  | .dup2 => c.call.outputfile.isSome ∧ c.buf = []
  | .exit _ => c.buf = [] ∨ c.target = c.call.goal
  | .close | .report _ | .execv | .program => c.target = c.call.goal
  | .absent | .zombie _ | .reaped _ => True

/-- The child has nothing of its parent's in its buffer. -/
structure Child.Pure (n : Nat) (c : Child) : Prop where
  buf : ∀ piece ∈ c.buf, piece.author = some n
  place : c.Place

theorem Child.Pure.forked (c : Call) (n : Nat) : (Child.forked c []).Pure n := by
  refine ⟨fun _ none => absurd none List.not_mem_nil, ?_⟩
  simp only [Child.forked, Child.Place]
  by_cases redirect : c.outputfile.isSome
  · simp only [if_pos redirect]
    exact ⟨redirect, trivial⟩
  · simp only [if_neg redirect, Call.goal]

theorem Child.Pure.step {n : Nat} {c c' : Child} {pieces : List Piece} (pure : c.Pure n)
    (step : ChildStep n c c.pc c' pieces) : c'.Pure n ∧ (∀ piece ∈ pieces, piece.author = some n) ∧
      (pieces = [] ∨ c.target = c.call.goal) := by
  obtain ⟨buf, place⟩ := pure
  have none : ∀ piece ∈ ([] : List Piece), piece.author = some n := fun _ h => absurd h List.not_mem_nil
  unfold Child.Place at place
  generalize here : c.pc = pc at step place
  cases step with
  | dup2 =>
      refine ⟨⟨buf, ?_⟩, none, .inl rfl⟩
      simp only [Child.Place, Call.goal, place.1, if_true]
  | dup2Failed => exact ⟨⟨buf, .inl place.2⟩, none, .inl rfl⟩
  | close | reported => exact ⟨⟨buf, place⟩, none, .inl rfl⟩
  | report line later =>
      refine ⟨⟨fun piece member => ?_, place⟩, none, .inl rfl⟩
      rcases List.mem_append.mp member with old | new
      · exact buf piece old
      · exact (List.mem_singleton.mp new) ▸ rfl
  | execv => exact ⟨⟨none, place⟩, none, .inl rfl⟩
  | execvFailed => exact ⟨⟨buf, .inr place⟩, none, .inl rfl⟩
  | write text =>
      refine ⟨⟨buf, by rw [Child.Place, here]; exact place⟩, fun piece member => ?_, .inr place⟩
      exact (List.mem_singleton.mp member) ▸ rfl
  | exits code => exact ⟨⟨buf, trivial⟩, none, .inl rfl⟩
  | exit code => exact ⟨⟨none, trivial⟩, buf, place⟩
  | drain alive own k =>
      refine ⟨⟨fun piece member => buf piece (List.mem_of_mem_drop member), ?_⟩,
        fun piece member => buf piece (List.mem_of_mem_take member), ?_⟩
      · rw [Child.Place]
        dsimp only
        rw [here]
        cases pc with
        | dup2 => exact ⟨place.1, by rw [place.2]; exact List.drop_nil⟩
        | exit code => exact place.imp_left fun empty => by rw [empty]; exact List.drop_nil
        | _ => exact place
      · cases pc with
        | dup2 => exact .inl (by rw [place.2]; exact List.take_nil)
        | exit code => exact place.imp_left fun empty => by rw [empty]; exact List.take_nil
        | absent | zombie | reaped => cases alive
        | _ => exact .inr place
  | killed => exact ⟨⟨none, trivial⟩, none, .inl rfl⟩

/-- What the parent has written, in order. -/
def ofParent (pieces : List Piece) : List String :=
  (pieces.filter fun piece => piece.author = none).map Piece.text

structure World.Once (w : World) : Prop where
  buf : ∀ piece ∈ w.buf, piece.author = none
  child : ∀ n, (w.child n).Pure n
  /-- Behind `fflush` there is nothing for a child to inherit. -/
  flushed : ∀ c fd, w.parent = .fork c fd → w.buf = []
  printed : ofParent w.stdout ++ w.buf.map Piece.text = w.printed
  stdout : ∀ piece ∈ w.stdout, ∀ n, piece.author = some n →
    n < w.forked ∧ (w.child n).call.outputfile = none
  output : ∀ n, ∀ piece ∈ w.output n, piece.author = some n ∧ n < w.forked ∧
    (w.child n).call.outputfile.isSome

section

variable {w w' : World}

theorem ofParent_append (pieces more : List Piece) :
    ofParent (pieces ++ more) = ofParent pieces ++ ofParent more := by
  rw [ofParent, List.filter_append, List.map_append]
  rfl

theorem ofParent_own {pieces : List Piece} (own : ∀ piece ∈ pieces, piece.author = none) :
    ofParent pieces = pieces.map Piece.text := by
  rw [ofParent, List.filter_eq_self.mpr fun piece member => by simpa using own piece member]

theorem ofParent_child {n : Nat} {pieces : List Piece} (own : ∀ piece ∈ pieces, piece.author = some n) :
    ofParent pieces = [] := by
  rw [ofParent, List.filter_eq_nil_iff.mpr fun piece member => by simp [own piece member]]
  rfl

theorem World.Once.start : World.start.Once where
  buf _ none := absurd none List.not_mem_nil
  child _ := ⟨fun _ none => absurd none List.not_mem_nil, trivial⟩
  flushed _ _ := by rintro ⟨⟩
  printed := rfl
  stdout _ none := absurd none List.not_mem_nil
  output _ _ none := absurd none List.not_mem_nil

theorem World.Once.write (once : w.Once) (texts : List String) (k : Nat)
    (unborn : w'.forked = w.forked) (child : ∀ n, (w'.child n).Pure n)
    (calls : ∀ n, (w'.child n).call = (w.child n).call)
    (buf : w'.buf = w.buf.drop k ++ texts.map fun text => ⟨none, text⟩)
    (flushed : ∀ c fd, w'.parent = .fork c fd → w'.buf = [])
    (printed : w'.printed = w.printed ++ texts) (stdout : w'.stdout = w.stdout ++ w.buf.take k)
    (output : w'.output = w.output) : w'.Once where
  buf := by
    intro piece member
    rw [buf] at member
    rcases List.mem_append.mp member with old | new
    · exact once.buf piece (List.mem_of_mem_drop old)
    · obtain ⟨text, _, rfl⟩ := List.mem_map.mp new
      rfl
  child := child
  flushed := flushed
  printed := by
    have own := ofParent_own fun piece member => once.buf piece (List.mem_of_mem_take (i := k) member)
    rw [buf, stdout, printed, ofParent_append, own, List.map_append, List.append_assoc,
      ← List.append_assoc (List.map _ _), ← List.map_append, List.take_append_drop, ← once.printed]
    simp [Function.comp_def]
  stdout := by
    intro piece member n author
    rw [stdout] at member
    rw [unborn, calls]
    rcases List.mem_append.mp member with old | new
    · exact once.stdout piece old n author
    · rw [once.buf piece (List.mem_of_mem_take new)] at author
      cases author
  output := by
    intro n piece member
    rw [output] at member
    rw [calls, unborn]
    exact once.output n piece member

theorem reap_writes (w : World) (c : Call) (pid : Nat) (status : WaitStatus) :
    ∃ texts, (w.reap c pid status).buf = w.buf ++ texts.map (fun text => ⟨none, text⟩) ∧
      (w.reap c pid status).printed = w.printed ++ texts ∧
      (w.reap c pid status).stdout = w.stdout ∧ (w.reap c pid status).output = w.output := by
  cases status with
  | signaled => exact ⟨[], by simp [World.reap, World.finish]⟩
  | exited code =>
      by_cases zero : code = 0
      · subst zero
        exact ⟨[_], rfl, rfl, rfl, rfl⟩
      · refine ⟨[], ?_⟩
        rw [World.reap, if_pos zero]
        simp [World.finish]

theorem World.Once.forked (once : w.Once) (c : Call) {fd : Option Nat}
    (here : w.parent = .fork c fd) :
    World.Once { w with
      parent := c.behindFork w.forked fd
      forked := w.forked + 1
      child := update w.child w.forked (.forked c w.buf) } := by
  have empty := once.flushed c fd here
  refine ⟨once.buf, ?_, ?_, once.printed, fun piece member n author => ?_, fun n piece member => ?_⟩
  · refine (forall_update_iff w.child fun n c => c.Pure n).mpr ⟨?_, fun n _ => once.child n⟩
    rw [empty]
    exact .forked c w.forked
  · intro c' fd' same
    cases fd <;> cases same
  · obtain ⟨born, plain⟩ := once.stdout piece member n author
    simp only [update_of_ne born.ne]
    exact ⟨Nat.lt_succ_of_lt born, plain⟩
  · obtain ⟨author, born, redirect⟩ := once.output n piece member
    simp only [update_of_ne born.ne]
    exact ⟨author, Nat.lt_succ_of_lt born, redirect⟩

theorem World.Once.parent (once : w.Once) {e : ParentEvent} (step : ParentStep w w.parent e w')
    (flushes : ∀ c fd, w.parent = .fflush c fd → e ≠ .failed) : w'.Once := by
  generalize here : w.parent = pc at step flushes
  cases step with
  | print text =>
      refine once.write [text] 0 rfl once.child (fun _ => rfl) rfl (fun c fd same => ?_) rfl
        (List.append_nil _).symm rfl
      exact nomatch here.symm.trans same
  | call c =>
      refine { once with flushed := fun c' fd => ?_ }
      dsimp only
      unfold Call.enter
      split <;> rintro ⟨⟩
  | openFailed | waitFailed | forkFailed | opened | close =>
      exact { once with flushed := by rintro _ _ ⟨⟩ }
  | flushed c fd =>
      exact once.write [] w.buf.length rfl once.child (fun _ => rfl) (by simp) (fun _ _ _ => rfl)
        (List.append_nil _).symm (by simp) rfl
  | flushFailed c fd => exact absurd rfl (flushes c fd rfl)
  | forked c fd => exact once.forked c here
  | @reap c pid status ended =>
      obtain ⟨texts, buf, printed, stdout, output⟩ := reap_writes w c pid status
      obtain ⟨parent, _, forked, child, _⟩ := reap_keeps w c pid status
      refine once.write texts 0 forked (fun n => ?_) (fun n => ?_) buf ?_ printed
        (stdout.trans (List.append_nil _).symm) output
      · have reaped : Child.Pure pid { w.child pid with pc := .reaped status } :=
          ⟨(once.child pid).buf, trivial⟩
        rw [child]
        exact (forall_update_iff w.child fun n c => c.Pure n).mpr ⟨reaped, fun n _ => once.child n⟩ n
      · have same : ({ w.child pid with pc := .reaped status } : Child).call = (w.child pid).call := rfl
        rw [child]
        exact call_update same n
      · rw [parent]
        rintro _ _ ⟨⟩
  | drain _ pieces =>
      refine once.write [] pieces rfl once.child (fun _ => rfl) (List.append_nil _).symm
        (fun c fd same => ?_) (List.append_nil _).symm rfl rfl
      dsimp only
      rw [once.flushed c fd same, List.drop_nil]

theorem World.Once.emit (once : w.Once) {n : Nat} (born : n < w.forked) {pieces : List Piece}
    {target : Target} (own : ∀ piece ∈ pieces, piece.author = some n)
    (leads : pieces = [] ∨ target = (w.child n).call.goal) : (w.emit n pieces target).Once := by
  have goal : ∀ piece ∈ pieces, target = (w.child n).call.goal := fun piece member =>
    leads.resolve_left fun none => absurd (none ▸ member) List.not_mem_nil
  cases target with
  | stdout =>
      refine { once with printed := ?_, stdout := fun piece member k author => ?_ }
      · simpa only [World.emit, ofParent_append, ofParent_child own, List.append_nil] using once.printed
      · rcases List.mem_append.mp member with old | new
        · exact once.stdout piece old k author
        · have same := (own piece new).symm.trans author
          obtain rfl := Option.some.inj same
          have plain := goal piece new
          unfold Call.goal at plain
          split at plain
          · cases plain
          · rename_i none
            exact ⟨born, Option.not_isSome_iff_eq_none.mp none⟩
  | output =>
      refine { once with output := fun k piece member => ?_ }
      simp only [World.emit] at member ⊢
      by_cases same : k = n
      · subst same
        rw [update_self] at member
        rcases List.mem_append.mp member with old | new
        · exact once.output k piece old
        · have redirect := goal piece new
          unfold Call.goal at redirect
          split at redirect
          · exact ⟨own piece new, born, by assumption⟩
          · cases redirect
      · rw [update_of_ne same] at member
        exact once.output k piece member

theorem World.Once.child_step (once : w.Once) (ledger : w.Ledger) {n : Nat} {c' : Child}
    {pieces : List Piece} (step : ChildStep n (w.child n) (w.child n).pc c' pieces) :
    ({ w with child := update w.child n c' }.emit n pieces (w.child n).target).Once := by
  obtain ⟨call, alive, _⟩ := step.keeps rfl
  have born : n < w.forked := by
    by_contra above
    rw [ledger.unborn n (Nat.le_of_not_lt above)] at alive
    cases alive
  obtain ⟨pure, own, leads⟩ := (once.child n).step step
  have calls := call_update call
  have changed : World.Once { w with child := update w.child n c' } := by
    refine { once with child := ?_, stdout := ?_, output := ?_ }
    · exact (forall_update_iff w.child fun k c => c.Pure k).mpr ⟨pure, fun k _ => once.child k⟩
    · simpa only [calls] using once.stdout
    · simpa only [calls] using once.output
  exact changed.emit born own (by simpa only [update_self, call] using leads)

end

/-- The result of `fflush`, which nobody looks at. -/
def fflushFails (w : World) (e : Event) : Bool :=
  match w.parent, e with
  | .fflush _ _, .parent .failed => true
  | _, _ => false

/-- What the processes have written. -/
structure World.Outputs (w : World) : Prop where
  /-- What the parent has printed is there once and in order, or still in its buffer. -/
  printed : ofParent w.stdout ++ w.buf.map Piece.text = w.printed
  /-- All else there is of children of `do_exec`. -/
  stdout : ∀ piece ∈ w.stdout, ∀ n, piece.author = some n →
    n < w.forked ∧ (w.child n).call.outputfile = none
  /-- And what a child writes to an output file is its own, and of `do_exec_redirect`. -/
  output : ∀ n, ∀ piece ∈ w.output n, piece.author = some n ∧ n < w.forked ∧
    (w.child n).call.outputfile.isSome

/-- A child of `do_exec` whose `execv` fails, so that what it has printed appears. -/
def execvFails (fflush : ParentEvent) : List Event :=
  [.parent (.print "before"), .parent (.call ⟨none, "/bin/missing", []⟩), .parent fflush,
    .parent .done] ++ [.done, .done, .done, .failed, .done].map (.child 0) ++
  [.parent .done, .parent (.drain 1)]

-- where `fflush` has failed the child writes its copy too
example : ((execvFails .failed).foldlM World.next .start).map (fun w => ofParent w.stdout) =
    some ["before", "before"] := rfl

end Aesd.SystemCalls
