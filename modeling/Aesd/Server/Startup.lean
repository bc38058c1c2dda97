import Aesd.Server.Close
import Aesd.Server.Teardown

/-! # From the first statement of `main`

Before its handlers are installed the server creates the data file, opens the socket
that it listens on, and may leave its work to a child.  `opensocket` goes through the
addresses it is given, but only as far as the first for which there is a socket at all.
What follows is the process of the other modules; together they tell what a
process has left behind when it ends, and how much of it the exit status says.
-/

namespace Aesd.Server

open Aesd.Lib

inductive SetupPc where
  | createDataFile
  | getaddrinfo
  /-- In front of `socket`; how many addresses are left, this one included. -/
  | socket (addresses : Nat)
  | bind (sfd : Nat)
  | listen (sfd : Nat)
  /-- `errorcleanup`, where `sfd` may be -1. -/
  | errorCleanup (sfd : Option Nat)
  | fork (sfd : Nat)
  | sigaction (sfd : Nat)
  deriving Repr, DecidableEq

/-- What the call made there returns. -/
inductive SetupOutcome where
  | done
  | failed
  /-- `getaddrinfo` finds so many addresses. -/
  | addresses (n : Nat)
  | opened (sfd : Nat)
  /-- What the calls of `close` in `robustclose` return, and its `r` to begin with. -/
  | closes (close : Closes) (r : Int) (fuel : Nat)
  /-- `fork`, seen from either side. -/
  | parent
  | child

inductive ProgramPc where
  | setup (pc : SetupPc)
  | server (p : Process)
  | exited (r : Int)

/-- `sockets` are the sockets that `opensocket` has left open, `addresses` is what `getaddrinfo`
has allocated.  From the handlers on, the server's own state takes over. -/
structure Program where
  pc : ProgramPc
  sockets : List Nat
  addresses : Life
  dataFile : Life

namespace SetupPc

/-- The head of the loop over the addresses. -/
def tryAddresses (addresses : Nat) : SetupPc :=
  if addresses = 0 then .errorCleanup none else .socket addresses

/-- Behind `opensocket`. -/
def opened (daemonize : Bool) (sfd : Nat) : SetupPc := if daemonize then .fork sfd else .sigaction sfd

end SetupPc

namespace Program

/-- Where `main` starts: on the device there is no file to create. -/
def start (dev : Bool) : Program where
  pc := .setup (if dev then .getaddrinfo else .createDataFile)
  sockets := []
  addresses := .before
  dataFile := if dev then .present else .before

/-- A step of `startserver` before the handlers; `main` returns what it returns. -/
def setup (daemonize : Bool) (s : Program) : SetupPc → SetupOutcome → Option Program
  | .createDataFile, .done => some { s with pc := .setup .getaddrinfo, dataFile := .present }
  | .createDataFile, .failed => some { s with pc := .exited 1 }
  | .getaddrinfo, .failed => some { s with pc := .exited 1 }
  | .getaddrinfo, .addresses n => some { s with pc := .setup (.tryAddresses n), addresses := .present }
  | .socket n, .failed => some { s with pc := .setup (.tryAddresses (n - 1)) }
  | .socket _, .opened sfd => some { s with pc := .setup (.bind sfd), sockets := sfd :: s.sockets }
  | .bind sfd, .done => some { s with pc := .setup (.listen sfd) }
  | .bind sfd, .failed => some { s with pc := .setup (.errorCleanup (some sfd)) }
  | .listen sfd, .done => some { s with pc := .setup (.opened daemonize sfd), addresses := .gone }
  | .listen sfd, .failed => some { s with pc := .setup (.errorCleanup (some sfd)) }
  | .errorCleanup sfd, .closes close r fuel =>
    (robustclose close r fuel).map fun (_, calls) =>
      let closed := sfd.toList.filter fun _ => (List.range calls).any fun k => (close k).isNone
      { s with pc := .exited 1, sockets := s.sockets.diff closed, addresses := .gone }
  | .fork _, .failed => some { s with pc := .exited 1 }
  | .fork _, .parent => some { s with pc := .exited 0 }
  | .fork sfd, .child => some { s with pc := .setup (.sigaction sfd) }
  | .sigaction _, .failed => some { s with pc := .exited 1 }
  | .sigaction _, .done => some { s with pc := .server .installed }
  | _, _ => none

end Program

inductive ProgramEvent where
  | setup (outcome : SetupOutcome)
  | server (e : ProcessEvent)

namespace Program

def next (dev daemonize : Bool) (s : Program) : ProgramEvent → Option Program
  | .setup outcome =>
    match s.pc with
    | .setup pc => s.setup daemonize pc outcome
    | _ => none
  | .server e =>
    match s.pc with
    | .server p => (p.next dev e).map fun p => { s with pc := .server p }
    | _ => none

/-- The exit status, once there is one. -/
def status (s : Program) : Option Int :=
  match s.pc with
  | .exited r => some r
  | .server p =>
    match p.main with
    | .exited r => some r
    | _ => none
  | .setup _ => none

/-- The data file, which the server looks after from its start on. -/
def file (s : Program) : Life :=
  match s.pc with
  | .server p => p.dataFile
  | _ => s.dataFile

end Program

/-- The program from the first statement of `main`, on one side of the `fork`. -/
def program (dev daemonize : Bool) : Lts Program ProgramEvent where
  init := (· = .start dev)
  step s e s' := s.next dev daemonize e = some s'

/-- The invariant. -/
def Program.Kept (dev daemonize : Bool) (s : Program) : Prop :=
  match s.pc with
  | .setup .createDataFile => s.sockets = [] ∧ s.addresses = .before ∧ s.dataFile = .before
  | .setup .getaddrinfo => s.sockets = [] ∧ s.addresses = .before ∧ s.dataFile = .present
  | .setup (.socket _) => s.sockets = [] ∧ s.addresses = .present ∧ s.dataFile = .present
  | .setup (.bind sfd) | .setup (.listen sfd) =>
    s.sockets = [sfd] ∧ s.addresses = .present ∧ s.dataFile = .present
  | .setup (.errorCleanup sfd) =>
    s.sockets = sfd.toList ∧ s.addresses = .present ∧ s.dataFile = .present
  | .setup (.fork sfd) =>
    daemonize = true ∧ s.sockets = [sfd] ∧ s.addresses = .gone ∧ s.dataFile = .present
  | .setup (.sigaction sfd) => s.sockets = [sfd] ∧ s.addresses = .gone ∧ s.dataFile = .present
  | .server p => s.sockets.length = 1 ∧ s.addresses = .gone ∧ s.dataFile = .present ∧
      (process dev).Reach Lts.anyStep p
  | .exited r =>
    if r = 0 then
      daemonize = true ∧ s.sockets.length = 1 ∧ s.addresses = .gone ∧ s.dataFile = .present
    else
      s.sockets.length ≤ 1 ∧ s.addresses ≠ .present ∧
        (s.dataFile = .present ∨ s.sockets = [] ∧ s.dataFile = .before)

section

variable {dev daemonize : Bool} {s s' : Program}

theorem Program.Kept.start (dev daemonize : Bool) : (Program.start dev).Kept dev daemonize := by
  cases dev <;> exact ⟨rfl, rfl, rfl⟩

theorem process_installed (dev : Bool) : (process dev).Reach Lts.anyStep .installed :=
  .init ⟨rfl, rfl, fun _ => rfl, rfl, rfl, rfl, rfl⟩

theorem Program.Kept.failed {sockets : List Nat} {addresses dataFile : Life} (few : sockets.length ≤ 1)
    (freed : addresses ≠ .present) (file : dataFile = .present ∨ sockets = [] ∧ dataFile = .before) :
    Program.Kept dev daemonize ⟨.exited 1, sockets, addresses, dataFile⟩ := ⟨few, freed, file⟩

theorem Program.Kept.tryAddresses {n : Nat} :
    Program.Kept dev daemonize ⟨.setup (.tryAddresses n), [], .present, .present⟩ := by
  unfold SetupPc.tryAddresses
  split <;> exact ⟨rfl, rfl, rfl⟩

theorem Program.Kept.setup (kept : s.Kept dev daemonize) {pc : SetupPc} (here : s.pc = .setup pc)
    {outcome : SetupOutcome} (taken : s.setup daemonize pc outcome = some s') :
    s'.Kept dev daemonize := by
  obtain ⟨_, sockets, addresses, dataFile⟩ := s
  dsimp only at here
  subst here
  cases pc with
  | createDataFile =>
      obtain ⟨rfl, rfl, rfl⟩ := kept
      cases outcome <;> cases taken
      · exact ⟨rfl, rfl, rfl⟩
      · exact .failed (Nat.zero_le _) (by rintro ⟨⟩) (.inr ⟨rfl, rfl⟩)
  | getaddrinfo =>
      obtain ⟨rfl, rfl, rfl⟩ := kept
      cases outcome <;> cases taken
      · exact .failed (Nat.zero_le _) (by rintro ⟨⟩) (.inl rfl)
      · exact .tryAddresses
  | socket n =>
      obtain ⟨rfl, rfl, rfl⟩ := kept
      cases outcome <;> cases taken
      · exact .tryAddresses
      · exact ⟨rfl, rfl, rfl⟩
  | bind sfd =>
      obtain ⟨rfl, rfl, rfl⟩ := kept
      cases outcome <;> cases taken <;> exact ⟨rfl, rfl, rfl⟩
  | listen sfd =>
      obtain ⟨rfl, rfl, rfl⟩ := kept
      cases outcome <;> cases taken
      · cases daemonize
        · exact ⟨rfl, rfl, rfl⟩
        · exact ⟨rfl, rfl, rfl, rfl⟩
      · exact ⟨rfl, rfl, rfl⟩
  | errorCleanup sfd =>
      obtain ⟨rfl, rfl, rfl⟩ := kept
      cases outcome with
      | closes close r fuel =>
          obtain ⟨⟨_, calls⟩, _, rfl⟩ := Option.map_eq_some_iff.mp taken
          have few : sfd.toList.length ≤ 1 := by cases sfd <;> simp
          exact .failed ((List.diff_sublist _ _).length_le.trans few) (by rintro ⟨⟩) (.inl rfl)
      | _ => cases taken
  | fork sfd =>
      obtain ⟨rfl, rfl, rfl, rfl⟩ := kept
      cases outcome <;> cases taken
      · exact .failed (Nat.le_refl _) (by rintro ⟨⟩) (.inl rfl)
      · exact ⟨rfl, rfl, rfl, rfl⟩
      · exact ⟨rfl, rfl, rfl⟩
  | sigaction sfd =>
      obtain ⟨rfl, rfl, rfl⟩ := kept
      cases outcome <;> cases taken
      · exact ⟨rfl, rfl, rfl, process_installed dev⟩
      · exact .failed (Nat.le_refl _) (by rintro ⟨⟩) (.inl rfl)

theorem kept_of_program (reach : (program dev daemonize).Reach Lts.anyStep s) :
    s.Kept dev daemonize := by
  refine reach.induct (Program.Kept dev daemonize) ?_ ?_
  · rintro _ rfl
    exact .start dev daemonize
  · intro s e s' kept _ taken
    cases e with
    | setup outcome =>
        simp only [program, Program.next] at taken
        split at taken
        · exact kept.setup (by assumption) taken
        · cases taken
    | server e =>
        simp only [program, Program.next] at taken
        split at taken
        · rename_i p here
          obtain ⟨p', goes, rfl⟩ := Option.map_eq_some_iff.mp taken
          simp only [Program.Kept, here] at kept
          obtain ⟨one, gone, file, reach⟩ := kept
          exact ⟨one, gone, file, reach.step trivial goes⟩
        · cases taken

/-- At the end of a process. -/
structure Program.Ends (dev daemonize : Bool) (s : Program) (r : Int) : Prop where
  /-- Never a second socket to listen on, and the addresses are not forgotten. -/
  one : s.sockets.length ≤ 1
  addresses : s.addresses ≠ .present
  /-- 0 comes from the parent of a daemon, which has all it needs, or nothing is left. -/
  success : r = 0 → daemonize = true ∧ s.pc = .exited 0 ∧ s.sockets.length = 1 ∧ s.dataFile = .present ∨
    ∃ p, s.pc = .server p ∧ (∀ t, (p.tasks t).finished) ∧ p.mutex = .gone ∧ p.socket = .gone ∧
      (dev = false → p.dataFile = .gone)
  /-- With any other status the data file is still there, if it ever was. -/
  failure : r ≠ 0 → s.file = .present ∨ s.file = .before ∧ s.sockets = []

theorem program_ends (reach : (program dev daemonize).Reach Lts.anyStep s) {r : Int}
    (ended : s.status = some r) : s.Ends dev daemonize r := by
  have kept := kept_of_program reach
  obtain ⟨pc, sockets, addresses, dataFile⟩ := s
  cases pc with
  | setup => cases ended
  | exited r' =>
      obtain rfl : r' = r := Option.some.inj ended
      simp only [Program.Kept] at kept
      by_cases zero : r' = 0
      · subst zero
        obtain ⟨daemon, one, gone, file⟩ := kept
        exact ⟨one.le, by rw [gone]; rintro ⟨⟩, fun _ => .inl ⟨daemon, rfl, one, file⟩,
          fun nonzero => absurd rfl nonzero⟩
      · rw [if_neg zero] at kept
        obtain ⟨few, freed, file⟩ := kept
        exact ⟨few, freed, fun same => absurd same zero, fun _ => file.imp_right And.symm⟩
  | server p =>
      obtain ⟨one, gone, file, reach⟩ := kept
      have orderly := kept_of_reach reach
      obtain ⟨r', here⟩ : ∃ r', p.main = .exited r' := by
        cases here : p.main with
        | exited r' => exact ⟨r', rfl⟩
        | _ => simp [Program.status, here] at ended
      obtain rfl : r' = r := by simpa [Program.status, here] using ended
      have resources := orderly.resources
      rw [here, Resources] at resources
      refine ⟨one.le, by rw [gone]; rintro ⟨⟩, fun zero => .inr ⟨p, rfl, ?_⟩, fun nonzero => .inl ?_⟩
      · rw [if_pos zero] at resources
        obtain ⟨mutex, socket, dataFile, _⟩ := resources
        exact ⟨orderly.finished_of_mutex (by rw [mutex]; rintro ⟨⟩), mutex, socket, dataFile⟩
      · rw [if_neg nonzero] at resources
        exact resources.1

end

/-- The child of a daemon on the device: a signal before the first connection. -/
def daemonStopped : List ProgramEvent :=
  let served : List ProcessEvent :=
    [.main .done, .main (.uninitialised 0), .signal] ++ List.replicate 6 (.main .done)
  [.addresses 1, .opened 3, .done, .done, .child, .done].map .setup ++ served.map .server

theorem program_ends_daemonStopped : ∃ s : Program, s.status = some 0 ∧ s.Ends true true 0 := by
  obtain ⟨s, runs⟩ : ∃ s, daemonStopped.foldlM (Program.next true true) (.start true) = some s :=
    ⟨_, rfl⟩
  have init : (program true true).Reach Lts.anyStep (.start true) := .init rfl
  have reach := init.foldlM (fun _ _ _ taken => ⟨trivial, taken⟩) runs
  have ended : (daemonStopped.foldlM (Program.next true true) (.start true)).map Program.status =
      some (some 0) := rfl
  rw [runs] at ended
  exact ⟨s, Option.some.inj ended, program_ends reach (Option.some.inj ended)⟩

end Aesd.Server
