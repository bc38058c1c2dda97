import Aesd.Lib.Lts
import Mathlib.Logic.Function.Basic
import Mathlib.Logic.Relation

/-! # Processes that share data under mutexes

Any number of processes run calls of one piece of code, one step at a time and
interleaved in any order.  A mutex remembers the process that took it and in
which of its calls, so that a call which returns without unlocking shows.

`Disciplined` is what the code has to do, stated for single steps: every program
point knows which mutexes are held there, and each step changes that as it locks
and unlocks.  From it follow, for every reachable state, who owns what, mutual
exclusion, and, with an order on the mutexes, that nobody waits in a circle.
-/

namespace Aesd.Lib.Mutex

open Function

/-- What a step does to the mutexes. -/
inductive LockOp (Lock : Type*) where
  | none
  | lock (l : Lock)
  | unlock (l : Lock)

namespace LockOp

variable {Lock : Type*}

/-- The mutexes held after the step, from those held before. -/
def after : LockOp Lock → (Lock → Prop) → Lock → Prop
  | .none, held, l => held l
  | .lock m, held, l => l = m ∨ held l
  | .unlock m, held, l => l ≠ m ∧ held l

end LockOp

/-- Code over shared data: its program points, where calls start, and steps.  A
    program point without a next step is outside every call, or stuck. -/
structure Code (Lock Pc Call Data : Type*) where
  outside : Pc → Bool
  enter : Call → Pc
  next : Pc → Data → Option (LockOp Lock × Pc × Data)

/-- Data, owners of the mutexes, and for each process how many calls it has
    started and where it is. -/
structure System (Pid Lock Pc Data : Type*) where
  data : Data
  owner : Lock → Option (Pid × Nat)
  serial : Pid → Nat
  pc : Pid → Pc

variable {Pid Lock Pc Call Data : Type*}

/-- `holds` tells the mutexes held at each program point, and steps that meet
    `ok` keep to it. -/
structure Disciplined (code : Code Lock Pc Call Data) (ok : Pc → Data → Prop)
    (holds : Pc → Lock → Prop) : Prop where
  outside : ∀ pc l, code.outside pc → ¬holds pc l
  enter : ∀ call l, ¬holds (code.enter call) l
  next : ∀ pc data op pc' data', ok pc data → code.next pc data = some (op, pc', data') →
    ∀ l, holds pc' l ↔ op.after (holds pc) l
  unlock : ∀ pc data l pc' data', code.next pc data = some (.unlock l, pc', data') → holds pc l

/-- The owner of a mutex is the process, in its present call, that holds it there. -/
def Owned (holds : Pc → Lock → Prop) (s : System Pid Lock Pc Data) : Prop :=
  ∀ l p n, s.owner l = some (p, n) ↔ s.serial p = n ∧ holds (s.pc p) l

section

variable {code : Code Lock Pc Call Data} {ok : Pc → Data → Prop} {holds : Pc → Lock → Prop}
  {s : System Pid Lock Pc Data}

theorem Owned.inside (owned : Owned holds s) (disciplined : Disciplined code ok holds) {l : Lock}
    {p : Pid} {n : Nat} (owner : s.owner l = some (p, n)) :
    s.serial p = n ∧ ¬code.outside (s.pc p) := by
  obtain ⟨call, held⟩ := (owned l p n).mp owner
  exact ⟨call, fun out => disciplined.outside _ l out held⟩

/-- A process waits for another: it stands before a mutex which the other owns. -/
def WaitsFor (waits : Pc → Lock → Prop) (s : System Pid Lock Pc Data) (p q : Pid) : Prop :=
  ∃ l n, waits (s.pc p) l ∧ s.owner l = some (q, n)

/-- When mutexes are only waited for in ascending order, waiting never goes in a circle. -/
theorem Owned.acyclic (owned : Owned holds s) {waits : Pc → Lock → Prop} {rank : Lock → Nat}
    (ascending : ∀ pc l m, waits pc l → holds pc m → rank m < rank l) (p : Pid) :
    ¬Relation.TransGen (WaitsFor waits s) p p := by
  -- along a chain, the last mutex waited for ranks no lower than the first
  have chain : ∀ q, Relation.TransGen (WaitsFor waits s) p q →
      ∃ l m, waits (s.pc p) l ∧ holds (s.pc q) m ∧ rank l ≤ rank m := by
    intro q path
    induction path with
    | single link =>
        obtain ⟨l, n, waiting, owner⟩ := link
        exact ⟨l, l, waiting, ((owned l _ n).mp owner).2, Nat.le_refl _⟩
    | tail _ link ih =>
        obtain ⟨l, m, first, held, below⟩ := ih
        obtain ⟨l', n, waiting, owner⟩ := link
        have higher := ascending _ _ _ waiting held
        exact ⟨l, l', first, ((owned l' _ n).mp owner).2, by omega⟩
  intro circle
  obtain ⟨l, m, waiting, held, below⟩ := chain p circle
  have higher := ascending _ _ _ waiting held
  omega

end

section

variable [DecidableEq Pid] [DecidableEq Lock]

/-- A process starts a call, or takes the next step of the one it is in; a step
    that locks has to find the mutex free. -/
inductive Step (code : Code Lock Pc Call Data) :
    System Pid Lock Pc Data → Pid × Option Call → System Pid Lock Pc Data → Prop where
  | enter {s p c} (out : code.outside (s.pc p)) :
      Step code s (p, some c)
        { s with serial := update s.serial p (s.serial p + 1), pc := update s.pc p (code.enter c) }
  | quiet {s p pc data} (next : code.next (s.pc p) s.data = some (.none, pc, data)) :
      Step code s (p, none) { s with data, pc := update s.pc p pc }
  | lock {s p l pc data} (next : code.next (s.pc p) s.data = some (.lock l, pc, data))
      (free : s.owner l = none) :
      Step code s (p, none)
        { s with data, owner := update s.owner l (some (p, s.serial p)), pc := update s.pc p pc }
  | unlock {s p l pc data} (next : code.next (s.pc p) s.data = some (.unlock l, pc, data)) :
      Step code s (p, none)
        { s with data, owner := update s.owner l none, pc := update s.pc p pc }

namespace Step

variable {code : Code Lock Pc Call Data} {s s' : System Pid Lock Pc Data} {p q : Pid}

theorem next (taken : Step code s (p, none) s') :
    ∃ op, code.next (s.pc p) s.data = some (op, s'.pc p, s'.data) := by
  cases taken with
  | quiet next | unlock next => exact ⟨_, by simpa using next⟩
  | lock next free => exact ⟨_, by simpa using next⟩

theorem enters {c : Call} (taken : Step code s (p, some c) s') :
    code.outside (s.pc p) ∧ s'.pc p = code.enter c ∧ s'.data = s.data := by
  cases taken with
  | enter out => exact ⟨out, update_self .., rfl⟩

theorem pc_other {c : Option Call} (taken : Step code s (p, c) s') (apart : q ≠ p) :
    s'.pc q = s.pc q := by
  cases taken <;> exact update_of_ne apart ..

end Step

/-- The step that a label names, computed. -/
def exec (code : Code Lock Pc Call Data) (s : System Pid Lock Pc Data) :
    Pid × Option Call → Option (System Pid Lock Pc Data)
  | (p, some c) =>
    if code.outside (s.pc p) then
      some { s with serial := update s.serial p (s.serial p + 1), pc := update s.pc p (code.enter c) }
    else none
  | (p, none) =>
    match code.next (s.pc p) s.data with
    | none => none
    | some (.none, pc, data) => some { s with data, pc := update s.pc p pc }
    | some (.lock l, pc, data) =>
      if (s.owner l).isNone then
        some { s with data, owner := update s.owner l (some (p, s.serial p)), pc := update s.pc p pc }
      else none
    | some (.unlock l, pc, data) =>
      some { s with data, owner := update s.owner l none, pc := update s.pc p pc }

theorem exec_iff {code : Code Lock Pc Call Data} {s s' : System Pid Lock Pc Data}
    {label : Pid × Option Call} : exec code s label = some s' ↔ Step code s label s' := by
  constructor
  · intro computed
    obtain ⟨p, _ | c⟩ := label
    · simp only [exec] at computed
      split at computed
      · cases computed
      · rename_i next
        cases computed
        exact .quiet next
      · rename_i next
        split at computed <;> cases computed
        rename_i free
        exact .lock next (Option.isNone_iff_eq_none.mp free)
      · rename_i next
        cases computed
        exact .unlock next
    · simp only [exec] at computed
      split at computed <;> cases computed
      exact .enter (by assumption)
  · intro taken
    cases taken with
    | enter out => simp only [exec, out, if_true]
    | quiet next => simp only [exec, next]
    | lock next free => simp only [exec, next, free, Option.isNone_none, if_true]
    | unlock next => simp only [exec, next]

/-- The processes of a code, from data that is initial, with every mutex free. -/
def processes (code : Code Lock Pc Call Data) (start : Data → Prop) :
    Lts (System Pid Lock Pc Data) (Pid × Option Call) where
  init s := start s.data ∧ (∀ l, s.owner l = none) ∧ ∀ p, code.outside (s.pc p)
  step := Step code

/-- The condition `ok` on each step that goes on with a call. -/
def within (ok : Pc → Data → Prop) (s : System Pid Lock Pc Data) (label : Pid × Option Call) : Prop :=
  label.2 = none → ok (s.pc label.1) s.data

instance (ok : Pc → Data → Prop) [∀ pc data, Decidable (ok pc data)] (s : System Pid Lock Pc Data)
    (label : Pid × Option Call) : Decidable (within ok s label) :=
  inferInstanceAs (Decidable (_ → _))

variable {code : Code Lock Pc Call Data} {ok : Pc → Data → Prop} {holds : Pc → Lock → Prop}
  {s s' : System Pid Lock Pc Data}

theorem Owned.step (owned : Owned holds s) (disciplined : Disciplined code ok holds)
    {label : Pid × Option Call} (allowed : within ok s label) (taken : Step code s label s') :
    Owned holds s' := by
  intro l q n
  have before := owned l q n
  cases taken with
  | @enter p call out =>
      by_cases same : q = p
      · subst same
        have none := disciplined.outside _ l out
        have fresh := disciplined.enter call l
        simp [before, none, fresh]
      · simpa [same] using before
  | @quiet p pc data next =>
      have held := disciplined.next _ _ _ _ _ (allowed rfl) next l
      by_cases same : q = p
      · subst same
        simpa [held, LockOp.after] using before
      · simpa [same] using before
  | @lock p m pc data next free =>
      have held := disciplined.next _ _ _ _ _ (allowed rfl) next l
      by_cases same : q = p
      · subst same
        by_cases taken : l = m
        · subst taken
          simp [held, LockOp.after]
        · simpa [held, LockOp.after, taken] using before
      · by_cases taken : l = m
        · subst taken
          have nobody : ¬holds (s.pc q) l := by
            intro held
            have owner := (owned l q (s.serial q)).mpr ⟨rfl, held⟩
            rw [free] at owner
            cases owner
          simp [nobody, same, Ne.symm same]
        · simpa [same, taken] using before
  | @unlock p m pc data next =>
      have held := disciplined.next _ _ _ _ _ (allowed rfl) next l
      have own := disciplined.unlock _ _ _ _ _ next
      by_cases same : q = p
      · subst same
        by_cases released : l = m
        · subst released
          simp [held, LockOp.after]
        · simpa [held, LockOp.after, released] using before
      · by_cases released : l = m
        · subst released
          have nobody : ¬holds (s.pc q) l := by
            intro held
            have owner := (owned l q (s.serial q)).mpr ⟨rfl, held⟩
            rw [(owned l p (s.serial p)).mpr ⟨rfl, own⟩] at owner
            exact same (congrArg Prod.fst (Option.some.inj owner)).symm
          simp [nobody, same]
        · simpa [same, released] using before

theorem owned_of_reach (disciplined : Disciplined code ok holds) {start : Data → Prop}
    (reach : (processes code start).Reach (within ok) s) : Owned holds s := by
  refine Lts.Reach.induct (Owned holds) ?_ ?_ reach
  · rintro s ⟨_, free, out⟩ l p n
    simp [free l, disciplined.outside _ l (out p)]
  · intro s label s' owned allowed taken
    exact owned.step disciplined allowed taken

end

/-- The steps of a call with nothing in between and every lock granted, for at
    most so many steps. -/
def Code.alone (code : Code Lock Pc Call Data) : Nat → Pc → Data → Option (Pc × Data)
  | 0, _, _ => none
  | fuel + 1, pc, data =>
    if code.outside pc then some (pc, data)
    else match code.next pc data with
      | none => none
      | some (_, pc, data) => code.alone fuel pc data

end Aesd.Lib.Mutex
