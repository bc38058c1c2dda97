import Aesd.Lib.Lts
import Mathlib.Data.List.Basic
import Mathlib.Logic.Function.Basic

/-! # Threads that call on their surroundings

A machine is the code of one thread: at every program point it makes a request
of its surroundings, or has stopped, and it goes on with the answer.  `alone`
runs one thread in surroundings that may answer anything.  `threads` runs any
number of them against one shared object, which says what answers are possible
and what they do to it.  The share that a thread has in such a run is a run of
it alone, so what holds of one thread in any surroundings holds among others.
-/

namespace Aesd.Lib

open Function

/-- The code of a thread: its requests, and where it goes on with an answer.  An
    answer that the request cannot get leads nowhere. -/
structure Machine (Pc Request Answer : Type*) where
  request : Pc → Option Request
  resume : Pc → Answer → Option Pc

/-- What an answer to a request of a thread does to a shared object, if it can be
    given in its present state. -/
structure Object (Pid Shared Request Answer : Type*) where
  act : Shared → Pid → Request → Answer → Option Shared

/-- The shared object, and where each thread is. -/
structure World (Pid Pc Shared : Type*) where
  shared : Shared
  pc : Pid → Pc

namespace Machine

variable {Pid Pc Shared Request Answer : Type*}

/-- One thread in any surroundings. -/
def alone (M : Machine Pc Request Answer) (start : Pc → Prop) : Lts Pc (Request × Answer) where
  init := start
  step pc label pc' := M.request pc = some label.1 ∧ M.resume pc label.2 = some pc'

/-- The steps of one thread that a list of answers describes, with the labels. -/
def follow (M : Machine Pc Request Answer) : Pc → List Answer → Option (List (Request × Answer) × Pc)
  | pc, [] => some ([], pc)
  | pc, a :: later =>
    (M.request pc).bind fun r =>
      (M.resume pc a).bind fun pc =>
        (follow M pc later).map fun (labels, pc) => ((r, a) :: labels, pc)

section

variable [DecidableEq Pid] (M : Machine Pc Request Answer) (O : Object Pid Shared Request Answer)

/-- A thread has its request answered by the object and goes on. -/
def next (w : World Pid Pc Shared) (p : Pid) (a : Answer) : Option (Request × World Pid Pc Shared) :=
  (M.request (w.pc p)).bind fun r =>
    (O.act w.shared p r a).bind fun shared =>
      (M.resume (w.pc p) a).map fun pc => (r, ⟨shared, update w.pc p pc⟩)

/-- Threads over one object, in any order. -/
def threads (start : Shared → Prop) (enter : Pc → Prop) :
    Lts (World Pid Pc Shared) (Pid × Request × Answer) where
  init w := start w.shared ∧ ∀ p, enter (w.pc p)
  step w label w' := next M O w label.1 label.2.2 = some (label.2.1, w')

/-- The step that a label names, computed. -/
def play [DecidableEq Request] (w : World Pid Pc Shared) (label : Pid × Request × Answer) :
    Option (World Pid Pc Shared) :=
  (next M O w label.1 label.2.2).bind fun (r, w') => if r = label.2.1 then some w' else none

/-- The steps that a list of threads and answers describes, with the labels. -/
def exec : World Pid Pc Shared → List (Pid × Answer) →
    Option (List (Pid × Request × Answer) × World Pid Pc Shared)
  | w, [] => some ([], w)
  | w, (p, a) :: later =>
    (next M O w p a).bind fun (r, w) =>
      (exec w later).map fun (labels, w) => ((p, r, a) :: labels, w)

/-- The labels of one thread. -/
def share (p : Pid) (labels : List (Pid × Request × Answer)) : List (Request × Answer) :=
  (labels.filter fun label => label.1 = p).map Prod.snd

end

section

variable [DecidableEq Pid] {M : Machine Pc Request Answer} {O : Object Pid Shared Request Answer}
  {start : Shared → Prop} {enter : Pc → Prop} {w w' : World Pid Pc Shared} {p q : Pid}
  {r : Request} {a : Answer} {labels : List (Pid × Request × Answer)}

/-- Everything a step does. -/
theorem next_cases (taken : M.next O w p a = some (r, w')) :
    ∃ shared pc, M.request (w.pc p) = some r ∧ O.act w.shared p r a = some shared ∧
      M.resume (w.pc p) a = some pc ∧ w' = ⟨shared, update w.pc p pc⟩ := by
  unfold next at taken
  cases asks : M.request (w.pc p) with
  | none => simp [asks] at taken
  | some r' =>
      cases answers : O.act w.shared p r' a with
      | none => simp [asks, answers] at taken
      | some shared =>
          cases resumes : M.resume (w.pc p) a with
          | none => simp [asks, resumes] at taken
          | some pc =>
              simp only [asks, answers, resumes, Option.bind_some, Option.map_some,
                Option.some.injEq, Prod.mk.injEq] at taken
              obtain ⟨rfl, rfl⟩ := taken
              exact ⟨shared, pc, rfl, answers, rfl, rfl⟩

theorem step_of_play [DecidableEq Request] {label : Pid × Request × Answer}
    (played : M.play O w label = some w') : (M.threads O start enter).step w label w' := by
  obtain ⟨p, r, a⟩ := label
  obtain ⟨⟨r', w₁⟩, taken, same⟩ := Option.bind_eq_some_iff.mp played
  dsimp only at same
  split at same
  · rename_i request
    obtain rfl : r' = r := request
    obtain rfl := Option.some.inj same
    exact taken
  · cases same

theorem share_append (p : Pid) (labels more : List (Pid × Request × Answer)) :
    share p (labels ++ more) = share p labels ++ share p more := by
  rw [share, List.filter_append, List.map_append]
  rfl

theorem share_self (p : Pid) (label : Request × Answer) : share p [(p, label)] = [label] := by
  simp [share]

theorem share_other (apart : q ≠ p) (label : Request × Answer) : share p [(q, label)] = [] := by
  simp [share, apart]

/-- The share of a thread in a run is a run of it alone; conditions on labels carry over. -/
theorem alone_of_run {ok : Pid → Request → Answer → Prop}
    (run : (M.threads O start enter).Run (fun _ label => ok label.1 label.2.1 label.2.2) labels w)
    (p : Pid) :
    (M.alone enter).Run (fun _ label => ok p label.1 label.2) (share p labels) (w.pc p) := by
  refine run.induct
    (fun labels w => (M.alone enter).Run (fun _ label => ok p label.1 label.2) (share p labels)
      (w.pc p)) ?_ ?_
  · rintro w ⟨_, enters⟩
    exact .nil (enters p)
  · rintro labels w ⟨q, r, a⟩ w' before allowed taken
    change M.next O w q a = some (r, w') at taken
    obtain ⟨shared, pc, asks, _, resumes, rfl⟩ := next_cases taken
    rw [share_append]
    by_cases same : q = p
    · subst same
      simp only [share_self, update_self]
      exact .snoc before allowed ⟨asks, resumes⟩
    · simp only [share_other same, List.append_nil, update_of_ne (Ne.symm same)]
      exact before

omit [DecidableEq Pid] in
theorem run_of_follow {ok : Pc → Request × Answer → Prop} {pc pc' : Pc} {answers : List Answer}
    {before labels : List (Request × Answer)} (run : (M.alone enter).Run ok before pc)
    (follows : M.follow pc answers = some (labels, pc'))
    (allowed : ∀ label ∈ labels, ∀ pc, ok pc label) :
    (M.alone enter).Run ok (before ++ labels) pc' := by
  induction answers generalizing before labels pc with
  | nil =>
      obtain ⟨rfl, rfl⟩ := Prod.mk.inj (Option.some.inj follows)
      rwa [List.append_nil]
  | cons a later ih =>
      rw [follow] at follows
      cases asks : M.request pc with
      | none => simp [asks] at follows
      | some r =>
          cases resumes : M.resume pc a with
          | none => simp [asks, resumes] at follows
          | some pc₁ =>
              cases rest : M.follow pc₁ later with
              | none => simp [asks, resumes, rest] at follows
              | some result =>
                  obtain ⟨labels', pc₂⟩ := result
                  simp only [asks, resumes, rest, Option.bind_some, Option.map_some,
                    Option.some.injEq, Prod.mk.injEq] at follows
                  obtain ⟨rfl, rfl⟩ := follows
                  obtain ⟨first, others⟩ := List.forall_mem_cons.mp allowed
                  have one : (M.alone enter).Run ok (before ++ [(r, a)]) pc₁ :=
                    .snoc run (first pc) ⟨asks, resumes⟩
                  have more := ih one rest others
                  rwa [List.append_assoc] at more

theorem run_of_exec {ok : World Pid Pc Shared → Pid × Request × Answer → Prop}
    {steps : List (Pid × Answer)} {before : List (Pid × Request × Answer)}
    (run : (M.threads O start enter).Run ok before w)
    (executes : M.exec O w steps = some (labels, w')) (allowed : ∀ label ∈ labels, ∀ w, ok w label) :
    (M.threads O start enter).Run ok (before ++ labels) w' := by
  induction steps generalizing before labels w with
  | nil =>
      obtain ⟨rfl, rfl⟩ := Prod.mk.inj (Option.some.inj executes)
      rwa [List.append_nil]
  | cons head later ih =>
      obtain ⟨p, a⟩ := head
      rw [exec] at executes
      cases taken : M.next O w p a with
      | none => simp [taken] at executes
      | some result =>
          obtain ⟨r, w₁⟩ := result
          cases rest : M.exec O w₁ later with
          | none => simp [taken, rest] at executes
          | some result =>
              obtain ⟨labels', w₂⟩ := result
              simp only [taken, rest, Option.bind_some, Option.map_some, Option.some.injEq,
                Prod.mk.injEq] at executes
              obtain ⟨rfl, rfl⟩ := executes
              obtain ⟨first, others⟩ := List.forall_mem_cons.mp allowed
              have one : (M.threads O start enter).Run ok (before ++ [(p, r, a)]) w₁ :=
                .snoc run (first w) taken
              have more := ih one rest others
              rwa [List.append_assoc] at more

end

end Machine

end Aesd.Lib
