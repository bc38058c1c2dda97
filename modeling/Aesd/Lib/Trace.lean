import Mathlib.Logic.Basic

/-! # Traces of a client

A client's calls act on a state of its own and each gives a reply; a call may
also not return.  Two systems that agree on a set of states that the calls do
not leave cannot be told apart by any sequence of calls from there.
-/

namespace Aesd.Lib

variable {State Call Reply : Type*}

/-- The replies to a sequence of calls, and the state they lead to. -/
def trace (step : State → Call → Option (Reply × State)) :
    State → List Call → Option (List Reply × State)
  | s, [] => some ([], s)
  | s, call :: calls => do
    let (reply, s) ← step s call
    let (replies, s) ← trace step s calls
    some (reply :: replies, s)

theorem trace_congr (inside : State → Prop) {step step' : State → Call → Option (Reply × State)}
    (agree : ∀ s call, inside s → step s call = step' s call)
    (stays : ∀ s call reply s', inside s → step s call = some (reply, s') → inside s')
    {s : State} (start : inside s) (calls : List Call) : trace step s calls = trace step' s calls := by
  induction calls generalizing s with
  | nil => rfl
  | cons call calls ih =>
      rw [trace, trace, ← agree s call start]
      cases outcome : step s call with
      | none => rfl
      | some result =>
          obtain ⟨reply, s'⟩ := result
          simp only [Option.bind_eq_bind, Option.bind_some,
            ih (stays s call reply s' start outcome)]

theorem step_eq_of_trace {step step' : State → Call → Option (Reply × State)} {s : State}
    {call : Call} (same : trace step s [call] = trace step' s [call]) :
    step s call = step' s call := by
  simp only [trace, Option.bind_eq_bind, Option.bind_some] at same
  cases left : step s call with
  | none =>
      cases right : step' s call with
      | none => rfl
      | some result => simp [left, right] at same
  | some result =>
      cases right : step' s call with
      | none => simp [left, right] at same
      | some result' =>
          simp only [left, right, Option.bind_some, Option.some.injEq, Prod.mk.injEq,
            List.cons.injEq, and_true] at same
          exact congrArg some (Prod.ext same.1 same.2)

theorem trace_tail {step step' : State → Call → Option (Reply × State)} {s s' : State} {call : Call}
    {reply : Reply} {calls : List Call} (left : step s call = some (reply, s'))
    (right : step' s call = some (reply, s'))
    (same : trace step s (call :: calls) = trace step' s (call :: calls)) :
    trace step s' calls = trace step' s' calls := by
  simp only [trace, left, right, Option.bind_eq_bind, Option.bind_some] at same
  cases one : trace step s' calls with
  | none =>
      cases two : trace step' s' calls with
      | none => rfl
      | some result => simp [one, two] at same
  | some result =>
      cases two : trace step' s' calls with
      | none => simp [one, two] at same
      | some result' =>
          simp only [one, two, Option.bind_some, Option.some.injEq, Prod.mk.injEq, List.cons.injEq,
            true_and] at same
          exact congrArg some (Prod.ext same.1 same.2)

end Aesd.Lib
