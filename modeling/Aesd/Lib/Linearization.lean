import Mathlib.Data.List.Basic
import Mathlib.Data.List.Nodup

/-! # Overlapping calls in a sequential order

Callers see a history: calls are invoked, and later replied to, and between the
two other calls come and go.  A history is linearizable when its calls can be
put in an order in which, made one after another as wholes, they give the replies
that were seen, and which no reply and later invocation contradict.  The order
is built along the history: `invoke`, `act` and `reply` say what each event, and
each moment at which a call takes effect, asks for.
-/

namespace Aesd.Lib

/-- What can be seen of a call: that it begins, and that it is over. -/
inductive CallEvent (Id Op Reply : Type*) where
  | invoke (id : Id) (op : Op)
  | reply (id : Id) (r : Reply)

/-- A call that has taken effect. -/
structure Taken (Id Op Reply : Type*) where
  id : Id
  op : Op
  reply : Reply

variable {Id State Op Reply : Type*} {apply : State → Op → Option (Reply × State)}

/-- Calls made one after another lead from one state to another with these replies. -/
inductive Sequential (apply : State → Op → Option (Reply × State)) (start : State) :
    List (Taken Id Op Reply) → State → Prop where
  | nil : Sequential apply start [] start
  | snoc {calls s c s'} (before : Sequential apply start calls s)
      (acts : apply s c.op = some (c.reply, s')) : Sequential apply start (calls ++ [c]) s'

/-- The history has this order of its calls, which leads to this state: all that
    were replied to are in it, and maybe some that are still pending. -/
structure Linearizes (apply : State → Op → Option (Reply × State)) (start : State)
    (history : List (CallEvent Id Op Reply)) (order : List (Taken Id Op Reply)) (final : State) :
    Prop where
  sequential : Sequential apply start order final
  once : (order.map Taken.id).Nodup
  invoked : ∀ c ∈ order, .invoke c.id c.op ∈ history
  replied : ∀ id r, .reply id r ∈ history → ∃ c ∈ order, c.id = id ∧ c.reply = r
  realTime : ∀ before id op after, history = before ++ .invoke id op :: after →
    ∀ c ∈ order, c.id = id → ∀ id' r, .reply id' r ∈ before →
      ∃ first second, order = first ++ c :: second ∧ ∃ c' ∈ first, c'.id = id'

namespace Linearizes

variable {start final final' : State} {history : List (CallEvent Id Op Reply)}
  {order : List (Taken Id Op Reply)}

theorem empty (apply : State → Op → Option (Reply × State)) (start : State) :
    Linearizes apply start ([] : List (CallEvent Id Op Reply)) [] start where
  sequential := .nil
  once := .nil
  invoked _ member := absurd member List.not_mem_nil
  replied _ _ member := absurd member List.not_mem_nil
  realTime _ _ _ _ _ _ member := absurd member List.not_mem_nil

theorem split_concat {e : CallEvent Id Op Reply} {before after : List (CallEvent Id Op Reply)}
    {id : Id} {op : Op} (split : history ++ [e] = before ++ .invoke id op :: after) :
    (before = history ∧ e = .invoke id op) ∨
      ∃ after', history = before ++ .invoke id op :: after' := by
  rcases List.eq_nil_or_concat after with rfl | ⟨after', last, rfl⟩
  · obtain ⟨same, last⟩ := List.append_inj' split rfl
    exact .inl ⟨same.symm, (List.cons.inj last).1⟩
  · have shorter : history ++ [e] = (before ++ .invoke id op :: after') ++ [last] := by
      rw [split, List.concat_eq_append, List.append_assoc, List.cons_append]
    exact .inr ⟨after', (List.append_inj' shorter rfl).1⟩

theorem invoke (linearizes : Linearizes apply start history order final) {id : Id} (op : Op)
    (fresh : id ∉ order.map Taken.id) :
    Linearizes apply start (history ++ [.invoke id op]) order final where
  sequential := linearizes.sequential
  once := linearizes.once
  invoked c member := List.mem_append_left _ (linearizes.invoked c member)
  replied id' r member := by
    rcases List.mem_append.mp member with old | new
    · exact linearizes.replied id' r old
    · cases List.mem_singleton.mp new
  realTime before id' op' after split c member own := by
    rcases split_concat split with ⟨_, last⟩ | ⟨after', earlier⟩
    · cases last
      exact absurd (List.mem_map.mpr ⟨c, member, own⟩) fresh
    · exact linearizes.realTime before id' op' after' earlier c member own

theorem act (linearizes : Linearizes apply start history order final) {c : Taken Id Op Reply}
    (begun : .invoke c.id c.op ∈ history) (fresh : c.id ∉ order.map Taken.id)
    (acts : apply final c.op = some (c.reply, final')) :
    Linearizes apply start history (order ++ [c]) final' where
  sequential := .snoc linearizes.sequential acts
  once := by
    rw [List.map_append, List.map_singleton, ← List.concat_eq_append]
    exact linearizes.once.concat fresh
  invoked c' member := by
    rcases List.mem_append.mp member with old | new
    · exact linearizes.invoked c' old
    · rwa [List.mem_singleton.mp new]
  replied id r member := by
    obtain ⟨c', inside, own⟩ := linearizes.replied id r member
    exact ⟨c', List.mem_append_left _ inside, own⟩
  realTime before id op after split c' member own id' r earlier := by
    rcases List.mem_append.mp member with old | new
    · obtain ⟨first, second, same, found⟩ :=
        linearizes.realTime before id op after split c' old own id' r earlier
      exact ⟨first, second ++ [c], by rw [same, List.append_assoc, List.cons_append], found⟩
    · -- the new call is the last one: every call replied to stands before it
      have seen : .reply id' r ∈ history := split ▸ List.mem_append_left _ earlier
      obtain ⟨c₀, inside, same, _⟩ := linearizes.replied id' r seen
      exact ⟨order, [], by rw [List.mem_singleton.mp new], c₀, inside, same⟩

theorem reply (linearizes : Linearizes apply start history order final) {c : Taken Id Op Reply}
    (taken : c ∈ order) : Linearizes apply start (history ++ [.reply c.id c.reply]) order final where
  sequential := linearizes.sequential
  once := linearizes.once
  invoked c' member := List.mem_append_left _ (linearizes.invoked c' member)
  replied id r member := by
    rcases List.mem_append.mp member with old | new
    · exact linearizes.replied id r old
    · cases List.mem_singleton.mp new
      exact ⟨c, taken, rfl, rfl⟩
  realTime before id op after split c' member own := by
    rcases split_concat split with ⟨_, last⟩ | ⟨after', earlier⟩
    · cases last
    · exact linearizes.realTime before id op after' earlier c' member own

end Linearizes

/-- What each call keeps, all of them keep. -/
theorem Sequential.induct {inv : State → Prop} {start final : State}
    {calls : List (Taken Id Op Reply)} (sequential : Sequential apply start calls final)
    (initially : inv start)
    (preserve : ∀ s op r s', inv s → apply s op = some (r, s') → inv s') : inv final := by
  induction sequential with
  | nil => exact initially
  | snoc _ acts ih => exact preserve _ _ _ _ ih acts

theorem Sequential.split {start final : State} {calls first second : List (Taken Id Op Reply)}
    {c : Taken Id Op Reply} (sequential : Sequential apply start calls final)
    (split : calls = first ++ c :: second) :
    ∃ before after, Sequential apply start first before ∧ apply before c.op = some (c.reply, after) := by
  induction sequential generalizing second with
  | nil => cases first <;> cases split
  | @snoc calls s last s' earlier acts ih =>
      rcases List.eq_nil_or_concat second with rfl | ⟨second, other, rfl⟩
      · obtain ⟨rfl, rfl⟩ := List.append_inj' split rfl |>.imp_right List.singleton_inj.mp
        exact ⟨s, s', earlier, acts⟩
      · rw [List.concat_eq_append, ← List.cons_append, ← List.append_assoc] at split
        exact ih (List.append_inj' split rfl).1

end Aesd.Lib
