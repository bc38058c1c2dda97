import Mathlib.Data.List.Induction
import Mathlib.Order.Basic

/-! # Labelled transition systems

A system is its initial states and its labelled steps.  `Run ok labels s` is a
run from an initial state to `s` all of whose steps meet `ok`, a condition on
the state before the step and on the label.  Properties of "every state that
such a run reaches" are proved once here, by induction on the run.
-/

namespace Aesd.Lib

/-- Initial states and labelled steps over arbitrary states and labels. -/
structure Lts (State Label : Type*) where
  init : State → Prop
  step : State → Label → State → Prop

namespace Lts

variable {State Label : Type*} {M : Lts State Label}

/-- A run whose steps all meet `ok`, with the labels in the order they were taken. -/
inductive Run (M : Lts State Label) (ok : State → Label → Prop) : List Label → State → Prop where
  | nil {s} (start : M.init s) : Run M ok [] s
  | snoc {labels s label s'} (run : Run M ok labels s) (allowed : ok s label)
      (taken : M.step s label s') : Run M ok (labels ++ [label]) s'

/-- The condition every step meets. -/
def anyStep : State → Label → Prop := fun _ _ => True

instance (s : State) (label : Label) : Decidable (anyStep s label) := inferInstanceAs (Decidable True)

/-- A state that some run whose steps meet `ok` ends in. -/
def Reach (M : Lts State Label) (ok : State → Label → Prop) (s : State) : Prop :=
  ∃ labels, M.Run ok labels s

/-- A property of the labels taken and the state reached holds along every run
    when it holds at the start and each allowed step carries it on. -/
theorem Run.induct (inv : List Label → State → Prop) {ok : State → Label → Prop}
    (start : ∀ s, M.init s → inv [] s)
    (preserve : ∀ labels s label s', inv labels s → ok s label → M.step s label s' →
      inv (labels ++ [label]) s')
    {labels s} (run : M.Run ok labels s) : inv labels s := by
  induction run with
  | nil h => exact start _ h
  | snoc _ allowed taken ih => exact preserve _ _ _ _ ih allowed taken

theorem Reach.induct (inv : State → Prop) {ok : State → Label → Prop}
    (start : ∀ s, M.init s → inv s)
    (preserve : ∀ s label s', inv s → ok s label → M.step s label s' → inv s')
    {s} (reach : M.Reach ok s) : inv s := by
  obtain ⟨labels, run⟩ := reach
  exact run.induct (fun _ s => inv s) start
    (fun _ s label s' h allowed taken => preserve s label s' h allowed taken)

theorem Run.mono {ok ok' : State → Label → Prop} (weaker : ∀ s label, ok s label → ok' s label)
    {labels s} (run : M.Run ok labels s) : M.Run ok' labels s := by
  induction run with
  | nil h => exact .nil h
  | snoc _ allowed taken ih => exact .snoc ih (weaker _ _ allowed) taken

theorem Reach.init {ok : State → Label → Prop} {s} (start : M.init s) : M.Reach ok s :=
  ⟨[], .nil start⟩

theorem Reach.step {ok : State → Label → Prop} {s label s'} (reach : M.Reach ok s)
    (allowed : ok s label) (taken : M.step s label s') : M.Reach ok s' := by
  obtain ⟨labels, run⟩ := reach
  exact ⟨labels ++ [label], .snoc run allowed taken⟩

/-- Where every step takes something off a measure, a run is no longer than the measure. -/
theorem Run.bounded (inv : State → Prop) (left : State → Nat) {bound : Nat} {ok : State → Label → Prop}
    (start : ∀ s, M.init s → inv s ∧ left s ≤ bound)
    (decrease : ∀ s label s', inv s → ok s label → M.step s label s' → inv s' ∧ left s' < left s)
    {labels s} (run : M.Run ok labels s) : inv s ∧ labels.length + left s ≤ bound := by
  induction run with
  | nil h => simpa using start _ h
  | snoc _ allowed taken ih =>
      obtain ⟨kept, total⟩ := ih
      obtain ⟨kept', fewer⟩ := decrease _ _ _ kept allowed taken
      refine ⟨kept', ?_⟩
      rw [List.length_append, List.length_singleton]
      omega

theorem Run.foldlM {ok : State → Label → Prop} {next : State → Label → Option State}
    (sound : ∀ s label s', next s label = some s' → ok s label ∧ M.step s label s') {before s s'}
    (run : M.Run ok before s) {labels : List Label} (computed : labels.foldlM next s = some s') :
    M.Run ok (before ++ labels) s' := by
  induction labels generalizing before s with
  | nil =>
      obtain rfl := Option.some.inj computed
      rwa [List.append_nil]
  | cons label later ih =>
      rw [List.foldlM_cons] at computed
      obtain ⟨between, first, rest⟩ := Option.bind_eq_some_iff.mp computed
      obtain ⟨allowed, taken⟩ := sound s label between first
      rw [List.append_cons]
      exact ih (run.snoc allowed taken) rest

theorem Reach.foldlM {ok : State → Label → Prop} {next : State → Label → Option State}
    (sound : ∀ s label s', next s label = some s' → ok s label ∧ M.step s label s') {s s'}
    (reach : M.Reach ok s) {labels : List Label} (computed : labels.foldlM next s = some s') :
    M.Reach ok s' := by
  obtain ⟨before, run⟩ := reach
  exact ⟨_, run.foldlM sound computed⟩

/-- The computed step, taken only where it is allowed. -/
def allowing (ok : State → Label → Prop) [∀ s label, Decidable (ok s label)]
    (next : State → Label → Option State) (s : State) (label : Label) : Option State :=
  if ok s label then next s label else none

theorem allowing_sound {ok : State → Label → Prop} [∀ s label, Decidable (ok s label)]
    {next : State → Label → Option State}
    (sound : ∀ s label s', next s label = some s' → M.step s label s') (s : State) (label : Label)
    (s' : State) (taken : allowing ok next s label = some s') : ok s label ∧ M.step s label s' := by
  rw [allowing] at taken
  split at taken
  · rename_i allowed
    exact ⟨allowed, sound s label s' taken⟩
  · cases taken

/-- A list of labels whose steps can be computed is a run to a state with whatever
    property the computed state is found to have. -/
theorem exists_run {ok : State → Label → Prop} [∀ s label, Decidable (ok s label)]
    {next : State → Label → Option State} {P : State → Prop} [DecidablePred P]
    (sound : ∀ s label s', next s label = some s' → M.step s label s') {s : State} (start : M.init s)
    (labels : List Label)
    (computed : (labels.foldlM (allowing ok next) s).any (fun s' => decide (P s')) = true) :
    ∃ s', M.Run ok labels s' ∧ P s' := by
  obtain ⟨s', result, holds⟩ := (Option.any_eq_true _ _).mp computed
  exact ⟨s', (Run.nil start).foldlM (allowing_sound sound) result, of_decide_eq_true holds⟩

/-- The same steps, from one state on. -/
def startingAt (M : Lts State Label) (s : State) : Lts State Label := { M with init := (· = s) }

theorem Run.split {ok : State → Label → Prop} {first second : List Label} {s}
    (run : M.Run ok (first ++ second) s) :
    ∃ between, M.Run ok first between ∧ (M.startingAt between).Run ok second s := by
  induction second using List.reverseRecOn generalizing s with
  | nil => exact ⟨s, by rwa [List.append_nil] at run, .nil rfl⟩
  | append_singleton second label ih =>
      rw [← List.append_assoc] at run
      generalize labels : first ++ second ++ [label] = all at run
      cases run with
      | nil => simp at labels
      | snoc run allowed taken =>
          obtain ⟨rfl, same⟩ := List.append_inj' labels rfl
          obtain rfl := List.singleton_inj.mp same
          obtain ⟨between, before, after⟩ := ih run
          exact ⟨between, before, .snoc after allowed taken⟩

theorem Run.one {ok : State → Label → Prop} {s label s'}
    (run : (M.startingAt s).Run ok [label] s') : M.step s label s' := by
  generalize labels : [label] = all at run
  cases run with
  | nil => cases labels
  | snoc first allowed taken =>
      have labels : [] ++ [label] = _ ++ [_] := labels
      obtain ⟨none, same⟩ := List.append_inj' labels rfl
      obtain rfl := List.singleton_inj.mp same
      cases first with
      | nil start =>
          obtain rfl : _ = s := start
          exact taken
      | snoc => simp at none

end Lts

end Aesd.Lib
