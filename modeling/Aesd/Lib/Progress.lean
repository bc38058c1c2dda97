import Aesd.Lib.Section
import Mathlib.Algebra.BigOperators.Group.Finset.Basic
import Mathlib.Algebra.Order.BigOperators.Group.Finset

/-! # Mutexes that are lost, and calls that come to an end

A mutex is lost once the call that locked it no longer counts on it: nobody will
unlock it, and nobody will ever get in.  While every call keeps to its mutexes,
these are locked in ascending order, and a call has only so many steps, the calls
under way come to an end however they are scheduled.
-/

namespace Aesd.Lib

open Function

theorem sum_update {ι α : Type*} [DecidableEq ι] {P : Finset ι} {i : ι} (member : i ∈ P)
    (size : ι → α → Nat) (g : ι → α) (a : α) :
    ∑ j ∈ P, size j (update g i a j) + size i (g i) = ∑ j ∈ P, size j (g j) + size i a := by
  have others : ∑ j ∈ P.erase i, size j (update g i a j) = ∑ j ∈ P.erase i, size j (g j) := by
    refine Finset.sum_congr rfl fun j inside => ?_
    rw [update_of_ne (Finset.ne_of_mem_erase inside)]
  rw [← Finset.sum_erase_add P _ member, ← Finset.sum_erase_add P _ member, others, update_self]
  omega

namespace Mutex

variable {Pid Lock Pc Call Data : Type*}

/-- The owner of the mutex is a call that does not count on it any more. -/
def Lost (holds : Pc → Lock → Prop) (l : Lock) (s : System Pid Lock Pc Data) : Prop :=
  ∃ p n, s.owner l = some (p, n) ∧ ¬(s.serial p = n ∧ holds (s.pc p) l)

section

variable {code : Code Lock Pc Call Data} {holds : Pc → Lock → Prop} {s s' : System Pid Lock Pc Data}
  {l : Lock}

theorem Lost.deserted (lost : Lost holds l s) (guarded : Guarded holds s) (q : Pid) :
    ¬holds (s.pc q) l := by
  intro held
  obtain ⟨p, n, owner, left⟩ := lost
  have own := guarded l q held
  rw [owner] at own
  obtain ⟨rfl, rfl⟩ := Prod.mk.inj (Option.some.inj own)
  exact left ⟨rfl, held⟩

variable [DecidableEq Pid] [DecidableEq Lock]

theorem Lost.blocks (lost : Lost holds l s) {p : Pid} {pc' : Pc} {data' : Data}
    (next : code.next (s.pc p) s.data = some (.lock l, pc', data')) :
    ¬Step code s (p, none) s' := by
  obtain ⟨q, n, owner, _⟩ := lost
  intro taken
  cases taken with
  | quiet other | unlock other =>
      rw [next] at other
      cases other
  | lock other free =>
      rw [next] at other
      cases other
      rw [owner] at free
      cases free

theorem Lost.step (lost : Lost holds l s) (guarded : Guarded holds s) (excludes : Excludes code holds)
    {label : Pid × Option Call} (taken : Step code s label s') :
    s'.owner l = s.owner l ∧ Lost holds l s' := by
  have deserted := lost.deserted guarded
  obtain ⟨q, n, owner, _⟩ := lost
  -- nobody gets in, so the owner does not come back
  have stays : ∀ {p pc}, ¬holds pc l → ¬holds (update s.pc p pc q) l := by
    intro p pc away
    by_cases same : q = p
    · subst same
      rwa [update_self]
    · rw [update_of_ne same]
      exact deserted q
  cases taken with
  | @enter p call out =>
      exact ⟨rfl, q, n, owner, fun inside => stays (excludes.enter call l) inside.2⟩
  | @quiet p pc data next =>
      refine ⟨rfl, q, n, owner, fun inside => stays (fun held => ?_) inside.2⟩
      exact deserted p (excludes.next _ _ _ _ _ next l held)
  | @lock p m pc data next free =>
      have other : l ≠ m := by
        rintro rfl
        rw [owner] at free
        cases free
      have same : update s.owner m (some (p, s.serial p)) l = s.owner l := update_of_ne other ..
      refine ⟨same, q, n, same.trans owner, fun inside => stays (fun held => ?_) inside.2⟩
      rcases excludes.next _ _ _ _ _ next l held with eq | before
      · exact other eq
      · exact deserted p before
  | @unlock p m pc data next =>
      have other : l ≠ m := by
        rintro rfl
        exact deserted p (excludes.unlock _ _ _ _ _ next)
      have same : update s.owner m none l = s.owner l := update_of_ne other ..
      refine ⟨same, q, n, same.trans owner, fun inside => stays (fun held => ?_) inside.2⟩
      exact deserted p (excludes.next _ _ _ _ _ next l held).2

end

section

variable {code : Code Lock Pc Call Data} {holds : Pc → Lock → Prop} {s s' : System Pid Lock Pc Data}

/-- Every process inside a call has a next step, and knows the mutex it takes. -/
def Ready (code : Code Lock Pc Call Data) (waits : Pc → Lock → Prop) (s : System Pid Lock Pc Data) :
    Prop :=
  ∀ p, ¬code.outside (s.pc p) → ∃ op pc' data', code.next (s.pc p) s.data = some (op, pc', data') ∧
    ∀ l, op = .lock l → waits (s.pc p) l

variable [DecidableEq Pid] [DecidableEq Lock]

/-- While mutexes are waited for in ascending order, somebody inside a call can go on. -/
theorem Owned.progress (owned : Owned holds s) {waits : Pc → Lock → Prop} {rank : Lock → Nat}
    {top : Nat} (outside : ∀ pc l, code.outside pc → ¬holds pc l)
    (ascending : ∀ pc l m, waits pc l → holds pc m → rank m < rank l) (bounded : ∀ l, rank l < top)
    (ready : Ready code waits s) {p : Pid} (inside : ¬code.outside (s.pc p)) :
    ∃ q s', Step code s (q, none) s' := by
  -- follow the owners: each waits for a mutex of higher rank
  have climb : ∀ k p, ¬code.outside (s.pc p) → (∀ l, waits (s.pc p) l → top - rank l ≤ k) →
      ∃ q s', Step code s (q, none) s' := by
    intro k
    induction k with
    | zero =>
        intro p inside none
        obtain ⟨op, pc', data', next, waiting⟩ := ready p inside
        cases op with
        | none => exact ⟨p, _, .quiet next⟩
        | unlock l => exact ⟨p, _, .unlock next⟩
        | lock l =>
            have short := none l (waiting l rfl)
            have below := bounded l
            omega
    | succ k ih =>
        intro p inside near
        obtain ⟨op, pc', data', next, waiting⟩ := ready p inside
        cases op with
        | none => exact ⟨p, _, .quiet next⟩
        | unlock l => exact ⟨p, _, .unlock next⟩
        | lock l =>
            cases free : s.owner l with
            | none => exact ⟨p, _, .lock next free⟩
            | some owner =>
                obtain ⟨q, n⟩ := owner
                have held := ((owned l q n).mp free).2
                refine ih q (fun out => outside _ l out held) fun m further => ?_
                have higher := ascending _ _ _ further held
                have short := near l (waiting l rfl)
                omega
  exact climb top p inside fun l _ => Nat.sub_le _ _

/-- Steps that go on with calls, each of which has fewer and fewer steps left, are
    no more than the calls under way have left altogether. -/
theorem length_le_of_run {ok : System Pid Lock Pc Data → Pid × Option Call → Prop} {left : Pc → Nat}
    (shrinks : ∀ pc data op pc' data', code.next pc data = some (op, pc', data') →
      left pc' < left pc) {P : Finset Pid}
    (others : ∀ p, p ∉ P → code.next (s.pc p) = fun _ => none)
    {labels : List (Pid × Option Call)}
    (run : (Lts.mk (· = s) (Step code)).Run (fun s label => label.2 = none ∧ ok s label) labels s') :
    labels.length + ∑ p ∈ P, left (s'.pc p) ≤ ∑ p ∈ P, left (s.pc p) ∧
      ∀ p, p ∉ P → s'.pc p = s.pc p := by
  refine and_comm.mp (run.bounded (fun t => ∀ p, p ∉ P → t.pc p = s.pc p)
    (fun t => ∑ p ∈ P, left (t.pc p)) ?_ ?_)
  · rintro _ rfl
    exact ⟨fun _ _ => rfl, le_rfl⟩
  · rintro t ⟨p, call⟩ t' frame allowed taken
    obtain rfl : call = none := allowed.1
    obtain ⟨op, next⟩ := taken.next
    have member : p ∈ P := by
      by_contra away
      rw [frame p away, others p away] at next
      cases next
    constructor
    · intro q away
      have apart : q ≠ p := by
        rintro rfl
        exact away member
      rw [taken.pc_other apart, frame q away]
    · refine Finset.sum_lt_sum (fun q _ => ?_) ⟨p, member, shrinks _ _ _ _ _ next⟩
      by_cases same : q = p
      · subst same
        exact (shrinks _ _ _ _ _ next).le
      · rw [taken.pc_other same]

end

end Mutex

end Aesd.Lib
