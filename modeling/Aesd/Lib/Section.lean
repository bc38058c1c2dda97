import Aesd.Lib.Mutex

/-! # What holds of data while a process is inside a critical section

`Excludes` is the half of the lock discipline that mutual exclusion rests on: a
program point that counts on a mutex has it.  A call may still return without
unlocking, so that the mutex is lost, but nobody else gets in then either.

An invariant of the data is stated relative to the program point of the process
inside the section of one mutex, or to `none` while there is nobody.  `Carries`
asks for it step by step of single program points; `Kept` is what follows for
every reachable state.
-/

namespace Aesd.Lib.Mutex

open Function

variable {Pid Lock Pc Call Data : Type*}

/-- Every program point holds what `holds` says, whatever else it may hold. -/
structure Excludes (code : Code Lock Pc Call Data) (holds : Pc → Lock → Prop) : Prop where
  outside : ∀ pc l, code.outside pc → ¬holds pc l
  enter : ∀ call l, ¬holds (code.enter call) l
  next : ∀ pc data op pc' data', code.next pc data = some (op, pc', data') →
    ∀ l, holds pc' l → op.after (holds pc) l
  unlock : ∀ pc data l pc' data', code.next pc data = some (.unlock l, pc', data') → holds pc l

/-- A process at a program point that counts on a mutex owns it. -/
def Guarded (holds : Pc → Lock → Prop) (s : System Pid Lock Pc Data) : Prop :=
  ∀ l p, holds (s.pc p) l → s.owner l = some (p, s.serial p)

theorem Guarded.exclusive {holds : Pc → Lock → Prop} {s : System Pid Lock Pc Data}
    (guarded : Guarded holds s) {l : Lock} {p q : Pid} (one : holds (s.pc p) l)
    (other : holds (s.pc q) l) : p = q := by
  have owner := guarded l p one
  rw [guarded l q other] at owner
  exact (congrArg Prod.fst (Option.some.inj owner)).symm

/-- The process at `pc` is inside the section of `l`, or it is not. -/
inductive Occupant (holds : Pc → Lock → Prop) (l : Lock) (pc : Pc) : Option Pc → Prop where
  | inside (held : holds pc l) : Occupant holds l pc (some pc)
  | away (free : ¬holds pc l) : Occupant holds l pc none

/-- Steps that meet `ok` carry the invariant on: those of the process in the
    section or about to enter or leave it, and those of any other process aside. -/
structure Carries (code : Code Lock Pc Call Data) (ok : Pc → Data → Prop) (holds : Pc → Lock → Prop)
    (l : Lock) (inv : Option Pc → Data → Prop) : Prop where
  step : ∀ pc data op pc' data', ok pc data → code.next pc data = some (op, pc', data') →
    ∀ o o', Occupant holds l pc o → Occupant holds l pc' o' → inv o data → inv o' data'
  aside : ∀ pc data op pc' data', ok pc data → code.next pc data = some (op, pc', data') →
    ¬holds pc l → ¬holds pc' l → ∀ other, holds other l → inv (some other) data →
      inv (some other) data'

/-- The invariant at whoever is in the section, and of the idle data. -/
structure Kept (holds : Pc → Lock → Prop) (l : Lock) (inv : Option Pc → Data → Prop)
    (s : System Pid Lock Pc Data) : Prop where
  inside : ∀ p, holds (s.pc p) l → inv (some (s.pc p)) s.data
  idle : (∀ p, ¬holds (s.pc p) l) → inv none s.data

theorem Kept.occupant {holds : Pc → Lock → Prop} {l : Lock} {inv : Option Pc → Data → Prop}
    {s : System Pid Lock Pc Data} (kept : Kept holds l inv s) :
    ∃ o, inv o s.data ∧ ∀ pc, o = some pc → ∃ p, s.pc p = pc := by
  by_cases busy : ∃ p, holds (s.pc p) l
  · obtain ⟨p, held⟩ := busy
    refine ⟨_, kept.inside p held, ?_⟩
    rintro _ ⟨⟩
    exact ⟨p, rfl⟩
  · exact ⟨none, kept.idle (not_exists.mp busy), fun _ none => nomatch none⟩

section

variable [DecidableEq Pid] [DecidableEq Lock] {code : Code Lock Pc Call Data}
  {ok : Pc → Data → Prop} {holds : Pc → Lock → Prop} {s s' : System Pid Lock Pc Data}

theorem Guarded.step (guarded : Guarded holds s) (excludes : Excludes code holds)
    {label : Pid × Option Call} (taken : Step code s label s') : Guarded holds s' := by
  intro l q held
  cases taken with
  | @enter p call out =>
      by_cases same : q = p
      · subst same
        simp only [update_self] at held
        exact absurd held (excludes.enter call l)
      · simp only [update_of_ne same] at held ⊢
        exact guarded l q held
  | @quiet p pc data next =>
      by_cases same : q = p
      · subst same
        simp only [update_self] at held
        exact guarded l q (excludes.next _ _ _ _ _ next l held)
      · simp only [update_of_ne same] at held
        exact guarded l q held
  | @lock p m pc data next free =>
      by_cases same : q = p
      · subst same
        simp only [update_self] at held
        rcases excludes.next _ _ _ _ _ next l held with rfl | before
        · simp only [update_self]
        · have other : l ≠ m := by
            rintro rfl
            rw [guarded l q before] at free
            cases free
          simp only [update_of_ne other]
          exact guarded l q before
      · simp only [update_of_ne same] at held
        have other : l ≠ m := by
          rintro rfl
          rw [guarded l q held] at free
          cases free
        simp only [update_of_ne other]
        exact guarded l q held
  | @unlock p m pc data next =>
      have own := excludes.unlock _ _ _ _ _ next
      by_cases same : q = p
      · subst same
        simp only [update_self] at held
        obtain ⟨other, before⟩ := excludes.next _ _ _ _ _ next l held
        simp only [update_of_ne other]
        exact guarded l q before
      · simp only [update_of_ne same] at held
        have other : l ≠ m := by
          rintro rfl
          exact same (guarded.exclusive held own)
        simp only [update_of_ne other]
        exact guarded l q held

theorem Guarded.init {start : Data → Prop} (excludes : Excludes code holds)
    (initial : (processes code start).init s) : Guarded holds s :=
  fun l p held => absurd held (excludes.outside _ l (initial.2.2 p))

theorem guarded_of_reach (excludes : Excludes code holds) {start : Data → Prop}
    {allowed : System Pid Lock Pc Data → Pid × Option Call → Prop}
    (reach : (processes code start).Reach allowed s) : Guarded holds s := by
  refine Lts.Reach.induct (Guarded holds) (fun s initial => Guarded.init excludes initial) ?_ reach
  intro s label s' guarded _ taken
  exact guarded.step excludes taken

variable {l : Lock} {inv : Option Pc → Data → Prop}

omit [DecidableEq Lock] in
/-- One step of the code, whatever it does to the mutexes. -/
theorem Kept.next (kept : Kept holds l inv s) (guarded : Guarded holds s)
    (carries : Carries code ok holds l inv) {p : Pid} {op pc' data'} (allowed : ok (s.pc p) s.data)
    (next : code.next (s.pc p) s.data = some (op, pc', data'))
    (taking : holds pc' l → ¬holds (s.pc p) l → s.owner l = none)
    (data : s'.data = data') (pcs : s'.pc = update s.pc p pc') : Kept holds l inv s' := by
  -- nobody else is inside when the process takes the mutex, or is inside already
  have alone : ∀ q, q ≠ p → holds (s.pc q) l → ¬holds (s.pc p) l ∧ ¬holds pc' l := by
    intro q other held
    have away : ¬holds (s.pc p) l := fun own => other (guarded.exclusive held own)
    refine ⟨away, fun taken => ?_⟩
    have free := taking taken away
    rw [guarded l q held] at free
    cases free
  have before : ∀ o, Occupant holds l (s.pc p) o → (∀ q, q ≠ p → ¬holds (s.pc q) l) →
      inv o s.data := by
    intro o occupant others
    cases occupant with
    | inside held => exact kept.inside p held
    | away free =>
        refine kept.idle fun q => ?_
        by_cases same : q = p
        · exact same ▸ free
        · exact others q same
  have occupant : ∃ o, Occupant holds l (s.pc p) o := by
    by_cases held : holds (s.pc p) l
    · exact ⟨_, .inside held⟩
    · exact ⟨_, .away held⟩
  obtain ⟨o, place⟩ := occupant
  constructor
  · intro q held
    rw [pcs] at held ⊢
    rw [data]
    by_cases same : q = p
    · subst same
      simp only [update_self] at held ⊢
      have others : ∀ r, r ≠ q → ¬holds (s.pc r) l := fun r apart own => (alone r apart own).2 held
      exact carries.step _ _ _ _ _ allowed next _ _ place (.inside held) (before o place others)
    · simp only [update_of_ne same] at held ⊢
      obtain ⟨away, away'⟩ := alone q same held
      exact carries.aside _ _ _ _ _ allowed next away away' _ held (kept.inside q held)
  · intro nobody
    rw [data]
    have away : ¬holds pc' l := by simpa [pcs] using nobody p
    have others : ∀ r, r ≠ p → ¬holds (s.pc r) l := fun r apart => by
      simpa [pcs, apart] using nobody r
    exact carries.step _ _ _ _ _ allowed next _ _ place (.away away) (before o place others)

theorem Kept.step (kept : Kept holds l inv s) (guarded : Guarded holds s)
    (excludes : Excludes code holds) (carries : Carries code ok holds l inv)
    {label : Pid × Option Call} (allowed : within ok s label) (taken : Step code s label s') :
    Kept holds l inv s' := by
  cases taken with
  | @enter p call out =>
      have stays : ∀ q, holds (update s.pc p (code.enter call) q) l ↔ holds (s.pc q) l := by
        intro q
        by_cases same : q = p
        · subst same
          simp [excludes.enter call l, excludes.outside _ l out]
        · rw [update_of_ne same]
      constructor
      · intro q held
        have apart : q ≠ p := by
          rintro rfl
          exact excludes.outside _ l out ((stays q).mp held)
        simp only [update_of_ne apart] at held ⊢
        exact kept.inside q held
      · exact fun nobody => kept.idle fun q => mt (stays q).mpr (nobody q)
  | @quiet p pc data next =>
      refine kept.next guarded carries (allowed rfl) next (fun held away => ?_) rfl rfl
      exact absurd (excludes.next _ _ _ _ _ next l held) away
  | @lock p m pc data next free =>
      refine kept.next guarded carries (allowed rfl) next (fun held away => ?_) rfl rfl
      rcases excludes.next _ _ _ _ _ next l held with rfl | before
      · exact free
      · exact absurd before away
  | @unlock p m pc data next =>
      refine kept.next guarded carries (allowed rfl) next (fun held away => ?_) rfl rfl
      exact absurd (excludes.next _ _ _ _ _ next l held).2 away

/-- The invariant in every state that steps which meet `ok` lead to, from states
    in which it holds. -/
theorem kept_along (excludes : Excludes code holds) (carries : Carries code ok holds l inv)
    {init : System Pid Lock Pc Data → Prop}
    (initially : ∀ s, init s → Guarded holds s ∧ Kept holds l inv s)
    {allowed : System Pid Lock Pc Data → Pid × Option Call → Prop}
    (allows : ∀ s label, allowed s label → within ok s label)
    (reach : (Lts.mk init (Step code)).Reach allowed s) :
    Guarded holds s ∧ Kept holds l inv s := by
  refine Lts.Reach.induct (fun s => Guarded holds s ∧ Kept holds l inv s) initially ?_ reach
  rintro s label s' ⟨guarded, kept⟩ step taken
  exact ⟨guarded.step excludes taken,
    kept.step guarded excludes carries (allows _ _ step) taken⟩

theorem kept_of_reach (excludes : Excludes code holds) (carries : Carries code ok holds l inv)
    {start : Data → Prop} (initially : ∀ data, start data → inv none data)
    {allowed : System Pid Lock Pc Data → Pid × Option Call → Prop}
    (allows : ∀ s label, allowed s label → within ok s label)
    (reach : (processes code start).Reach allowed s) : Kept holds l inv s := by
  refine (kept_along excludes carries (fun s initial => ?_) allows reach).2
  refine ⟨Guarded.init excludes initial, fun p held => ?_, fun _ => initially _ initial.1⟩
  exact absurd held (excludes.outside _ l (initial.2.2 p))

end

end Aesd.Lib.Mutex
