import Aesd.FinderApp.FileSystem

/-! # The directories in front of a file

`mk_dir_r` makes the directories on the way to a path, one a round and from the top:
`dirname` takes components away until one `mkdir` succeeds, and the next round starts
over from the whole path.
-/

namespace Aesd.FinderApp

open Aesd.Lib

/-- Which calls fail for a reason that is not in the tree, by their number. -/
structure Faults where
  fault : Nat → Option Errno
  other : ∀ call, fault call ≠ some ENOENT

theorem Faults.ne_missing (env : Faults) {call : Nat} {e : Errno} (fault : env.fault call = some e) :
    e ≠ ENOENT := by
  rintro rfl
  exact env.other call fault

def Faults.none : Faults := ⟨fun _ => .none, nofun⟩

structure World where
  fs : FileSystem
  /-- What each `open` and `mkdir` has come to: an error, or none. -/
  calls : List (Option Errno)

def openDirectory (env : Faults) (path : List UInt8) (w : World) : Option Errno × World :=
  let result := (env.fault w.calls.length).or (w.fs.openDirectory path)
  (result, ⟨w.fs, w.calls ++ [result]⟩)

def mkDir (env : Faults) (path : List UInt8) (w : World) : Option Errno × World :=
  match env.fault w.calls.length with
  | some e => (some e, ⟨w.fs, w.calls ++ [some e]⟩)
  | none =>
    let (result, fs) := w.fs.mkdir path
    (result, ⟨fs, w.calls ++ [result]⟩)

/-- The loop that makes the parent of `parent`, or the parent of that, and so on: one
    round, and `more` others at most. -/
def mkParent (env : Faults) (more : Nat) (parent : List UInt8) (w : World) : Option Errno × World :=
  match mkDir env (dirname parent) w with
  | (none, w) => (none, w)
  | (some e, w) =>
    match more with
    | 0 => (some e, w)
    | more + 1 => if e = ENOENT then mkParent env more (dirname parent) w else (some e, w)

def mkDirRounds (env : Faults) (path : List UInt8) : Nat → World → Int × World
  | 0, w => (-1, w)
  | rounds + 1, w =>
    match openDirectory env (dirname path) w with
    | (none, w) => (0, w)
    | (some e, w) =>
      if e = ENOENT then
        match mkParent env 253 path w with
        | (none, w) => mkDirRounds env path rounds w
        | (some _, w) => (-1, w)
      else (-1, w)

def mkDirR (env : Faults) (path : List UInt8) (w : World) : Int × World :=
  mkDirRounds env path 254 w

/-- The constant `"."` that `dirname` may return is never made: when the next round copies
    the path to `parent`, that is its own block. -/
theorem mkDir_dot (env : Faults) (w : World) : (mkDir env dot w).1 ≠ none := by
  unfold mkDir
  cases env.fault w.calls.length with
  | some e => nofun
  | none =>
      have here : w.fs.lookup dot = .ok (w.fs.start false) :=
        congrArg (Except.mapError errnoOf) (FileTree.walk_dir w.fs.cwd_dir .stay [])
      have dir : w.fs.tree.node (w.fs.start false).names ≠ none := by
        rw [show (w.fs.start false).names = w.fs.cwd from rfl, w.fs.cwd_dir]
        nofun
      unfold FileSystem.mkdir
      rw [here]
      dsimp only
      rw [dif_neg dir]
      nofun

theorem openDirectory_of_mkDirRounds {env : Faults} {path : List UInt8} {rounds : Nat} {w w' : World}
    (run : mkDirRounds env path rounds w = (0, w')) : w'.fs.openDirectory (dirname path) = none := by
  induction rounds generalizing w with
  | zero => cases run
  | succ rounds ih =>
      unfold mkDirRounds at run
      split at run
      · rename_i opened
        cases run
        unfold openDirectory at opened
        obtain ⟨result, rfl⟩ := Prod.mk.inj opened
        exact (Option.or_eq_none_iff.mp result).2
      · split at run
        · split at run
          · exact ih run
          · cases run
        · cases run

/-- Every component is the name of something. -/
def Plain (path : List UInt8) : Prop :=
  ∀ component ∈ Path.components slash path, component ≠ dot ∧ component ≠ [46, 46]

instance (path : List UInt8) : Decidable (Plain path) := List.decidableBAll _ _

/-- The names in front of the last. -/
def dirs (path : List UInt8) : List Name := (Path.components slash path).dropLast

def ancestors (fs : FileSystem) (path : List UInt8) : List (List Name) :=
  (List.range ((dirs path).length + 1)).map fun i => fs.base (absolute path) ++ (dirs path).take i

def missing (fs : FileSystem) (path : List UInt8) : List (List Name) :=
  (ancestors fs path).filter fun names => (fs.tree.node names).isNone

/-- No ancestor is another kind of file. -/
def NoFile (fs : FileSystem) (path : List UInt8) : Prop :=
  ∀ names ∈ ancestors fs path, ∀ content, fs.tree.node names ≠ some (.file content)

theorem mem_ancestors {fs : FileSystem} {path : List UInt8} {names : List Name} :
    names ∈ ancestors fs path ↔
      ∃ i ≤ (dirs path).length, fs.base (absolute path) ++ (dirs path).take i = names := by
  simp only [ancestors, List.mem_map, List.mem_range, Nat.lt_succ_iff]

theorem moves_plain {path : List UInt8} (plain : Plain path) :
    moves path = (Path.components slash path).map .down := by
  refine List.map_congr_left ?_
  intro component member
  obtain ⟨noDot, noDotDot⟩ := plain component member
  unfold moveOf
  rw [if_neg noDot, if_neg noDotDot]

theorem dropLast_moves {path : List UInt8} (plain : Plain path) :
    (moves path).dropLast = (dirs path).map .down := by
  rw [moves_plain plain, ← List.map_dropLast]
  rfl

theorem locate_plain {path : List UInt8} (plain : Plain path) (fs : FileSystem) :
    fs.locate path = fs.base (absolute path) ++ Path.components slash path := by
  unfold FileSystem.locate
  rw [moves_plain plain]
  generalize fs.base (absolute path) = names
  induction Path.components slash path generalizing names with
  | nil => rw [List.append_nil]; rfl
  | cons name rest ih =>
      rw [List.map_cons, List.foldl_cons, ih, Move.apply, List.append_assoc]
      rfl

theorem ancestor_ne_locate {path : List UInt8} (plain : Plain path) (named : path ≠ [])
    (noSlash : path.getLast? ≠ some slash) (fs : FileSystem) (i : Nat) :
    fs.base (absolute path) ++ (dirs path).take i ≠ fs.locate path := by
  intro same
  rw [locate_plain plain, List.append_cancel_left_eq] at same
  have some := List.length_pos_iff.mpr (Path.components_ne_nil named noSlash)
  have lengths := congrArg List.length same
  rw [List.length_take, dirs, List.length_dropLast] at lengths
  omega

section

variable {fs : FileSystem} {path : List UInt8} {m : Nat}

theorem missing_eq (depth : fs.tree.Depth (fs.base (absolute path)) (dirs path) m) :
    missing fs path =
      ((List.range ((dirs path).length - m)).map fun i =>
        fs.base (absolute path) ++ (dirs path).take (m + 1 + i)).filter
          fun names => (fs.tree.node names).isNone := by
  have split : (dirs path).length + 1 = m + 1 + ((dirs path).length - m) := by
    have within := depth.le
    omega
  unfold missing ancestors
  rw [split, List.range_add, List.map_append, List.filter_append, List.map_map]
  have there : ((List.range (m + 1)).map fun i =>
      fs.base (absolute path) ++ (dirs path).take i).filter
        (fun names => (fs.tree.node names).isNone) = [] := by
    rw [List.filter_eq_nil_iff]
    intro names member
    obtain ⟨i, within, rfl⟩ := List.mem_map.mp member
    rw [depth.dir i (Nat.le_of_lt_succ (List.mem_range.mp within))]
    exact Bool.false_ne_true
  rw [there, List.nil_append]
  rfl

theorem length_missing_le (depth : fs.tree.Depth (fs.base (absolute path)) (dirs path) m) :
    (missing fs path).length ≤ (dirs path).length - m := by
  rw [missing_eq depth]
  refine (List.length_filter_le _ _).trans ?_
  rw [List.length_map, List.length_range]

theorem none_of_no_file (depth : fs.tree.Depth (fs.base (absolute path)) (dirs path) m)
    (noFile : NoFile fs path) {i : Nat} (beyond : m < i) (within : i ≤ (dirs path).length) :
    fs.tree.node (fs.base (absolute path) ++ (dirs path).take i) = none := by
  by_cases next : i = m + 1
  · subst next
    have other := depth.stop within
    have file := noFile _ (mem_ancestors.mpr ⟨m + 1, within, rfl⟩)
    generalize fs.tree.node _ = n at other file
    cases n with
    | none => rfl
    | some n =>
        cases n with
        | dir => exact absurd rfl other
        | file content => exact absurd rfl (file content)
  · exact depth.none (by omega) within

theorem missing_of_no_file (depth : fs.tree.Depth (fs.base (absolute path)) (dirs path) m)
    (noFile : NoFile fs path) :
    missing fs path = (List.range ((dirs path).length - m)).map fun i =>
      fs.base (absolute path) ++ (dirs path).take (m + 1 + i) := by
  rw [missing_eq depth, List.filter_eq_self]
  intro names member
  obtain ⟨i, within, rfl⟩ := List.mem_map.mp member
  have inside := List.mem_range.mp within
  rw [none_of_no_file depth noFile (by omega) (by omega)]
  rfl

theorem mem_missing (depth : fs.tree.Depth (fs.base (absolute path)) (dirs path) m)
    (noFile : NoFile fs path) {names : List Name} :
    names ∈ missing fs path ↔ ∃ i, m < i ∧ i ≤ (dirs path).length ∧
      fs.base (absolute path) ++ (dirs path).take i = names := by
  simp only [missing_of_no_file depth noFile, List.mem_map, List.mem_range]
  constructor
  · rintro ⟨i, below, here⟩
    exact ⟨m + 1 + i, by omega, by omega, here⟩
  · rintro ⟨i, above, below, here⟩
    refine ⟨i - (m + 1), by omega, ?_⟩
    rwa [Nat.add_sub_cancel' above]

end

/-- No call has failed but for want of a directory. -/
def Quiet (calls : List (Option Errno)) : Prop := ∀ e, some e ∈ calls → e = ENOENT

@[simp] theorem quiet_nil : Quiet [] := nofun

@[simp] theorem quiet_none {calls : List (Option Errno)} : Quiet (calls ++ [none]) ↔ Quiet calls := by
  simp [Quiet]

@[simp] theorem quiet_some {calls : List (Option Errno)} {e : Errno} :
    Quiet (calls ++ [some e]) ↔ Quiet calls ∧ e = ENOENT := by
  constructor
  · intro quiet
    exact ⟨fun e' member => quiet e' (List.mem_append_left _ member), quiet e (by simp)⟩
  · rintro ⟨quiet, rfl⟩ e' member
    rcases List.mem_append.mp member with member | last
    · exact quiet e' member
    · simpa using last

/-- The directories after the first `m` names up to the first `n` are new, and
    everything else is as before. -/
structure Grown (base dirs : List Name) (fs : FileSystem) (m n : Nat) (fs' : FileSystem) : Prop where
  cwd : fs'.cwd = fs.cwd
  free : ∀ i, m < i → i ≤ n → fs.tree.node (base ++ dirs.take i) = none
  new : ∀ i, m < i → i ≤ n → fs'.tree.node (base ++ dirs.take i) = some .dir
  same : ∀ names, (∀ i, m < i → i ≤ n → base ++ dirs.take i ≠ names) →
    fs'.tree.node names = fs.tree.node names

namespace Grown

variable {base dirs : List Name} {fs fs' fs'' : FileSystem} {m n k : Nat}

theorem refl : Grown base dirs fs m m fs := by
  refine ⟨rfl, ?_, ?_, fun names _ => rfl⟩
  · intro i above below
    omega
  · intro i above below
    omega

theorem cases_node (grown : Grown base dirs fs m n fs') (names : List Name) :
    (∃ i, m < i ∧ i ≤ n ∧ base ++ dirs.take i = names) ∨
      fs'.tree.node names = fs.tree.node names := by
  by_cases new : ∃ i, m < i ∧ i ≤ n ∧ base ++ dirs.take i = names
  · exact .inl new
  · refine .inr (grown.same names ?_)
    intro i above below here
    exact new ⟨i, above, below, here⟩

theorem kept (grown : Grown base dirs fs m n fs') {names : List Name} {node : Node (List UInt8)}
    (there : fs.tree.node names = some node) : fs'.tree.node names = some node := by
  rcases grown.cases_node names with ⟨i, above, below, rfl⟩ | same
  · rw [grown.free i above below] at there
    cases there
  · rw [same, there]

theorem dir_iff (grown : Grown base dirs fs m n fs') (names : List Name) :
    fs'.tree.node names = some .dir ↔
      fs.tree.node names = some .dir ∨ ∃ i, m < i ∧ i ≤ n ∧ base ++ dirs.take i = names := by
  constructor
  · intro dir
    rcases grown.cases_node names with new | same
    · exact .inr new
    · exact .inl (same ▸ dir)
  · rintro (old | ⟨i, above, below, rfl⟩)
    · exact grown.kept old
    · exact grown.new i above below

theorem file (grown : Grown base dirs fs m n fs') {names : List Name} {content : List UInt8}
    (there : fs'.tree.node names = some (.file content)) :
    fs.tree.node names = some (.file content) := by
  rcases grown.cases_node names with ⟨i, above, below, rfl⟩ | same
  · rw [grown.new i above below] at there
    cases there
  · rw [← same, there]

theorem trans (first : Grown base dirs fs m n fs') (then_ : Grown base dirs fs' n k fs'')
    (le : m ≤ n) (le' : n ≤ k) : Grown base dirs fs m k fs'' := by
  refine ⟨then_.cwd.trans first.cwd, ?_, ?_, ?_⟩
  · intro i above below
    by_cases early : i ≤ n
    · exact first.free i above early
    · have free := then_.free i (by omega) below
      rcases first.cases_node (base ++ dirs.take i) with ⟨j, above', below', here⟩ | same
      · rw [← here, first.new j above' below'] at free
        cases free
      · rw [← same, free]
  · intro i above below
    by_cases early : i ≤ n
    · exact then_.kept (first.new i above early)
    · exact then_.new i (by omega) below
  · intro names other
    rw [then_.same names fun i above below => other i (by omega) below,
      first.same names fun i above below => other i above (by omega)]

theorem put {q : fs.tree.Place} {taken : fs.tree.node q.names ≠ some .dir}
    (here : q.names = base ++ dirs.take (m + 1))
    (free : fs.tree.node (base ++ dirs.take (m + 1)) = none) :
    Grown base dirs fs m (m + 1) (fs.put q taken .dir) := by
  refine ⟨rfl, ?_, ?_, ?_⟩
  · intro i above below
    obtain rfl : i = m + 1 := by omega
    exact free
  · intro i above below
    obtain rfl : i = m + 1 := by omega
    rw [← here]
    exact FileSystem.node_put
  · intro names other
    have apart := other (m + 1) (Nat.lt_succ_self m) (Nat.le_refl _)
    rw [← here] at apart
    exact FileSystem.node_put_of_ne apart.symm

end Grown

/-- Why a call may fail with another error: for itself, or at a file on the way. -/
def OtherCause (env : Faults) (base dirs : List Name) (fs : FileSystem) : Prop :=
  (∃ call, env.fault call ≠ none) ∨
    ∃ i ≤ dirs.length, ∃ content, fs.tree.node (base ++ dirs.take i) = some (.file content)

/-- What one `mkdir` comes to, of the directory `i` names down where `m` are there. -/
inductive DirMade (env : Faults) (base dirs : List Name) (w : World) (m i : Nat) :
    Option Errno × World → Prop where
  | made {w'} (next : i = m + 1) (grown : Grown base dirs w.fs m (m + 1) w'.fs)
      (depth : w'.fs.tree.Depth base dirs (m + 1)) (quiet : Quiet w'.calls) :
      DirMade env base dirs w m i (none, w')
  | far {w'} (far : m + 1 < i) (same : w'.fs = w.fs) (quiet : Quiet w'.calls) :
      DirMade env base dirs w m i (some ENOENT, w')
  | failed {w' e} (other : e ≠ ENOENT) (same : w'.fs = w.fs) (loud : ¬Quiet w'.calls)
      (fault : ∃ call, env.fault call ≠ none) : DirMade env base dirs w m i (some e, w')

section

variable {env : Faults} {base dirs : List Name} {w : World} {m i : Nat} {parent : List UInt8}

theorem mkDir_made (env : Faults) (quiet : Quiet w.calls) (depth : w.fs.tree.Depth base dirs m)
    (free : w.fs.tree.node (base ++ dirs.take (m + 1)) = none)
    (level : w.fs.Level base dirs i parent) (below : m < i) (within : i ≤ dirs.length) : DirMade env base dirs w m i (mkDir env (dirname parent) w) := by
  unfold mkDir
  cases fault : env.fault w.calls.length with
  | some e =>
      have other := env.ne_missing fault
      exact .failed other rfl (by simp [other]) ⟨w.calls.length, by simp [fault]⟩
  | none =>
      dsimp only
      by_cases next : i = m + 1
      · subst next
        obtain ⟨q, taken, here, made⟩ := FileSystem.mkdir_next depth level free
        rw [made]
        exact .made rfl (.put here free) (depth.put taken within here) (by simpa using quiet)
      · have stopped : w.fs.tree.stopped (base ++ dirs.take (m + 1)) = .missing := by
          unfold FileTree.stopped
          rw [free]
        have far : m + 1 < i := by omega
        rw [FileSystem.mkdir_far depth level far within, stopped]
        exact .far far rfl (by simpa [errnoOf] using quiet)

/-- What the loop over the parents comes to. -/
inductive ParentMade (env : Faults) (base dirs : List Name) (w : World) (m i more : Nat) :
    Option Errno × World → Prop where
  | made {w'} (near : i ≤ m + 1 + more) (grown : Grown base dirs w.fs m (m + 1) w'.fs)
      (depth : w'.fs.tree.Depth base dirs (m + 1)) (quiet : Quiet w'.calls) :
      ParentMade env base dirs w m i more (none, w')
  | tooDeep {w' e} (far : m + 1 + more < i) (same : w'.fs = w.fs) (quiet : Quiet w'.calls) :
      ParentMade env base dirs w m i more (some e, w')
  | failed {w' e} (same : w'.fs = w.fs) (loud : ¬Quiet w'.calls)
      (fault : ∃ call, env.fault call ≠ none) : ParentMade env base dirs w m i more (some e, w')

/-- By induction on the rounds left: a round that finds a directory missing in front of
    its own leaves the tree as it is, and the next one is a name higher. -/
theorem mkParent_made (env : Faults) (more : Nat) (quiet : Quiet w.calls)
    (depth : w.fs.tree.Depth base dirs m)
    (free : w.fs.tree.node (base ++ dirs.take (m + 1)) = none)
    (level : w.fs.Level base dirs i parent) (below : m < i) (within : i ≤ dirs.length) :
    ParentMade env base dirs w m i more (mkParent env more parent w) := by
  induction more generalizing w i parent with
  | zero =>
      have step := mkDir_made env quiet depth free level below within
      unfold mkParent
      generalize mkDir env (dirname parent) w = result at step
      cases step with
      | made next grown depth quiet => exact .made (by omega) grown depth quiet
      | far far same quiet => exact .tooDeep (by omega) same quiet
      | failed other same loud fault => exact .failed same loud fault
  | succ more ih =>
      have step := mkDir_made env quiet depth free level below within
      unfold mkParent
      generalize mkDir env (dirname parent) w = result at step
      cases step with
      | made next grown depth quiet => exact .made (by omega) grown depth quiet
      | far far same quiet =>
          have up := level.up within
          rw [← same] at depth free up
          have rest := ih quiet depth free up (by omega) (by omega)
          dsimp only
          rw [if_pos rfl]
          generalize mkParent env more (dirname parent) _ = result at rest
          cases rest with
          | made near grown depth quiet => exact .made (by omega) (same ▸ grown) depth quiet
          | tooDeep far same' quiet => exact .tooDeep (by omega) (same'.trans same) quiet
          | failed same' loud fault => exact .failed (same'.trans same) loud fault
      | failed other same loud fault =>
          dsimp only
          rw [if_neg other]
          exact .failed same loud fault

/-- What the `open` of a round comes to, where `m` of the directories are there. -/
inductive Opened (env : Faults) (base dirs : List Name) (w : World) (m : Nat) :
    Option Errno × World → Prop where
  | there {w'} (all : dirs.length ≤ m) (same : w'.fs = w.fs) (quiet : Quiet w'.calls) :
      Opened env base dirs w m (none, w')
  | missing {w'} (below : m < dirs.length)
      (free : w.fs.tree.node (base ++ dirs.take (m + 1)) = none) (same : w'.fs = w.fs)
      (quiet : Quiet w'.calls) : Opened env base dirs w m (some ENOENT, w')
  | failed {w' e} (other : e ≠ ENOENT) (same : w'.fs = w.fs) (loud : ¬Quiet w'.calls)
      (cause : OtherCause env base dirs w.fs) :
      Opened env base dirs w m (some e, w')

theorem openDirectory_opened (env : Faults) (quiet : Quiet w.calls)
    (depth : w.fs.tree.Depth base dirs m) (level : w.fs.Level base dirs dirs.length parent) :
    Opened env base dirs w m (openDirectory env (dirname parent) w) := by
  unfold openDirectory
  cases fault : env.fault w.calls.length with
  | some e =>
      have other := env.ne_missing fault
      exact .failed other rfl (by simp [other]) (.inl ⟨w.calls.length, by simp [fault]⟩)
  | none =>
      rw [Option.none_or]
      by_cases below : m < dirs.length
      · rw [FileSystem.openDirectory_far depth level below (Nat.le_refl _)]
        have other := depth.stop below
        unfold FileTree.stopped
        cases node : w.fs.tree.node (base ++ dirs.take (m + 1)) with
        | none => exact .missing below node rfl (by simpa [errnoOf] using quiet)
        | some n =>
            cases n with
            | dir => exact absurd node other
            | file content =>
                have other : ENOTDIR ≠ ENOENT := by decide
                exact .failed other rfl (by simp [errnoOf, other])
                  (.inr ⟨m + 1, below, content, node⟩)
      · rw [FileSystem.openDirectory_level depth level (Nat.le_of_not_lt below)]
        exact .there (Nat.le_of_not_lt below) rfl (by simpa using quiet)

/-- What the rounds come to. -/
inductive Outcome (env : Faults) (base dirs : List Name) (w : World) (m rounds : Nat) :
    Int × World → Prop where
  | done {w'} (grown : Grown base dirs w.fs m dirs.length w'.fs) (quiet : Quiet w'.calls)
      (enough : dirs.length < m + rounds) (near : dirs.length ≤ m + 254) :
      Outcome env base dirs w m rounds (0, w')
  | tooMany {w' n} (le : m ≤ n) (grown : Grown base dirs w.fs m n w'.fs) (quiet : Quiet w'.calls)
      (many : m + rounds ≤ dirs.length ∨ m + 254 < dirs.length) :
      Outcome env base dirs w m rounds (-1, w')
  | failed {w' n} (le : m ≤ n) (grown : Grown base dirs w.fs m n w'.fs) (loud : ¬Quiet w'.calls)
      (cause : OtherCause env base dirs w.fs) :
      Outcome env base dirs w m rounds (-1, w')

theorem Outcome.round {w' : World} {rounds : Nat} {result : Int × World}
    (rest : Outcome env base dirs w' (m + 1) rounds result)
    (made : Grown base dirs w.fs m (m + 1) w'.fs) (below : m < dirs.length)
    (near : dirs.length ≤ m + 254) : Outcome env base dirs w m (rounds + 1) result := by
  cases rest with
  | done grown quiet enough near' =>
      exact .done (made.trans grown (Nat.le_succ m) below) quiet (by omega) near
  | tooMany le grown quiet many =>
      exact .tooMany (Nat.le_of_succ_le le) (made.trans grown (Nat.le_succ m) le) quiet (by omega)
  | failed le grown loud cause =>
      refine .failed (Nat.le_of_succ_le le) (made.trans grown (Nat.le_succ m) le) loud ?_
      rcases cause with fault | ⟨i, within, content, file⟩
      · exact .inl fault
      · exact .inr ⟨i, within, content, made.file file⟩

theorem Outcome.kept {rounds : Nat} {result : Int × World}
    (outcome : Outcome env base dirs w m rounds result) {names : List Name}
    {node : Node (List UInt8)} (there : w.fs.tree.node names = some node) :
    result.2.fs.tree.node names = some node := by
  cases outcome with
  | done grown | tooMany _ grown | failed _ grown => exact grown.kept there

/-- By induction on the rounds left: one directory a round, from the top. -/
theorem mkDirRounds_outcome {rounds : Nat} (quiet : Quiet w.calls)
    (depth : w.fs.tree.Depth base dirs m) (level : w.fs.Level base dirs dirs.length parent) :
    Outcome env base dirs w m rounds (mkDirRounds env parent rounds w) := by
  induction rounds generalizing w m with
  | zero => exact .tooMany (Nat.le_refl m) .refl quiet (.inl depth.le)
  | succ rounds ih =>
      have step := openDirectory_opened env quiet depth level
      unfold mkDirRounds
      generalize openDirectory env (dirname parent) w = result at step
      cases step with
      | there all same quiet =>
          obtain rfl : m = dirs.length := Nat.le_antisymm depth.le all
          exact .done (same ▸ .refl) quiet (by omega) (by omega)
      | missing below free same quiet =>
          rw [← same] at depth free level
          have made := mkParent_made env 253 quiet depth free level below (Nat.le_refl _)
          dsimp only
          rw [if_pos rfl]
          generalize mkParent env 253 parent _ = result at made
          cases made with
          | made near grown depth quiet =>
              have rest := ih quiet depth (level.congr grown.cwd)
              exact rest.round (same ▸ grown) below (by omega)
          | tooDeep far same' quiet =>
              rw [same] at same'
              exact .tooMany (Nat.le_refl m) (same' ▸ .refl) quiet (.inr (by omega))
          | failed same' loud fault =>
              rw [same] at same'
              exact .failed (Nat.le_refl m) (same' ▸ .refl) loud (.inl fault)
      | failed other same loud cause =>
          dsimp only
          rw [if_neg other]
          exact .failed (Nat.le_refl m) (same ▸ .refl) loud cause

end

theorem mkDirR_outcome (env : Faults) (fs : FileSystem) {path : List UInt8} (plain : Plain path) :
    ∃ m, fs.tree.Depth (fs.base (absolute path)) (dirs path) m ∧
      Outcome env (fs.base (absolute path)) (dirs path) ⟨fs, []⟩ m 254 (mkDirR env path ⟨fs, []⟩) := by
  obtain ⟨m, depth⟩ := FileTree.exists_depth (fs.base_dir (absolute path)) (dirs path)
  have level : fs.Level (fs.base (absolute path)) (dirs path) (dirs path).length path :=
    ⟨rfl, by rw [List.take_length, dropLast_moves plain]⟩
  exact ⟨m, depth, mkDirRounds_outcome (w := ⟨fs, []⟩) quiet_nil depth level⟩

theorem mkDirR_done {env : Faults} {fs : FileSystem} {path : List UInt8} (plain : Plain path)
    (few : (missing fs path).length ≤ 253) (noFile : NoFile fs path)
    (noFault : ∀ call, env.fault call = none) :
    (mkDirR env path ⟨fs, []⟩).1 = 0 ∧
      ∃ m, fs.tree.Depth (fs.base (absolute path)) (dirs path) m ∧
        Grown (fs.base (absolute path)) (dirs path) fs m (dirs path).length
          (mkDirR env path ⟨fs, []⟩).2.fs := by
  obtain ⟨m, depth, outcome⟩ := mkDirR_outcome env fs plain
  rw [missing_of_no_file depth noFile, List.length_map, List.length_range] at few
  generalize mkDirR env path ⟨fs, []⟩ = result at outcome
  cases outcome with
  | done grown quiet enough near => exact ⟨rfl, m, depth, grown⟩
  | tooMany le grown quiet many => omega
  | failed le grown loud cause =>
      rcases cause with ⟨call, fault⟩ | ⟨i, below, content, file⟩
      · exact absurd (noFault call) fault
      · exact absurd file (noFile _ (mem_ancestors.mpr ⟨i, below, rfl⟩) content)

theorem few_of_mkDirR {env : Faults} {fs : FileSystem} {path : List UInt8} (plain : Plain path)
    (made : (mkDirR env path ⟨fs, []⟩).1 = 0) :
    (missing fs path).length ≤ 253 ∧ NoFile fs path := by
  obtain ⟨m, depth, outcome⟩ := mkDirR_outcome env fs plain
  have few := length_missing_le depth
  generalize mkDirR env path ⟨fs, []⟩ = result at outcome made
  cases outcome with
  | done grown quiet enough near =>
      refine ⟨by omega, ?_⟩
      intro names member content file
      obtain ⟨i, within, rfl⟩ := mem_ancestors.mp member
      by_cases there : i ≤ m
      · rw [depth.dir i there] at file
        cases file
      · rw [grown.free i (Nat.lt_of_not_le there) within] at file
        cases file
  | tooMany | failed => cases made

/-- With 253 missing ancestors at most, none of them a file and no other error,
    `mk_dir_r` returns 0 and has made exactly these; with more, or after another error, it
    returns -1; and nothing is ever removed. -/
theorem mkDirR_makes_missing (env : Faults) (fs : FileSystem) (path : List UInt8)
    (plain : Plain path) {status : Int} {w : World} (run : mkDirR env path ⟨fs, []⟩ = (status, w)) :
    (∀ names node, fs.tree.node names = some node → w.fs.tree.node names = some node) ∧
      ((missing fs path).length ≤ 253 →
        NoFile fs path → (∀ call, env.fault call = none) →
        status = 0 ∧ ∀ names, w.fs.tree.node names = some .dir ↔
          fs.tree.node names = some .dir ∨ names ∈ missing fs path) ∧
      (253 < (missing fs path).length ∨ (∃ e, some e ∈ w.calls ∧ e ≠ ENOENT) → status = -1) := by
  obtain ⟨m, depth, outcome⟩ := mkDirR_outcome env fs plain
  have few := length_missing_le depth
  rw [run] at outcome
  refine ⟨fun names node => outcome.kept, ?_, ?_⟩
  · intro few noFile noFault
    obtain ⟨made, m, depth, grown⟩ := mkDirR_done plain few noFile noFault
    rw [run] at made grown
    refine ⟨made, fun names => ?_⟩
    rw [grown.dir_iff, mem_missing depth noFile]
  · intro bad
    cases outcome with
    | done grown quiet enough near =>
        rcases bad with many | ⟨e, call, other⟩
        · omega
        · exact absurd (quiet e call) other
    | tooMany | failed => rfl

/-- The fifth call comes upon something else that is no directory. -/
def fifthFails : Faults where
  fault call := if call = 4 then some ENOTDIR else none
  other call := by split <;> decide

/-- For `/a//b/c/f` and nothing but `/a` it makes `/a/b` and `/a/b/c`, unless a call
    fails for another reason. -/
theorem mkDirR_makes_missing_two :
    let path : List UInt8 := [47, 97, 47, 47, 98, 47, 99, 47, 102]
    let fs := (FileSystem.bare.mkdir [47, 97]).2
    missing fs path = [[[97], [98]], [[97], [98], [99]]] ∧
      ((mkDirR .none path ⟨fs, []⟩).1 = 0 ∧
        (mkDirR .none path ⟨fs, []⟩).2.fs.tree.node [[97], [98], [99]] = some .dir) ∧
      (mkDirR fifthFails path ⟨fs, []⟩).1 = -1 := by
  intro path fs
  have found : ∀ names ∈ ancestors fs path,
      fs.tree.node names = none ∨ fs.tree.node names = some .dir := by decide +kernel
  have noFile : NoFile fs path := by
    intro names member content file
    rcases found names member with none | dir
    · rw [none] at file
      cases file
    · rw [dir] at file
      cases file
  have gone : missing fs path = [[[97], [98]], [[97], [98], [99]]] := by decide +kernel
  have run (env : Faults) :
      mkDirR env path ⟨fs, []⟩ = ((mkDirR env path ⟨fs, []⟩).1, (mkDirR env path ⟨fs, []⟩).2) := rfl
  obtain ⟨_, made, _⟩ := mkDirR_makes_missing .none fs path (by decide) (run _)
  obtain ⟨status, dirs⟩ := made (by decide +kernel) noFile fun _ => rfl
  obtain ⟨_, _, fails⟩ := mkDirR_makes_missing fifthFails fs path (by decide) (run _)
  exact ⟨gone, ⟨status, (dirs _).mpr (.inr (by rw [gone]; decide))⟩,
    fails (.inr ⟨ENOTDIR, by decide +kernel, by decide⟩)⟩

end Aesd.FinderApp
