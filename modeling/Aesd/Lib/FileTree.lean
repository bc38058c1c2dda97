import Mathlib.Data.List.Basic
import Mathlib.Data.List.Induction
import Mathlib.Logic.Function.Basic

/-! # A tree of directories and files

A node is found by the names on the way down from the root, and what is above a
node is a directory: the tree carries that.  A walk goes from place to place, and
every place it comes to stands in a directory, so that a node can be put there.
-/

namespace Aesd.Lib

inductive Node (Content : Type*) where
  | dir
  | file (content : Content)
  deriving Repr, DecidableEq

instance {Content : Type*} (n : Option (Node Content)) : Decidable (n = some .dir) :=
  match n with
  | none => isFalse nofun
  | some .dir => isTrue rfl
  | some (.file _) => isFalse nofun

/-- The nodes there are, by the names that lead to them. -/
structure FileTree (Name Content : Type*) where
  node : List Name → Option (Node Content)
  root : node [] = some .dir
  /-- What is above a node is a directory. -/
  closed : ∀ up name, node (up ++ [name]) ≠ none → node up = some .dir

/-- One step of a walk. -/
inductive Move (Name : Type*) where
  | stay
  | up
  | down (name : Name)
  deriving Repr, DecidableEq

/-- Where a move leads, nodes or not. -/
def Move.apply {Name : Type*} (names : List Name) : Move Name → List Name
  | .stay => names
  | .up => names.dropLast
  | .down name => names ++ [name]

/-- Why a walk cannot go on. -/
inductive WalkError where
  | missing
  | notDirectory
  deriving Repr, DecidableEq

namespace FileTree

variable {Name Content : Type*} {t : FileTree Name Content}

theorem dir_of_append {names more : List Name} (present : t.node (names ++ more) ≠ none)
    (below : more ≠ []) : t.node names = some .dir := by
  induction more using List.reverseRecOn with
  | nil => exact absurd rfl below
  | append_singleton more name ih =>
      rw [← List.append_assoc] at present
      have above := t.closed _ _ present
      cases more with
      | nil => rwa [List.append_nil] at above
      | cons first more => exact ih (by simp [above]) (List.cons_ne_nil _ _)

theorem none_below {names more : List Name} (other : t.node names ≠ some .dir) (below : more ≠ []) :
    t.node (names ++ more) = none := by
  by_contra present
  exact other (dir_of_append present below)

theorem parent_of_node {names : List Name} (present : t.node names ≠ none) :
    names = [] ∨ t.node names.dropLast = some .dir := by
  rcases List.eq_nil_or_concat names with rfl | ⟨up, name, rfl⟩
  · exact .inl rfl
  · rw [List.concat_eq_append] at present
    rw [List.concat_eq_append, List.dropLast_concat]
    exact .inr (t.closed _ _ present)

/-- Somewhere in a directory: at a node, or where one can be put. -/
structure Place (t : FileTree Name Content) where
  names : List Name
  parent : names = [] ∨ t.node names.dropLast = some .dir

/-- The node of a directory, as a place. -/
def place (names : List Name) (here : t.node names = some .dir) : t.Place :=
  ⟨names, parent_of_node (by simp [here])⟩

def Place.move (p : t.Place) (here : t.node p.names = some .dir) (move : Move Name) : t.Place where
  names := move.apply p.names
  parent := by
    cases move with
    | stay => exact p.parent
    | up =>
        rcases p.parent with top | above
        · rw [top]
          exact .inl rfl
        · exact parent_of_node (by simp [Move.apply, above])
    | down name =>
        rw [Move.apply, List.dropLast_concat]
        exact .inr here

/-- Why a walk ends at what is not a directory. -/
def stopped (t : FileTree Name Content) (names : List Name) : WalkError :=
  match t.node names with
  | none => .missing
  | some _ => .notDirectory

/-- A walk from a place: each move starts in a directory. -/
def walk (p : t.Place) : List (Move Name) → Except WalkError t.Place
  | [] => .ok p
  | move :: moves =>
    if here : t.node p.names = some .dir then walk (p.move here move) moves
    else .error (t.stopped p.names)

theorem walk_dir {p : t.Place} (here : t.node p.names = some .dir) (move : Move Name)
    (moves : List (Move Name)) : walk p (move :: moves) = walk (p.move here move) moves := dif_pos here

theorem walk_stopped {p : t.Place} (other : t.node p.names ≠ some .dir) (move : Move Name)
    (moves : List (Move Name)) : walk p (move :: moves) = .error (t.stopped p.names) := dif_neg other

theorem walk_cons {p q : t.Place} {move : Move Name} {moves : List (Move Name)}
    (walked : walk p (move :: moves) = .ok q) :
    ∃ here : t.node p.names = some .dir, walk (p.move here move) moves = .ok q := by
  by_cases here : t.node p.names = some .dir
  · rw [walk_dir here] at walked
    exact ⟨here, walked⟩
  · rw [walk_stopped here] at walked
    cases walked

theorem walk_names {p q : t.Place} {moves : List (Move Name)} (walked : walk p moves = .ok q) :
    q.names = moves.foldl Move.apply p.names := by
  induction moves generalizing p with
  | nil =>
      cases walked
      rfl
  | cons move moves ih =>
      obtain ⟨here, rest⟩ := walk_cons walked
      exact ih rest

theorem walk_append {p q : t.Place} {moves : List (Move Name)} (walked : walk p moves = .ok q)
    (more : List (Move Name)) : walk p (moves ++ more) = walk q more := by
  induction moves generalizing p with
  | nil =>
      cases walked
      rfl
  | cons move moves ih =>
      obtain ⟨here, rest⟩ := walk_cons walked
      rw [List.cons_append, walk_dir here]
      exact ih rest

/-- Of the names behind `base`, `m` lead on to directories. -/
structure Depth (t : FileTree Name Content) (base names : List Name) (m : Nat) : Prop where
  le : m ≤ names.length
  dir : ∀ i ≤ m, t.node (base ++ names.take i) = some .dir
  stop : m < names.length → t.node (base ++ names.take (m + 1)) ≠ some .dir

theorem exists_depth {base : List Name} (here : t.node base = some .dir) (names : List Name) :
    ∃ m, t.Depth base names m := by
  induction names generalizing base with
  | nil =>
      refine ⟨0, Nat.le_refl _, ?_, fun less => absurd less (Nat.lt_irrefl _)⟩
      intro i _
      rwa [List.take_nil, List.append_nil]
  | cons name names ih =>
      have shift : ∀ i, base ++ (name :: names).take (i + 1) = base ++ [name] ++ names.take i := by
        intro i
        rw [List.take_succ_cons, List.append_assoc]
        rfl
      by_cases next : t.node (base ++ [name]) = some .dir
      · obtain ⟨m, depth⟩ := ih next
        refine ⟨m + 1, Nat.succ_le_succ depth.le, ?_, ?_⟩
        · intro i within
          cases i with
          | zero => rwa [List.take_zero, List.append_nil]
          | succ i =>
              rw [shift]
              exact depth.dir i (Nat.le_of_succ_le_succ within)
        · intro less
          rw [shift]
          exact depth.stop (Nat.lt_of_succ_lt_succ less)
      · refine ⟨0, Nat.zero_le _, ?_, fun _ => next⟩
        intro i within
        obtain rfl := Nat.le_zero.mp within
        rwa [List.take_zero, List.append_nil]

namespace Depth

variable {base names : List Name} {m : Nat}

theorem take_split {names : List Name} {n i : Nat} (beyond : n < i) (within : i ≤ names.length) :
    ∃ name more, names.take i = names.take n ++ name :: more := by
  have whole := List.take_append_drop n (names.take i)
  rw [List.take_take, Nat.min_eq_left (Nat.le_of_lt beyond)] at whole
  have rest : (names.take i).drop n ≠ [] := by
    rw [ne_eq, List.drop_eq_nil_iff, List.length_take]
    omega
  obtain ⟨name, more, shape⟩ := List.exists_cons_of_ne_nil rest
  exact ⟨name, more, by rw [← whole, shape]⟩

theorem none (depth : t.Depth base names m) {i : Nat} (beyond : m + 1 < i) (within : i ≤ names.length) :
    t.node (base ++ names.take i) = none := by
  obtain ⟨name, more, split⟩ := take_split beyond within
  rw [split, ← List.append_assoc]
  exact none_below (depth.stop (by omega)) (List.cons_ne_nil _ _)

theorem walk_ok (depth : t.Depth base names m) {p : t.Place} (start : p.names = base) {i : Nat}
    (within : i ≤ m + 1) :
    ∃ q, walk p ((names.take i).map .down) = .ok q ∧ q.names = base ++ names.take i := by
  induction i with
  | zero => exact ⟨p, rfl, by rw [start, List.take_zero, List.append_nil]⟩
  | succ i ih =>
      obtain ⟨q, walked, here⟩ := ih (Nat.le_of_succ_le within)
      by_cases more : i < names.length
      · have dir := depth.dir i (Nat.le_of_succ_le_succ within)
        rw [← here] at dir
        refine ⟨q.move dir (.down names[i]), ?_, ?_⟩
        · rw [List.take_succ_eq_append_getElem more, List.map_append, walk_append walked]
          exact walk_dir dir _ _
        · change q.names ++ [names[i]] = _
          rw [here, List.take_succ_eq_append_getElem more, List.append_assoc]
      · have same : names.take (i + 1) = names.take i := by
          rw [List.take_of_length_le (by omega), List.take_of_length_le (by omega)]
        rw [same]
        exact ⟨q, walked, here⟩

/-- A walk farther than that ends at the first name that leads to no directory. -/
theorem walk_error (depth : t.Depth base names m) {p : t.Place} (start : p.names = base) {i : Nat}
    (beyond : m + 1 < i) (within : i ≤ names.length) :
    walk p ((names.take i).map .down) = .error (t.stopped (base ++ names.take (m + 1))) := by
  obtain ⟨name, more, split⟩ := take_split beyond within
  obtain ⟨q, walked, here⟩ := depth.walk_ok start (Nat.le_refl _)
  have other := depth.stop (by omega)
  rw [← here] at other
  rw [split, List.map_append, walk_append walked, List.map_cons, walk_stopped other, here]

end Depth

variable [DecidableEq Name]

/-- A node in a place that is no directory. -/
def put (t : FileTree Name Content) (p : t.Place) (free : t.node p.names ≠ some .dir)
    (n : Node Content) : FileTree Name Content where
  node := Function.update t.node p.names (some n)
  root := by
    have other : [] ≠ p.names := by
      intro top
      rw [← top] at free
      exact free t.root
    rw [Function.update_of_ne other]
    exact t.root
  closed := by
    intro up name present
    have above : t.node up = some .dir := by
      by_cases here : up ++ [name] = p.names
      · have parent := p.parent
        rw [← here, List.dropLast_concat] at parent
        exact parent.resolve_left (by simp)
      · rw [Function.update_of_ne here] at present
        exact t.closed up name present
    have other : up ≠ p.names := by
      rintro rfl
      exact free above
    rw [Function.update_of_ne other]
    exact above

section

variable {p : t.Place} {free : t.node p.names ≠ some .dir} {n : Node Content}

@[simp] theorem node_put : (t.put p free n).node p.names = some n := Function.update_self ..

@[simp] theorem node_put_of_ne {names : List Name} (other : names ≠ p.names) :
    (t.put p free n).node names = t.node names := Function.update_of_ne other ..

variable (free) in
theorem Depth.put {base names : List Name} {m : Nat} (depth : t.Depth base names m)
    (next : m < names.length) (here : p.names = base ++ names.take (m + 1)) :
    (t.put p free .dir).Depth base names (m + 1) := by
  have apart : ∀ i ≤ names.length, i ≠ m + 1 → base ++ names.take i ≠ p.names := by
    intro i within other same
    rw [here, List.append_cancel_left_eq] at same
    have lengths := congrArg List.length same
    rw [List.length_take, List.length_take] at lengths
    omega
  refine ⟨next, ?_, ?_⟩
  · intro i within
    by_cases last : i = m + 1
    · rw [last, ← here]
      exact node_put
    · rw [node_put_of_ne (apart i (by omega) last)]
      exact depth.dir i (by omega)
  · intro less
    rw [node_put_of_ne (apart (m + 1 + 1) less (by omega)), depth.none (by omega) less]
    nofun

end

end FileTree

end Aesd.Lib
