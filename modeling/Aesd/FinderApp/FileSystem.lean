import Aesd.Lib.FileTree
import Aesd.Lib.Path

/-! # The file system under `writer`

The tree of directories and files with the current directory, and the system calls
of `writer.c` on it: a path is looked up component by component, from the root or
from the current directory.
-/

namespace Aesd.FinderApp

open Aesd.Lib

abbrev Errno := Nat

def ENOENT : Errno := 2
def EEXIST : Errno := 17
def ENOTDIR : Errno := 20
def EISDIR : Errno := 21

abbrev Name := List UInt8

def slash : UInt8 := 47

/-- `"."`. -/
def dot : Name := [46]

structure FileSystem where
  tree : FileTree Name (List UInt8)
  cwd : List Name
  cwd_dir : tree.node cwd = some .dir

/-- A file system with nothing in it, and the root as the current directory. -/
def FileSystem.bare : FileSystem where
  tree := {
    node := fun names => if names = [] then some .dir else none
    root := if_pos rfl
    closed := fun up name present => absurd (if_neg (by simp)) present }
  cwd := []
  cwd_dir := by simp

/-- What a component of a path means. -/
def moveOf (component : Name) : Move Name :=
  if component = dot then .stay else if component = [46, 46] then .up else .down component

def moves (path : List UInt8) : List (Move Name) := (Path.components slash path).map moveOf

def absolute (path : List UInt8) : Bool := path.head? = some slash

/-- The C library's `dirname`. -/
def dirname (path : List UInt8) : List UInt8 := (Path.dirname slash path).getD dot

def errnoOf : WalkError → Errno
  | .missing => ENOENT
  | .notDirectory => ENOTDIR

namespace FileSystem

/-- Where an absolute path starts, or a relative one. -/
def base (fs : FileSystem) (absolute : Bool) : List Name := if absolute then [] else fs.cwd

theorem base_dir (fs : FileSystem) (absolute : Bool) : fs.tree.node (fs.base absolute) = some .dir := by
  cases absolute with
  | true => exact fs.tree.root
  | false => exact fs.cwd_dir

def start (fs : FileSystem) (absolute : Bool) : fs.tree.Place :=
  FileTree.place (fs.base absolute) (fs.base_dir absolute)

/-- The names a path stands for, whether its nodes are there or not. -/
def locate (fs : FileSystem) (path : List UInt8) : List Name :=
  (moves path).foldl Move.apply (fs.base (absolute path))

/-- The place of a path: what is in front of its last component is there. -/
def lookup (fs : FileSystem) (path : List UInt8) : Except Errno fs.tree.Place :=
  if path = [] then .error ENOENT
  else (FileTree.walk (fs.start (absolute path)) (moves path)).mapError errnoOf

/-- The content of a file. -/
def content (fs : FileSystem) (names : List Name) : Option (List UInt8) :=
  match fs.tree.node names with
  | some (.file content) => some content
  | _ => none

def put (fs : FileSystem) (p : fs.tree.Place) (free : fs.tree.node p.names ≠ some .dir)
    (n : Node (List UInt8)) : FileSystem where
  tree := fs.tree.put p free n
  cwd := fs.cwd
  cwd_dir := by
    have other : fs.cwd ≠ p.names := by
      intro same
      exact free (same ▸ fs.cwd_dir)
    rw [FileTree.node_put_of_ne other]
    exact fs.cwd_dir

@[simp] theorem node_put {fs : FileSystem} {p : fs.tree.Place} {free : fs.tree.node p.names ≠ some .dir}
    {n : Node (List UInt8)} : (fs.put p free n).tree.node p.names = some n := by
  unfold put
  rw [FileTree.node_put]

@[simp] theorem node_put_of_ne {fs : FileSystem} {p : fs.tree.Place}
    {free : fs.tree.node p.names ≠ some .dir} {n : Node (List UInt8)} {names : List Name}
    (other : names ≠ p.names) : (fs.put p free n).tree.node names = fs.tree.node names := by
  unfold put
  rw [FileTree.node_put_of_ne other]

theorem content_put {fs : FileSystem} {p : fs.tree.Place} {free : fs.tree.node p.names ≠ some .dir}
    {bytes : List UInt8} : (fs.put p free (.file bytes)).content p.names = some bytes := by
  unfold content
  rw [node_put]

/-- `open(path, O_DIRECTORY)`: the error, if there is one. -/
def openDirectory (fs : FileSystem) (path : List UInt8) : Option Errno :=
  match fs.lookup path with
  | .error e => some e
  | .ok p =>
    match fs.tree.node p.names with
    | none => some ENOENT
    | some (.file _) => some ENOTDIR
    | some .dir => none

/-- `mkdir(path, mode)`. -/
def mkdir (fs : FileSystem) (path : List UInt8) : Option Errno × FileSystem :=
  match fs.lookup path with
  | .error e => (some e, fs)
  | .ok p =>
    if free : fs.tree.node p.names = none then (none, fs.put p (by simp [free]) .dir)
    else (some EEXIST, fs)

/-- `open(path, O_CREAT | O_TRUNC | O_WRONLY, mode)`: the file, now empty. -/
def openFile (fs : FileSystem) (path : List UInt8) : Except Errno (List Name × FileSystem) :=
  match fs.lookup path with
  | .error e => .error e
  | .ok p =>
    if path.getLast? = some slash then .error EISDIR
    else if free : fs.tree.node p.names ≠ some .dir then .ok (p.names, fs.put p free (.file []))
    else .error EISDIR

/-- `write` at the start of a file. -/
def write (fs : FileSystem) (desc : List Name) (bytes : List UInt8) : FileSystem :=
  match here : fs.tree.node desc with
  | some (.file old) =>
    fs.put ⟨desc, FileTree.parent_of_node (by simp [here])⟩ (by simp [here])
      (.file (bytes ++ old.drop bytes.length))
  | _ => fs

end FileSystem

theorem dirname_ne_nil (path : List UInt8) : dirname path ≠ [] := by
  unfold dirname
  cases parent : Path.dirname slash path with
  | none => exact List.cons_ne_nil _ _
  | some dir => exact (Path.dirname_some parent).2.1

@[simp] theorem absolute_dirname (path : List UInt8) : absolute (dirname path) = absolute path := by
  unfold dirname absolute
  cases parent : Path.dirname slash path with
  | none =>
      have relative := (Path.dirname_none parent).2
      rw [decide_eq_false relative]
      rfl
  | some dir => rw [Option.getD_some, (Path.dirname_some parent).2.2]

theorem moves_dirname (path : List UInt8) :
    moves (dirname path) = (moves path).dropLast ∨
      moves (dirname path) = [.stay] ∧ (moves path).dropLast = [] := by
  unfold dirname moves
  cases parent : Path.dirname slash path with
  | none =>
      have only := (Path.dirname_none parent).1
      rw [← List.map_dropLast, only]
      exact .inr ⟨by decide, rfl⟩
  | some dir =>
      have front := (Path.dirname_some parent).1
      rw [Option.getD_some, front, List.map_dropLast]
      exact .inl rfl

theorem dropLast_moves_dirname (path : List UInt8) :
    (moves (dirname path)).dropLast = (moves path).dropLast.dropLast := by
  rcases moves_dirname path with front | ⟨here, only⟩
  · rw [front]
  · rw [here, only]
    rfl

namespace FileSystem

variable {fs : FileSystem} {path : List UInt8}

theorem lookup_dirname :
    fs.lookup (dirname path) =
      (FileTree.walk (fs.start (absolute path)) (moves path).dropLast).mapError errnoOf := by
  unfold lookup
  rw [if_neg (dirname_ne_nil path), absolute_dirname]
  rcases moves_dirname path with front | ⟨here, only⟩
  · rw [front]
  · rw [here, only, FileTree.walk_dir (fs.base_dir _)]
    rfl

/-- `dirname` of the path stands for the first `i` names behind `base`. -/
structure Level (fs : FileSystem) (base dirs : List Name) (i : Nat) (path : List UInt8) : Prop where
  start : fs.base (absolute path) = base
  names : (moves path).dropLast = (dirs.take i).map .down

variable {base dirs : List Name} {m i : Nat}

theorem Level.up (level : fs.Level base dirs i path) (within : i ≤ dirs.length) :
    fs.Level base dirs (i - 1) (dirname path) := by
  refine ⟨by rw [absolute_dirname, level.start], ?_⟩
  rw [dropLast_moves_dirname, level.names, ← List.map_dropLast, List.dropLast_eq_take,
    List.length_take, List.take_take]
  congr 2
  omega

theorem base_congr {fs' : FileSystem} (cwd : fs'.cwd = fs.cwd) (absolute : Bool) :
    fs'.base absolute = fs.base absolute := by
  unfold FileSystem.base
  rw [cwd]

theorem Level.congr {fs' : FileSystem} (level : fs.Level base dirs i path) (cwd : fs'.cwd = fs.cwd) :
    fs'.Level base dirs i path := ⟨(base_congr cwd _).trans level.start, level.names⟩

section

variable (depth : fs.tree.Depth base dirs m) (level : fs.Level base dirs i path)

include depth level

theorem lookup_level (near : i ≤ m + 1) :
    ∃ q, fs.lookup (dirname path) = .ok q ∧ q.names = base ++ dirs.take i := by
  obtain ⟨q, walked, names⟩ := depth.walk_ok (p := fs.start (absolute path)) level.start near
  refine ⟨q, ?_, names⟩
  rw [lookup_dirname, level.names, walked]
  rfl

theorem lookup_far (far : m + 1 < i) (within : i ≤ dirs.length) :
    fs.lookup (dirname path) = .error (errnoOf (fs.tree.stopped (base ++ dirs.take (m + 1)))) := by
  have walked := depth.walk_error (p := fs.start (absolute path)) level.start far within
  rw [lookup_dirname, level.names, walked]
  rfl

theorem openDirectory_level (near : i ≤ m) : fs.openDirectory (dirname path) = none := by
  obtain ⟨q, found, names⟩ := lookup_level depth level (Nat.le_succ_of_le near)
  unfold openDirectory
  simp only [found, names, depth.dir i near]

theorem openDirectory_far (far : m < i) (within : i ≤ dirs.length) :
    fs.openDirectory (dirname path) =
      some (errnoOf (fs.tree.stopped (base ++ dirs.take (m + 1)))) := by
  unfold openDirectory
  by_cases next : i = m + 1
  · subst next
    obtain ⟨q, found, names⟩ := lookup_level depth level (Nat.le_refl _)
    have other := depth.stop within
    rw [found]
    dsimp only
    rw [names]
    unfold FileTree.stopped
    cases node : fs.tree.node (base ++ dirs.take (m + 1)) with
    | none => rfl
    | some n =>
        cases n with
        | dir => exact absurd node other
        | file content => rfl
  · rw [lookup_far depth level (by omega) within]

theorem mkdir_far (far : m + 1 < i) (within : i ≤ dirs.length) :
    fs.mkdir (dirname path) =
      (some (errnoOf (fs.tree.stopped (base ++ dirs.take (m + 1)))), fs) := by
  unfold mkdir
  rw [lookup_far depth level far within]

end

theorem mkdir_next (depth : fs.tree.Depth base dirs m) (level : fs.Level base dirs (m + 1) path)
    (missing : fs.tree.node (base ++ dirs.take (m + 1)) = none) :
    ∃ q free, q.names = base ++ dirs.take (m + 1) ∧
      fs.mkdir (dirname path) = (none, fs.put q free .dir) := by
  obtain ⟨q, found, names⟩ := lookup_level depth level (Nat.le_refl _)
  rw [← names] at missing
  refine ⟨q, by simp [missing], names, ?_⟩
  unfold mkdir
  rw [found]
  exact dif_pos missing

theorem locate_congr {fs' : FileSystem} (cwd : fs'.cwd = fs.cwd) : fs'.locate path = fs.locate path := by
  unfold locate
  rw [base_congr cwd]

theorem lookup_names {p : fs.tree.Place} (found : fs.lookup path = .ok p) :
    p.names = fs.locate path := by
  unfold lookup at found
  split at found
  · cases found
  · cases walked : FileTree.walk (fs.start (absolute path)) (moves path) with
    | error e =>
        rw [walked] at found
        cases found
    | ok q =>
        rw [walked] at found
        cases found
        exact FileTree.walk_names walked

theorem lookup_of_parent (parent : fs.openDirectory (dirname path) = none) (named : path ≠ []) :
    ∃ p, fs.lookup path = .ok p := by
  unfold openDirectory at parent
  rw [lookup_dirname] at parent
  unfold lookup
  rw [if_neg named]
  cases walked : FileTree.walk (fs.start (absolute path)) (moves path).dropLast with
  | error e =>
      rw [walked] at parent
      cases parent
  | ok q =>
      rw [walked] at parent
      have here : fs.tree.node q.names = some .dir := by
        dsimp only [Except.mapError] at parent
        split at parent
        · cases parent
        · cases parent
        · assumption
      rcases List.eq_nil_or_concat (moves path) with none | ⟨front, last, split⟩
      · rw [none]
        exact ⟨_, rfl⟩
      · rw [split, List.concat_eq_append] at walked ⊢
        rw [List.dropLast_concat] at walked
        rw [FileTree.walk_append walked, FileTree.walk_dir here]
        exact ⟨_, rfl⟩

theorem openFile_of_parent (parent : fs.openDirectory (dirname path) = none) (named : path ≠ [])
    (noSlash : path.getLast? ≠ some slash)
    (noDir : fs.tree.node (fs.locate path) ≠ some .dir) :
    ∃ opened, fs.openFile path = .ok opened := by
  obtain ⟨p, found⟩ := lookup_of_parent parent named
  rw [← lookup_names found] at noDir
  unfold openFile
  rw [found]
  dsimp only
  rw [if_neg noSlash, dif_pos noDir]
  exact ⟨_, rfl⟩

theorem openFile_missing (parent : fs.openDirectory (dirname path) = none)
    (opened : fs.openFile path = .error ENOENT) : path = [] := by
  by_contra named
  obtain ⟨p, found⟩ := lookup_of_parent parent named
  have other : EISDIR ≠ ENOENT := by decide
  unfold openFile at opened
  rw [found] at opened
  dsimp only at opened
  split at opened
  · exact other (Except.error.inj opened)
  · split at opened
    · cases opened
    · exact other (Except.error.inj opened)

theorem openFile_ok {desc : List Name} {fs' : FileSystem}
    (opened : fs.openFile path = .ok (desc, fs')) :
    path ≠ [] ∧ path.getLast? ≠ some slash ∧ fs.tree.node (fs.locate path) ≠ some .dir ∧
      desc = fs.locate path ∧ fs'.cwd = fs.cwd ∧ fs'.tree.node desc = some (.file []) := by
  unfold openFile at opened
  cases found : fs.lookup path with
  | error e =>
      rw [found] at opened
      cases opened
  | ok p =>
      rw [found] at opened
      dsimp only at opened
      have named : path ≠ [] := by
        rintro rfl
        cases found
      split at opened
      · cases opened
      · rename_i noSlash
        split at opened
        · rename_i noDir
          cases opened
          have here := lookup_names found
          exact ⟨named, noSlash, here ▸ noDir, here, rfl, node_put⟩
        · cases opened

theorem write_empty {desc : List Name} (empty : fs.tree.node desc = some (.file []))
    (bytes : List UInt8) :
    (fs.write desc bytes).content desc = some bytes ∧ (fs.write desc bytes).cwd = fs.cwd := by
  unfold write
  split
  · rename_i old here
    rw [empty] at here
    cases here
    rw [List.drop_nil, List.append_nil]
    exact ⟨content_put, rfl⟩
  · rename_i other
    exact absurd empty (other [])

theorem content_written {desc : List Name} {fs' : FileSystem}
    (opened : fs.openFile path = .ok (desc, fs')) (bytes : List UInt8) :
    (fs'.write desc bytes).content ((fs'.write desc bytes).locate path) = some bytes := by
  obtain ⟨_, _, _, here, cwd, empty⟩ := openFile_ok opened
  obtain ⟨written, cwd'⟩ := write_empty empty bytes
  rw [locate_congr (cwd'.trans cwd), ← here, written]

end FileSystem

end Aesd.FinderApp
