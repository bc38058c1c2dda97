import Aesd.FinderApp.MkDirR

/-! # `writer` and the script it replaces

`writer` makes the directories in front of a file, opens the file empty and writes the
text and a newline to it.  `writer.sh` does the same with the tools of the shell.
-/

namespace Aesd.FinderApp

open Aesd.Lib

def newline : UInt8 := 10

/-- A C string, without its terminator. -/
structure CString where
  text : List UInt8
  noNul : 0 ∉ text

namespace CString

/-- The string in memory. -/
def bytes (s : CString) : List UInt8 := s.text ++ [0]

def strlen (s : CString) : Nat := s.text.length

/-- `strcat(s, "\n")`. -/
def line (s : CString) : CString := ⟨s.text ++ [newline], by simp [newline, s.noNul]⟩

end CString

structure Env extends Faults where
  /-- What `write` returns when it is asked for so many bytes, or none for an error. -/
  write : (count : Nat) → Option (Fin (count + 1))
  close : Option Errno

/-- `open(path, FLAGS_OPEN, MODE_OPEN)`. -/
def openCreate (env : Faults) (path : List UInt8) (w : World) : Except Errno (List Name) × World :=
  match env.fault w.calls.length with
  | some e => (.error e, ⟨w.fs, w.calls ++ [some e]⟩)
  | none =>
    match w.fs.openFile path with
    | .error e => (.error e, ⟨w.fs, w.calls ++ [some e]⟩)
    | .ok (desc, fs) => (.ok desc, ⟨fs, w.calls ++ [none]⟩)

def openFile (env : Faults) (path : List UInt8) (w : World) : Option (List Name) × World :=
  match openCreate env path w with
  | (.ok desc, w) => (some desc, w)
  | (.error e, w) =>
    if e = ENOENT then
      match openCreate env path (mkDirR env path w).2 with
      | (.ok desc, w) => (some desc, w)
      | (.error _, w) => (none, w)
    else (none, w)

def main (env : Env) (argv : List CString) (w : World) : Nat × World :=
  match argv with
  | [_, filepath, textstring] =>
    -- in place, into `argv[2]`; the block that `malloc` gave is dropped
    let textline := textstring.line
    let (status, w) := mkDirR env.toFaults filepath.text w
    if status ≠ 0 then (1, w)
    else
      match openFile env.toFaults filepath.text w with
      | (none, w) => (1, w)
      | (some desc, w) =>
        match env.write (textline.strlen + 1) with
        | none => (1, w)
        | some count =>
          let w := ⟨w.fs.write desc (textline.bytes.take count), w.calls⟩
          if env.close ≠ none then (1, w) else (0, w)
  | _ => (1, w) -- `validate_args`

/-- Nothing keeps `open` from the file. -/
structure CanOpen (env : Faults) (path : List UInt8) (w : World) : Prop where
  noFault : env.fault w.calls.length = none
  named : path ≠ []
  noSlash : path.getLast? ≠ some slash
  noDir : w.fs.tree.node (w.fs.locate path) ≠ some .dir

/-- What `open` comes to: it fails for itself, or in the tree, or there is a file. -/
inductive Created (env : Faults) (path : List UInt8) (w : World) :
    Except Errno (List Name) × World → Prop where
  | fault {e w'} (other : e ≠ ENOENT) (fault : env.fault w.calls.length = some e) :
      Created env path w (.error e, w')
  | error {e w'} (failed : w.fs.openFile path = .error e) : Created env path w (.error e, w')
  | file {desc w'} (noFault : env.fault w.calls.length = none)
      (opened : w.fs.openFile path = .ok (desc, w'.fs)) : Created env path w (.ok desc, w')

theorem openCreate_created (env : Faults) (path : List UInt8) (w : World) :
    Created env path w (openCreate env path w) := by
  unfold openCreate
  cases fault : env.fault w.calls.length with
  | some e => exact .fault (env.ne_missing fault) fault
  | none =>
      cases opened : w.fs.openFile path with
      | error e => exact .error opened
      | ok result => exact .file fault opened

theorem openFile_opened {env : Faults} {path : List UInt8} {w : World}
    (parent : w.fs.openDirectory (dirname path) = none) (can : CanOpen env path w) :
    ∃ desc w', openFile env path w = (some desc, w') ∧ w.fs.openFile path = .ok (desc, w'.fs) := by
  obtain ⟨result, there⟩ := FileSystem.openFile_of_parent parent can.named can.noSlash can.noDir
  have created := openCreate_created env path w
  unfold openFile
  generalize openCreate env path w = opened at created
  cases created with
  | fault other fault =>
      rw [can.noFault] at fault
      cases fault
  | error failed =>
      rw [there] at failed
      cases failed
  | file noFault opened => exact ⟨_, _, rfl, opened⟩

/-- What cannot be opened is not opened the second time either: only the empty path is
    missing, and `mk_dir_r` is of no help there. -/
theorem openFile_failed {env : Faults} {path : List UInt8} {w : World}
    (parent : w.fs.openDirectory (dirname path) = none) (cannot : ¬CanOpen env path w) :
    ∃ w', openFile env path w = (none, w') := by
  have created := openCreate_created env path w
  unfold openFile
  generalize openCreate env path w = opened at created
  cases created with
  | fault other fault => exact ⟨_, if_neg other⟩
  | error failed =>
      rename_i e w'
      dsimp only
      split
      · rename_i missing
        subst missing
        obtain rfl := FileSystem.openFile_missing parent failed
        have again := openCreate_created env [] (mkDirR env [] w').2
        generalize openCreate env [] (mkDirR env [] w').2 = opened at again
        cases again with
        | fault | error => exact ⟨_, rfl⟩
        | file noFault opened => exact absurd rfl (FileSystem.openFile_ok opened).1
      · exact ⟨w', rfl⟩
  | file noFault opened =>
      obtain ⟨named, noSlash, noDir, _⟩ := FileSystem.openFile_ok opened
      exact absurd ⟨noFault, named, noSlash, noDir⟩ cannot

/-- `mk_dir_r` has come to the directory of the path, and the path can be opened there. -/
def Opens (env : Faults) (fs : FileSystem) (path : List UInt8) : Prop :=
  (mkDirR env path ⟨fs, []⟩).1 = 0 ∧ CanOpen env path (mkDirR env path ⟨fs, []⟩).2

/-- For a path of names, and without faults, that can be seen in the tree as it was. -/
theorem opens_iff_of_plain {env : Faults} {fs : FileSystem} {path : List UInt8} (plain : Plain path)
    (noFault : ∀ call, env.fault call = none) :
    Opens env fs path ↔
      (missing fs path).length ≤ 253 ∧ NoFile fs path ∧ path ≠ [] ∧
        path.getLast? ≠ some slash ∧ fs.tree.node (fs.locate path) ≠ some .dir := by
  constructor
  · rintro ⟨made, can⟩
    obtain ⟨few, noFile⟩ := few_of_mkDirR plain made
    obtain ⟨_, m, _, grown⟩ := mkDirR_done plain few noFile noFault
    refine ⟨few, noFile, can.named, can.noSlash, ?_⟩
    intro dir
    refine can.noDir ?_
    rw [FileSystem.locate_congr grown.cwd]
    exact grown.kept dir
  · rintro ⟨few, noFile, named, noSlash, noDir⟩
    obtain ⟨made, m, _, grown⟩ := mkDirR_done plain few noFile noFault
    refine ⟨made, noFault _, named, noSlash, ?_⟩
    rw [FileSystem.locate_congr grown.cwd,
      grown.same _ fun i _ _ => ancestor_ne_locate plain named noSlash fs i]
    exact noDir

/-- How `main` ends. -/
inductive Ended (env : Env) (fs : FileSystem) (filepath textstring : CString) : Nat × World → Prop where
  | notOpened {w} (closed : ¬Opens env.toFaults fs filepath.text) :
      Ended env fs filepath textstring (1, w)
  | notWritten {w} (failed : env.write (textstring.line.strlen + 1) = none) :
      Ended env fs filepath textstring (1, w)
  | notClosed {w} (failed : env.close ≠ none) : Ended env fs filepath textstring (1, w)
  | done {w count} (opens : Opens env.toFaults fs filepath.text)
      (written : env.write (textstring.line.strlen + 1) = some count) (closed : env.close = none)
      (left : w.fs.content (w.fs.locate filepath.text) = some (textstring.line.bytes.take count)) :
      Ended env fs filepath textstring (0, w)

theorem main_ended (env : Env) (fs : FileSystem) (name filepath textstring : CString) :
    Ended env fs filepath textstring (main env [name, filepath, textstring] ⟨fs, []⟩) := by
  unfold main
  dsimp only
  split
  · rename_i other
    exact .notOpened fun opens => other opens.1
  · rename_i made
    have run : mkDirR env.toFaults filepath.text ⟨fs, []⟩ =
        (0, (mkDirR env.toFaults filepath.text ⟨fs, []⟩).2) := Prod.ext (not_not.mp made) rfl
    have parent := openDirectory_of_mkDirRounds run
    by_cases can : CanOpen env.toFaults filepath.text (mkDirR env.toFaults filepath.text ⟨fs, []⟩).2
    · obtain ⟨desc, w', opened, file⟩ := openFile_opened parent can
      rw [opened]
      dsimp only
      cases written : env.write (textstring.line.strlen + 1) with
      | none => exact .notWritten written
      | some count =>
          dsimp only
          split
          · rename_i failed
            exact .notClosed failed
          · rename_i closed
            exact .done ⟨not_not.mp made, can⟩ written (not_not.mp closed)
              (FileSystem.content_written file _)
    · obtain ⟨w', failed⟩ := openFile_failed parent can
      rw [failed]
      exact .notOpened fun opens => can opens.2

/-- The tools of the script. -/
structure Shell where
  mkdirP : List UInt8 → FileSystem → Bool × FileSystem
  touch : List UInt8 → FileSystem → Bool × FileSystem
  echo : List UInt8 → List UInt8

structure ScriptEnd where
  status : Nat
  /-- Whether the redirection has opened the file; the script does not ask. -/
  redirected : Bool
  fs : FileSystem

/-- `echo "${textstring}" > ${filepath}` and `exit 0`. -/
def redirect (sh : Shell) (filepath textstring : List UInt8) (fs : FileSystem) : ScriptEnd :=
  match fs.openFile filepath with
  | .error _ => ⟨0, false, fs⟩
  | .ok (desc, fs) => ⟨0, true, fs.write desc (sh.echo textstring)⟩

/-- The script, for a path that the shell passes on as the one word it is. -/
def writerSh (sh : Shell) (args : List (List UInt8)) (fs : FileSystem) : ScriptEnd :=
  match args with
  | [filepath, textstring] =>
    let dirpath := dirname filepath
    match if fs.openDirectory dirpath = none then (true, fs) else sh.mkdirP dirpath fs with
    | (false, fs) => ⟨1, false, fs⟩
    | (true, fs) =>
      match sh.touch filepath fs with
      | (false, fs) => ⟨1, false, fs⟩
      | (true, fs) => redirect sh filepath textstring fs
  | _ => ⟨1, false, fs⟩

/-- Where the redirection has opened the file, this is what is left in it. -/
def Leaves (filepath content : List UInt8) (ended : ScriptEnd) : Prop :=
  ended.redirected = true → ended.fs.content (ended.fs.locate filepath) = some content

theorem redirect_leaves (sh : Shell) (filepath textstring : List UInt8) (fs : FileSystem) :
    Leaves filepath (sh.echo textstring) (redirect sh filepath textstring fs) := by
  unfold redirect
  cases opened : fs.openFile filepath with
  | error e => exact nofun
  | ok result => exact fun _ => FileSystem.content_written opened _

theorem writerSh_leaves (sh : Shell) (filepath textstring : List UInt8) (fs : FileSystem) :
    Leaves filepath (sh.echo textstring) (writerSh sh [filepath, textstring] fs) := by
  unfold writerSh
  dsimp only
  split
  · exact nofun
  · split
    · exact nofun
    · exact redirect_leaves sh filepath textstring _

/-- With status 0 the file is the text and a newline, which the script leaves as well
    where `echo` prints the text as it is. -/
def Right (fs : FileSystem) (filepath textstring : CString) (ended : Nat × World) : Prop :=
  ended.1 = 0 →
    ∃ content, ended.2.fs.content (ended.2.fs.locate filepath.text) = some content ∧
      content = textstring.text ++ [newline] ∧
      ∀ sh : Shell, sh.echo textstring.text = textstring.text ++ [newline] →
        Leaves filepath.text content (writerSh sh [filepath.text, textstring.text] fs)

theorem right_iff_content {fs : FileSystem} {filepath textstring : CString} {w : World} :
    Right fs filepath textstring (0, w) ↔
      w.fs.content (w.fs.locate filepath.text) = some (textstring.text ++ [newline]) := by
  constructor
  · intro right
    obtain ⟨content, here, rfl, _⟩ := right rfl
    exact here
  · intro here _
    refine ⟨_, here, rfl, ?_⟩
    intro sh verbatim
    rw [← verbatim]
    exact writerSh_leaves sh filepath.text textstring.text fs

/-- `write` is given the terminator too: the line is left where it stops short of that. -/
theorem take_line (textstring : CString) (count : Fin (textstring.line.strlen + 1 + 1)) :
    textstring.line.bytes.take count = textstring.text ++ [newline] ↔
      count.val = textstring.line.strlen := by
  have room := count.isLt
  constructor
  · intro same
    have lengths := congrArg List.length same
    simp only [CString.line, CString.bytes, CString.strlen, List.length_take, List.length_append,
      List.length_singleton] at lengths room ⊢
    omega
  · intro short
    rw [short]
    exact List.take_left' rfl

/-- `writer` does as it promises just where the file is not opened, where `write` or
    `close` fails, or where `write` leaves the last byte out that it is given. -/
theorem main_right_iff (env : Env) (fs : FileSystem) (name filepath textstring : CString) :
    Right fs filepath textstring (main env [name, filepath, textstring] ⟨fs, []⟩) ↔
      ¬Opens env.toFaults fs filepath.text ∨
        (∀ count, env.write (textstring.line.strlen + 1) = some count →
          count.val = textstring.line.strlen) ∨
        env.close ≠ none := by
  have ended := main_ended env fs name filepath textstring
  generalize main env [name, filepath, textstring] ⟨fs, []⟩ = result at ended
  cases ended with
  | notOpened closed => exact ⟨fun _ => .inl closed, fun _ => nofun⟩
  | notWritten failed => exact ⟨fun _ => .inr (.inl (by simp [failed])), fun _ => nofun⟩
  | notClosed failed => exact ⟨fun _ => .inr (.inr failed), fun _ => nofun⟩
  | done opens written closed left =>
      rw [right_iff_content, left, Option.some_inj, take_line, written]
      simp [opens, closed]

/-- An environment in which nothing fails and `write` writes all it is given. -/
def Env.whole : Env where
  toFaults := .none
  write := fun count => some (Fin.last count)
  close := none

/-- `writer /tmp/f hi` leaves a zero byte behind the line. -/
theorem writer_leaves_nul :
    ∃ name filepath textstring : CString,
      filepath.text = [47, 116, 109, 112, 47, 102] ∧ textstring.text = [104, 105] ∧
        (main .whole [name, filepath, textstring] ⟨.bare, []⟩).1 = 0 ∧
        (main .whole [name, filepath, textstring] ⟨.bare, []⟩).2.fs.content [[116, 109, 112], [102]] =
          some [104, 105, 10, 0] ∧
        ¬Right .bare filepath textstring (main .whole [name, filepath, textstring] ⟨.bare, []⟩) := by
  refine ⟨⟨[], by decide⟩, ⟨[47, 116, 109, 112, 47, 102], by decide⟩, ⟨[104, 105], by decide⟩, rfl, rfl,
    by decide, by decide, ?_⟩
  intro right
  obtain ⟨content, here, rfl, _⟩ := right (by decide)
  exact absurd here (by decide)

end Aesd.FinderApp
