import Mathlib.Data.List.Basic
import Mathlib.Data.List.DropRight

/-! # Paths as texts

A path is a list of characters, its components are what stands between the
separators, and `dirname` takes the last of them away, however many separators
there are around it.
-/

namespace Aesd.Lib.Path

variable {α : Type*}

theorem head?_of_prefix {front path : List α} (front_of : front <+: path) (some : front ≠ []) :
    front.head? = path.head? := by
  obtain ⟨rest, rfl⟩ := front_of
  rw [List.head?_append_of_ne_nil _ some]

variable [DecidableEq α] {sep : α}

/-- What stands between separators, without the empty pieces. -/
def components (sep : α) (path : List α) : List (List α) := (path.splitOn sep).filter (· ≠ [])

/-- The path without its last component and the separators around it; `none` where
    no separator stands in front of that component. -/
def dirname (sep : α) (path : List α) : Option (List α) :=
  let named := path.rdropWhile (· = sep)
  if named = [] then
    if path = [] then none else some [sep]
  else
    let up := named.rdropWhile (· ≠ sep)
    if up = [] then none
    else
      let dir := up.rdropWhile (· = sep)
      some (if dir = [] then [sep] else dir)

@[simp] theorem components_nil : components sep [] = [] := by
  simp [components]

theorem components_append_cons (front rest : List α) :
    components sep (front ++ sep :: rest) = components sep front ++ components sep rest := by
  unfold components
  rw [List.splitOn_append_cons_self, List.filter_append]

@[simp] theorem components_cons (rest : List α) :
    components sep (sep :: rest) = components sep rest := by
  have front : components sep ([] ++ sep :: rest) = _ := components_append_cons [] rest
  rwa [List.nil_append, components_nil, List.nil_append] at front

theorem components_of_not_mem {name : List α} (some : name ≠ []) (plain : sep ∉ name) :
    components sep name = [name] := by
  unfold components
  rw [List.splitOn_eq_singleton plain]
  simp [some]

/-- Separators at the end make no difference. -/
theorem components_rdropWhile (path : List α) :
    components sep (path.rdropWhile (· = sep)) = components sep path := by
  induction path using List.reverseRecOn with
  | nil => rfl
  | append_singleton path c ih =>
      by_cases last : c = sep
      · subst last
        rw [List.rdropWhile_concat_pos _ _ _ (by simp), ih, components_append_cons, components_nil,
          List.append_nil]
      · rw [List.rdropWhile_concat_neg _ _ _ (by simpa using last)]

theorem last_component {named : List α} (some : named ≠ []) (last : named.getLast some ≠ sep) :
    ∃ name, components sep named = components sep (named.rdropWhile (· ≠ sep)) ++ [name] := by
  have split := List.rdropWhile_append_rtakeWhile (p := (· ≠ sep)) (l := named)
  have plain : sep ∉ named.rtakeWhile (· ≠ sep) := by
    intro member
    simpa using List.mem_rtakeWhile_imp member
  have nonempty : named.rtakeWhile (· ≠ sep) ≠ [] := by
    rw [ne_eq, List.rtakeWhile_eq_nil_iff, not_forall]
    exact ⟨some, by simpa using last⟩
  generalize named.rtakeWhile (· ≠ sep) = name at *
  refine ⟨name, ?_⟩
  by_cases top : named.rdropWhile (· ≠ sep) = []
  · rw [top] at split ⊢
    rw [← split, List.nil_append, components_of_not_mem nonempty plain, components_nil]
    rfl
  · have stop := List.rdropWhile_last_not _ _ top
    have shape := List.dropLast_append_getLast top
    generalize named.rdropWhile (· ≠ sep) = up at *
    have separator : up.getLast top = sep := by simpa using stop
    rw [separator] at shape
    rw [← split, ← shape, List.append_assoc, List.singleton_append, components_append_cons,
      components_append_cons, components_nil, List.append_nil, components_of_not_mem nonempty plain]

theorem components_ne_nil {path : List α} (some : path ≠ []) (last : path.getLast? ≠ Option.some sep) :
    components sep path ≠ [] := by
  have last' : path.getLast some ≠ sep := by
    intro separator
    exact last (by rw [List.getLast?_eq_some_getLast some, separator])
  obtain ⟨name, cut⟩ := last_component some last'
  rw [cut]
  exact List.append_ne_nil_of_right_ne_nil _ (List.cons_ne_nil _ _)

theorem head?_of_separators {path : List α} (some : path ≠ []) (bare : path.rdropWhile (· = sep) = []) :
    path.head? = Option.some sep := by
  cases path with
  | nil => exact absurd rfl some
  | cons c path =>
      have first := List.rdropWhile_eq_nil_iff.mp bare c List.mem_cons_self
      exact congrArg Option.some (by simpa using first)

/-- `dirname` takes the last component away, and leaves a path that is as absolute
    as before. -/
theorem dirname_some {path dir : List α} (parent : dirname sep path = some dir) :
    components sep dir = (components sep path).dropLast ∧ dir ≠ [] ∧ dir.head? = path.head? := by
  unfold dirname at parent
  dsimp only at parent
  have whole : components sep (path.rdropWhile (· = sep)) = _ := components_rdropWhile path
  have front := List.rdropWhile_prefix (· = sep) path
  split at parent
  · rename_i bare
    split at parent
    · cases parent
    · rename_i some
      obtain rfl := Option.some.inj parent
      rw [bare, components_nil] at whole
      rw [← whole, head?_of_separators some bare]
      exact ⟨components_cons [], List.cons_ne_nil _ _, rfl⟩
  · rename_i named
    have last : (path.rdropWhile (· = sep)).getLast named ≠ sep := by
      simpa using List.rdropWhile_last_not _ _ named
    obtain ⟨name, cut⟩ := last_component named last
    have front' := List.rdropWhile_prefix (· ≠ sep) (path.rdropWhile (· = sep))
    split at parent
    · cases parent
    · rename_i top
      obtain rfl := Option.some.inj parent
      generalize (path.rdropWhile (· = sep)).rdropWhile (· ≠ sep) = up at *
      have above : components sep (up.rdropWhile (· = sep)) = _ := components_rdropWhile up
      have head := head?_of_prefix (front'.trans front) top
      rw [← whole, cut, List.dropLast_concat, ← above, ← head]
      split
      · rename_i bare
        rw [bare, head?_of_separators top bare]
        exact ⟨(components_cons []).trans components_nil.symm, List.cons_ne_nil _ _, rfl⟩
      · rename_i dir
        exact ⟨rfl, dir, head?_of_prefix (List.rdropWhile_prefix _ _) dir⟩

/-- Where `dirname` finds no separator there is one component at most, and no
    separator in front. -/
theorem dirname_none {path : List α} (parent : dirname sep path = none) :
    (components sep path).dropLast = [] ∧ path.head? ≠ some sep := by
  unfold dirname at parent
  dsimp only at parent
  split at parent
  · split at parent
    · rename_i none
      subst none
      simp
    · cases parent
  · rename_i named
    have last : (path.rdropWhile (· = sep)).getLast named ≠ sep := by
      simpa using List.rdropWhile_last_not _ _ named
    obtain ⟨name, cut⟩ := last_component named last
    split at parent
    · rename_i bare
      rw [components_rdropWhile, bare, components_nil, List.nil_append] at cut
      rw [cut]
      refine ⟨rfl, ?_⟩
      rw [← head?_of_prefix (List.rdropWhile_prefix _ _) named]
      intro first
      have plain := List.rdropWhile_eq_nil_iff.mp bare sep (List.mem_of_head? first)
      simp at plain
    · cases parent

end Aesd.Lib.Path
