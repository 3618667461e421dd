import Mathlib.Data.List.Basic

/-! Unix paths as texts: their components, the join that a leading slash of its argument
turns into a replacement, and the parent. A path resolves by its components alone. -/
namespace Lib.UnixPath

inductive Component where
  | rootDir
  | curDir
  | parentDir
  | normal (name : List Char)
  deriving DecidableEq

/-- The text between two slashes; empty and `.` parts name nothing. -/
def parsePart (part : List Char) : Option Component :=
  if part = [] ∨ part = ['.'] then none
  else if part = ['.', '.'] then some .parentDir
  else some (.normal part)

/-- A leading slash is a component, and so is a leading `.` of a relative path. -/
def leading (path : List Char) : List Component :=
  if path.head? = some '/' then [.rootDir]
  else if (path.splitOn '/').head? = some ['.'] then [.curDir]
  else []

def components (path : List Char) : List Component :=
  leading path ++ (path.splitOn '/').filterMap parsePart

/-- An absolute argument replaces the path; a separator is added only where none stands. -/
def join (path rel : List Char) : List Char :=
  if rel.head? = some '/' then rel
  else if path = [] ∨ path.getLast? = some '/' then path ++ rel
  else path ++ '/' :: rel

/-- The components of the parent; the root and the empty path have none. -/
def parent (path : List Component) : Option (List Component) :=
  match path.getLast? with
  | none | some .rootDir => none
  | _ => some path.dropLast

/-- A part that is a component of its own and never special. -/
structure Plain (part : List Char) : Prop where
  nonempty : part ≠ []
  not_dot : part ≠ ['.']
  not_dots : part ≠ ['.', '.']
  no_slash : '/' ∉ part

theorem parsePart_plain {part : List Char} (plain : Plain part) :
    parsePart part = some (.normal part) := by
  simp [parsePart, plain.nonempty, plain.not_dot, plain.not_dots]

theorem filterMap_plain {parts : List (List Char)} (plain : ∀ part ∈ parts, Plain part) :
    parts.filterMap parsePart = parts.map .normal := by
  induction parts with
  | nil => rfl
  | cons part parts ih =>
    rw [List.filterMap_cons, parsePart_plain (plain part (by simp)), List.map_cons,
      ih fun other member => plain other (by simp [member])]

/-- What follows the first slash does not change how the path starts. -/
theorem leading_append (path rel : List Char) :
    leading (path ++ '/' :: rel) = leading (path ++ ['/']) := by
  simp only [leading, List.splitOn_append_cons_self]
  cases path with
  | nil => rfl
  | cons c path =>
    have some_part := List.splitOn_ne_nil '/' (c :: path)
    rcases split : (c :: path).splitOn '/' with _ | ⟨first, rest⟩
    · contradiction
    · simp

theorem leading_slash {path : List Char} (nonempty : path ≠ []) :
    leading (path ++ ['/']) = leading path := by
  simp only [leading, List.splitOn_append_cons_self]
  cases path with
  | nil => contradiction
  | cons c path =>
    have some_part := List.splitOn_ne_nil '/' (c :: path)
    rcases split : (c :: path).splitOn '/' with _ | ⟨first, rest⟩
    · contradiction
    · simp

theorem components_append (path rel : List Char) :
    components (path ++ '/' :: rel) =
      components (path ++ ['/']) ++ (rel.splitOn '/').filterMap parsePart := by
  unfold components
  rw [leading_append, List.splitOn_append_cons_self, List.splitOn_append_cons_self]
  simp [List.filterMap_append, parsePart]

/-- A trailing slash names nothing. -/
theorem components_slash {path : List Char} (nonempty : path ≠ []) :
    components (path ++ ['/']) = components path := by
  unfold components
  rw [leading_slash nonempty, List.splitOn_append_cons_self]
  simp [List.filterMap_append, parsePart]

/-- The text of a list of parts. -/
abbrev text (parts : List (List Char)) : List Char := ['/'].intercalate parts

theorem splitOn_text {parts : List (List Char)} (plain : ∀ part ∈ parts, Plain part)
    (some_part : parts ≠ []) : (text parts).splitOn '/' = parts :=
  List.splitOn_intercalate _ (fun part member => (plain part member).no_slash) some_part

theorem filterMap_text {parts : List (List Char)} (plain : ∀ part ∈ parts, Plain part) :
    ((text parts).splitOn '/').filterMap parsePart = parts.map .normal := by
  by_cases none_left : parts = []
  · subst none_left
    simp [parsePart]
  · rw [splitOn_text plain none_left, filterMap_plain plain]

theorem head_text {parts : List (List Char)} (plain : ∀ part ∈ parts, Plain part) :
    (text parts).head? ≠ some '/' := by
  cases parts with
  | nil => simp
  | cons part parts =>
    have here := plain part (by simp)
    cases part with
    | nil => exact absurd rfl here.nonempty
    | cons c part =>
      have not_slash : c ≠ '/' := fun same => here.no_slash (by simp [same])
      cases parts <;> simpa using not_slash

/-- Joining plain parts appends them to the components, whatever the path is. -/
theorem components_join (path : List Char) {parts : List (List Char)}
    (plain : ∀ part ∈ parts, Plain part) :
    components (join path (text parts)) = components path ++ parts.map .normal := by
  unfold join
  simp only [head_text plain, if_false]
  by_cases empty : path = []
  · subst empty
    have start : leading (text parts) = [] := by
      by_cases none_left : parts = []
      · subst none_left
        simp [leading]
      · obtain ⟨part, rest, rfl⟩ := List.exists_cons_of_ne_nil none_left
        have not_dot := (plain part (by simp)).not_dot
        simp only [leading, head_text plain, if_false, splitOn_text plain none_left]
        simpa using not_dot
    have nothing : components [] = [] := by decide
    simp only [true_or, if_true, List.nil_append, nothing]
    simp only [components, start, filterMap_text plain, List.nil_append]
  · by_cases slash : path.getLast? = some '/'
    · obtain ⟨front, rfl⟩ := List.getLast?_eq_some_iff.mp slash
      simp only [empty, slash, or_true, if_true, List.append_assoc, List.cons_append,
        List.nil_append]
      rw [components_append, filterMap_text plain]
    · simp only [empty, slash, or_self, if_false]
      rw [components_append, filterMap_text plain, components_slash empty]

/-- The parent of a path ending in a plain part is the path without it. -/
theorem parent_snoc (path : List Component) (name : List Char) :
    parent (path ++ [.normal name]) = some path := by
  simp [parent]

end Lib.UnixPath
