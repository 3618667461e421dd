import Mathlib.Algebra.GroupWithZero.Nat
import Mathlib.Data.List.Basic
import Mathlib.Data.List.Nodup
import Mathlib.Data.List.Perm.Basic

/-! Directory trees over any names: what stands at a path, removal of a file, and what a walk
with a stack of directories still has to find. -/
namespace Lib

/-- The entries of a directory: files, with what is known of them, and directories. -/
inductive Folder (ν σ : Type) where
  | empty
  | file (name : ν) (stat : σ) (rest : Folder ν σ)
  | folder (name : ν) (inner rest : Folder ν σ)

namespace Folder

variable {ν σ : Type}

/-- One entry of a directory, without its name. -/
abbrev Item (ν σ : Type) := σ ⊕ Folder ν σ

def entries : Folder ν σ → List (ν × Item ν σ)
  | empty => []
  | file name stat rest => (name, .inl stat) :: rest.entries
  | folder name inner rest => (name, .inr inner) :: rest.entries

def names (t : Folder ν σ) : List ν := t.entries.map Prod.fst

/-- All files with their paths. -/
def files : Folder ν σ → List (List ν × σ)
  | empty => []
  | file name stat rest => ([name], stat) :: rest.files
  | folder name inner rest => (inner.files.map fun x => (name :: x.1, x.2)) ++ rest.files

/-- How many directories there are, this one included. -/
def folders : Folder ν σ → Nat
  | empty => 1
  | file _ _ rest => rest.folders
  | folder _ inner rest => inner.folders + rest.folders

/-- No directory has two entries of one name. -/
def Distinct : Folder ν σ → Prop
  | empty => True
  | file name _ rest => name ∉ rest.names ∧ rest.Distinct
  | folder name inner rest => name ∉ rest.names ∧ inner.Distinct ∧ rest.Distinct

theorem distinct_of_entry {t inner : Folder ν σ} (distinct : t.Distinct) {name : ν}
    (member : (name, .inr inner) ∈ t.entries) : inner.Distinct := by
  induction t with
  | empty => cases member
  | file other stat rest ih => exact ih distinct.2 (by simpa [entries] using member)
  | folder other within rest _ ih =>
    rcases List.mem_cons.mp member with same | later
    · obtain rfl : inner = within := Sum.inr.inj (Prod.mk.inj same).2
      exact distinct.2.1
    · exact ih distinct.2.2 later

/-- The path of a file begins with the name of an entry. -/
theorem first_name_mem {t : Folder ν σ} {x : List ν × σ} (member : x ∈ t.files) :
    ∃ name below, x.1 = name :: below ∧ name ∈ t.names := by
  induction t with
  | empty => cases member
  | file name stat rest ih =>
    rcases List.mem_cons.mp member with rfl | later
    · exact ⟨name, [], rfl, by simp [names, entries]⟩
    · obtain ⟨other, below, path, listed⟩ := ih later
      exact ⟨other, below, path, List.mem_cons_of_mem _ listed⟩
  | folder name inner rest _ ih =>
    rcases List.mem_append.mp member with inside | later
    · obtain ⟨y, -, rfl⟩ := List.mem_map.mp inside
      exact ⟨name, y.1, rfl, by simp [names, entries]⟩
    · obtain ⟨other, below, path, listed⟩ := ih later
      exact ⟨other, below, path, List.mem_cons_of_mem _ listed⟩

/-- The paths of the files differ. -/
theorem files_nodup {t : Folder ν σ} (distinct : t.Distinct) : (t.files.map Prod.fst).Nodup := by
  induction t with
  | empty => exact List.nodup_nil
  | file name stat rest ih =>
    refine List.nodup_cons.mpr ⟨fun later => ?_, ih distinct.2⟩
    obtain ⟨x, member, path⟩ := List.mem_map.mp later
    obtain ⟨other, below, shape, listed⟩ := first_name_mem member
    rw [shape] at path
    exact distinct.1 ((List.cons.inj path).1 ▸ listed)
  | folder name inner rest inner_ih rest_ih =>
    rw [files, List.map_append, List.map_map, List.nodup_append]
    refine ⟨?_, rest_ih distinct.2.2, ?_⟩
    · have own := (inner_ih distinct.2.1).map (f := fun path : List ν => name :: path)
        fun a b same => (List.cons.inj same).2
      rwa [List.map_map] at own
    · intro path inside other later same
      obtain ⟨x, -, rfl⟩ := List.mem_map.mp inside
      obtain ⟨y, member, rfl⟩ := List.mem_map.mp later
      obtain ⟨first, below, shape, listed⟩ := first_name_mem member
      rw [shape] at same
      exact distinct.1 ((List.cons.inj same).1 ▸ listed)

section Lookup

variable [DecidableEq ν]

instance decidableDistinct : (t : Folder ν σ) → Decidable t.Distinct
  | empty => isTrue trivial
  | file name _ rest =>
    have := decidableDistinct rest
    inferInstanceAs (Decidable (name ∉ rest.names ∧ rest.Distinct))
  | folder name inner rest =>
    have := decidableDistinct inner
    have := decidableDistinct rest
    inferInstanceAs (Decidable (name ∉ rest.names ∧ inner.Distinct ∧ rest.Distinct))

def folderAt : Folder ν σ → List ν → Option (Folder ν σ)
  | empty, path => if path = [] then some empty else none
  | file name stat rest, path => if path = [] then some (file name stat rest) else rest.folderAt path
  | folder name inner rest, path =>
    match path with
    | [] => some (folder name inner rest)
    | first :: below => if first = name then inner.folderAt below else rest.folderAt (first :: below)

def fileAt : Folder ν σ → List ν → Option σ
  | empty, _ => none
  | file name stat rest, path => if path = [name] then some stat else rest.fileAt path
  | folder name inner rest, path =>
    match path with
    | first :: second :: below =>
      if first = name then inner.fileAt (second :: below) else rest.fileAt (first :: second :: below)
    | other => rest.fileAt other

/-- The tree without the file at the path, if there is one. -/
def remove : Folder ν σ → List ν → Option (Folder ν σ)
  | empty, _ => none
  | file name stat rest, path =>
    if path = [name] then some rest else (rest.remove path).map (file name stat)
  | folder name inner rest, path =>
    match path with
    | [] => none
    | first :: below =>
      (if first = name then (inner.remove below).map fun inner => folder name inner rest else none) <|>
        (rest.remove (first :: below)).map (folder name inner)

@[simp] theorem folderAt_nil (t : Folder ν σ) : t.folderAt [] = some t := by
  cases t <;> simp [folderAt]

theorem folderAt_append (t : Folder ν σ) (path below : List ν) :
    t.folderAt (path ++ below) = (t.folderAt path).bind fun inner => inner.folderAt below := by
  cases path with
  | nil => simp
  | cons first path =>
    induction t generalizing first path with
    | empty => simp [folderAt]
    | file name stat rest ih => simpa [folderAt] using ih first path
    | folder name inner rest inner_ih rest_ih =>
      by_cases here : first = name
      · cases path with
        | nil => simp [folderAt, here]
        | cons second path => simpa [folderAt, here] using inner_ih second path
      · simpa [folderAt, here] using rest_ih first path

theorem fileAt_append {t inner : Folder ν σ} {path : List ν} {first : ν} {below : List ν}
    (found : t.folderAt path = some inner) :
    t.fileAt (path ++ first :: below) = inner.fileAt (first :: below) := by
  cases path with
  | nil =>
    obtain rfl := Option.some.inj ((folderAt_nil t).symm.trans found)
    rfl
  | cons top path =>
    induction t generalizing top path with
    | empty => simp [folderAt] at found
    | file name stat rest ih =>
      rw [← ih top path (by simpa [folderAt] using found)]
      simp [fileAt]
    | folder name within rest inner_ih rest_ih =>
      by_cases here : top = name
      · subst here
        cases path with
        | nil =>
          obtain rfl : within = inner := by simpa [folderAt] using found
          simp [fileAt]
        | cons second path =>
          rw [← inner_ih second path (by simpa [folderAt] using found)]
          simp [fileAt]
      · rw [← rest_ih top path (by simpa [folderAt, here] using found)]
        cases path <;> simp [fileAt, here]

theorem folderAt_none {t : Folder ν σ} {name : ν} (absent : name ∉ t.names) :
    t.folderAt [name] = none := by
  induction t with
  | empty => simp [folderAt]
  | file other stat rest ih =>
    simp only [names, entries, List.map_cons, List.mem_cons, not_or] at absent
    simpa [folderAt] using ih absent.2
  | folder other inner rest _ ih =>
    simp only [names, entries, List.map_cons, List.mem_cons, not_or] at absent
    simpa [folderAt, absent.1] using ih absent.2

theorem entry_lookup {t : Folder ν σ} (distinct : t.Distinct) {name : ν} {x : Item ν σ}
    (member : (name, x) ∈ t.entries) : match x with
      | .inl stat => t.folderAt [name] = none ∧ t.fileAt [name] = some stat
      | .inr inner => t.folderAt [name] = some inner := by
  induction t with
  | empty => cases member
  | file other stat rest ih =>
    rcases List.mem_cons.mp member with same | later
    · obtain ⟨rfl, rfl⟩ := Prod.mk.inj same
      exact ⟨by simpa [folderAt] using folderAt_none distinct.1, by simp [fileAt]⟩
    · have apart : name ≠ other := fun same =>
        distinct.1 (same ▸ List.mem_map_of_mem (f := Prod.fst) later)
      have below := ih distinct.2 later
      cases x with
      | inl stat => simpa [folderAt, fileAt, apart] using below
      | inr inner => simpa [folderAt] using below
  | folder other inner rest _ ih =>
    rcases List.mem_cons.mp member with same | later
    · obtain ⟨rfl, rfl⟩ := Prod.mk.inj same
      simp [folderAt]
    · have apart : name ≠ other := fun same =>
        distinct.1 (same ▸ List.mem_map_of_mem (f := Prod.fst) later)
      have below := ih distinct.2.2 later
      cases x with
      | inl stat => simpa [folderAt, fileAt, apart] using below
      | inr inner => simpa [folderAt, apart] using below

theorem files_remove {t t' : Folder ν σ} {path : List ν} (removed : t.remove path = some t') :
    ∃ stat, t.files.Perm ((path, stat) :: t'.files) := by
  induction t generalizing t' path with
  | empty => cases removed
  | file name stat rest ih =>
    unfold remove at removed
    split at removed
    next here =>
      obtain rfl := Option.some.inj removed
      exact ⟨stat, by simp [files, here]⟩
    next =>
      obtain ⟨rest', below, rfl⟩ := Option.map_eq_some_iff.mp removed
      obtain ⟨found, perm⟩ := ih below
      exact ⟨found, (perm.cons _).trans (List.Perm.swap ..)⟩
  | folder name inner rest inner_ih rest_ih =>
    cases path with
    | nil => cases removed
    | cons first below =>
      simp only [remove, Option.orElse_eq_orElse, Option.orElse_eq_or, Option.or_eq_some_iff] at removed
      rcases removed with inside | ⟨-, later⟩
      · split at inside
        next here =>
          obtain ⟨inner', within, rfl⟩ := Option.map_eq_some_iff.mp inside
          obtain ⟨found, perm⟩ := inner_ih within
          subst here
          exact ⟨found, (perm.map _).append_right _⟩
        next => cases inside
      · obtain ⟨rest', below, rfl⟩ := Option.map_eq_some_iff.mp later
        obtain ⟨found, perm⟩ := rest_ih below
        exact ⟨found, (perm.append_left _).trans List.perm_middle⟩

end Lookup

/-- A listing in any order is the names of the entries in that order. -/
theorem entries_of_names {t : Folder ν σ} {ns : List ν} (order : ns.Perm t.names) :
    ∃ es : List (ν × Item ν σ), ns = es.map Prod.fst ∧ es.Perm t.entries := by
  have named : List.Forall₂ (fun name e => name = Prod.fst e) t.names t.entries := by
    rw [names, List.forall₂_map_left_iff]
    exact List.forall₂_same.mpr fun _ _ => rfl
  obtain ⟨es, aligned, perm⟩ := List.perm_comp_forall₂ order named
  have same : ns = es.map Prod.fst := by
    rw [← List.forall₂_eq_eq_eq, List.forall₂_map_right_iff]
    exact aligned
  exact ⟨es, same, perm⟩

/-- A directory that a walk has still to read, with its path. -/
abbrev Pending (ν σ : Type) := List (List ν × Folder ν σ)

def Pending.files (stack : Pending ν σ) : List (List ν × σ) :=
  stack.flatMap fun d => d.2.files.map fun x => (d.1 ++ x.1, x.2)

def Pending.folders (stack : Pending ν σ) : Nat := (stack.map fun d => d.2.folders).sum

/-- The file an entry of the directory is, with its path. -/
def fileOf (path : List ν) : ν × Item ν σ → Option (List ν × σ)
  | (name, .inl stat) => some (path ++ [name], stat)
  | (_, .inr _) => none

/-- The directory an entry of the directory is, with its path. -/
def folderOf (path : List ν) : ν × Item ν σ → Option (List ν × Folder ν σ)
  | (_, .inl _) => none
  | (name, .inr inner) => some (path ++ [name], inner)

theorem files_entries (t : Folder ν σ) (path : List ν) :
    (t.files.map fun x => (path ++ x.1, x.2)).Perm
      (t.entries.filterMap (fileOf path) ++ Pending.files (t.entries.filterMap (folderOf path))) := by
  induction t with
  | empty => exact List.Perm.refl _
  | file name stat rest ih => exact ih.cons _
  | folder name inner rest _ ih =>
    simp only [files, entries, List.map_append, List.map_map, List.filterMap_cons, fileOf, folderOf,
      Pending.files, List.flatMap_cons]
    have own : (inner.files.map ((fun x => (path ++ x.1, x.2)) ∘ fun x => (name :: x.1, x.2))) =
        inner.files.map fun x => (path ++ [name] ++ x.1, x.2) := by
      simp [Function.comp_def]
    rw [own]
    refine (ih.append_left _).trans ?_
    rw [← List.append_assoc, ← List.append_assoc]
    exact List.perm_append_comm.append_right _

theorem folders_entries (t : Folder ν σ) (path : List ν) :
    t.folders = 1 + Pending.folders (t.entries.filterMap (folderOf path)) := by
  induction t with
  | empty => rfl
  | file name stat rest ih => exact ih
  | folder name inner rest _ ih =>
    simp only [folders, ih, entries, List.filterMap_cons, folderOf, Pending.folders, List.map_cons,
      List.sum_cons]
    omega

theorem Pending.files_append (stack more : Pending ν σ) :
    Pending.files (stack ++ more) = stack.files ++ more.files := List.flatMap_append

theorem Pending.folders_append (stack more : Pending ν σ) :
    Pending.folders (stack ++ more) = stack.folders + more.folders := by
  simp [Pending.folders]

/-- Reading a directory, in whatever order, turns its share of what is left into its own files
and the directories that join the stack. -/
theorem files_visit {t : Folder ν σ} {es : List (ν × Item ν σ)} (order : es.Perm t.entries)
    (path : List ν) (stack : Pending ν σ) :
    (es.filterMap (fileOf path) ++
      Pending.files ((es.filterMap (folderOf path)).reverse ++ stack)).Perm
      (Pending.files ((path, t) :: stack)) := by
  have own : (es.filterMap (fileOf path)).Perm (t.entries.filterMap (fileOf path)) :=
    order.filterMap _
  have below : Pending.files (es.filterMap (folderOf path)).reverse |>.Perm
      (Pending.files (t.entries.filterMap (folderOf path))) :=
    ((List.reverse_perm _).trans (order.filterMap _)).flatMap_right _
  have whole : Pending.files ((path, t) :: stack) =
      (t.files.map fun x => (path ++ x.1, x.2)) ++ Pending.files stack := rfl
  rw [Pending.files_append, whole, ← List.append_assoc]
  exact ((own.append below).trans (files_entries t path).symm).append_right _

theorem folders_visit {t : Folder ν σ} {es : List (ν × Item ν σ)} (order : es.Perm t.entries)
    (path : List ν) (stack : Pending ν σ) :
    Pending.folders ((es.filterMap (folderOf path)).reverse ++ stack) + 1 =
      Pending.folders ((path, t) :: stack) := by
  have below : Pending.folders (es.filterMap (folderOf path)).reverse =
      Pending.folders (t.entries.filterMap (folderOf path)) :=
    (((List.reverse_perm _).trans (order.filterMap _)).map _).sum_nat
  have whole : Pending.folders ((path, t) :: stack) = t.folders + Pending.folders stack := rfl
  rw [Pending.folders_append, below, whole, folders_entries t path]
  omega

end Folder

end Lib
