import Fvfs.Lib.UnixPath
import Fvfs.Path

/-! `LocalDiskBackend`: where a virtual path lies on the host's file system, and that
the tree under the root holds every path the constructors hand out, each in its own place. -/
namespace Fvfs

open Lib.UnixPath (Component components)

/-- The HTTP handlers' `parse_path`. -/
def parsePath (raw : Text) : Except FvfsError FvfsPath :=
  FvfsPath.new ('/' :: raw.dropWhile (· == '/'))

namespace LocalDiskBackend

def fsPath (root : Text) (p : FvfsPath) : Text :=
  Lib.UnixPath.join root (p.text.dropWhile (· == '/'))

/-- The directory `put` creates before it opens the file. -/
def putDirectory (root : Text) (p : FvfsPath) : Option (List Component) :=
  Lib.UnixPath.parent (components (fsPath root p))

end LocalDiskBackend

namespace FvfsPath

/-- A path some constructor returned for some string. -/
inductive Accepted : FvfsPath → Prop
  | parsed (raw : Text) (accepted : parsePath raw = .ok p) : Accepted p
  | built (raw : Text) (accepted : new raw = .ok p) : Accepted p
  | joined (base : FvfsPath) (segment : Text) (accepted : base.join segment = .ok p) : Accepted p

theorem Accepted.canonical {p : FvfsPath} (accepted : Accepted p) : p.Canonical := by
  cases accepted with
  | parsed raw built => exact new_canonical built
  | built raw built => exact new_canonical built
  | joined base segment built => exact join_canonical built

theorem Segment.plain {part : Text} (segment : Segment part) : Lib.UnixPath.Plain part :=
  ⟨segment.nonempty, segment.not_dot, segment.not_dots, segment.no_slash⟩

/-- The text handed to the join: the segments without the leading slash. -/
theorem trim_render {segments : List Text} (valid : ∀ part ∈ segments, Segment part) :
    (render segments).dropWhile (· == '/') = Lib.UnixPath.text segments := by
  have head := Lib.UnixPath.head_text fun part member => (valid part member).plain
  unfold render
  split
  next top =>
    subst top
    rfl
  next =>
    rw [List.dropWhile_cons_of_pos (by simp)]
    change (Lib.UnixPath.text segments).dropWhile (· == '/') = _
    revert head
    cases Lib.UnixPath.text segments with
    | nil => simp
    | cons c rest =>
      intro head
      have not_slash : c ≠ '/' := by simpa using head
      simp [not_slash]

end FvfsPath

namespace LocalDiskBackend

open FvfsPath (Accepted Segment render)

theorem components_fsPath (root : Text) {segments : List Text}
    (valid : ∀ part ∈ segments, Segment part) :
    components (fsPath root ⟨render segments⟩) = components root ++ segments.map .normal := by
  unfold fsPath
  rw [FvfsPath.trim_render valid]
  exact Lib.UnixPath.components_join root fun part member => (valid part member).plain

/-- Where the backend puts, gets and deletes a path: at the root or below it. -/
structure Contained (root : Text) (p : FvfsPath) (segments : List Text) : Prop where
  segments_valid : ∀ part ∈ segments, Segment part
  at_root : components (fsPath root p) = components root ++ segments.map .normal
  directory : segments ≠ [] →
    putDirectory root p = some (components root ++ segments.dropLast.map .normal)

theorem contained_of_canonical (root : Text) {p : FvfsPath} (canonical : p.Canonical) :
    ∃ segments, p.text = render segments ∧ Contained root p segments := by
  obtain ⟨segments, valid, text⟩ := canonical
  have place : components (fsPath root p) = components root ++ segments.map .normal := by
    obtain rfl : p = ⟨render segments⟩ := FvfsPath.ext text
    exact components_fsPath root valid
  refine ⟨segments, text, valid, place, fun some_segment => ?_⟩
  obtain ⟨front, last, rfl⟩ := (List.eq_nil_or_concat' segments).resolve_left some_segment
  unfold putDirectory
  rw [place, List.map_append, ← List.append_assoc, List.dropLast_concat]
  exact Lib.UnixPath.parent_snoc _ last

/-- Each accepted path has its own place at or below the root, whatever the root is. -/
theorem fsPath_contained (root : Text) :
    (∀ p, Accepted p → ∃ segments, Contained root p segments) ∧
    ∀ p q, Accepted p → Accepted q →
      components (fsPath root p) = components (fsPath root q) → p = q := by
  constructor
  · intro p accepted
    obtain ⟨segments, _, contained⟩ := contained_of_canonical root accepted.canonical
    exact ⟨segments, contained⟩
  · intro p q accepted also same
    obtain ⟨segments, text, contained⟩ := contained_of_canonical root accepted.canonical
    obtain ⟨others, text', contained'⟩ := contained_of_canonical root also.canonical
    rw [contained.at_root, contained'.at_root] at same
    have names := List.append_cancel_left same
    have injective : Function.Injective Component.normal := fun a b => Component.normal.inj
    rw [List.map_injective_iff.mpr injective names] at text
    exact FvfsPath.ext (text.trans text'.symm)

/-- A request for `../../etc/./passwd` stays below the root, apart from any other file. -/
theorem traversal_contained :
    (∃ segments, Contained "/srv/fvfs/".toList ⟨"/etc/passwd".toList⟩ segments) ∧
    components (fsPath "/srv/fvfs/".toList ⟨"/etc/passwd".toList⟩) ≠
      components (fsPath "/srv/fvfs/".toList ⟨"/etc\\passwd".toList⟩) := by
  have climbs : Accepted ⟨"/etc/passwd".toList⟩ := .parsed "../../etc/./passwd".toList (by decide)
  have other : Accepted ⟨"/etc\\passwd".toList⟩ := .joined .root "etc\\passwd".toList (by decide)
  obtain ⟨contained, injective⟩ := fsPath_contained "/srv/fvfs/".toList
  exact ⟨contained _ climbs, fun same => absurd (injective _ _ climbs other same) (by decide)⟩

end LocalDiskBackend

end Fvfs
