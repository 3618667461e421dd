import Fvfs.FuseMount

/-! What the kernel is promised of the daemon's own mount: a volume, and numbers for its paths. -/
namespace Fvfs

open Lib

/-- The attributes of an item. -/
structure FileAttr.Of (attr : FileAttr) (item : Item) : Prop where
  size : attr.size = item.size
  kind : attr.kind = item.kind
  perm : attr.perm = if item.isDir then 0o755 else 0o644

/-- The bytes a write splices into. -/
def Volume.content (v : Volume) (p : FvfsPath) : Bytes := (v.files p).getD []

/-- The numbers of paths, and the paths of numbers. -/
abbrev Numbers := Naming UInt64 FvfsPath

/-- Numbers are given to some of these paths, and no path loses its own. -/
structure Numbered (paths : FvfsPath → Prop) (n n' : Numbers) : Prop where
  kept : ∀ p i, n.name p = some i → n'.name p = some i
  named : ∀ p i, n'.name p = some i → n.name p = some i ∨ paths p
  meant : ∀ i, n'.object i = n.object i ∨ ∃ p, paths p ∧ n'.object i = some p

/-- The volume behind a mount, and the numbers the kernel knows its paths by. -/
structure Mounted where
  volume : Volume
  numbers : Numbers

/-- A record tells of its entry as it is. -/
def DirRecord.Tells (record : DirRecord) (ino : UInt64) (s : Mounted) : Prop :=
  match record.item with
  | .self => record.ino = ino ∧ record.kind = .directory ∧ record.name = ".".toList
  | .parent => record.ino = rootIno ∧ record.kind = .directory ∧ record.name = "..".toList
  | .entry p => s.numbers.name p = some record.ino ∧ record.name = p.fileName ∧
    ∃ item, s.volume p = some item ∧ record.kind = item.kind

namespace Kernel

section Replies

variable (s s' : Mounted)

/-- Attributes come with the number of their path; a new number is one for that path. -/
def Entry (p : FvfsPath) (item : Item) (r : Replied FileAttr) (after : Volume) : Prop :=
  ∃ attr, r = .ok attr ∧ attr.Of item ∧ s'.volume = after ∧
    Numbered (· = p) s.numbers s'.numbers ∧ s'.numbers.name p = some attr.ino ∧
    (s.numbers.name p = none → s'.numbers.object attr.ino = some p)

def Found (p : FvfsPath) (r : Replied FileAttr) : Option Item → Prop
  | none => r = .error .enoent ∧ s' = s
  | some item => Entry s s' p item r s.volume

end Replies

end Kernel

section Table

variable {t : InodeTable} {p : FvfsPath}

theorem numbered_refl (paths : FvfsPath → Prop) (n : Numbers) : Numbered paths n n :=
  ⟨fun _ _ known => known, fun _ _ known => Or.inl known, fun _ => Or.inl rfl⟩

theorem Numbered.trans {some_paths more : FvfsPath → Prop} {n n' n'' : Numbers}
    (first : Numbered some_paths n n') (rest : Numbered more n' n'')
    (among : ∀ p, some_paths p → more p) : Numbered more n n'' := by
  refine ⟨fun p i known => rest.kept p i (first.kept p i known), fun p i known => ?_, fun i => ?_⟩
  · rcases rest.named p i known with earlier | member
    · exact (first.named p i earlier).imp_right (among p)
    · exact Or.inr member
  rcases rest.meant i with same | given
  · rw [same]
    exact (first.meant i).imp_right fun ⟨p, member, given⟩ => ⟨p, among p member, given⟩
  · exact Or.inr given

theorem Numbered.mono {paths more : FvfsPath → Prop} {n n' : Numbers}
    (numbered : Numbered paths n n') (among : ∀ p, paths p → more p) : Numbered more n n' :=
  numbered.trans (numbered_refl more n') among

end Table

section Listing

variable {offset : Int}

end Listing

end Fvfs
