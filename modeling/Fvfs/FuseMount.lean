import Fvfs.Readdir
import Fvfs.VolumeService

/-! `VfsdFuse`: the handlers of the daemon's own mount, over the calls they make. -/
namespace Fvfs

open Lib

inductive FuseErrno where
  | enoent | einval | eisdir | eio
  deriving DecidableEq

abbrev Replied (α : Type) := Except FuseErrno α

def blockSize : Nat := 4096

structure FileAttr where
  ino : UInt64
  size : Nat
  blocks : Nat
  atime : Int
  mtime : Int
  ctime : Int
  kind : EntryKind
  perm : Nat
  nlink : Nat
  blksize : Nat
  deriving DecidableEq

namespace FileAttr

/-- `meta_to_attr`. -/
def ofMetadata (ino : UInt64) (m : FileMetadata) : FileAttr where
  ino := ino
  size := m.sizeBytes
  blocks := (m.sizeBytes + blockSize - 1) / blockSize
  atime := m.accessedAt
  mtime := m.modifiedAt
  ctime := m.createdAt
  kind := if m.isDir then .directory else .file
  perm := if m.isDir then 0o755 else 0o644
  nlink := if m.isDir then 2 else 1
  blksize := blockSize

/-- `root_attr`, and the attributes of a directory just made. -/
def emptyDir (ino : UInt64) (now : Int) : FileAttr where
  ino := ino
  size := 0
  blocks := 0
  atime := now
  mtime := now
  ctime := now
  kind := .directory
  perm := 0o755
  nlink := 2
  blksize := blockSize

/-- The attributes of a file just created. -/
def emptyFile (ino : UInt64) (now : Int) : FileAttr :=
  { emptyDir ino now with kind := .file, perm := 0o644, nlink := 1 }

end FileAttr

/-- What the kernel calls. No name is one that is not UTF-8, and a reply to `readdir` has room
for so many records. -/
inductive FuseOp where
  | lookup (parent : UInt64) (name : Option Text)
  | getattr (ino : UInt64)
  | read (ino : UInt64) (offset : Int64) (size : UInt32)
  | write (request : VfsdFuse.WriteRequest)
  | create (parent : UInt64) (name : Option Text)
  | unlink (parent : UInt64) (name : Option Text)
  | mkdir (parent : UInt64) (name : Option Text)
  | rmdir (parent : UInt64) (name : Option Text)
  | readdir (ino : UInt64) (offset : Int) (room : Nat)
  | setattr (ino : UInt64) (size : Option UInt64)

@[reducible] def FuseOp.Res : FuseOp → Type
  | lookup _ _ => Replied FileAttr
  | getattr _ => Replied FileAttr
  | read _ _ _ => Replied Bytes
  | write _ => VfsdFuse.WriteReply
  | create _ _ => Replied FileAttr
  | unlink _ _ => Replied Unit
  | mkdir _ _ => Replied FileAttr
  | rmdir _ _ => Replied Unit
  | readdir _ _ _ => DirReply
  | setattr _ _ => Replied FileAttr

abbrev FuseOps : Interface := ⟨FuseOp, FuseOp.Res⟩

namespace FuseMount

abbrev Calls := Prog DaemonCalls Empty

/-- The path of a name in the directory with this number. -/
def child (t : InodeTable) (parent : UInt64) (name : Option Text) : Replied FvfsPath :=
  match t.path parent, name with
  | none, _ => .error .enoent
  | some _, none => .error .einval
  | some parent_path, some name_str =>
    match parent_path.join name_str with
    | .ok child_path => .ok child_path
    | .error _ => .error .einval

/-- A handler's outcome is its reply and the inode table it leaves. -/
def onChild (t : InodeTable) (parent : UInt64) (name : Option Text)
    (k : FvfsPath → Calls (Replied α × InodeTable)) : Calls (Replied α × InodeTable) :=
  match child t parent name with
  | .error errno => pure (.error errno, t)
  | .ok child_path => k child_path

def onPath (t : InodeTable) (ino : UInt64) (k : FvfsPath → Calls (Replied α × InodeTable)) :
    Calls (Replied α × InodeTable) :=
  match t.path ino with
  | none => pure (.error .enoent, t)
  | some path => k path

/-- A query that fails finds nothing. -/
def metaOpt (p : FvfsPath) : Calls (Option FileMetadata) := do
  match ← (Daemon.metaGet p).attempt with
  | .ok found => pure found
  | .error _ => pure none

def lookup (t : InodeTable) (parent : UInt64) (name : Option Text) :
    Calls (Replied FileAttr × InodeTable) :=
  onChild t parent name fun child_path => do
    match ← metaOpt child_path with
    | some found =>
      let (ino, t) := t.getOrAlloc child_path (some (UInt64.ofNat found.id + 10))
      pure (.ok (.ofMetadata ino found), t)
    | none => pure (.error .enoent, t)

def getattr (now : Int) (t : InodeTable) (ino : UInt64) : Calls (Replied FileAttr × InodeTable) :=
  if ino = rootIno then pure (.ok (.emptyDir rootIno now), t)
  else
    onPath t ino fun path => do
      match ← metaOpt path with
      | some found => pure (.ok (.ofMetadata ino found), t)
      | none => pure (.error .enoent, t)

/-- `&data[start..end]`. -/
def slice (offset : Int64) (size : UInt32) (data : Bytes) : Bytes :=
  let start := min offset.toUInt64.toNat data.length
  let stop := min (start + size.toNat) data.length
  (data.take stop).drop start

def readErrno : FvfsError → FuseErrno
  | .notFound _ => .enoent
  | .isADirectory _ => .eisdir
  | _ => .eio

def read (t : InodeTable) (ino : UInt64) (offset : Int64) (size : UInt32) :
    Calls (Replied Bytes × InodeTable) :=
  onPath t ino fun path => do
    match ← (Daemon.read path).attempt with
    | .ok data => pure (.ok (slice offset size data), t)
    | .error e => pure (.error (readErrno e), t)

def write (t : InodeTable) (request : VfsdFuse.WriteRequest) :
    Calls (VfsdFuse.WriteReply × InodeTable) := do
  let reply ← VfsdFuse.write Daemon.read Daemon.write t request
  pure (reply, t)

def create (now : Int) (t : InodeTable) (parent : UInt64) (name : Option Text) :
    Calls (Replied FileAttr × InodeTable) :=
  onChild t parent name fun child_path => do
    match ← (Daemon.write child_path []).attempt with
    | .ok () =>
      let (ino, t) := t.getOrAlloc child_path none
      pure (.ok (.emptyFile ino now), t)
    | .error _ => pure (.error .eio, t)

def unlink (t : InodeTable) (parent : UInt64) (name : Option Text) :
    Calls (Replied Unit × InodeTable) :=
  onChild t parent name fun child_path => do
    match ← (Daemon.delete child_path).attempt with
    | .ok () => pure (.ok (), t.remove child_path)
    | .error (.notFound _) => pure (.error .enoent, t)
    | .error _ => pure (.error .eio, t)

def mkdir (now : Int) (t : InodeTable) (parent : UInt64) (name : Option Text) :
    Calls (Replied FileAttr × InodeTable) :=
  onChild t parent name fun child_path => do
    match ← (Daemon.mkdir child_path).attempt with
    | .ok () =>
      let (ino, t) := t.getOrAlloc child_path none
      pure (.ok (.emptyDir ino now), t)
    | .error _ => pure (.error .eio, t)

def rmdir (t : InodeTable) (parent : UInt64) (name : Option Text) :
    Calls (Replied Unit × InodeTable) :=
  unlink t parent name

def readdir (t : InodeTable) (ino : UInt64) (offset : Int) (room : Nat) :
    Calls (DirReply × InodeTable) :=
  match t.path ino with
  | none => pure (.error .enoent, t)
  | some dir_path => do
    match ← (Daemon.list dir_path).attempt with
    | .error _ => pure (.error .eio, t)
    | .ok entries =>
      let (records, t) := addAll (fun t p => t.getOrAlloc p none) offset ino entries room t
      pure (.records records, t)

/-- Only truncation to nothing is done; that it fails is not reported. -/
def setattr (now : Int) (t : InodeTable) (ino : UInt64) (size : Option UInt64) :
    Calls (Replied FileAttr × InodeTable) :=
  match size with
  | none => getattr now t ino
  | some new_size =>
    onPath t ino fun path => do
      if new_size = 0 then
        let _ ← (Daemon.write path []).attempt
        getattr now t ino
      else getattr now t ino

def handle (now : Int) (t : InodeTable) : (op : FuseOp) → Calls (op.Res × InodeTable)
  | .lookup parent name => lookup t parent name
  | .getattr ino => getattr now t ino
  | .read ino offset size => read t ino offset size
  | .write request => write t request
  | .create parent name => create now t parent name
  | .unlink parent name => unlink t parent name
  | .mkdir parent name => mkdir now t parent name
  | .rmdir parent name => rmdir t parent name
  | .readdir ino offset room => readdir t ino offset room
  | .setattr ino size => setattr now t ino size

/-- The daemon mounted: each call of the kernel has the moments of the calls it makes, and a
time. -/
def serve (roots : DiskRoots) (sha256 : Bytes → Text) :
    Handler FuseOps (DiskWorld × InodeTable) ((Nat → Moment) × Int)
  | op, (env, now), (d, t) =>
    let served := (handle now t op).exec (daemon roots sha256) env d
    ((Prog.sure served.1).1, (served.2, (Prog.sure served.1).2))

end FuseMount

end Fvfs
