import Fvfs.Lib.DirTree
import Fvfs.Lib.Prog
import Fvfs.LocalDisk
import Fvfs.System

/-! `LocalDiskBackend` over single calls to the host's file system, any of which may fail and
leave its work half done. -/
namespace Fvfs

open Lib
open Lib.UnixPath (Component components)
open Function (update)

/-- The kind of an error is asked for only where it is `NotFound`. -/
inductive IoError where
  | notFound (message : Text)
  | other (message : Text)

def IoError.message : IoError → Text
  | notFound message => message
  | other message => message

/-- The handle of a created file stands for its path. -/
inductive HostCall where
  | createDirAll (dir : List Component)
  | create (path : List Component)
  | writeAll (path : List Component) (data : Bytes)
  | flush (path : List Component)
  | read (path : List Component)
  | removeFile (path : List Component)

@[reducible] def HostCall.Res : HostCall → Type
  | read _ => Except IoError Bytes
  | createDirAll _ => Except IoError Unit
  | create _ => Except IoError Unit
  | writeAll _ _ => Except IoError Unit
  | flush _ => Except IoError Unit
  | removeFile _ => Except IoError Unit

abbrev HostCalls : Interface := ⟨HostCall, HostCall.Res⟩

/-- Whether the environment makes a call fail, and how far the call has got then. -/
structure HostChance where
  fault : Option IoError
  reached : Nat

def HostChance.Reliable (c : HostChance) : Prop := c.fault = none

namespace Host

abbrev Tree := DirTree Component Bytes

def noEntry : IoError := .notFound "No such file or directory (os error 2)".toList
def notADirectory : IoError := .other "Not a directory (os error 20)".toList
def isADirectory : IoError := .other "Is a directory (os error 21)".toList

/-- Why there is no file at a path. -/
def missing (t : Tree) (path : List Component) : IoError :=
  match t.entry path with
  | some _ => isADirectory
  | none => if t.Blocked path then notADirectory else noEntry

def createDirAll (t : Tree) (dir : List Component) : Except IoError Unit × Tree :=
  if blocked : t.Blocked dir then (.error notADirectory, t) else (.ok (), t.mkdirs dir blocked)

/-- An existing file is emptied. -/
def create (t : Tree) (path : List Component) : Except IoError Unit × Tree :=
  match path.getLast? with
  | none => (.error noEntry, t)
  | some name =>
    if plain : t.entry (path.dropLast ++ [name]) ≠ some .dir then
      if inside : t.entry path.dropLast = some .dir then
        (.ok (), t.setFile path.dropLast name inside plain [])
      else (.error (missing t path), t)
    else (.error isADirectory, t)

def removeFile (t : Tree) (path : List Component) : Except IoError Unit × Tree :=
  if file : (t.content path).isSome then (.ok (), t.remove path file)
  else (.error (missing t path), t)

/-- What was written last may be lost with a flush that fails. -/
def respond : Handler HostCalls Tree HostChance
  | .createDirAll dir, c, t =>
    match c.fault with
    | none => createDirAll t dir
    | some e => (.error e, (createDirAll t (dir.take c.reached)).2)
  | .create path, c, t =>
    match c.fault with
    | none => create t path
    | some e => (.error e, t)
  | .writeAll path data, c, t =>
    match c.fault with
    | none => (.ok (), t.modify path (· ++ data))
    | some e => (.error e, t.modify path (· ++ data.take c.reached))
  | .flush path, c, t =>
    match c.fault with
    | none => (.ok (), t)
    | some e => (.error e, t.modify path (·.take c.reached))
  | .read path, c, t =>
    match c.fault, t.content path with
    | some e, _ => (.error e, t)
    | none, some data => (.ok data, t)
    | none, none => (.error (missing t path), t)
  | .removeFile path, c, t =>
    match c.fault with
    | none => removeFile t path
    | some e => (.error e, t)

end Host

namespace LocalDiskBackend

abbrev HostTask (α : Type) := Prog HostCalls FvfsError α

/-- `?` on the outcome of a call. -/
def propagate (r : Except IoError α) : HostTask α := .lift (r.mapError fun e => .io e.message)

/-- An error about a path that is not there names the path. -/
def named (p : FvfsPath) : IoError → FvfsError
  | .notFound _ => .notFound p.text
  | .other message => .io message

def put (root : Text) (p : FvfsPath) (data : Bytes) : HostTask Unit := do
  let fs_path := components (fsPath root p)
  match Lib.UnixPath.parent fs_path with
  | some parent => .call (.createDirAll parent) propagate
  | none => pure ()
  .call (.create fs_path) propagate
  .call (.writeAll fs_path data) propagate
  .call (.flush fs_path) propagate

def get (root : Text) (p : FvfsPath) : HostTask Bytes :=
  .call (.read (components (fsPath root p))) fun r => .lift (r.mapError (named p))

def delete (root : Text) (p : FvfsPath) : HostTask Unit :=
  .call (.removeFile (components (fsPath root p))) fun r => .lift (r.mapError (named p))

section Contents

variable {t : Host.Tree} {c : HostChance} {path : List Component} {data : Bytes}

theorem content_createDirAll (dir : List Component) :
    (Host.createDirAll t dir).2.content = t.content := by
  unfold Host.createDirAll
  split
  · rfl
  next clear => exact DirTree.content_mkdirs clear

theorem create_cases (path : List Component) :
    (∃ made, Host.create t path = (.ok (), made) ∧
      made.content = update t.content path (some [])) ∨
    ∃ e, Host.create t path = (.error e, t) := by
  unfold Host.create
  cases last : path.getLast? with
  | none => exact Or.inr ⟨_, rfl⟩
  | some name =>
    have whole : path.dropLast ++ [name] = path := List.dropLast_append_getLast? name last
    dsimp only
    split
    · split
      · refine Or.inl ⟨_, rfl, ?_⟩
        rw [DirTree.content_setFile, whole]
      · exact Or.inr ⟨_, rfl⟩
    · exact Or.inr ⟨_, rfl⟩

theorem respond_createDirAll (dir : List Component) :
    (Host.respond (.createDirAll dir) c t).2.content = t.content := by
  simp only [Host.respond]
  split
  · exact content_createDirAll dir
  · exact content_createDirAll _

theorem respond_create (path : List Component) :
    (∃ made, Host.respond (.create path) c t = (.ok (), made) ∧
      made.content = update t.content path (some [])) ∨
    ∃ e, Host.respond (.create path) c t = (.error e, t) := by
  simp only [Host.respond]
  split
  · exact create_cases path
  · exact Or.inr ⟨_, rfl⟩

/-- A new file is written whole, or up to some point where the write fails. -/
theorem respond_writeAll (file : t.content path = some []) (data : Bytes) :
    (∃ written, Host.respond (.writeAll path data) c t = (.ok (), written) ∧
      written.content = update t.content path (some data)) ∨
    ∃ e n written, Host.respond (.writeAll path data) c t = (.error e, written) ∧
      written.content = update t.content path (some (data.take n)) := by
  simp only [Host.respond]
  split
  · refine Or.inl ⟨_, rfl, ?_⟩
    rw [DirTree.content_modify, file, Option.map_some, List.nil_append]
  · refine Or.inr ⟨_, c.reached, _, rfl, ?_⟩
    rw [DirTree.content_modify, file, Option.map_some, List.nil_append]

theorem respond_flush (file : t.content path = some data) :
    Host.respond (.flush path) c t = (.ok (), t) ∨
    ∃ e n flushed, Host.respond (.flush path) c t = (.error e, flushed) ∧
      flushed.content = update t.content path (some (data.take n)) := by
  simp only [Host.respond]
  split
  · exact Or.inl rfl
  · refine Or.inr ⟨_, c.reached, _, rfl, ?_⟩
    rw [DirTree.content_modify, file, Option.map_some]

end Contents

/-- A put stores the bytes, or it fails and stores nothing or their beginning. -/
def PutOutcome (t : Host.Tree) (path : List Component) (data : Bytes) (r : Outcome Unit)
    (t' : Host.Tree) : Prop :=
  (r = .ok () ∧ t'.content = update t.content path (some data)) ∨
  ∃ e, r = .error e ∧ (t'.content = t.content ∨
    ∃ n, t'.content = update t.content path (some (data.take n)))

theorem wp_put (root : Text) (p : FvfsPath) (data : Bytes) (t : Host.Tree) :
    (put root p data).wp Host.respond (fun _ => True)
      (PutOutcome t (components (fsPath root p)) data) t := by
  unfold put
  generalize components (fsPath root p) = path
  -- From the creation of the file on.
  have written (u : Host.Tree) (same : u.content = t.content) :
      Prog.wp Host.respond (fun _ => True) (do
        .call (.create path) propagate
        .call (.writeAll path data) propagate
        .call (.flush path) propagate : HostTask Unit) (PutOutcome t path data) u := by
    intro c _
    rcases @respond_create u c path with ⟨made, eq, content⟩ | ⟨e, eq⟩
    · rw [eq]
      intro c' _
      have file : made.content path = some [] := by rw [content, Function.update_self]
      rcases @respond_writeAll made c' path file data with
        ⟨full, eq, content'⟩ | ⟨e, n, torn, eq, content'⟩
      · rw [eq]
        intro c'' _
        have file' : full.content path = some data := by rw [content', Function.update_self]
        rcases @respond_flush full c'' path data file' with eq | ⟨e, n, torn, eq, content''⟩
        · rw [eq]
          refine Or.inl ⟨rfl, ?_⟩
          rw [content', content, same, Function.update_idem]
        · rw [eq]
          refine Or.inr ⟨_, rfl, Or.inr ⟨n, ?_⟩⟩
          rw [content'', content', content, same, Function.update_idem, Function.update_idem]
      · rw [eq]
        refine Or.inr ⟨_, rfl, Or.inr ⟨n, ?_⟩⟩
        rw [content', content, same, Function.update_idem]
    · rw [eq]
      exact Or.inr ⟨_, rfl, Or.inl same⟩
  dsimp only
  cases Lib.UnixPath.parent path with
  | none => exact written t rfl
  | some parent =>
    intro c _
    have same := @respond_createDirAll t c parent
    cases made : (Host.respond (.createDirAll parent) c t).1 with
    | ok => exact written _ same
    | error e => exact Or.inr ⟨_, rfl, Or.inl same⟩

section Exec

variable {env : Nat → HostChance} {t : Host.Tree}

/-- What is there is read, unless the host fails. -/
theorem exec_get (root : Text) (p : FvfsPath) :
    (∃ data, t.content (components (fsPath root p)) = some data ∧
      (get root p).exec Host.respond env t = (.ok data, t)) ∨
    ∃ e, (¬(env 0).Reliable ∨ t.content (components (fsPath root p)) = none) ∧
      (get root p).exec Host.respond env t = (.error e, t) := by
  simp only [get, Prog.exec, Host.respond, HostChance.Reliable]
  generalize components (fsPath root p) = path
  cases (env 0).fault with
  | some e => exact Or.inr ⟨_, Or.inl (by simp), rfl⟩
  | none =>
    cases there : t.content path with
    | none => exact Or.inr ⟨_, Or.inr rfl, rfl⟩
    | some data => exact Or.inl ⟨data, rfl, rfl⟩

/-- What is there is removed, unless the host fails. -/
theorem exec_delete (root : Text) (p : FvfsPath) :
    (∃ file, (delete root p).exec Host.respond env t =
      (.ok (), t.remove (components (fsPath root p)) file)) ∨
    ∃ e, (¬(env 0).Reliable ∨ t.content (components (fsPath root p)) = none) ∧
      (delete root p).exec Host.respond env t = (.error e, t) := by
  simp only [delete, Prog.exec, Host.respond, HostChance.Reliable, Host.removeFile]
  generalize components (fsPath root p) = path
  cases (env 0).fault with
  | some e => exact Or.inr ⟨_, Or.inl (by simp), rfl⟩
  | none =>
    by_cases file : (t.content path).isSome
    · exact Or.inl ⟨file, by simp only [file, dif_pos]; rfl⟩
    · exact Or.inr ⟨_, Or.inr (by simpa using file), by simp only [file]; rfl⟩

theorem createDirAll_clear {dir : List Component} (clear : ¬t.Blocked dir) :
    Host.createDirAll t dir = (.ok (), t.mkdirs dir clear) := dif_neg clear

theorem create_inside {dir : List Component} {name : Component}
    (inside : t.entry dir = some .dir) (plain : t.entry (dir ++ [name]) ≠ some .dir) :
    Host.create t (dir ++ [name]) = (.ok (), t.setFile dir name inside plain []) := by
  simp [Host.create, inside, plain]

/-- Where no file is in the way and no directory in the place, the file is stored. -/
theorem exec_put (reliable : ∀ i, (env i).Reliable) {root : Text} {p : FvfsPath} (data : Bytes)
    {dir : List Component} {name : Component} (place : components (fsPath root p) = dir ++ [name])
    (above : putDirectory root p = some dir) (clear : ¬t.Blocked dir)
    (plain : t.entry (dir ++ [name]) ≠ some .dir) :
    ∃ t', (put root p data).exec Host.respond env t = (.ok (), t') ∧
      t'.entry = update (t.mkdirs dir clear).entry (dir ++ [name]) (some (.file data)) := by
  have fault (i : Nat) : (env i).fault = none := reliable i
  have inside := DirTree.entry_mkdirs_self clear
  have deeper : ¬dir ++ [name] <+: dir := fun begins => absurd begins.length_le (by simp)
  have plain' : (t.mkdirs dir clear).entry (dir ++ [name]) ≠ some .dir := by
    simpa [DirTree.mkdirs, deeper] using plain
  refine ⟨((t.mkdirs dir clear).setFile dir name inside plain' []).modify (dir ++ [name]) (· ++ data),
    ?_, ?_⟩
  · have parent : Lib.UnixPath.parent (dir ++ [name]) = some dir := by
      rw [← place]
      exact above
    unfold put
    dsimp only
    rw [place, parent]
    simp [Prog.exec, Host.respond, fault, createDirAll_clear clear, create_inside inside plain',
      propagate, Except.mapError]
  · funext q
    by_cases here : q = dir ++ [name]
    · simp [DirTree.modify, DirTree.setFile, here]
    · simp only [DirTree.modify, DirTree.setFile, Function.update_of_ne here, here, if_false]
      cases (t.mkdirs dir clear).entry q with
      | none => rfl
      | some e => cases e <;> rfl

end Exec

end LocalDiskBackend

end Fvfs
