import Fvfs.Lib.Table
import Fvfs.Types
import Mathlib.Data.List.Sort

/-! The SQLite metadata store: the `files` and `wal_pending` tables of one connection,
with the constraints of the schema as fields, and the statements of `MetadataStore`.
Every method runs under the connection mutex, so each is one atomic step. -/
namespace Fvfs

open Lib

/-- Columns of `files` other than the row id. -/
structure FileRow where
  path : Text
  sizeBytes : Nat
  sha256 : Text
  tierBitmask : TierBitmask
  createdAt : Int
  modifiedAt : Int
  accessedAt : Int
  accessCount30d : Nat
  mimeType : Option Text
  isDir : Bool
  deriving DecidableEq

/-- Columns of `wal_pending` other than the row id. -/
structure WalRow where
  fileId : Nat
  op : WalOp
  enqueuedAt : Int
  attempts : Nat
  lastError : Option Text
  deriving DecidableEq

/-- `path` is UNIQUE and `file_id` REFERENCES `files`; `last_insert_rowid` belongs to
the connection and is shared by both tables. -/
structure Store where
  files : Table FileRow
  wal : Table WalRow
  lastInsertRowid : Nat
  paths_unique : ∀ i j r s, files.get? i = some r → files.get? j = some s → r.path = s.path → i = j
  wal_refs : ∀ e w, wal.get? e = some w → (files.get? w.fileId).isSome

namespace Store

def empty : Store := ⟨.empty, .empty, 0, by simp, by simp⟩

/-- The same database on a new connection. -/
def reopen (s : Store) : Store := { s with lastInsertRowid := 0 }

/-- `WHERE path = ?1`. -/
def fileAt (s : Store) (p : FvfsPath) : Option (Nat × FileRow) :=
  s.files.findRow (fun r => r.path == p.text)

theorem fileAt_eq_some_iff {s : Store} {p : FvfsPath} {i : Nat} {r : FileRow} :
    s.fileAt p = some (i, r) ↔ s.files.get? i = some r ∧ r.path = p.text := by
  unfold fileAt
  rw [Table.findRow_eq_some_iff]
  · simp
  · intro i j r t hr ht same other
    simp only [beq_iff_eq] at same other
    exact s.paths_unique i j r t hr ht (same.trans other.symm)

theorem fileAt_eq_none_iff {s : Store} {p : FvfsPath} :
    s.fileAt p = none ↔ ∀ i r, s.files.get? i = some r → r.path ≠ p.text := by
  simp [fileAt, Table.findRow_eq_none_iff]

theorem fileAt_congr {s t : Store} {p : FvfsPath}
    (same : ∀ i r, r.path = p.text → (s.files.get? i = some r ↔ t.files.get? i = some r)) :
    s.fileAt p = t.fileAt p := by
  apply Option.ext
  rintro ⟨i, r⟩
  rw [fileAt_eq_some_iff, fileAt_eq_some_iff]
  constructor
  · rintro ⟨found, path⟩
    exact ⟨(same i r path).mp found, path⟩
  · rintro ⟨found, path⟩
    exact ⟨(same i r path).mpr found, path⟩

def rowToMetadata (id : Nat) (r : FileRow) : FileMetadata where
  id := id
  path := match FvfsPath.new r.path with | .ok p => p | .error _ => .root
  kind := if r.isDir then .directory else .file
  sizeBytes := r.sizeBytes
  sha256 := r.sha256
  tierBitmask := r.tierBitmask
  createdAt := r.createdAt
  modifiedAt := r.modifiedAt
  accessedAt := r.accessedAt
  accessCount30d := r.accessCount30d % 2 ^ 32
  mimeType := r.mimeType

theorem rowToMetadata_path {id : Nat} {r : FileRow} {p : FvfsPath} (canonical : p.Canonical)
    (path : r.path = p.text) : (rowToMetadata id r).path = p := by
  simp [rowToMetadata, path, FvfsPath.new_of_canonical canonical]

@[simp] theorem rowToMetadata_isDir (id : Nat) (r : FileRow) :
    (rowToMetadata id r).isDir = r.isDir := by
  cases dir : r.isDir <;> simp [rowToMetadata, FileMetadata.isDir, dir]

def get (s : Store) (p : FvfsPath) : Option FileMetadata :=
  (s.fileAt p).map fun x => rowToMetadata x.1 x.2

def getById (s : Store) (id : Nat) : Option FileMetadata :=
  (s.files.get? id).map (rowToMetadata id)

/-- `UPDATE files SET … WHERE id = ?`, for an update that leaves the path alone. -/
def updateFile (s : Store) (id : Nat) (f : FileRow → FileRow) (keeps : ∀ r, (f r).path = r.path) :
    Store :=
  { s with
    files := s.files.modify id f
    paths_unique := by
      intro i j r t hr ht same
      have path (k : Nat) (x : FileRow) (hx : (s.files.modify id f).get? k = some x) :
          ∃ y, s.files.get? k = some y ∧ y.path = x.path := by
        rw [Table.get?_modify] at hx
        split at hx
        · obtain ⟨y, hy, rfl⟩ := Option.map_eq_some_iff.mp hx
          exact ⟨y, hy, (keeps y).symm⟩
        · exact ⟨x, hx, rfl⟩
      obtain ⟨y, hy, py⟩ := path i r hr
      obtain ⟨z, hz, pz⟩ := path j t ht
      exact s.paths_unique i j y z hy hz (by rw [py, pz, same])
    wal_refs := by
      intro e w found
      have := s.wal_refs e w found
      rw [Table.isSome_get?_iff] at this ⊢
      simpa using this }

section updateFile

variable {s : Store} {id : Nat} {f : FileRow → FileRow} {keeps : ∀ r, (f r).path = r.path}

@[simp] theorem updateFile_files : (s.updateFile id f keeps).files = s.files.modify id f := rfl
@[simp] theorem updateFile_wal : (s.updateFile id f keeps).wal = s.wal := rfl
@[simp] theorem updateFile_lastInsertRowid :
    (s.updateFile id f keeps).lastInsertRowid = s.lastInsertRowid := rfl

theorem fileAt_updateFile (p : FvfsPath) :
    (s.updateFile id f keeps).fileAt p =
      (s.fileAt p).map fun x => (x.1, if x.1 = id then f x.2 else x.2) := by
  apply Option.ext
  rintro ⟨i, r⟩
  rw [fileAt_eq_some_iff, updateFile_files, Table.get?_modify]
  simp only [Option.map_eq_some_iff, Prod.exists, Prod.mk.injEq]
  constructor
  · rintro ⟨found, path⟩
    split at found
    next same =>
      obtain ⟨y, hy, rfl⟩ := Option.map_eq_some_iff.mp found
      exact ⟨i, y, fileAt_eq_some_iff.mpr ⟨hy, (keeps y).symm.trans path⟩, rfl, by simp [same]⟩
    next other =>
      exact ⟨i, r, fileAt_eq_some_iff.mpr ⟨found, path⟩, rfl, by simp [other]⟩
  · rintro ⟨j, y, found, rfl, rfl⟩
    obtain ⟨hy, path⟩ := fileAt_eq_some_iff.mp found
    split
    next same => exact ⟨by simp [hy], (keeps y).trans path⟩
    next other => exact ⟨hy, path⟩

end updateFile

/-- `UPDATE files SET tier_bitmask = ?1 WHERE id = ?2`. -/
def setTierBitmask (s : Store) (id : Nat) (b : TierBitmask) : Store :=
  s.updateFile id (fun r => { r with tierBitmask := b }) (fun _ => rfl)

def accessedRow (now : Int) (r : FileRow) : FileRow :=
  { r with accessedAt := now, accessCount30d := r.accessCount30d + 1 }

/-- `SET accessed_at = ?1, access_count_30d = access_count_30d + 1 WHERE id = ?2`. -/
def recordAccess (s : Store) (id : Nat) (now : Int) : Store :=
  s.updateFile id (accessedRow now) (fun _ => rfl)

def mimeColumn (m : FileMetadata) : Text :=
  m.mimeType.getD (if m.isDir then "inode/directory".toList else [])

def insertedRow (m : FileMetadata) : FileRow where
  path := m.path.text
  sizeBytes := m.sizeBytes
  sha256 := m.sha256
  tierBitmask := m.tierBitmask
  createdAt := m.createdAt
  modifiedAt := m.modifiedAt
  accessedAt := m.accessedAt
  accessCount30d := m.accessCount30d
  mimeType := some (mimeColumn m)
  isDir := m.isDir

/-- `ON CONFLICT(path) DO UPDATE SET`: all but the path and `created_at`. -/
def conflictRow (m : FileMetadata) (r : FileRow) : FileRow :=
  { insertedRow m with path := r.path, createdAt := r.createdAt }

theorem conflictRow_path (m : FileMetadata) (r : FileRow) : (conflictRow m r).path = r.path := rfl

/-- The row an upsert of `m` leaves at its path, given the one it finds there. -/
def upsertedRow (m : FileMetadata) : Option (Nat × FileRow) → FileRow
  | none => insertedRow m
  | some x => conflictRow m x.2

def insertFile (s : Store) (m : FileMetadata) (absent : s.fileAt m.path = none) : Store where
  files := s.files.insert (insertedRow m)
  wal := s.wal
  lastInsertRowid := s.files.nextId
  paths_unique := by
    have other := fileAt_eq_none_iff.mp absent
    intro i j r t hr ht same
    rw [Table.get?_insert] at hr ht
    split at hr <;> split at ht
    next hi hj => rw [hi, hj]
    next hi hj =>
      obtain rfl := Option.some.inj hr
      exact absurd same.symm (other j t ht)
    next hi hj =>
      obtain rfl := Option.some.inj ht
      exact absurd same (other i r hr)
    next hi hj => exact s.paths_unique i j r t hr ht same
  wal_refs := by
    intro e w found
    have := s.wal_refs e w found
    rw [Table.get?_insert]
    split
    · rfl
    · exact this

/-- Insert or update by path; the answer is the connection's `last_insert_rowid`. -/
def upsert (s : Store) (m : FileMetadata) : Nat × Store :=
  match found : s.fileAt m.path with
  | none => (s.files.nextId, s.insertFile m found)
  | some x => (s.lastInsertRowid, s.updateFile x.1 (conflictRow m) (conflictRow_path m))

section upsert

variable {s : Store} {m : FileMetadata}

theorem upsert_insert (absent : s.fileAt m.path = none) :
    s.upsert m = (s.files.nextId, s.insertFile m absent) := by
  unfold upsert
  split
  next found => rfl
  next x found => simp [absent] at found

theorem upsert_conflict {x : Nat × FileRow} (present : s.fileAt m.path = some x) :
    s.upsert m = (s.lastInsertRowid, s.updateFile x.1 (conflictRow m) (conflictRow_path m)) := by
  unfold upsert
  split
  next found => simp [present] at found
  next y found =>
    obtain rfl := Option.some.inj (present.symm.trans found)
    rfl

@[simp] theorem upsert_wal : (s.upsert m).2.wal = s.wal := by
  cases found : s.fileAt m.path with
  | none => rw [upsert_insert found]; rfl
  | some x => rw [upsert_conflict found]; rfl

/-- The id of the row an upsert writes: the existing row's, or the next one. -/
def upsertedId (s : Store) (p : FvfsPath) : Nat :=
  match s.fileAt p with
  | none => s.files.nextId
  | some x => x.1

theorem fileAt_upsert_self :
    (s.upsert m).2.fileAt m.path = some (s.upsertedId m.path, upsertedRow m (s.fileAt m.path)) := by
  rw [fileAt_eq_some_iff]
  cases found : s.fileAt m.path with
  | none =>
    rw [upsert_insert found]
    simp [insertFile, upsertedId, upsertedRow, found, insertedRow]
  | some x =>
    obtain ⟨i, r⟩ := x
    obtain ⟨at_id, path⟩ := fileAt_eq_some_iff.mp found
    rw [upsert_conflict found]
    simp [upsertedId, upsertedRow, found, Table.get?_modify, at_id, conflictRow, path]

theorem fileAt_upsert_other {p : FvfsPath} (other : p ≠ m.path) :
    (s.upsert m).2.fileAt p = s.fileAt p := by
  have text : m.path.text ≠ p.text := fun same => other (FvfsPath.ext same.symm)
  cases found : s.fileAt m.path with
  | none =>
    rw [upsert_insert found]
    apply fileAt_congr
    intro i r path
    simp only [insertFile, Table.get?_insert]
    split
    next fresh =>
      subst fresh
      simp only [Option.some.injEq, Table.get?_nextId, reduceCtorEq, iff_false]
      rintro rfl
      exact text path
    next => rfl
  | some x =>
    obtain ⟨i, r⟩ := x
    obtain ⟨at_id, path⟩ := fileAt_eq_some_iff.mp found
    rw [upsert_conflict found, fileAt_updateFile]
    cases there : s.fileAt p with
    | none => rfl
    | some y =>
      obtain ⟨j, t⟩ := y
      obtain ⟨at_j, path_j⟩ := fileAt_eq_some_iff.mp there
      have apart : j ≠ i := by
        rintro rfl
        obtain rfl := Option.some.inj (at_id.symm.trans at_j)
        exact text (path.symm.trans path_j)
      simp [apart]

end upsert

/-- `DELETE FROM files WHERE path = ?1`, cascading to the WAL entries of the row. -/
def delete (s : Store) (p : FvfsPath) : Store where
  files := s.files.filter fun _ r => r.path != p.text
  wal := s.wal.filter fun _ w => (s.files.filter fun _ r => r.path != p.text).get? w.fileId |>.isSome
  lastInsertRowid := s.lastInsertRowid
  paths_unique := by
    intro i j r t hr ht same
    rw [Table.get?_filter, Option.filter_eq_some_iff] at hr ht
    exact s.paths_unique i j r t hr.1 ht.1 same
  wal_refs := by
    intro e w found
    rw [Table.get?_filter, Option.filter_eq_some_iff] at found
    exact found.2

@[simp] theorem fileAt_delete_self (s : Store) (p : FvfsPath) : (s.delete p).fileAt p = none := by
  rw [fileAt_eq_none_iff]
  intro i r found
  simp only [delete, Table.get?_filter, Option.filter_eq_some_iff] at found
  simpa using found.2

theorem fileAt_delete_other (s : Store) {p q : FvfsPath} (other : q ≠ p) :
    (s.delete p).fileAt q = s.fileAt q := by
  apply fileAt_congr
  intro i r path
  have text : r.path ≠ p.text := fun same => other (FvfsPath.ext (path.symm.trans same))
  simp [delete, Table.get?_filter, Option.filter_eq_some_iff, text]

/-- `INSERT INTO wal_pending`; a missing file row fails the foreign key. -/
def walEnqueue (s : Store) (fileId : Nat) (op : WalOp) (now : Int) : Except FvfsError (Nat × Store) :=
  if present : (s.files.get? fileId).isSome then
    .ok (s.wal.nextId, { s with
      wal := s.wal.insert ⟨fileId, op, now, 0, none⟩
      lastInsertRowid := s.wal.nextId
      wal_refs := by
        intro e w found
        rw [Table.get?_insert] at found
        split at found
        · obtain rfl := Option.some.inj found
          exact present
        · exact s.wal_refs e w found })
  else .error (.metadata "FOREIGN KEY constraint failed".toList)

/-- `DELETE FROM wal_pending WHERE id = ?1`. -/
def walComplete (s : Store) (walId : Nat) : Store :=
  { s with
    wal := s.wal.filter fun i _ => i != walId
    wal_refs := by
      intro e w found
      rw [Table.get?_filter, Option.filter_eq_some_iff] at found
      exact s.wal_refs e w found.1 }

/-- `SET attempts = attempts + 1, last_error = ?1 WHERE id = ?2`. -/
def walRecordFailure (s : Store) (walId : Nat) (error : Text) : Store :=
  { s with
    wal := s.wal.modify walId fun w => { w with attempts := w.attempts + 1, lastError := some error }
    wal_refs := by
      intro e w found
      rw [Table.get?_modify] at found
      split at found
      · obtain ⟨v, hv, rfl⟩ := Option.map_eq_some_iff.mp found
        exact s.wal_refs e v hv
      · exact s.wal_refs e w found }

def toEntry (x : Nat × WalRow) : WalEntry :=
  ⟨x.1, x.2.fileId, x.2.op, x.2.enqueuedAt, x.2.attempts % 2 ^ 32, x.2.lastError⟩

/-- `ORDER BY enqueued_at ASC`; ties keep the row order of the scan. -/
def walPending (s : Store) : List WalEntry :=
  (s.wal.rows.map toEntry).insertionSort fun a b => a.enqueuedAt ≤ b.enqueuedAt

/-- What tasks depend on in a row: everything but the access statistics and dates. -/
structure RowState where
  id : Nat
  sizeBytes : Nat
  sha256 : Text
  tierBitmask : TierBitmask
  isDir : Bool
  deriving DecidableEq

def stateOf (x : Nat × FileRow) : RowState :=
  ⟨x.1, x.2.sizeBytes, x.2.sha256, x.2.tierBitmask, x.2.isDir⟩

def rowState (s : Store) (p : FvfsPath) : Option RowState := (s.fileAt p).map stateOf

/-- The row state a metadata record was read from, or would write under `id`. -/
def metadataState (m : FileMetadata) (id : Nat) : RowState :=
  ⟨id, m.sizeBytes, m.sha256, m.tierBitmask, m.isDir⟩

section RowState

variable {s : Store} {p : FvfsPath}

theorem rowState_eq_some_iff {x : RowState} : s.rowState p = some x ↔
    ∃ i r, s.files.get? i = some r ∧ r.path = p.text ∧ stateOf (i, r) = x := by
  simp only [rowState, Option.map_eq_some_iff, Prod.exists, fileAt_eq_some_iff, and_assoc]

theorem rowState_of_get {m : FileMetadata} (found : s.get p = some m) :
    s.rowState p = some (metadataState m m.id) := by
  obtain ⟨⟨i, r⟩, there, rfl⟩ := Option.map_eq_some_iff.mp found
  simp only [rowState, there, Option.map_some, stateOf, metadataState,
    rowToMetadata_isDir]
  rfl

theorem path_of_get {m : FileMetadata} (canonical : p.Canonical) (found : s.get p = some m) :
    m.path = p := by
  obtain ⟨⟨i, r⟩, there, rfl⟩ := Option.map_eq_some_iff.mp found
  exact rowToMetadata_path canonical (fileAt_eq_some_iff.mp there).2

/-- A row found by its id is the row at its path, where every stored path is canonical. -/
theorem rowState_of_getById {id : Nat} {m : FileMetadata}
    (canonical : ∀ p x, s.rowState p = some x → p.Canonical) (found : s.getById id = some m) :
    s.rowState m.path = some (metadataState m id) ∧ m.id = id := by
  obtain ⟨r, at_id, rfl⟩ := Option.map_eq_some_iff.mp found
  have here : s.fileAt ⟨r.path⟩ = some (id, r) := fileAt_eq_some_iff.mpr ⟨at_id, rfl⟩
  have row : s.rowState ⟨r.path⟩ = some (stateOf (id, r)) := by simp [rowState, here]
  rw [rowToMetadata_path (canonical _ _ row) rfl, row]
  exact ⟨by simp [stateOf, metadataState]; exact ⟨rfl, rfl, rfl⟩, rfl⟩

/-- The row of a canonical path, looked up by its id. -/
theorem metadata_of_getById {x : RowState} {m : FileMetadata} (canonical : p.Canonical)
    (there : s.rowState p = some x) (found : s.getById x.id = some m) :
    m.path = p ∧ m.id = x.id ∧ m.tierBitmask = x.tierBitmask := by
  obtain ⟨i, r, at_id, path, rfl⟩ := rowState_eq_some_iff.mp there
  obtain ⟨r', again, rfl⟩ := Option.map_eq_some_iff.mp found
  obtain rfl := Option.some.inj (at_id.symm.trans again)
  exact ⟨rowToMetadata_path canonical path, rfl, rfl⟩

/-- A row at a path is found by its id. -/
theorem getById_isSome_of_rowState {x : RowState} (there : s.rowState p = some x) :
    (s.getById x.id).isSome := by
  obtain ⟨i, r, at_id, -, rfl⟩ := rowState_eq_some_iff.mp there
  simp [getById, stateOf, at_id]

theorem get_eq_none_iff : s.get p = none ↔ s.rowState p = none := by
  simp [get, rowState]

theorem rowState_updateFile {id : Nat} {f : FileRow → FileRow} {keeps : ∀ r, (f r).path = r.path}
    (g : RowState → RowState) (commutes : ∀ r, stateOf (id, f r) = g (stateOf (id, r))) :
    (s.updateFile id f keeps).rowState p =
      (s.rowState p).map fun x => if x.id = id then g x else x := by
  simp only [rowState, fileAt_updateFile, Option.map_map]
  congr 1
  funext x
  obtain ⟨i, r⟩ := x
  by_cases same : i = id
  · subst same
    simpa [stateOf] using commutes r
  · simp [stateOf, same]

@[simp] theorem rowState_recordAccess (id : Nat) (now : Int) :
    (s.recordAccess id now).rowState p = s.rowState p :=
  (rowState_updateFile (f := accessedRow now) (fun x => x) (fun _ => rfl)).trans (by simp)

theorem rowState_setTierBitmask (id : Nat) (b : TierBitmask) :
    (s.setTierBitmask id b).rowState p =
      (s.rowState p).map fun x => if x.id = id then { x with tierBitmask := b } else x :=
  rowState_updateFile (fun x => { x with tierBitmask := b }) (fun _ => rfl)

theorem rowState_upsert_self (m : FileMetadata) :
    (s.upsert m).2.rowState m.path = some (metadataState m (s.upsertedId m.path)) := by
  simp only [rowState, fileAt_upsert_self, Option.map_some]
  cases s.fileAt m.path <;> rfl

theorem rowState_upsert_other {m : FileMetadata} (other : p ≠ m.path) :
    (s.upsert m).2.rowState p = s.rowState p := by
  simp only [rowState, fileAt_upsert_other other]

@[simp] theorem rowState_delete_self : (s.delete p).rowState p = none := by simp [rowState]

theorem rowState_delete_other {q : FvfsPath} (other : q ≠ p) :
    (s.delete p).rowState q = s.rowState q := by
  simp only [rowState, fileAt_delete_other s other]

/-- Row ids identify rows: two paths with one id are one path. -/
theorem rowState_id_inj {q : FvfsPath} {x y : RowState} (hp : s.rowState p = some x)
    (hq : s.rowState q = some y) (same : x.id = y.id) : p = q := by
  obtain ⟨i, r, found, path_p, rfl⟩ := rowState_eq_some_iff.mp hp
  obtain ⟨j, t, again, path_q, rfl⟩ := rowState_eq_some_iff.mp hq
  obtain rfl : i = j := same
  obtain rfl := Option.some.inj (found.symm.trans again)
  exact FvfsPath.ext (path_p.symm.trans path_q)

theorem upsertedId_of_rowState {x : RowState} (there : s.rowState p = some x) :
    s.upsertedId p = x.id := by
  obtain ⟨⟨i, r⟩, found, rfl⟩ := Option.map_eq_some_iff.mp there
  simp [upsertedId, found, stateOf]

theorem rowState_walEnqueue {fileId : Nat} {op : WalOp} {now : Int} {id : Nat} {t : Store}
    (enqueued : s.walEnqueue fileId op now = .ok (id, t)) : t.rowState p = s.rowState p := by
  unfold walEnqueue at enqueued
  split at enqueued
  · obtain ⟨-, rfl⟩ := Prod.mk.inj (Except.ok.inj enqueued)
    rfl
  · contradiction

end RowState

end Store

end Fvfs
