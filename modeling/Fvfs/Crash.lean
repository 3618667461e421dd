import Fvfs.RowIds

/-! Crashes inside a write to a new path: the upload and replication a restart must find
pending, and the steps between the row and its WAL entries where it finds neither. -/
namespace Fvfs

open Lib

namespace Store

/-- An entry for this operation on this file. -/
def Pending (s : Store) (fileId : Nat) (op : WalOp) : Prop :=
  ∃ i e, s.wal.get? i = some e ∧ e.fileId = fileId ∧ e.op = op

/-- Every colder tier a file has no bit for has a WAL entry that will fill it. -/
def Obliged (s : Store) (p : FvfsPath) : Prop :=
  ∀ i r, s.fileAt p = some (i, r) → r.isDir = false →
    (r.tierBitmask.has .s3 = false → s.Pending i .uploadS3) ∧
    (r.tierBitmask.has .nas = false → s.Pending i .replicateNas)

variable {s : Store} {p : FvfsPath}

theorem obliged_of_absent (absent : s.fileAt p = none) : s.Obliged p := by
  intro i r here
  simp [absent] at here

/-- A file written to the local disk only, with no upload queued. -/
structure Stranded (s : Store) (p : FvfsPath) (id : Nat) : Prop where
  row : ∃ r, s.fileAt p = some (id, r) ∧ r.isDir = false ∧ r.tierBitmask.has .s3 = false
  idle : ¬s.Pending id .uploadS3

theorem Stranded.not_obliged {id : Nat} (stranded : s.Stranded p id) : ¬s.Obliged p := by
  intro obliged
  obtain ⟨r, here, plain, bit⟩ := stranded.row
  exact stranded.idle ((obliged id r here plain).1 bit)

theorem pending_insert {t : Store} {e : WalRow} {id : Nat} {op : WalOp}
    (wal : t.wal = s.wal.insert e) :
    t.Pending id op ↔ s.Pending id op ∨ (e.fileId = id ∧ e.op = op) := by
  constructor
  · rintro ⟨i, f, there, file, kind⟩
    rw [wal, Table.get?_insert] at there
    split at there
    · obtain rfl := Option.some.inj there
      exact Or.inr ⟨file, kind⟩
    · exact Or.inl ⟨i, f, there, file, kind⟩
  · rintro (⟨i, f, there, file, kind⟩ | ⟨file, kind⟩)
    · refine ⟨i, f, ?_, file, kind⟩
      rw [wal, Table.get?_insert, if_neg (Table.ne_nextId_of_get? there), there]
    · exact ⟨s.wal.nextId, e, by rw [wal, Table.get?_insert_self], file, kind⟩

end Store

namespace Router

open Store

/-- From a stranded file the two enqueues pass through stranded states until both are done. -/
theorem enqueueReplication_strands {w : World} {p : FvfsPath} {id : Nat}
    (stranded : w.store.Stranded p id) :
    (enqueueReplication id).always perform Choice.Faultless (fun w => w.store.Stranded p id)
      (fun _ w' => w'.store.Obliged p) w := by
  obtain ⟨r, here, plain, bit⟩ := stranded.row
  have present : (w.store.files.get? id).isSome := by
    rw [(fileAt_eq_some_iff.mp here).1]
    rfl
  refine Prog.always_bind (always_once stranded (wp_walEnqueue ?_ ?_))
  · intro first i s enqueued
    obtain ⟨_, files, wal⟩ := Store.walEnqueue_ok enqueued
    have still : s.fileAt p = some (id, r) := by
      rw [fileAt_eq_some_iff] at here ⊢
      rwa [files]
    have stranded' : s.Stranded p id := by
      refine ⟨⟨r, still, plain, bit⟩, fun pending => ?_⟩
      rcases (pending_insert wal).mp pending with old | ⟨_, kind⟩
      · exact stranded.idle old
      · cases kind
    refine Prog.always_bind (always_once stranded' (wp_walEnqueue ?_ ?_))
    · intro second j t enqueued'
      obtain ⟨_, files', wal'⟩ := Store.walEnqueue_ok enqueued'
      intro k x there _
      have last : t.fileAt p = some (id, r) := by
        rw [fileAt_eq_some_iff] at still ⊢
        rwa [files']
      obtain ⟨rfl, rfl⟩ := Prod.mk.inj (Option.some.inj (last.symm.trans there))
      refine ⟨fun _ => (pending_insert wal').mpr (Or.inr ⟨rfl, rfl⟩), fun _ => ?_⟩
      exact (pending_insert wal').mpr (Or.inl ((pending_insert wal).mpr (Or.inr ⟨rfl, rfl⟩)))
    · intro e why
      have absent := why fun _ quiet => quiet
      rw [World.withStore_store, files] at absent
      simp [absent] at present
  · intro e why
    simp [why fun _ quiet => quiet] at present

theorem afterUpsert_strands {w : World} {p : FvfsPath} {id : Nat}
    (stranded : w.store.Stranded p id) :
    (afterUpsert p id).always perform Choice.Faultless (fun w => w.store.Stranded p id)
      (fun _ w' => w'.store.Obliged p) w := by
  refine Prog.always_bind (Prog.always_mono (ensureParents_keeps _ _ ?_ stranded) ?_)
  · intro q above w now stranded absent
    obtain ⟨r, here, plain, bit⟩ := stranded.row
    have grown := grown_upsert (m := .newDir now q) absent
    refine ⟨⟨r, grown.kept p _ here, plain, bit⟩, ?_⟩
    unfold Pending
    rw [World.withStore_store, grown.wal]
    exact stranded.idle
  · rintro r w' ⟨stranded', returns⟩
    cases r with
    | error e => nomatch returns fun _ quiet => quiet
    | ok => exact enqueueReplication_strands stranded'

/-- The row a first write inserts is stranded until its entries are queued. -/
theorem upsert_strands (sha256 : Bytes → Text) {s : Store} {p : FvfsPath}
    (absent : s.fileAt p = none) (data : Bytes) (now : Int) :
    (s.upsert (writtenMetadata sha256 p data now)).2.Stranded p
      (s.upsert (writtenMetadata sha256 p data now)).1 := by
  have here := fileAt_upsert_self (s := s) (m := writtenMetadata sha256 p data now)
  have path : (writtenMetadata sha256 p data now).path = p := rfl
  rw [path, absent] at here
  have own : (s.upsert (writtenMetadata sha256 p data now)).1 = s.upsertedId p := by
    simp [upsert_insert (m := writtenMetadata sha256 p data now) absent, upsertedId, absent]
  rw [own]
  refine ⟨⟨_, here, rfl, by simp [upsertedRow, insertedRow, writtenMetadata]⟩, ?_⟩
  rintro ⟨i, e, there, file, -⟩
  rw [upsert_wal] at there
  have referred := s.wal_refs i e there
  simp [file, upsertedId, absent] at referred

/-- A crash inside a first write leaves its uploads owed exactly from the upsert of the
row to the last enqueue; before, there is no row, and afterwards both entries. -/
theorem crash_obliged_iff (sha256 : Bytes → Text) (w : World) (p : FvfsPath)
    (absent : w.store.fileAt p = none) (data : Bytes) (clock : Nat → Int) (k : Nat) :
    ((write sha256 p data).cut perform k (fun i => .quiet (clock i)) w).restart.store.Obliged p ↔
      k ≤ 2 ∨ (write sha256 p data).steps perform (fun i => .quiet (clock i)) w ≤ k := by
  have nothing : w.store.Obliged p := obliged_of_absent absent
  match k with
  | 0 => exact ⟨fun _ => Or.inl (by omega), fun _ => nothing⟩
  | 1 => exact ⟨fun _ => Or.inl (by omega), fun _ => nothing⟩
  | 2 => exact ⟨fun _ => Or.inl (by omega), fun _ => nothing⟩
  | k + 3 =>
    have stranded := upsert_strands sha256 absent data (clock 1)
    generalize after : w.store.upsert (writtenMetadata sha256 p data (clock 1)) = result at stranded
    let later : World := (w.setObject .localDisk p (some data)).withStore result.2
    let env : Nat → Choice := fun i => .quiet (clock (i + 3))
    have cut : (write sha256 p data).cut perform (k + 3) (fun i => .quiet (clock i)) w =
        (afterUpsert p result.1).cut perform k env later := by
      subst after
      rfl
    have steps : (write sha256 p data).steps perform (fun i => .quiet (clock i)) w =
        (afterUpsert p result.1).steps perform env later + 3 := by
      subst after
      rfl
    obtain ⟨early, late⟩ := Prog.cut_of_always (afterUpsert_strands (w := later) stranded) env
      (fun i => Choice.faultless_quiet _) k
    change ((write sha256 p data).cut perform (k + 3) _ w).store.Obliged p ↔ _
    rw [cut, steps]
    by_cases inside : k < (afterUpsert p result.1).steps perform env later
    · have bare := (early inside).not_obliged
      exact ⟨fun obliged => absurd obliged bare, fun outside => by omega⟩
    · exact ⟨fun _ => Or.inr (by omega), fun _ => late (by omega)⟩

theorem first_write_obliged_iff :
    ((write sampleSha256 ⟨['/', 'a']⟩ [1]).cut perform 6
        (fun _ => .quiet 0) .empty).restart.store.Obliged ⟨['/', 'a']⟩ ↔
      6 ≤ 2 ∨ (write sampleSha256 ⟨['/', 'a']⟩ [1]).steps perform (fun _ => .quiet 0) .empty ≤ 6 :=
  crash_obliged_iff sampleSha256 .empty ⟨['/', 'a']⟩ (by decide) [1] (fun _ => 0) 6

/-- A crash after the root directory is inserted: the file has its row and no entry. -/
theorem crash_strands_file :
    let p : FvfsPath := ⟨['/', 'a']⟩
    let found := ((write sampleSha256 p [1]).cut perform 6 (fun _ => .quiet 0) .empty).restart
    found.store.wal.rows = [] ∧ ¬found.store.Obliged p := by
  intro p found
  have idle : found.store.wal.rows = [] := by decide
  have row : (found.store.fileAt p).map (fun x => (x.2.isDir, x.2.tierBitmask.has .s3)) =
      some (false, false) := by decide
  refine ⟨idle, fun obliged => ?_⟩
  obtain ⟨⟨i, r⟩, here, same⟩ := Option.map_eq_some_iff.mp row
  obtain ⟨plain, bit⟩ := Prod.mk.inj same
  obtain ⟨j, e, there, -⟩ := (obliged i r here plain).1 bit
  simp [Table.get?, idle] at there

end Router

end Fvfs
