import Fvfs.Refinement
import Fvfs.RowIds

/-! What a failed write leaves behind. There is no rollback: until the upsert only the
local copy has been touched, and from then on the row and the bytes are the new ones. -/
namespace Fvfs

open Lib Store

namespace Router

variable {w v : World} {p : FvfsPath}

/-- Worlds a read that skips the local disk cannot tell apart. -/
structure SameElsewhere (p : FvfsPath) (w v : World) : Prop where
  store : w.store = v.store
  tiers : ∀ t, t ≠ .localDisk → w.tiers t p = v.tiers t p

/-- The steps of such a read. -/
def Colder (p : FvfsPath) : Step → Prop
  | .get t q => t ≠ .localDisk ∧ q = p
  | .sendPromote _ => True
  | .recordAccess _ => True
  | _ => False

theorem sameElsewhere_perform (op : Step) (c : Choice) (allowed : Colder p op)
    (same : SameElsewhere p w v) :
    (perform op c w).1 = (perform op c v).1 ∧
      SameElsewhere p (perform op c w).2 (perform op c v).2 := by
  cases op with
  | get t q =>
    obtain ⟨cold, rfl⟩ := allowed
    simp only [perform, getObject, same.tiers t cold]
    cases c.fault with
    | some e => exact ⟨rfl, same⟩
    | none => cases v.tiers t q <;> exact ⟨rfl, same⟩
  | sendPromote signal => exact ⟨rfl, same.store, same.tiers⟩
  | recordAccess id =>
    simp only [perform, statement, same.store]
    cases c.fault with
    | some e => exact ⟨rfl, same⟩
    | none => exact ⟨rfl, rfl, same.tiers⟩
  | _ => exact allowed.elim

theorem readTiers_colder {b : TierBitmask} (cold : b.has .localDisk = false) :
    (readTiers p b).Only (Colder p) := by
  refine only_readTiers (fun t bit => ⟨?_, rfl⟩) fun _ _ => trivial
  rintro rfl
  simp [cold] at bit

/-- While the local bit is off, a read does not depend on the local copy. -/
theorem read_sameElsewhere (same : SameElsewhere p w v)
    (cold : ∀ x, w.store.rowState p = some x → x.tierBitmask.has .localDisk = false)
    (env : Nat → Choice) :
    ((read p).exec perform env w).1 = ((read p).exec perform env v).1 := by
  simp only [read, requireMetadata, Async.metaGet, Prog.call_bind, Prog.exec, perform, statement,
    same.store]
  cases (env 0).fault with
  | some e => rfl
  | none =>
    cases found : v.store.get p with
    | none => rfl
    | some m =>
      have row : w.store.rowState p = some (metadataState m m.id) := by
        rw [same.store]
        exact rowState_of_get found
      simp only [Prog.lift_ok, Prog.ret_bind, Prog.pure_eq, ← same.store, World.withStore_self]
      split
      · rfl
      · have only : (do
            let data ← readTiers p m.tierBitmask
            let _ ← (Async.recordAccess m.id).attempt
            Prog.ret data : Async Bytes).Only (Colder p) := by
          refine (readTiers_colder (cold _ row)).bind fun data => ?_
          exact ⟨trivial, fun answer => by cases answer <;> trivial⟩
        have after : SameElsewhere p w (v.withStore w.store) := ⟨rfl, same.tiers⟩
        exact (Prog.exec_related perform only
          (fun op c _ _ allowed => sameElsewhere_perform op c allowed) _ after).1

/-- The row and the bytes of a write whose upsert took place; ancestors may have been
added, and no other path has changed. -/
structure Written (sha256 : Bytes → Text) (p : FvfsPath) (data : Bytes) (w w' : World) : Prop where
  row : ∃ x now, w.store.fileAt p = some x ∧
    w'.store.fileAt p = some (x.1, conflictRow (writtenMetadata sha256 p data now) x.2)
  tiers : w'.tiers = (w.setObject .localDisk p (some data)).tiers
  others : ∀ q, q ≠ p → w'.store.fileAt q = w.store.fileAt q ∨
    w.store.fileAt q = none ∧ q ∈ p.ancestors ∧
      ∃ x, w'.store.fileAt q = some x ∧ x.2.isDir = true

/-- The upsert did not take place: the store is as before, and the local copy may be new,
cut short or untouched. -/
structure Unrecorded (p : FvfsPath) (data : Bytes) (w w' : World) : Prop where
  store : w'.store = w.store
  local_copy : w'.tiers .localDisk p = w.tiers .localDisk p ∨
    ∃ n, w'.tiers .localDisk p = some (data.take n)
  others : ∀ t q, t ≠ .localDisk ∨ q ≠ p → w'.tiers t q = w.tiers t q

/-- The upsert took place, and at most the replication entry was queued after it. -/
structure Rewritten (sha256 : Bytes → Text) (p : FvfsPath) (data : Bytes) (w w' : World) : Prop
    extends Written sha256 p data w w' where
  wal : w'.store.wal = w.store.wal ∨ ∃ fileId now,
    w'.store.wal = w.store.wal.insert ⟨fileId, .replicateNas, now, 0, none⟩

theorem unrecorded_of_put {data : Bytes} (n : Nat) {s : World} (store : s.store = w.store)
    (tiers : s.tiers = (w.setObject .localDisk p (some (data.take n))).tiers) :
    Unrecorded p data w s := by
  refine ⟨store, Or.inr ⟨n, ?_⟩, fun t q outside => ?_⟩
  · rw [tiers, World.setObject_same]
  · rw [tiers, World.setObject_tiers, if_neg]
    rintro ⟨rfl, rfl⟩
    rcases outside with off | off <;> exact off rfl

theorem written_upsert (sha256 : Bytes → Text) {x : Nat × FileRow}
    (there : w.store.fileAt p = some x) (data : Bytes) (now : Int) :
    Written sha256 p data w ((w.setObject .localDisk p (some data)).withStore
      (w.store.upsert (writtenMetadata sha256 p data now)).2) := by
  refine ⟨⟨x, now, there, ?_⟩, rfl, fun q other => Or.inl ?_⟩
  · have here := fileAt_upsert_self (s := w.store) (m := writtenMetadata sha256 p data now)
    rw [show (writtenMetadata sha256 p data now).path = p from rfl] at here
    rw [World.withStore_store, here]
    simp [upsertedId, upsertedRow, there]
  · exact fileAt_upsert_other other

theorem written_parents {sha256 : Bytes → Text} {data : Bytes} {s : World}
    (written : Written sha256 p data w s) {q : FvfsPath} (above : q ∈ p.ancestors)
    (absent : s.store.fileAt q = none) (now : Int) :
    Written sha256 p data w (s.withStore (s.store.upsert (.newDir now q)).2) := by
  obtain ⟨x, clock, there, here⟩ := written.row
  refine ⟨⟨x, clock, there, ?_⟩, written.tiers, fun r other => ?_⟩
  · rw [World.withStore_store, fileAt_upsert_other, here]
    exact (FvfsPath.ancestor_ne above).symm
  · by_cases same : r = q
    · subst same
      have new : ∃ y, (s.withStore (s.store.upsert (.newDir now r)).2).store.fileAt r = some y ∧
          y.2.isDir = true := by
        refine ⟨_, fileAt_upsert_self, ?_⟩
        rw [show (FileMetadata.newDir now r).path = r from rfl, absent]
        rfl
      rcases written.others r other with kept | ⟨before, _, y, present, _⟩
      · exact Or.inr ⟨kept ▸ absent, above, new⟩
      · simp [absent] at present
    · rw [World.withStore_store, fileAt_upsert_other (m := .newDir now q) same]
      exact written.others r other

theorem written_wal {sha256 : Bytes → Text} {data : Bytes} {s : World} {t : Store}
    (written : Written sha256 p data w s) (files : t.files = s.store.files) :
    Written sha256 p data w (s.withStore t) := by
  have same (q : FvfsPath) : t.fileAt q = s.store.fileAt q := by
    simp only [fileAt, files]
  exact ⟨by simpa only [World.withStore_store, same] using written.row, written.tiers,
    by simpa only [World.withStore_store, same] using written.others⟩

theorem enqueue_recorded {sha256 : Bytes → Text} {data : Bytes} {s : World} (fileId : Nat)
    (written : Written sha256 p data w s) (wal : s.store.wal = w.store.wal) :
    (enqueueReplication fileId).wp perform (fun _ => True)
      (fun r w' => ∀ e, r = .error e → Rewritten sha256 p data w w') s := by
  refine (Prog.wp_bind _ _ _ _).mpr (wp_walEnqueue ?_ fun e _ _ _ => ⟨written, Or.inl wal⟩)
  intro now id t enqueued
  obtain ⟨_, files, first⟩ := walEnqueue_ok enqueued
  have written' := written_wal written files
  apply (Prog.wp_bind _ _ _ _).mpr
  apply wp_walEnqueue
  · exact fun _ _ _ _ _ => nofun
  · intro e _ _ _
    exact ⟨written', Or.inr ⟨fileId, now, by rw [World.withStore_store, first, wal]⟩⟩

theorem afterUpsert_recorded {sha256 : Bytes → Text} {data : Bytes} {s : World} (fileId : Nat)
    (written : Written sha256 p data w s) (wal : s.store.wal = w.store.wal) :
    (afterUpsert p fileId).wp perform (fun _ => True)
      (fun r w' => ∀ e, r = .error e → Rewritten sha256 p data w w') s := by
  refine Prog.wp_seq (Prog.wp_of_always (ensureParents_keeps (fun _ => True)
    (fun s => Written sha256 p data w s ∧ s.store.wal = w.store.wal)
    (fun q above s now ⟨written, wal⟩ absent =>
      ⟨written_parents written above absent now, upsert_wal.trans wal⟩) ⟨written, wal⟩)) ?_ ?_
  · exact fun _ s ⟨⟨written, wal⟩, _⟩ => enqueue_recorded _ written wal
  · exact fun _ s ⟨⟨written, wal⟩, _⟩ _ _ => ⟨written, Or.inl wal⟩

theorem write_unrecorded (sha256 : Bytes → Text) (data : Bytes) (env : Nat → Choice)
    (stopped : ¬((env 0).Faultless ∧ (env 2).Faultless)) :
    Unrecorded p data w ((write sha256 p data).exec perform env w).2 := by
  simp only [write, Async.put, Async.now, Async.upsert, Prog.call_bind, Prog.exec, perform]
  rcases putObject_cases (c := env 0) (w := w) .localDisk p data with
    ⟨stored, eq⟩ | ⟨e, _, eq⟩ | ⟨e, n, _, _, eq⟩
  · have faulty : ¬(env 2).Faultless := fun quiet => stopped ⟨stored, quiet⟩
    rw [eq]
    obtain ⟨e, fault⟩ : ∃ e, (env 2).fault = some e := Option.ne_none_iff_exists'.mp faulty
    simp only [Prog.lift_ok, Prog.ret_bind, Prog.exec, perform, statement, Nat.zero_add,
      Nat.reduceAdd, fault]
    refine unrecorded_of_put data.length rfl ?_
    rw [List.take_length]
    rfl
  · rw [eq]
    exact ⟨rfl, Or.inl rfl, fun _ _ _ => rfl⟩
  · rw [eq]
    exact unrecorded_of_put n rfl rfl

theorem write_recorded (sha256 : Bytes → Text) {x : Nat × FileRow}
    (there : w.store.fileAt p = some x) (data : Bytes) (env : Nat → Choice) {e : FvfsError}
    (stored : (env 0).Faultless) (upserted : (env 2).Faultless)
    (failed : ((write sha256 p data).exec perform env w).1 = .error e) :
    Rewritten sha256 p data w ((write sha256 p data).exec perform env w).2 := by
  let m := writtenMetadata sha256 p data (env 1).clock
  let s := (w.setObject .localDisk p (some data)).withStore (w.store.upsert m).2
  have run : (write sha256 p data).exec perform env w =
      (afterUpsert p (w.store.upsert m).1).exec perform (fun i => env (i + 3)) s := by
    simp only [write, Async.put, Async.now, Async.upsert, Prog.call_bind, Prog.exec, perform,
      putObject, show (env 0).fault = none from stored, Prog.lift_ok, Prog.ret_bind]
    rw [statement_faultless upserted]
    rfl
  rw [run] at failed ⊢
  have recorded := Prog.exec_of_wp (afterUpsert_recorded (w.store.upsert m).1
    (written_upsert sha256 there data (env 1).clock) upsert_wal) (fun i => env (i + 3))
    fun _ => trivial
  exact recorded e failed

/-- After a recorded write, failed or not, reads answer the new bytes. -/
theorem Written.read_eq {sha256 : Bytes → Text} {data : Bytes} {w' : World}
    (written : Written sha256 p data w w') (clock : Nat → Int) :
    ((read p).exec perform (fun i => .quiet (clock i)) w').1 = .ok data := by
  obtain ⟨x, now, _, here⟩ := written.row
  have rep : Represents (w'.view p) (some data) := by
    refine .file (x := stateOf (x.1, conflictRow (writtenMetadata sha256 p data now) x.2)) ?_ rfl ?_
    · simp [rowState, here]
    · have bits (t : Tier) : (stateOf (x.1, conflictRow (writtenMetadata sha256 p data now)
          x.2)).tierBitmask.has t = decide (t = .localDisk) :=
        writtenMetadata_has sha256 p data now t
      refine ⟨⟨.localDisk, by simp [bits]⟩, fun t bit => ?_, fun bit => ?_⟩
      · obtain rfl : t = .localDisk := by simpa [bits] using bit
        simp [written.tiers]
      · simp [bits] at bit
  have answer := Prog.exec_of_wp (quiet_read rep).faultless (fun i => .quiet (clock i))
    fun i => Choice.faultless_quiet (clock i)
  exact (answer.1 data).mpr rfl

/-- A failed overwrite that never reached the row leaves the store as before, and at most
a new or cut local copy; one that did has replaced the row and the bytes for good. The put
is the first step of the write and the upsert its third. -/
theorem failed_write (sha256 : Bytes → Text) (w : World) (p : FvfsPath) (data : Bytes)
    (env : Nat → Choice) (e : FvfsError) (x : Nat × FileRow)
    (there : w.store.fileAt p = some x)
    (failed : ((write sha256 p data).exec perform env w).1 = .error e) :
    let w' := ((write sha256 p data).exec perform env w).2
    (¬((env 0).Faultless ∧ (env 2).Faultless) → Unrecorded p data w w' ∧
      (x.2.tierBitmask.has .localDisk = false → ∀ env' : Nat → Choice,
        ((read p).exec perform env' w').1 = ((read p).exec perform env' w).1)) ∧
    ((env 0).Faultless ∧ (env 2).Faultless → Rewritten sha256 p data w w' ∧
      ∀ clock : Nat → Int, ((read p).exec perform (fun i => .quiet (clock i)) w').1 = .ok data) := by
  intro w'
  constructor
  · intro stopped
    have unrecorded := write_unrecorded (w := w) (p := p) sha256 data env stopped
    refine ⟨unrecorded, fun cold env' => read_sameElsewhere ⟨unrecorded.store, ?_⟩ ?_ env'⟩
    · exact fun t other => unrecorded.others t p (Or.inl other)
    · intro y row
      rw [unrecorded.store] at row
      obtain rfl : stateOf x = y := by simpa [rowState, there] using row
      exact cold
  · rintro ⟨stored, upserted⟩
    have recorded := write_recorded sha256 there data env stored upserted failed
    exact ⟨recorded, recorded.toWritten.read_eq⟩

/-- The overwrite whose upsert is refused, and whose reader gets the refused bytes. -/
def refusedUpsert (i : Nat) : Choice :=
  ⟨0, if i = 2 then some (.metadata "database is locked".toList) else none, none⟩

theorem refused_upsert_unrecorded :
    let p : FvfsPath := ⟨['/', 'a']⟩
    let w := ((write sampleSha256 p [1]).exec perform (fun _ => .quiet 0) .empty).2
    Unrecorded p [2] w ((write sampleSha256 p [2]).exec perform refusedUpsert w).2 := by
  intro p w
  obtain ⟨x, there⟩ : ∃ x, w.store.fileAt p = some x := Option.isSome_iff_exists.mp (by decide)
  have failed : ((write sampleSha256 p [2]).exec perform refusedUpsert w).1 =
      .error (.metadata "database is locked".toList) := by decide
  exact ((failed_write sampleSha256 w p [2] refusedUpsert _ x there failed).1
    fun both => nomatch both.2).1

/-- The store is as before, and the file reads differently. -/
theorem failed_write_changes_read :
    let p : FvfsPath := ⟨['/', 'a']⟩
    let w := ((write sampleSha256 p [1]).exec perform (fun _ => .quiet 0) .empty).2
    let failed := (write sampleSha256 p [2]).exec perform refusedUpsert w
    failed.1 = .error (.metadata "database is locked".toList) ∧
      ((read p).exec perform (fun _ => .quiet 0) w).1 = .ok [1] ∧
      ((read p).exec perform (fun _ => .quiet 0) failed.2).1 = .ok [2] := by
  decide

end Router

end Fvfs
