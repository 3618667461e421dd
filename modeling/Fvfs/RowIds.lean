import Fvfs.Rules

/-! The row id an upsert answers, and the file the WAL entries of a write refer to. The
answer is the connection's last inserted row id, which the conflict branch leaves alone. -/
namespace Fvfs

open Lib

namespace Store

variable {s : Store} {m : FileMetadata}

theorem upsert_answers_row_id_iff :
    (∃ r, (s.upsert m).2.fileAt m.path = some ((s.upsert m).1, r)) ↔
      s.fileAt m.path = none ∨ ∃ r, s.fileAt m.path = some (s.lastInsertRowid, r) := by
  rw [fileAt_upsert_self]
  cases found : s.fileAt m.path with
  | none => simp [upsert_insert found, upsertedId, found]
  | some x =>
    obtain ⟨i, r⟩ := x
    simp [upsert_conflict found, upsertedId, found]

/-- How many ancestors of a path the ancestor loop has to insert. -/
def missingWithin (s : Store) (turns : Nat) (p : FvfsPath) : Nat :=
  (FvfsPath.ancestorsWithin turns p).countP fun q => (s.fileAt q).isNone

def missingParents (s : Store) (p : FvfsPath) : Nat := s.missingWithin p.text.length p

/-- `t` has every row of `s` and `k` more, under the next ids. -/
structure Grown (s t : Store) (k : Nat) : Prop where
  ids : ∀ i, (t.files.get? i).isSome ↔
    (s.files.get? i).isSome ∨ (s.files.nextId ≤ i ∧ i < s.files.nextId + k)
  next : t.files.nextId = s.files.nextId + k
  kept : ∀ q x, s.fileAt q = some x → t.fileAt q = some x
  wal : t.wal = s.wal

theorem Grown.refl (s : Store) : Grown s s 0 := ⟨fun i => by grind, rfl, fun _ _ here => here, rfl⟩

theorem Grown.trans {t u : Store} {j k : Nat} (first : Grown s t j) (second : Grown t u k) :
    Grown s u (j + k) := by
  refine ⟨fun i => ?_, ?_, fun q x here => second.kept q x (first.kept q x here),
    second.wal.trans first.wal⟩
  · rw [second.ids, first.ids, first.next]
    grind
  · rw [second.next, first.next]
    omega

theorem grown_upsert (absent : s.fileAt m.path = none) : Grown s (s.upsert m).2 1 := by
  refine ⟨fun i => ?_, ?_, fun q x here => ?_, upsert_wal⟩
  · rw [upsert_insert absent]
    simp only [insertFile, Table.get?_insert]
    split
    next fresh => simp [fresh]
    next other =>
      have apart (low : s.files.nextId ≤ i) (high : i < s.files.nextId + 1) : False := by omega
      refine ⟨Or.inl, ?_⟩
      rintro (before | ⟨low, high⟩)
      · exact before
      · exact (apart low high).elim
  · rw [upsert_insert absent]
    exact Table.nextId_insert _ _
  · have other : q ≠ m.path := by
      rintro rfl
      simp [absent] at here
    rw [fileAt_upsert_other other, here]

theorem missingWithin_upsert (turns : Nat) {p : FvfsPath}
    (outside : m.path ∉ FvfsPath.ancestorsWithin turns p) :
    (s.upsert m).2.missingWithin turns p = s.missingWithin turns p := by
  refine List.countP_congr fun q above => ?_
  have other : q ≠ m.path := fun same => outside (same ▸ above)
  rw [fileAt_upsert_other other]

theorem walEnqueue_ok {fileId : Nat} {op : WalOp} {now : Int} {id : Nat} {t : Store}
    (enqueued : s.walEnqueue fileId op now = .ok (id, t)) :
    (s.files.get? fileId).isSome ∧ t.files = s.files ∧
      t.wal = s.wal.insert ⟨fileId, op, now, 0, none⟩ := by
  unfold walEnqueue at enqueued
  split at enqueued
  next present =>
    obtain ⟨-, rfl⟩ := Prod.mk.inj (Except.ok.inj enqueued)
    exact ⟨present, rfl, rfl⟩
  · contradiction

/-- A new entry, for this operation on this file. -/
def FreshEntry (before after : Store) (fileId : Nat) (op : WalOp) : Prop :=
  ∃ i e, before.wal.get? i = none ∧ after.wal.get? i = some e ∧ e.fileId = fileId ∧ e.op = op

/-- The two entries of an acknowledged write. -/
def Enqueued (before after : Store) (fileId : Nat) : Prop :=
  ∃ first second, after.wal = (before.wal.insert ⟨fileId, .replicateNas, first, 0, none⟩).insert
    ⟨fileId, .uploadS3, second, 0, none⟩

theorem Enqueued.fresh_iff {t : Store} {fileId other : Nat} (enqueued : Enqueued s t fileId)
    (op : WalOp) : FreshEntry s t other op ↔ other = fileId := by
  obtain ⟨first, second, wal⟩ := enqueued
  constructor
  · rintro ⟨i, e, absent, present, rfl, rfl⟩
    rw [wal, Table.get?_insert, Table.get?_insert] at present
    split at present
    · obtain rfl := Option.some.inj present
      rfl
    · split at present
      · obtain rfl := Option.some.inj present
        rfl
      · simp [absent] at present
  · rintro rfl
    cases op with
    | replicateNas =>
      refine ⟨s.wal.nextId, ⟨other, .replicateNas, first, 0, none⟩, by simp, ?_, rfl, rfl⟩
      rw [wal, Table.get?_insert, Table.nextId_insert]
      simp
    | uploadS3 =>
      refine ⟨s.wal.nextId + 1, ⟨other, .uploadS3, second, 0, none⟩, ?_, ?_, rfl, rfl⟩
      · exact Table.get?_of_nextId_le (Nat.le_succ _)
      · rw [wal, ← Table.nextId_insert, Table.get?_insert_self]

/-- The id an upsert at `p` answers, and the id of the row it writes. -/
def answeredId (s : Store) (p : FvfsPath) : Nat :=
  match s.fileAt p with
  | none => s.files.nextId
  | some _ => s.lastInsertRowid

theorem upsert_answeredId : (s.upsert m).1 = s.answeredId m.path := by
  cases found : s.fileAt m.path with
  | none => simp [upsert_insert found, answeredId, found]
  | some x => simp [upsert_conflict found, answeredId, found]

/-- The answer is the id of a row, once the missing ancestors of `p` are inserted. -/
def Refers (s : Store) (p : FvfsPath) : Prop :=
  s.fileAt p = none ∨ (s.files.get? s.lastInsertRowid).isSome ∨
    (s.files.nextId ≤ s.lastInsertRowid ∧ s.lastInsertRowid < s.files.nextId + s.missingParents p)

theorem refers_iff {t : Store} (grown : Grown (s.upsert m).2 t ((s.upsert m).2.missingParents m.path)) :
    (t.files.get? (s.answeredId m.path)).isSome ↔ s.Refers m.path := by
  have outside : m.path ∉ FvfsPath.ancestorsWithin m.path.text.length m.path :=
    fun above => FvfsPath.ancestor_ne above rfl
  rw [grown.ids, missingParents, missingWithin_upsert _ outside]
  cases found : s.fileAt m.path with
  | none =>
    simp only [answeredId, found, Refers, true_or, iff_true]
    left
    simp [upsert_insert found, insertFile]
  | some x =>
    rw [upsert_conflict found]
    simp only [answeredId, found, Refers, reduceCtorEq, false_or, updateFile_files,
      Table.nextId_modify, Table.isSome_get?_iff, Table.ids_modify]
    rfl

/-- Both entries are there for the file whose row is at `p`. -/
def Replicated (before after : Store) (p : FvfsPath) : Prop :=
  ∃ x, after.fileAt p = some x ∧ ∀ op, FreshEntry before after x.1 op

end Store

namespace Router

open Store

theorem ensureParents_grows {ok : Choice → Prop} {turns : Nat} {p : FvfsPath} {w : World} :
    (ensureParents turns p).wp perform ok (fun r w' => ∃ k ≤ w.store.missingWithin turns p,
      Grown w.store w'.store k ∧ (r = .ok () → k = w.store.missingWithin turns p) ∧
      ((∀ c, ok c → c.Faultless) → r = .ok ())) w := by
  -- So many rows were added, and so many are still to come.
  refine Prog.wp_mono (wp_ensureParents (fun rest u => rest.Nodup ∧ ∃ k,
    k + rest.countP (fun q => (u.store.fileAt q).isNone) = w.store.missingWithin turns p ∧
    Grown w.store u.store k) ?_ ⟨FvfsPath.ancestorsWithin_nodup, 0, Nat.zero_add _, .refl _⟩) ?_
  · rintro q rest u _ ⟨distinct, k, count, grown⟩ (@⟨m, there⟩ | ⟨now, absent⟩)
    · have present : u.store.fileAt q ≠ none := by
        intro nothing
        simp [Store.get, nothing] at there
      refine ⟨distinct.of_cons, k, ?_, grown⟩
      simpa [Option.isNone_iff_eq_none, present] using count
    · have missing : u.store.fileAt q = none := by simpa [Store.get] using absent
      have inserted := grown_upsert (m := .newDir now q) missing
      refine ⟨distinct.of_cons, k + 1, ?_, grown.trans inserted⟩
      have others : rest.countP (fun r => ((u.store.upsert (.newDir now q)).2.fileAt r).isNone) =
          rest.countP fun r => (u.store.fileAt r).isNone := by
        refine List.countP_congr fun r later => ?_
        have other : r ≠ q := fun same => (List.nodup_cons.mp distinct).1 (same ▸ later)
        rw [fileAt_upsert_other other]
      rw [World.withStore_store, others]
      simp only [List.countP_cons, missing, Option.isNone_none, if_true] at count
      omega
  · rintro r u ⟨rest, ⟨-, k, count, grown⟩, all, returns⟩
    refine ⟨k, by omega, grown, fun ok => ?_, returns⟩
    obtain rfl := all ok
    simpa using count

theorem enqueueReplication_any {ok : Choice → Prop} {w : World} (fileId : Nat) :
    (enqueueReplication fileId).wp perform ok (fun r w' =>
      (r = .ok () → (w.store.files.get? fileId).isSome ∧ w'.store.files = w.store.files ∧
        Enqueued w.store w'.store fileId) ∧
      ((∀ c, ok c → c.Faultless) → (w.store.files.get? fileId).isSome → r = .ok ())) w := by
  apply (Prog.wp_bind _ _ _ _).mpr
  apply wp_walEnqueue
  · intro first id s enqueued
    obtain ⟨present, files, wal⟩ := Store.walEnqueue_ok enqueued
    apply (Prog.wp_bind _ _ _ _).mpr
    apply wp_walEnqueue
    · intro second id' s' enqueued'
      obtain ⟨_, files', wal'⟩ := Store.walEnqueue_ok enqueued'
      refine ⟨fun _ => ⟨present, ?_, first, second, ?_⟩, fun _ _ => rfl⟩
      · exact files'.trans files
      · rw [World.withStore_store, wal', World.withStore_store, wal]
    · intro e why
      refine ⟨nofun, fun faultless _ => ?_⟩
      have absent := why faultless
      rw [World.withStore_store, files] at absent
      simp [absent] at present
  · intro e why
    refine ⟨nofun, fun faultless present => ?_⟩
    simp [why faultless] at present

theorem write_outcome (ok : Choice → Prop) {w : World} (sha256 : Bytes → Text) (p : FvfsPath)
    (data : Bytes) :
    (write sha256 p data).wp perform ok (fun r w' =>
      (r = .ok () → Enqueued w.store w'.store (w.store.answeredId p) ∧ w.store.Refers p ∧
        ∃ x, w'.store.fileAt p = some (w.store.upsertedId p, x)) ∧
      ((∀ c, ok c → c.Faultless) → w.store.Refers p → r = .ok ())) w := by
  apply (Prog.wp_bind _ _ _ _).mpr
  apply wp_put
  · refine (Prog.wp_bind _ _ _ _).mpr (wp_now fun clock => ?_)
    apply (Prog.wp_bind _ _ _ _).mpr
    apply wp_upsert
    · refine (Prog.wp_bind _ _ _ _).mpr (Prog.wp_mono ensureParents_grows ?_)
      rintro r mid ⟨k, _, grown, all, returns⟩
      cases r with
      | error e => exact ⟨nofun, fun faultless _ => nomatch returns faultless⟩
      | ok =>
        obtain rfl := all rfl
        have refers := refers_iff grown
        apply Prog.wp_mono (enqueueReplication_any _)
        rintro r w' ⟨done, returns⟩
        rw [World.setObject_store, upsert_answeredId] at done returns
        refine ⟨fun ok => ?_, fun faultless there => returns faultless (refers.mpr there)⟩
        obtain ⟨present, files, first, second, wal⟩ := done ok
        refine ⟨⟨first, second, ?_⟩, refers.mp present,
          upsertedRow (writtenMetadata sha256 p data clock) (w.store.fileAt p), ?_⟩
        · rw [wal, grown.wal, World.withStore_store, upsert_wal]
          rfl
        · have here := grown.kept _ _ (fileAt_upsert_self (m := writtenMetadata sha256 p data clock))
          rw [fileAt_eq_some_iff] at here ⊢
          rwa [files]
    · exact fun e c permitted faulty =>
        ⟨nofun, fun faultless _ => absurd (faultless c permitted) faulty⟩
  · exact fun e c permitted faulty =>
      ⟨nofun, fun faultless _ => absurd (faultless c permitted) faulty⟩
  · exact fun e n c permitted faulty _ =>
      ⟨nofun, fun faultless _ => absurd (faultless c permitted) faulty⟩

theorem write_own_row_iff (sha256 : Bytes → Text) (w : World) (p : FvfsPath) (data : Bytes) :
    (∀ env : Nat → Choice, ((write sha256 p data).exec perform env w).1 = .ok () →
      Replicated w.store ((write sha256 p data).exec perform env w).2.store p) ↔
      w.store.fileAt p = none ∨ (∃ r, w.store.fileAt p = some (w.store.lastInsertRowid, r)) ∨
      ¬w.store.Refers p := by
  constructor
  · intro valid
    by_contra wrong
    simp only [not_or, not_not, not_exists] at wrong
    obtain ⟨present, apart, refers⟩ := wrong
    have outcome := Prog.exec_of_wp (write_outcome Choice.Faultless (w := w) sha256 p data)
      (fun _ => .quiet 0) fun _ => Choice.faultless_quiet 0
    have returned := outcome.2 (fun _ quiet => quiet) refers
    obtain ⟨enqueued, _, row, here⟩ := outcome.1 returned
    obtain ⟨x, there, fresh⟩ := valid _ returned
    obtain rfl := Option.some.inj (here.symm.trans there)
    have same := (enqueued.fresh_iff _).mp (fresh .uploadS3)
    cases found : w.store.fileAt p with
    | none => exact present found
    | some y =>
      simp only [upsertedId, answeredId, found] at same
      exact apart y.2 (by rw [found, ← same])
  · intro right env returned
    have outcome := Prog.exec_of_wp (write_outcome (fun _ => True) (w := w) sha256 p data)
      env fun _ => trivial
    obtain ⟨enqueued, refers, row, here⟩ := outcome.1 returned
    refine ⟨_, here, fun op => (enqueued.fresh_iff op).mpr ?_⟩
    rcases right with absent | ⟨r, there⟩ | refused
    · simp only [upsertedId, answeredId, absent]
    · simp only [upsertedId, answeredId, there]
    · exact absurd refers refused

/-- An upsert answers the id of its own row, and an acknowledged write queues work for
it, exactly where the row is new or was the connection's last insert of either table;
otherwise the queued entries name another row, or no row at all. -/
theorem row_id_iff (sha256 : Bytes → Text) (w : World) :
    (∀ m, (∃ r, (w.store.upsert m).2.fileAt m.path = some ((w.store.upsert m).1, r)) ↔
      w.store.fileAt m.path = none ∨ ∃ r, w.store.fileAt m.path = some (w.store.lastInsertRowid, r)) ∧
    ∀ p data, (∀ env : Nat → Choice, ((write sha256 p data).exec perform env w).1 = .ok () →
      Replicated w.store ((write sha256 p data).exec perform env w).2.store p) ↔
      w.store.fileAt p = none ∨ (∃ r, w.store.fileAt p = some (w.store.lastInsertRowid, r)) ∨
      ¬w.store.Refers p :=
  ⟨fun _ => upsert_answers_row_id_iff, write_own_row_iff sha256 w⟩

/-- Overwriting a fresh file queues its replication under the id of the root directory. -/
theorem overwrite_queues_root :
    let p : FvfsPath := ⟨['/', 'a']⟩
    let first := (write sampleSha256 p [1]).exec perform (fun _ => .quiet 0) .empty
    let second := (write sampleSha256 p [2]).exec perform (fun _ => .quiet 0) first.2
    second.1 = .ok () ∧ ¬Replicated first.2.store second.2.store p ∧
      (second.2.store.fileAt p).map Prod.fst = some 1 ∧
      (first.2.store.upsert (writtenMetadata sampleSha256 p [2] 0)).1 = 2 := by
  intro p first second
  have own : (second.2.store.fileAt p).map Prod.fst = some 1 := by decide
  refine ⟨by decide, ?_, own, by decide⟩
  rintro ⟨x, there, fresh⟩
  obtain ⟨i, e, absent, present, file, -⟩ := fresh .uploadS3
  have known : ∀ y ∈ second.2.store.wal.rows, y.2.fileId = 1 →
      (first.2.store.wal.get? y.1).isSome := by decide
  rw [there] at own
  have id : x.1 = 1 := Option.some.inj own
  have old := known (i, e) (Table.mem_rows_iff.mpr present) (file.trans id)
  simp [absent] at old

end Router

end Fvfs
