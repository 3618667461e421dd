import Fvfs.ReplayAttempts

/-! A flush of the S3 uploader: each pending upload is settled on its own, whatever becomes
of the others. -/
namespace Fvfs

open Lib

namespace Store

variable {s s' : Store} {p : FvfsPath} {i : Nat}

/-- The id of the row at a path. -/
def idAt (s : Store) (p : FvfsPath) : Option Nat := (s.fileAt p).map Prod.fst

theorem idAt_eq (s : Store) (p : FvfsPath) :
    s.idAt p = ((s.bare.files.map FileRow.path).findRow (· == p.text)).map Prod.fst := by
  unfold idAt fileAt bare
  rw [Table.map_map, Table.findRow_map fun _ => rfl, Option.map_map]
  rfl

/-- Changes of bitmasks keep every path where it is. -/
theorem idAt_congr (same : s'.bare.files.map FileRow.path = s.bare.files.map FileRow.path) :
    s'.idAt p = s.idAt p := by rw [idAt_eq, idAt_eq, same]

theorem paths_addBit {table : Table FileRow} {t : Tier} :
    (table.modify i (addBit t)).map FileRow.path = table.map FileRow.path :=
  Table.map_modify_of_same fun _ => rfl

theorem idAt_eq_some_iff {r : FileRow} (row : s.files.get? i = some r) :
    s.idAt p = some i ↔ p = ⟨r.path⟩ := by
  constructor
  · intro at_p
    obtain ⟨⟨j, r'⟩, found, rfl⟩ := Option.map_eq_some_iff.mp at_p
    obtain ⟨again, path⟩ := fileAt_eq_some_iff.mp found
    obtain rfl := Option.some.inj (row.symm.trans again)
    exact FvfsPath.ext path.symm
  · rintro rfl
    have found : s.fileAt ⟨r.path⟩ = some (i, r) := fileAt_eq_some_iff.mpr ⟨row, rfl⟩
    simp [idAt, found]

theorem CanonicalPaths.congr (canonical : s.CanonicalPaths)
    (same : s'.bare.files.map FileRow.path = s.bare.files.map FileRow.path) :
    s'.CanonicalPaths := by
  intro i r row
  have path := congrArg (Table.get? · i) same
  simp only [Table.get?_map, row, Option.map_some] at path
  obtain ⟨r', found, eq⟩ := Option.map_eq_some_iff.mp path.symm
  exact eq ▸ canonical i r' found

end Store

namespace Router

variable {entry : WalEntry} {w v w' : World} {log : Journal Sys World}

/-- A flush gives an upload one of the tries a replay gives it. -/
theorem flushEntry_eq (upload : entry.op = .uploadS3) : flushEntry entry = replayEntry entry 1 := by
  have same (m : FileMetadata) : replayOp entry m = uploadToS3 m := by rw [replayOp, upload]
  unfold flushEntry replayEntry
  congr 1
  funext found
  rcases found with e | _ | m
  · rfl
  · rfl
  · simp only [same]
    congr 1
    funext result
    cases result with
    | ok => rfl
    | error e => exact (bind_pure _).symm

/-- What the tiers hold after one turn of a flush. -/
structure Uploaded (entry : WalEntry) (w : World) (log : Journal Sys World) (v : World) : Prop where
  read : ∀ data, stored .s3 log = some data → fetched log = some data
  s3 : ∀ p, v.tiers .s3 p = if w.store.idAt p = some entry.fileId then
    (stored .s3 log).or (w.tiers .s3 p) else w.tiers .s3 p
  warmer : ∀ t, t ≠ .s3 → v.tiers t = w.tiers t

theorem serves_flushEntry (entry : WalEntry) (w : World) :
    Serves (flushEntry entry) (fun r log v => r = .ok () ∧
      (w.store.CanonicalPaths → Uploaded entry w log v)) w := by
  unfold flushEntry
  refine (Prog.noted_bind ..).mpr ((Prog.noted_attempt ..).mpr ((serves_metaGetById ..).mpr ?_))
  cases loaded : w.store.getById entry.fileId with
  | none =>
    refine (Prog.noted_bind ..).mpr ((Prog.noted_attempt ..).mpr ((serves_walComplete ..).mpr ?_))
    exact ⟨rfl, fun _ => ⟨by simp, by simp, fun _ _ => rfl⟩⟩
  | some m =>
    refine Prog.noted_try (serves_uploadToS3 m) fun r log v shipment => ?_
    cases shipment with
    | done data took read bare =>
      obtain ⟨-, -, tiers⟩ := same_of_bare bare
      obtain ⟨r, found, -, -, path⟩ := Store.row_of_getById loaded
      refine Prog.noted_mono (serves_settle_ok entry v) ?_
      rintro r later v' ⟨done, rfl, rfl⟩
      refine ⟨done, fun canonical => ⟨?_, ?_, ?_⟩⟩
      · simp [took, read]
      · intro p
        simp [took, tiers, shipped, World.setObject_tiers, Store.idAt_eq_some_iff found,
          path canonical]
      · intro t warm
        funext p
        simp [tiers, shipped, World.setObject_tiers, warm]
    | refused e took store tiers =>
      refine Prog.noted_mono (serves_settle_error entry e v) ?_
      rintro r later v' ⟨done, rfl, rfl⟩
      have same : v.tiers = w.tiers := tiers rfl
      refine ⟨done, fun _ => ⟨?_, ?_, ?_⟩⟩
      · simp [took]
      · simp [took, same]
      · simp [same]

/-- What S3 took last for a row. -/
def lastStored : List (WalEntry × Journal Sys World) → Nat → Option Bytes
  | [], _ => none
  | (entry, log) :: rest, id =>
    (lastStored rest id).or (if entry.fileId = id then stored .s3 log else none)

/-- What the tiers hold after a flush: S3 has what each upload read, later uploads over
earlier ones. -/
structure UploadedAll (w : World) (turns : List (WalEntry × Journal Sys World)) (w' : World) :
    Prop where
  read : ∀ x ∈ turns, ∀ data, stored .s3 x.2 = some data → fetched x.2 = some data
  s3 : ∀ p, w'.tiers .s3 p = ((w.store.idAt p).bind (lastStored turns)).or (w.tiers .s3 p)
  warmer : ∀ t, t ≠ .s3 → w'.tiers t = w.tiers t

theorem Uploaded.cons {rest : List (WalEntry × Journal Sys World)} (turn : Uploaded entry w log v)
    (later : UploadedAll v rest w') (paths : ∀ p, v.store.idAt p = w.store.idAt p) :
    UploadedAll w ((entry, log) :: rest) w' where
  read := by
    rintro x (_ | ⟨_, member⟩) data took
    · exact turn.read data took
    · exact later.read x member data took
  s3 p := by
    rw [later.s3, paths, turn.s3]
    cases w.store.idAt p with
    | none => simp
    | some j =>
      by_cases same : entry.fileId = j
      · simp [lastStored, same, Option.or_assoc]
      · have other : ¬j = entry.fileId := fun eq => same eq.symm
        simp [lastStored, same, other]
  warmer t warm := (later.warmer t warm).trans (turn.warmer t warm)

/-- A turn changes no path. -/
theorem Retried.paths {n : Nat} (retried : Retried entry n w log v) :
    v.store.bare.files.map FileRow.path = w.store.bare.files.map FileRow.path := by
  rw [retried.rows]
  split
  · exact Store.paths_addBit
  · rfl

theorem serves_flushEntry_retried (upload : entry.op = .uploadS3) :
    Serves (flushEntry entry) (fun _ log v => Retried entry 1 w log v) w := by
  rw [flushEntry_eq upload]
  exact Prog.noted_mono (serves_replayEntry entry 1 w) fun _ _ _ done => done.2

theorem uploadedAll_of_turns {turns : List (WalEntry × Journal Sys World)}
    (runs : Turns serve flushEntry w turns w') (uploads : ∀ x ∈ turns, x.1.op = .uploadS3)
    (canonical : w.store.CanonicalPaths) : UploadedAll w turns w' := by
  induction runs with
  | nil w => exact ⟨by simp, fun p => by cases w.store.idAt p <;> rfl, fun _ _ => rfl⟩
  | @cons entry log rest w v w' turn later ih =>
    have uploaded := (turn.holds (serves_flushEntry entry w)).2 canonical
    have paths := (turn.holds (serves_flushEntry_retried (uploads _ List.mem_cons_self))).paths
    refine uploaded.cons (ih (fun x member => uploads x (List.mem_cons_of_mem _ member)) ?_)
      fun p => Store.idAt_congr paths
    exact canonical.congr paths

theorem serves_flushPending (w : World) :
    Serves flushPending (fun _ log w' => ∃ turns,
      turns.map Prod.fst = w.store.walPending.filter flushable ∧
      log = ⟨w, .walPending, .ok w.store.walPending⟩ :: (turns.map Prod.snd).flatten ∧
      Turns serve flushEntry w turns w') w := by
  unfold flushPending
  refine (Prog.noted_bind ..).mpr ((Prog.noted_attempt ..).mpr ((serves_walPending ..).mpr ?_))
  refine Prog.noted_mono (noted_turns flushEntries rfl (fun _ _ => rfl) ?_ _ _) ?_
  · exact fun entry w => Prog.noted_mono (serves_flushEntry entry w) fun _ _ _ done => done.1
  · rintro r log w' ⟨-, turns, items, rfl, runs⟩
    exact ⟨turns, items, rfl, runs⟩

theorem marked_uploads {turns : List (WalEntry × Journal Sys World)}
    (uploads : ∀ x ∈ turns, x.1.op = .uploadS3) (i : Nat) (r : FileRow) :
    marked turns i r = if (lastStored turns i).isSome then Store.addBit .s3 r else r := by
  induction turns generalizing r with
  | nil => rfl
  | cons x rest ih =>
    obtain ⟨entry, log⟩ := x
    have target : entry.op.target = .s3 := by rw [uploads _ List.mem_cons_self]; rfl
    rw [marked, ih fun x member => uploads x (List.mem_cons_of_mem _ member), target, lastStored]
    by_cases same : entry.fileId = i
    · cases stored .s3 log <;> cases lastStored rest i <;> simp [same, Store.addBit_again]
    · simp [same]

/-- One try: the entry is gone, or has counted one failure. -/
theorem RetryOutcome.fate {turns : List (WalEntry × Journal Sys World)}
    (outcome : RetryOutcome (fun _ => 1) w turns w') {x : WalEntry × Journal Sys World}
    (listed : x.1 ∈ w.store.walPending) (member : x ∈ turns) :
    (((stored x.1.op.target x.2).isSome ∨ w.store.getById x.1.fileId = none) ∧
      w'.store.wal.get? x.1.id = none) ∨
    (¬((stored x.1.op.target x.2).isSome ∨ w.store.getById x.1.fileId = none) ∧
      ∃ row last, w.store.wal.get? x.1.id = some row ∧ w'.store.wal.get? x.1.id =
        some { row with attempts := row.attempts + 1, lastError := last }) := by
  obtain ⟨row, found, -⟩ := mem_walPending.mp listed
  by_cases settled : (stored x.1.op.target x.2).isSome ∨ w.store.getById x.1.fileId = none
  · refine Or.inl ⟨settled, outcome.gone x member (settled.imp_right fun missing => ?_)⟩
    exact ⟨Nat.one_pos, Store.getById_eq_none_iff.mp missing⟩
  · obtain ⟨untaken, present⟩ := not_or.mp settled
    obtain ⟨counted, last, after⟩ := outcome.failed x member (by simpa using untaken)
      (mt Store.getById_eq_none_iff.mpr present)
    rw [found, Option.map_some, counted] at after
    exact Or.inr ⟨settled, row, last row.lastError, found, after⟩

/-- What a flush with this journal comes to: an upload below the limit is gone exactly when
S3 took the file in its turn or the row is gone, and counts one more failure otherwise; the
rows S3 took get its bit; all else is as it was. -/
structure FlushOutcome (w : World) (log : Journal Sys World)
    (turns : List (WalEntry × Journal Sys World)) (w' : World) : Prop where
  items : turns.map Prod.fst = w.store.walPending.filter flushable
  written : log =
    ⟨w, .walPending, .ok w.store.walPending⟩ :: (turns.map Prod.snd).flatten
  runs : Turns serve flushEntry w turns w'
  gone_iff : ∀ x ∈ turns, w'.store.wal.get? x.1.id = none ↔
    (stored .s3 x.2).isSome ∨ w.store.getById x.1.fileId = none
  failed : ∀ x ∈ turns, w'.store.wal.get? x.1.id ≠ none → ∃ row last,
    w.store.wal.get? x.1.id = some row ∧ w'.store.wal.get? x.1.id =
      some { row with attempts := row.attempts + 1, lastError := last }
  others : ∀ i, i ∉ turns.map (·.1.id) → w'.store.wal.get? i = w.store.wal.get? i
  rows : ∀ i, w'.store.bare.files.get? i = (w.store.bare.files.get? i).map fun r =>
    if (lastStored turns i).isSome then Store.addBit .s3 r else r
  copies : UploadedAll w turns w'

/-- A flush isolates failures, whatever the backends do. -/
theorem flush_isolates (canonical : ∀ p x, w.store.rowState p = some x → p.Canonical)
    (env : Nat → Choice) :
    ∃ turns, FlushOutcome w (flushPending.journal serve env w) turns
      (flushPending.exec serve env w).2 := by
  obtain ⟨turns, items, log, runs⟩ :=
    Prog.exec_of_noted (serves_flushPending w) env fun _ => trivial
  have listed : ∀ x ∈ turns, x.1 ∈ w.store.walPending ∧ x.1.op = .uploadS3 := by
    intro x member
    obtain ⟨pending, flushes⟩ := List.mem_filter.mp (items ▸ List.mem_map_of_mem member)
    exact ⟨pending, by simpa using (Bool.and_eq_true_iff.mp flushes).1⟩
  have ids : turns.map (·.1.id) = (w.store.walPending.filter flushable).map WalEntry.id := by
    rw [← items, List.map_map]
    rfl
  have distinct : (turns.map (·.1.id)).Nodup := by
    rw [ids]
    exact w.store.walPending_ids_nodup.sublist (List.filter_sublist.map _)
  have outcome := retryOutcome_of_turns (n := fun _ => 1) runs
    (fun x member w => serves_flushEntry_retried (listed x member).2) distinct
  have uploads := uploadedAll_of_turns runs (fun x member => (listed x member).2)
    (Store.canonicalPaths_of_rowState canonical)
  have fate := fun x member => outcome.fate (listed x member).1 member
  refine ⟨turns, items, log, runs, ?_, ?_, outcome.others, ?_, uploads⟩
  · intro x member
    have target : x.1.op.target = .s3 := by rw [(listed x member).2]; rfl
    rcases fate x member with ⟨why, gone⟩ | ⟨unsettled, row, last, found, after⟩
    · exact iff_of_true gone (target ▸ why)
    · exact iff_of_false (by simp [after]) (target ▸ unsettled)
  · intro x member pending
    rcases fate x member with ⟨-, gone⟩ | ⟨-, row, last, found, after⟩
    · exact absurd gone pending
    · exact ⟨row, last, found, after⟩
  · intro i
    rw [outcome.rows]
    congr 1
    funext r
    exact marked_uploads (fun x member => (listed x member).2) i r

/-- A flush of one written file. -/
theorem flush_isolates_written :
    ∃ turns, FlushOutcome Request.written
      (flushPending.journal serve (fun _ => .quiet 0) Request.written) turns
      (flushPending.exec serve (fun _ => .quiet 0) Request.written).2 :=
  flush_isolates (Store.canonical_of_rows (by decide)) _

end Router

end Fvfs
