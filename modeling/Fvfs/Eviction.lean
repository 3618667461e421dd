import Fvfs.Requests
import Fvfs.Steps

/-! An eviction racing a write of the same path. The eviction deletes and writes the
bitmask back on the strength of a snapshot that the write may have overtaken. -/
namespace Fvfs

open Lib Step Router

variable {sha256 : Bytes → Text} {p : FvfsPath} {t : Tier} {data : Bytes} {w₀ : World}

/-- An eviction holds the bitmask of the row the race began with. -/
def EvictPhase.Snapshot (w₀ : World) (p : FvfsPath) : EvictPhase → Prop
  | .dropping m | .marking m => w₀.store.rowState p = some (Store.metadataState m m.id)
  | _ => True

structure EvictFacts (w₀ : World) (p : FvfsPath) (t : Tier) (data : Bytes)
    (past : List (Event Sys Party)) (w : World) (s : EvictPhase) (ph : WritePhase) : Prop where
  copy : LastBy (Changed .localDisk p) .client past → w.tiers .localDisk p = some data
  gone : LastBy (Changed .localDisk p) .task past → t = .localDisk ∧ w.tiers .localDisk p = none
  others : ∀ u, u ≠ .localDisk → u ≠ t → w.tiers u p = w₀.tiers u p
  row_start : ¬Occurs (Updated p) past → w.store.rowState p = w₀.store.rowState p
  row_client : LastBy (Updated p) .client past →
    ∃ x, w.store.rowState p = some x ∧ ∀ u, x.tierBitmask.has u = decide (u = .localDisk)
  row_task : LastBy (Updated p) .task past → ∃ x x₀, w.store.rowState p = some x ∧
    w₀.store.rowState p = some x₀ ∧ x.tierBitmask = x₀.tierBitmask.clear t
  same_id : ∀ x₀, w₀.store.rowState p = some x₀ →
    ∃ x, w.store.rowState p = some x ∧ x.id = x₀.id
  snapshot : s.Snapshot w₀ p
  unmarked : s ≠ .ended → ¬LastBy (Updated p) .task past
  stored : ph ≠ .storing → Occurs (Changed .localDisk p) past
  recorded : ph = .finishing → Occurs (Updated p) past

variable {past : List (Event Sys Party)} {w w' : World} {e : Event Sys Party} {c : Choice}

/-- A step that touches neither the local copy nor the row. -/
theorem EvictFacts.of_idle {s s' : EvictPhase} {ph ph' : WritePhase}
    (facts : EvictFacts w₀ p t data past w s ph) (unchanged : ¬Changed .localDisk p e)
    (unupdated : ¬Updated p e) (row : w'.store.rowState p = w.store.rowState p)
    (hot : w'.tiers .localDisk p = w.tiers .localDisk p)
    (cold : ∀ u, u ≠ .localDisk → u ≠ t → w'.tiers u p = w.tiers u p)
    (snapshot : s'.Snapshot w₀ p) (onward : s' ≠ .ended → s ≠ .ended)
    (stored : ph' ≠ .storing → Occurs (Changed .localDisk p) past)
    (recorded : ph' = .finishing → Occurs (Updated p) past) :
    EvictFacts w₀ p t data (past ++ [e]) w' s' ph' where
  copy last := by
    rw [hot]
    exact facts.copy (by simpa [unchanged] using last)
  gone last := by
    rw [hot]
    exact facts.gone (by simpa [unchanged] using last)
  others u colder kept := (cold u colder kept).trans (facts.others u colder kept)
  row_start none_yet := row.trans (facts.row_start (by simpa [unupdated] using none_yet))
  row_client last := by
    rw [row]
    exact facts.row_client (by simpa [unupdated] using last)
  row_task last := by
    rw [row]
    exact facts.row_task (by simpa [unupdated] using last)
  same_id x₀ there := by
    rw [row]
    exact facts.same_id x₀ there
  snapshot := snapshot
  unmarked going last := facts.unmarked (onward going) (by simpa [unupdated] using last)
  stored started := by simp [stored started]
  recorded done := by simp [recorded done]

theorem EvictFacts.client_keeps {s : EvictPhase} {ph ph' : WritePhase}
    (facts : EvictFacts w₀ p t data past w s ph)
    (step : WriteStep sha256 p data .client c w ph e w' ph') :
    ph' = .failed ∨ EvictFacts w₀ p t data (past ++ [e]) w' s ph' := by
  cases step with
  | store =>
    refine Or.inr ⟨fun _ => World.setObject_same, fun last => ?_, fun u colder kept => ?_, ?_, ?_,
      ?_, facts.same_id, facts.snapshot, ?_, fun _ => ?_, by simp⟩
    · simp [Changed, Stored] at last
    · rw [World.setObject_tiers, if_neg (by simp [colder])]
      exact facts.others u colder kept
    · simpa [Updated, Recorded, Marked] using facts.row_start
    · simpa [Updated, Recorded, Marked] using facts.row_client
    · simpa [Updated, Recorded, Marked] using facts.row_task
    · simpa [Updated, Recorded, Marked] using facts.unmarked
    · simp [Changed, Stored]
  | unstored e faulty => exact Or.inl rfl
  | tear e n faulty torn => exact Or.inl rfl
  | time =>
    refine Or.inr (facts.of_idle ?_ ?_ rfl rfl (fun _ _ _ => rfl) facts.snapshot id ?_ (by simp))
    · simp [Changed, Stored, Dropped]
    · simp [Updated, Recorded, Marked]
    · exact fun _ => facts.stored (by simp)
  | record now =>
    have row := Store.rowState_upsert_self (s := w.store) (writtenMetadata sha256 p data now)
    refine Or.inr ⟨?_, ?_, facts.others, fun absent => ?_, fun _ => ⟨_, row, fun u => ?_⟩,
      fun last => ?_, fun x₀ there => ⟨_, row, ?_⟩, facts.snapshot, fun _ last => ?_, fun _ => ?_,
      fun _ => ?_⟩
    · simpa [Changed, Stored, Dropped] using facts.copy
    · simpa [Changed, Stored, Dropped] using facts.gone
    · simp [Updated, Recorded, writtenMetadata] at absent
    · exact writtenMetadata_has sha256 p data now u
    · simp [Updated, Recorded, writtenMetadata] at last
    · obtain ⟨x, current, same⟩ := facts.same_id x₀ there
      exact (Store.upsertedId_of_rowState current).trans same
    · simp [Updated, Recorded, writtenMetadata] at last
    · simp [facts.stored]
    · simp [Updated, Recorded, writtenMetadata]
  | unrecorded now e faulty => exact Or.inl rfl
  | aside elsewhere same =>
    refine Or.inr (facts.of_idle ?_ ?_ (congrArg View.row same)
      (congrFun (congrArg View.object same) _) (fun u _ _ => congrFun (congrArg View.object same) u)
      facts.snapshot id ?_ ?_)
    · simp [Changed, elsewhere.not_stored, elsewhere.not_dropped]
    · simp [Updated, elsewhere.not_recorded, elsewhere.not_marked]
    · exact fun _ => facts.stored (by simp)
    · exact fun _ => facts.recorded rfl

/-- An eviction that gets past its safety check has loaded the first row: after the write
only the local bit is set. -/
theorem EvictFacts.loaded {s : EvictPhase} {ph : WritePhase}
    (facts : EvictFacts w₀ p t data past w s ph) (going : s ≠ .ended) {m : FileMetadata}
    (found : w.store.get p = some m) (safe : m.tierBitmask.safeToEvictFrom t = true) :
    w₀.store.rowState p = some (Store.metadataState m m.id) := by
  have row := Store.rowState_of_get found
  by_cases updated : Occurs (Updated p) past
  · obtain ⟨i, last⟩ := exists_lastBy updated
    cases i with
    | task => exact absurd last (facts.unmarked going)
    | client =>
      obtain ⟨x, current, bits⟩ := facts.row_client last
      obtain rfl := Option.some.inj (row.symm.trans current)
      have warm : t ≠ .s3 := by
        rintro rfl
        simp at safe
      rw [TierBitmask.safeToEvictFrom_eq _ warm] at safe
      have unset : m.tierBitmask.has .s3 = false := bits .s3
      simp [unset] at safe
  · rw [← facts.row_start updated, row]

theorem EvictFacts.task_keeps {s s' : EvictPhase} {ph : WritePhase}
    (facts : EvictFacts w₀ p t data past w s ph) (step : EvictStep p t .task c w s e w' s') :
    EvictFacts w₀ p t data (past ++ [e]) w' s' ph := by
  cases step with
  | load m found safe =>
    have loaded := facts.loaded nofun found safe
    refine facts.of_idle ?_ ?_ rfl rfl (fun _ _ _ => rfl) loaded (fun _ => nofun) facts.stored
      facts.recorded
    · simp [Changed, Stored, Dropped]
    · simp [Updated, Recorded, Marked]
  | drop m =>
    have unupdated : ¬Updated p (⟨.task, .delete t p, .ok ()⟩ : Event Sys Party) := by
      simp [Updated, Recorded, Marked]
    by_cases hot : t = .localDisk
    · subst hot
      refine ⟨fun last => ?_, fun _ => ⟨rfl, World.setObject_same⟩, fun u colder kept => ?_, ?_, ?_,
        ?_, facts.same_id, facts.snapshot, ?_, fun started => ?_, fun done => ?_⟩
      · simp [Changed, Dropped] at last
      · rw [World.setObject_tiers, if_neg (by simp [colder])]
        exact facts.others u colder kept
      · simpa [unupdated] using facts.row_start
      · simpa [unupdated] using facts.row_client
      · simpa [unupdated] using facts.row_task
      · simpa [unupdated] using facts.unmarked
      · simp [facts.stored started]
      · simp [facts.recorded done]
    · refine facts.of_idle ?_ unupdated rfl ?_ (fun u _ kept => ?_) facts.snapshot (fun _ => nofun)
        facts.stored facts.recorded
      · simp [Changed, Stored, Dropped, hot]
      · rw [World.setObject_tiers, if_neg (by simp [Ne.symm hot])]
      · rw [World.setObject_tiers, if_neg (by simp [kept])]
  | mark m =>
    have loaded : w₀.store.rowState p = some (Store.metadataState m m.id) := facts.snapshot
    obtain ⟨x, current, same⟩ := facts.same_id _ loaded
    have row := Store.rowState_setTierBitmask (s := w.store) (p := p) m.id (m.tierBitmask.clear t)
    rw [current, Option.map_some, if_pos (show x.id = m.id from same)] at row
    refine ⟨?_, ?_, facts.others, fun absent => ?_, fun last => ?_,
      fun _ => ⟨_, _, row, loaded, rfl⟩, fun x₀ there => ?_, trivial, fun going => absurd rfl going,
      fun started => ?_, fun done => ?_⟩
    · simpa [Changed, Stored, Dropped] using facts.copy
    · simpa [Changed, Stored, Dropped] using facts.gone
    · simp [Updated, Recorded, Marked] at absent
    · simp [Updated, Recorded, Marked] at last
    · obtain rfl := Option.some.inj (there.symm.trans loaded)
      exact ⟨_, row, same⟩
    · simp [facts.stored started]
    · simp [facts.recorded done]
  | stop silent cause =>
    refine facts.of_idle ?_ ?_ rfl rfl (fun _ _ _ => rfl) trivial (fun going => absurd rfl going)
      facts.stored facts.recorded
    · simp [Changed, silent.not_stored, silent.not_dropped]
    · simp [Updated, silent.not_recorded, silent.not_marked]

/-- Some tier whose bit is set holds these bytes. -/
def Kept (w : World) (p : FvfsPath) (data : Bytes) : Prop :=
  ∃ x u, w.store.rowState p = some x ∧ x.tierBitmask.has u = true ∧ w.tiers u p = some data

theorem EvictFacts.kept_iff {s : EvictPhase} (facts : EvictFacts w₀ p t data past w s .finishing) :
    Kept w p data ↔
      (LastBy (Updated p) .task past → ∃ x u, w₀.store.rowState p = some x ∧ u ≠ t ∧
        x.tierBitmask.has u = true ∧ (u = .localDisk ∨ w₀.tiers u p = some data)) ∧
      (LastBy (Updated p) .client past → LastBy (Changed .localDisk p) .client past) := by
  obtain ⟨i, changed⟩ := exists_lastBy (facts.stored nofun)
  obtain ⟨j, updated⟩ := exists_lastBy (facts.recorded rfl)
  cases j with
  | client =>
    obtain ⟨x, row, bits⟩ := facts.row_client updated
    have only : ¬LastBy (Updated p) .task past := fun last => nomatch updated.unique last
    have hot : Kept w p data ↔ w.tiers .localDisk p = some data := by
      constructor
      · rintro ⟨y, u, row', set, holds⟩
        obtain rfl := Option.some.inj (row.symm.trans row')
        obtain rfl : u = .localDisk := by simpa [bits] using set
        exact holds
      · exact fun holds => ⟨x, .localDisk, row, by simp [bits], holds⟩
    simp only [hot, only, updated, false_implies, true_implies, true_and]
    cases i with
    | client => simp [changed, facts.copy changed]
    | task =>
      have dropped : ¬LastBy (Changed .localDisk p) .client past :=
        fun last => nomatch changed.unique last
      simp [dropped, (facts.gone changed).2]
  | task =>
    obtain ⟨x, x₀, row, first, bits⟩ := facts.row_task updated
    have only : ¬LastBy (Updated p) .client past := fun last => nomatch updated.unique last
    simp only [only, updated, false_implies, true_implies, and_true]
    have hot (kept : .localDisk ≠ t) : w.tiers .localDisk p = some data := by
      cases i with
      | client => exact facts.copy changed
      | task => exact absurd (facts.gone changed).1.symm kept
    constructor
    · rintro ⟨y, u, row', set, holds⟩
      obtain rfl := Option.some.inj (row.symm.trans row')
      simp only [bits, TierBitmask.has_clear, Bool.and_eq_true, Bool.not_eq_true',
        decide_eq_false_iff_not] at set
      refine ⟨x₀, u, first, set.2, set.1, ?_⟩
      by_cases colder : u = .localDisk
      · exact Or.inl colder
      · exact Or.inr ((facts.others u colder set.2).symm.trans holds)
    · rintro ⟨y, u, row', kept, set, held⟩
      obtain rfl := Option.some.inj (first.symm.trans row')
      refine ⟨x, u, row, by simp [bits, set, kept], ?_⟩
      by_cases colder : u = .localDisk
      · subst colder
        exact hot kept
      · rw [facts.others u colder kept]
        exact held.resolve_left colder

/-- The written bytes survive an eviction of the same path exactly when, should the
eviction write its bitmask last, the row it began with has a bit it leaves set where they
are, and, should the write record its row last, it also changed the local copy last. -/
theorem evict_write_iff (sha256 : Bytes → Text) (w : World) (p : FvfsPath) (t : Tier) (data : Bytes)
    (schedule : List (Party × Choice))
    (returned : Pool.Returned ((Pool.run perform schedule
      (Party.race (evictFromTier p t) (write sha256 p data) w)).threads .client)) :
    let race := Party.race (evictFromTier p t) (write sha256 p data) w
    let trace := Pool.trace perform schedule race
    Kept (Pool.run perform schedule race).world p data ↔
      (LastBy (Updated p) .task trace → ∃ x u, w.store.rowState p = some x ∧ u ≠ t ∧
        x.tierBitmask.has u = true ∧ (u = .localDisk ∨ w.tiers u p = some data)) ∧
      (LastBy (Updated p) .client trace → LastBy (Changed .localDisk p) .client trace) := by
  intro race trace
  have start : EvictFacts w p t data [] w .loading .storing :=
    ⟨by simp, by simp, by simp, by simp, by simp, by simp, fun x there => ⟨x, there, rfl⟩, trivial,
      by simp, by simp, nofun⟩
  obtain ⟨s, ph, inv, -, follows⟩ := Party.run_race perform (fun _ => True)
    (evictProtocol p t) (writeProtocol sha256 p data)
    (fun past w' s ph => ph = .failed ∨ EvictFacts w p t data past w' s ph)
    (fun past w s ph c op inv _ permitted => by
      rcases inv with rfl | facts
      · exact Or.inl rfl
      · exact Or.inr (facts.task_keeps (evict_step permitted Party.task c w)))
    (fun past w s ph c op inv _ permitted => by
      rcases inv with rfl | facts
      · exact permitted.elim
      · exact facts.client_keeps (write_step permitted Party.client c w))
    (fun _ _ => trivial) (Or.inr start) (follows_evict p t) (follows_write sha256 p data)
  obtain ⟨value, ended⟩ := returned
  have final := follows.final_of_ret ended
  cases ph with
  | finishing =>
    rcases inv with failed | facts
    · nomatch failed
    · exact facts.kept_iff
  | _ => exact final.elim

/-- The eviction passes its check, the write does all of its work, and the eviction goes on. -/
def overtakenSchedule : List (Party × Choice) :=
  [(.task, .quiet 0)] ++ .replicate 8 (.client, .quiet 0) ++ .replicate 2 (.task, .quiet 0)

theorem overtaken_eviction_iff :
    let p := Request.sampleFile.val
    let race := Party.race (evictFromTier p .localDisk) (write sampleSha256 p [2]) Request.uploaded
    let trace := Pool.trace perform overtakenSchedule race
    Kept (Pool.run perform overtakenSchedule race).world p [2] ↔
      (LastBy (Updated p) .task trace → ∃ x u, Request.uploaded.store.rowState p = some x ∧
        u ≠ .localDisk ∧ x.tierBitmask.has u = true ∧
        (u = .localDisk ∨ Request.uploaded.tiers u p = some [2])) ∧
      (LastBy (Updated p) .client trace → LastBy (Changed .localDisk p) .client trace) :=
  evict_write_iff sampleSha256 Request.uploaded Request.sampleFile.val .localDisk [2]
    overtakenSchedule (by decide)

/-- Both return, and no tier holds the acknowledged bytes: S3 has the old version only. -/
theorem overtaken_eviction :
    let p := Request.sampleFile.val
    let pool := Pool.run perform overtakenSchedule
      (Party.race (evictFromTier p .localDisk) (write sampleSha256 p [2]) Request.uploaded)
    (∀ i, Pool.Returned (pool.threads i)) ∧ ¬Kept pool.world p [2] := by
  intro p pool
  have gone : ∀ u, pool.world.tiers u p ≠ some [2] := by
    intro u
    cases u <;> decide
  refine ⟨fun i => by cases i <;> decide, ?_⟩
  rintro ⟨x, u, -, -, holds⟩
  exact gone u holds

end Fvfs
