import Fvfs.EvictionTask

/-! A file whose copy on a tier is gone while its row still has the tier's bit, as a crash in
the middle of an eviction leaves it: no eviction ever takes the bit away. -/
namespace Fvfs

open Lib EvictionTask

/-- The row of `p` has the bits of S3 and of `t` and counts `size` bytes, but `t` has no copy. -/
def Lost (p : FvfsPath) (t : Tier) (size : Nat) (w : World) : Prop :=
  w.tiers t p = none ∧ ∃ x, w.store.rowState p = some x ∧ x.isDir = false ∧ x.sizeBytes = size ∧
    x.tierBitmask.has t = true ∧ x.tierBitmask.has .s3 = true

variable {w : World} {p q : FvfsPath} {t u : Tier} {size : Nat}

/-- The lost bytes are among those counted. -/
theorem Lost.counted (lost : Lost p t size w) : size ≤ w.store.bytesOnTier t := by
  obtain ⟨-, x, row, plain, rfl, bit, -⟩ := lost
  obtain ⟨i, r, at_id, -, rfl⟩ := Store.rowState_eq_some_iff.mp row
  have member := Table.mem_rows_iff.mpr at_id
  rw [Store.bytesOnTier_eq_sum]
  have counts : Store.countedBytes t r = r.sizeBytes := by
    simp only [Store.stateOf] at plain bit
    simp [Store.countedBytes, plain, bit]
  have inside := List.mem_map_of_mem (f := fun x => Store.countedBytes t x.2) member
  exact Nat.le_trans (Nat.le_of_eq counts.symm) (List.single_le_sum (by simp) _ inside)

/-- Dropping a copy that is there, and its bit, does nothing to one that is lost. -/
theorem Lost.drop (lost : Lost p t size w) {m : FileMetadata} (found : w.store.get q = some m)
    (there : (w.tiers u q).isSome = true) (warm : u ≠ .s3) :
    Lost p t size (w.setObject u q none) ∧
    Lost p t size
      ((w.setObject u q none).withStore (w.store.setTierBitmask m.id (m.tierBitmask.clear u))) := by
  obtain ⟨gone, x, row, plain, same, bit, safe⟩ := lost
  have still : (w.setObject u q none).tiers t p = none := by
    rw [World.setObject_tiers]
    split
    · rfl
    · exact gone
  refine ⟨⟨still, x, row, plain, same, bit, safe⟩, still, ?_⟩
  rw [World.withStore_store, Store.rowState_setTierBitmask, row, Option.map_some]
  by_cases here : x.id = m.id
  · have loaded := Store.rowState_of_get found
    obtain rfl := Store.rowState_id_inj row loaded here
    obtain rfl := Option.some.inj (row.symm.trans loaded)
    have apart : t ≠ u := by
      rintro rfl
      simp [gone] at there
    simp only [Store.metadataState] at plain same bit safe ⊢
    exact ⟨_, rfl, by simpa using plain, by simpa using same, by simp [bit, apart],
      by simp [safe, warm.symm]⟩
  · exact ⟨x, by rw [if_neg here], plain, same, bit, safe⟩

/-- No eviction, whatever fails in it, makes up for the lost copy, and that of the file
itself is refused. -/
theorem Lost.wp_evictFromTier (lost : Lost p t size w) (warm : t ≠ .s3) (q : FvfsPath) (u : Tier) :
    (Router.evictFromTier q u).wp perform (fun _ => True) (fun r w' => Lost p t size w' ∧
      (q = p → u = t → ∃ e, r = .error e)) w := by
  unfold Router.evictFromTier Router.requireMetadata
  rw [Prog.wp_bind, Prog.wp_bind]
  apply wp_metaGet
  · cases found : w.store.get q with
    | none => exact ⟨lost, fun _ _ => ⟨_, rfl⟩⟩
    | some m =>
      simp only [Prog.pure_eq, Prog.wp_ret]
      split
      next => exact ⟨lost, fun _ _ => ⟨_, rfl⟩⟩
      next =>
        split
        next cold => exact ⟨lost, fun _ same => absurd (same.symm.trans cold) warm⟩
        next evictable =>
          rw [Prog.wp_bind]
          apply wp_delete
          · intro there
            have held : (w.tiers u q).isSome = true := there.resolve_right evictable
            obtain ⟨deleted, marked⟩ := lost.drop found held evictable
            have other : q = p → u = t → False := by
              rintro rfl rfl
              simp [lost.1] at held
            apply wp_setTierBitmask
            · exact ⟨marked, fun path tier => (other path tier).elim⟩
            · exact fun e => ⟨deleted, fun _ _ => ⟨e, rfl⟩⟩
          · exact fun e => ⟨lost, fun _ _ => ⟨e, rfl⟩⟩
  · exact fun e _ _ _ => ⟨lost, fun _ _ => ⟨e, rfl⟩⟩

theorem Lost.wp_evictFiles (lost : Lost p t size w) (warm : t ≠ .s3) (u : Tier) (target : Nat)
    (freed : Nat) (files : List FileMetadata) :
    (evictFiles u target freed files).wp perform (fun _ => True) (fun _ => Lost p t size) w := by
  induction files generalizing w freed with
  | nil => exact lost
  | cons f rest ih =>
    unfold evictFiles
    split
    · exact lost
    · split
      · exact ih lost freed
      · refine Prog.wp_try (lost.wp_evictFromTier warm f.path u) fun r w' after => ?_
        cases r with
        | ok _ => exact ih after.1 _
        | error e => exact ih after.1 _

/-- A cycle of the eviction task, and what the environment does in it. -/
structure Cycle where
  ranking : Ranking
  tier : Tier
  watermarks : TierWatermarks
  env : Nat → Choice

/-- What cycles one after the other leave. -/
def afterCycles (cycles : List Cycle) (w : World) : World :=
  cycles.foldl (fun w c =>
    ((runEvictionCycle c.ranking c.tier c.watermarks).exec (perform.sum answer) c.env w).2) w

/-- The task's queries change nothing, answered or not. -/
theorem wp_query (query : Query) (into : Query.Res query → Outcome α) (w : World) :
    (.call (.inr query) fun r => .lift (into r) : EvictionTask.Task α).wp (perform.sum answer)
      (fun _ => True) (fun _ w' => w' = w) w := by
  intro c _
  have same : (answer query c w).2 = w := by
    cases query with
    | bytesOnTier t =>
      rcases statement_cases (c := c) (w := w) (w.store.bytesOnTier t) w.store with
        eq | ⟨e, _, eq⟩ <;> simp [answer, eq]
    | filesOnTier t =>
      rcases statement_cases (c := c) (w := w) (w.store.filesOnTier t) w.store with
        eq | ⟨e, _, eq⟩ <;> simp [answer, eq]
  cases reply : into (answer query c w).1 with
  | ok value => simpa [Handler.sum, reply] using same
  | error e => simpa [Handler.sum, reply] using same

theorem Lost.wp_runEvictionCycle (lost : Lost p t size w) (warm : t ≠ .s3) (ranking : Ranking)
    (u : Tier) (wm : TierWatermarks) :
    (runEvictionCycle ranking u wm).wp (perform.sum answer) (fun _ => True)
      (fun _ => Lost p t size) w := by
  unfold runEvictionCycle
  refine Prog.wp_try (wp_query (.bytesOnTier u) id w) fun used w' same => ?_
  subst same
  cases used with
  | error e => exact lost
  | ok used =>
    dsimp only
    split
    · exact lost
    · refine Prog.wp_try (wp_query (.filesOnTier u) id w') fun files w'' same => ?_
      subst same
      cases files with
      | error e => exact lost
      | ok files =>
        refine Prog.wp_seq ((Prog.wp_inl ..).mpr (lost.wp_evictFiles warm u _ 0 _)) ?_ ?_
        · exact fun _ _ after => after
        · exact fun _ _ after => after

theorem Lost.afterCycles (lost : Lost p t size w) (warm : t ≠ .s3) (cycles : List Cycle) :
    Lost p t size (Fvfs.afterCycles cycles w) := by
  induction cycles generalizing w with
  | nil => exact lost
  | cons c rest ih =>
    exact ih (Prog.exec_of_wp (lost.wp_runEvictionCycle warm c.ranking c.tier c.watermarks) c.env
      fun _ => trivial)

/-- An eviction of a file whose copy is gone fails, whatever happens in it, and leaves the
bit; so does every cycle after it, and each counts the missing bytes. -/
theorem lost_copy_stays (warm : t ≠ .s3) (lost : Lost p t size w) (env : Nat → Choice)
    (cycles : List Cycle) :
    let run := (Router.evictFromTier p t).exec perform env w
    let w' := afterCycles cycles run.2
    (∃ e, run.1 = .error e) ∧ Lost p t size run.2 ∧ Lost p t size w' ∧
      size ≤ w'.store.bytesOnTier t := by
  obtain ⟨after, refused⟩ := Prog.exec_of_wp (lost.wp_evictFromTier warm p t) env fun _ => trivial
  have later := after.afterCycles warm cycles
  exact ⟨refused rfl rfl, after, later, later.counted⟩

/-- The uploaded file after a crash between the deletion of its local copy and the update of
its row. -/
def crashed : World :=
  (Router.evictFromTier Request.sampleFile .localDisk).cut perform 2 (fun _ => .quiet 0)
    Request.uploaded

theorem crashed_lost : Lost Request.sampleFile .localDisk 1 crashed :=
  ⟨by decide, ⟨1, 1, Router.sampleSha256 [1], ⟨5⟩, false⟩, by decide, rfl, rfl, by decide, by decide⟩

/-- A cycle that wants the local disk empty. -/
def emptyingCycle : Cycle :=
  ⟨⟨id, fun files => .refl files⟩, .localDisk, ⟨0, 0⟩, fun _ => .quiet 0⟩

theorem crashed_copy_stays :
    let run := (Router.evictFromTier Request.sampleFile .localDisk).exec perform
      (fun _ => .quiet 0) crashed
    let w' := afterCycles [emptyingCycle, emptyingCycle] run.2
    (∃ e, run.1 = .error e) ∧ Lost Request.sampleFile .localDisk 1 run.2 ∧
      Lost Request.sampleFile .localDisk 1 w' ∧ 1 ≤ w'.store.bytesOnTier .localDisk :=
  lost_copy_stays (by decide) crashed_lost _ [emptyingCycle, emptyingCycle]

/-- No eviction clears the bit of a copy that a crash has taken. -/
theorem eviction_not_restartable :
    ¬∀ p t size w, t ≠ .s3 → Lost p t size w →
      let w' := ((Router.evictFromTier p t).exec perform (fun _ => .quiet 0) w).2
      ∃ x, w'.store.rowState p = some x ∧ x.tierBitmask.has t = false := by
  intro claimed
  obtain ⟨x, row, cleared⟩ := claimed Request.sampleFile .localDisk 1 crashed (by decide)
    crashed_lost
  have marked : ((((Router.evictFromTier Request.sampleFile .localDisk).exec perform
      (fun _ => .quiet 0) crashed).2.store.rowState Request.sampleFile).all
        fun x => x.tierBitmask.has .localDisk) = true := by decide
  rw [row] at marked
  simp [cleared] at marked

end Fvfs
