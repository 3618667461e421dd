import Fvfs.Requests
import Fvfs.Steps

/-! A promotion racing a write of the same path: the promotion stores what it has read,
whatever has been stored since. -/
namespace Fvfs

open Lib Step Router

variable {sha256 : Bytes → Text} {p : FvfsPath} {data : Bytes} {w₀ : World}

/-- The promotion read the written bytes: the write had stored them by then, or the tier
it read held the same bytes from the start. -/
def FetchedCurrent (w₀ : World) (p : FvfsPath) (data : Bytes) (trace : List (Event Sys Party)) :
    Prop :=
  Precedes (Stored .localDisk p) (Fetched .localDisk p) trace ∨
  ∃ u, Occurs (Fetched u p) trace ∧ w₀.tiers u p = some data

/-- Nothing has been read or stored by the promotion yet. -/
structure Unread (p : FvfsPath) (past : List (Event Sys Party)) : Prop where
  unfetched : ∀ u, ¬Occurs (Fetched u p) past
  unstored : ∀ i, LastBy (Stored .localDisk p) i past → i = .client

def PromoteFacts (w₀ : World) (p : FvfsPath) (data : Bytes) (past : List (Event Sys Party))
    (w : World) : CopyPhase → Prop
  | .opening => False
  | .loading o => o = none ∧ Unread p past
  | .fetching o _ _ => o = none ∧ Unread p past
  | .fetched o x => o = none ∧ (x = data ↔ FetchedCurrent w₀ p data past) ∧
      ∀ i, LastBy (Stored .localDisk p) i past → i = .client
  | .refreshing | .marking _ | .ended => LastBy (Stored .localDisk p) .task past →
      ∃ x, w.tiers .localDisk p = some x ∧ (x = data ↔ FetchedCurrent w₀ p data past)

structure PromoteInv (w₀ : World) (p : FvfsPath) (data : Bytes) (past : List (Event Sys Party))
    (w : World) (s : CopyPhase) (t : WritePhase) : Prop where
  task : PromoteFacts w₀ p data past w s
  copy : LastBy (Stored .localDisk p) .client past → w.tiers .localDisk p = some data
  untouched : ¬Occurs (Stored .localDisk p) past → w.tiers .localDisk p = w₀.tiers .localDisk p
  colder : ∀ u, u ≠ .localDisk → w.tiers u p = w₀.tiers u p
  stored : t = .storing ∨ t = .failed ∨ Occurs (Stored .localDisk p) past

variable {past : List (Event Sys Party)} {w w' : World} {e : Event Sys Party} {c : Choice}

theorem fetchedCurrent_snoc (silent : ∀ u, ¬Fetched u p e) :
    FetchedCurrent w₀ p data (past ++ [e]) ↔ FetchedCurrent w₀ p data past := by
  simp [FetchedCurrent, silent]

theorem unread_snoc (unfetched : ∀ u, ¬Fetched u p e) (unstored : ¬Stored .localDisk p e) :
    Unread p (past ++ [e]) ↔ Unread p past := by
  constructor
  · rintro ⟨fetch, store⟩
    exact ⟨fun u => by simpa [unfetched] using fetch u,
      fun i last => store i (by simpa [unstored] using last)⟩
  · rintro ⟨fetch, store⟩
    exact ⟨fun u => by simpa [unfetched] using fetch u,
      fun i last => store i (by simpa [unstored] using last)⟩

/-- A step that stores nothing here and reads nothing here keeps every fact. -/
theorem PromoteInv.of_idle {s s' : CopyPhase} {t t' : WritePhase}
    (inv : PromoteInv w₀ p data past w s t) (unfetched : ∀ u, ¬Fetched u p e)
    (unstored : ¬Stored .localDisk p e) (tiers : ∀ u, w'.tiers u p = w.tiers u p)
    (task : PromoteFacts w₀ p data past w s')
    (moved : t' = t ∨ t' = .failed ∨ Occurs (Stored .localDisk p) past) :
    PromoteInv w₀ p data (past ++ [e]) w' s' t' := by
  obtain ⟨-, copy, untouched, colder, stored⟩ := inv
  refine ⟨?_, ?_, ?_, ?_, ?_⟩
  · cases s' with
    | opening => exact task.elim
    | _ => simpa [PromoteFacts, unread_snoc unfetched unstored, fetchedCurrent_snoc unfetched,
        unstored, tiers] using task
  · simpa [unstored, tiers] using copy
  · simpa [unstored, tiers] using untouched
  · simpa [tiers] using colder
  · rcases moved with rfl | failed | before
    · simpa [unstored] using stored
    · exact Or.inr (Or.inl failed)
    · exact Or.inr (Or.inr (by simp [before]))

theorem tiers_of_view (same : w'.view p = w.view p) (u : Tier) : w'.tiers u p = w.tiers u p := by
  rw [← view_object, same, view_object]

theorem PromoteInv.client_keeps {s : CopyPhase} {t t' : WritePhase}
    (inv : PromoteInv w₀ p data past w s t) (clean : c.Clean)
    (step : WriteStep sha256 p data .client c w t e w' t') :
    PromoteInv w₀ p data (past ++ [e]) w' s t' := by
  cases step with
  | store =>
    obtain ⟨task, copy, untouched, colder, stored⟩ := inv
    refine ⟨?_, fun _ => World.setObject_same, ?_, fun u other => ?_, ?_⟩
    · have unfetched (u : Tier) :
          ¬Fetched u p (⟨.client, .put .localDisk p data, .ok ()⟩ : Event Sys Party) := id
      cases s with
      | opening => exact task
      | loading o => exact ⟨task.1, fun u => by simpa [unfetched] using task.2.1 u, by simp [Stored]⟩
      | fetching o b u =>
        exact ⟨task.1, fun u => by simpa [unfetched] using task.2.1 u, by simp [Stored]⟩
      | fetched o x =>
        exact ⟨task.1, by rw [fetchedCurrent_snoc unfetched]; exact task.2.1, by simp [Stored]⟩
      | refreshing | marking m | ended => simp [PromoteFacts, Stored]
    · simp [Stored]
    · rw [World.setObject_tiers, if_neg (by simp [other])]
      exact colder u other
    · simp [Stored]
  | unstored e faulty =>
    exact inv.of_idle (fun u => id) id (fun _ => rfl) inv.task (Or.inr (Or.inl rfl))
  | tear e n faulty torn => simp [show c.torn = none from clean] at torn
  | time =>
    have before : Occurs (Stored .localDisk p) past := by simpa using inv.stored
    exact inv.of_idle (fun u => id) id (fun _ => rfl) inv.task (Or.inr (Or.inr before))
  | record now =>
    have before : Occurs (Stored .localDisk p) past := by simpa using inv.stored
    exact inv.of_idle (fun u => id) id (fun _ => rfl) inv.task (Or.inr (Or.inr before))
  | unrecorded now e faulty =>
    exact inv.of_idle (fun u => id) id (fun _ => rfl) inv.task (Or.inr (Or.inl rfl))
  | aside elsewhere same =>
    exact inv.of_idle (fun u => elsewhere.not_fetched) elsewhere.not_stored (tiers_of_view same)
      inv.task (Or.inl rfl)

/-- Until it has stored anything, a promotion is done harmlessly. -/
theorem PromoteFacts.stop {s : CopyPhase} (facts : PromoteFacts w₀ p data past w s) :
    PromoteFacts w₀ p data past w .ended := by
  have unstored (only : ∀ i, LastBy (Stored .localDisk p) i past → i = .client) :
      PromoteFacts w₀ p data past w .ended := fun last => nomatch only .task last
  cases s with
  | opening => exact facts.elim
  | loading o => exact unstored facts.2.unstored
  | fetching o b u => exact unstored facts.2.unstored
  | fetched o x => exact unstored facts.2.2
  | refreshing | marking m | ended => exact facts

/-- What the first successful read of the promotion says about the bytes it got. -/
theorem fetched_iff (unread : Unread p past)
    (copy : LastBy (Stored .localDisk p) .client past → w.tiers .localDisk p = some data)
    (untouched : ¬Occurs (Stored .localDisk p) past → w.tiers .localDisk p = w₀.tiers .localDisk p)
    (colder : ∀ u, u ≠ .localDisk → w.tiers u p = w₀.tiers u p) {u : Tier} {x : Bytes}
    (there : w.tiers u p = some x) :
    x = data ↔ FetchedCurrent w₀ p data (past ++ [⟨.task, .get u p, .ok x⟩]) := by
  have none_before : ¬Precedes (Stored .localDisk p) (Fetched .localDisk p) past :=
    fun order => unread.unfetched .localDisk order.occurs
  have now : FetchedCurrent w₀ p data (past ++ [⟨.task, .get u p, .ok x⟩]) ↔
      (u = .localDisk ∧ Occurs (Stored .localDisk p) past) ∨ w₀.tiers u p = some data := by
    simp [FetchedCurrent, none_before, unread.unfetched, Fetched]
  rw [now]
  by_cases hot : u = .localDisk
  · subst hot
    by_cases before : Occurs (Stored .localDisk p) past
    · obtain ⟨i, last⟩ := exists_lastBy before
      obtain rfl := unread.unstored i last
      have same : x = data := Option.some.inj (there.symm.trans (copy last))
      simp [same, before]
    · rw [← untouched before, there]
      simp [before]
  · rw [← colder u hot, there]
    simp [hot]

theorem PromoteInv.task_keeps {s s' : CopyPhase} {t : WritePhase} {id : Nat}
    (inv : PromoteInv w₀ p data past w s t) (clean : c.Clean)
    (step : CopyStep p id .localDisk .task c w s e w' s') :
    PromoteInv w₀ p data (past ++ [e]) w' s' t := by
  cases step with
  | opened m found => exact inv.task.elim
  | load o m u found plain fastest =>
    exact inv.of_idle (fun u h => h) (fun h => h) (fun _ => rfl) inv.task (Or.inl rfl)
  | fetch o b u x there =>
    obtain ⟨⟨rfl, unread⟩, copy, untouched, colder, stored⟩ := inv
    refine ⟨⟨rfl, ?_, by simpa [Stored] using unread.unstored⟩, ?_, ?_, colder, ?_⟩
    · exact fetched_iff unread copy untouched colder there
    · simpa [Stored] using copy
    · simpa [Stored] using untouched
    · simpa [Stored] using stored
  | fallBack o b u e colder =>
    exact inv.of_idle (fun u h => h) (fun h => h) (fun _ => rfl) inv.task (Or.inl rfl)
  | linger o x silent same =>
    exact inv.of_idle (fun u => silent.not_fetched) silent.not_stored
      (tiers_of_view (congrFun same p)) inv.task (Or.inl rfl)
  | store o x =>
    obtain ⟨⟨rfl, current, -⟩, copy, untouched, colder, stored⟩ := inv
    have unfetched (u : Tier) :
        ¬Fetched u p (⟨.task, .put .localDisk p x, .ok ()⟩ : Event Sys Party) := fun h => h
    refine ⟨fun _ => ⟨x, World.setObject_same, ?_⟩, ?_, ?_, fun u other => ?_, ?_⟩
    · exact current.trans (fetchedCurrent_snoc unfetched).symm
    · simp [Stored, Opened.path]
    · simp [Stored, Opened.path]
    · rw [World.setObject_tiers, if_neg (by simp [other])]
      exact colder u other
    · simp [Stored, Opened.path]
  | tear o x e n torn => simp [show c.torn = none from clean] at torn
  | refresh m found =>
    exact inv.of_idle (fun u h => h) (fun h => h) (fun _ => rfl) inv.task (Or.inl rfl)
  | mark m =>
    exact inv.of_idle (fun u h => h) (fun h => h) (fun _ => rfl) inv.task (Or.inl rfl)
  | stop silent same cause =>
    exact inv.of_idle (fun u => silent.not_fetched) silent.not_stored
      (tiers_of_view (congrFun same p)) inv.task.stop (Or.inl rfl)

/-- With a write that has returned, the local copy is the written one exactly when the
promotion did not store last, or had read the written bytes. -/
theorem promote_write_iff (sha256 : Bytes → Text) (w : World) (p : FvfsPath) (data : Bytes)
    (schedule : List (Party × Choice)) (clean : ∀ e ∈ schedule, e.2.Clean)
    (returned : Pool.Returned ((Pool.run perform schedule
      (Party.race (promote p) (write sha256 p data) w)).threads .client)) :
    let race := Party.race (promote p) (write sha256 p data) w
    let trace := Pool.trace perform schedule race
    (Pool.run perform schedule race).world.tiers .localDisk p = some data ↔
      (LastBy (Stored .localDisk p) .task trace → FetchedCurrent w p data trace) := by
  intro race trace
  have start : PromoteInv w p data [] w (.loading none) .storing :=
    ⟨⟨rfl, by simp, by simp⟩, by simp, by simp, by simp, by simp⟩
  obtain ⟨s, t, inv, -, follows⟩ := Party.run_race perform Choice.Clean
    (copyProtocol p 0 .localDisk) (writeProtocol sha256 p data) (PromoteInv w p data)
    (fun _ w _ _ c _ inv clean permitted =>
      inv.task_keeps clean (copy_step permitted Party.task c w))
    (fun _ w _ _ c _ inv clean permitted =>
      inv.client_keeps clean (write_step permitted Party.client c w))
    clean start follows_promote (follows_write sha256 p data)
  have written : Occurs (Stored .localDisk p) trace := by
    obtain ⟨value, ended⟩ := returned
    have final := follows.final_of_ret ended
    rcases inv.stored with rfl | rfl | stored
    · exact final.elim
    · exact final.elim
    · exact stored
  obtain ⟨i, last⟩ := exists_lastBy written
  cases i with
  | client =>
    refine ⟨fun _ other => ?_, fun _ => inv.copy last⟩
    nomatch last.unique other
  | task =>
    obtain ⟨x, copy, current⟩ := inv.task.stop last
    have same : (Pool.run perform schedule race).world.tiers .localDisk p = some x := copy
    rw [same, Option.some.injEq, current]
    exact ⟨fun holds _ => holds, fun holds => holds last⟩

/-- The promotion reads from S3, the write does all of its work, and the promotion stores. -/
def lateSchedule : List (Party × Choice) :=
  .replicate 4 (.task, .quiet 0) ++ .replicate 8 (.client, .quiet 0) ++ .replicate 3 (.task, .quiet 0)

theorem late_promote_iff :
    let p := Request.sampleFile.val
    let race := Party.race (promote p) (write sampleSha256 p [2]) Request.evicted
    let trace := Pool.trace perform lateSchedule race
    (Pool.run perform lateSchedule race).world.tiers .localDisk p = some [2] ↔
      (LastBy (Stored .localDisk p) .task trace → FetchedCurrent Request.evicted p [2] trace) :=
  promote_write_iff sampleSha256 Request.evicted Request.sampleFile.val [2] lateSchedule
    (by decide) (by decide)

/-- The local copy is the old version, under the hash of the new one. -/
theorem late_promote :
    let p := Request.sampleFile.val
    let race := Party.race (promote p) (write sampleSha256 p [2]) Request.evicted
    let pool := Pool.run perform lateSchedule race
    Pool.Returned (pool.threads .client) ∧ Pool.Returned (pool.threads .task) ∧
      pool.world.tiers .localDisk p = some [1] ∧
      (pool.world.store.rowState p).map (·.sha256) = some (sampleSha256 [2]) := by
  decide

end Fvfs
