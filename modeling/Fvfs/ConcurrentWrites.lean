import Fvfs.Steps

/-! Concurrent writes to one path: the local bytes are those of the last put, the row is
that of the last upsert, and nothing makes the two the same write. -/
namespace Fvfs

open Lib Step Router
open Function (update)

/-- The row of `p` records the hash and length of this content. -/
def Describes (sha256 : Bytes → Text) (w : World) (p : FvfsPath) (data : Bytes) : Prop :=
  ∃ x, w.store.rowState p = some x ∧ x.sha256 = sha256 data ∧ x.sizeBytes = data.length

theorem describes_upsert (sha256 : Bytes → Text) (w : World) (p : FvfsPath) (data : Bytes)
    (now : Int) : Describes sha256
      (w.withStore (w.store.upsert (writtenMetadata sha256 p data now)).2) p data :=
  ⟨_, Store.rowState_upsert_self _, rfl, rfl⟩

theorem describes_of_view {sha256 : Bytes → Text} {w w' : World} {p : FvfsPath} {data : Bytes}
    (describes : Describes sha256 w p data) (same : w'.view p = w.view p) :
    Describes sha256 w' p data := by
  obtain ⟨x, row, digest⟩ := describes
  refine ⟨x, ?_, digest⟩
  rw [← view_row, same]
  exact row

section Writers

variable {ι : Type} [DecidableEq ι] (sha256 : Bytes → Text) (p : FvfsPath) (data : ι → Bytes)

/-- One write for each index, all to the same path. -/
def writers (w : World) : Pool Sys FvfsError Unit World ι :=
  ⟨w, fun i => write sha256 p (data i)⟩

/-- The write with this index has recorded its row. -/
def RecordedBy (p : FvfsPath) (i : ι) (e : Event Sys ι) : Prop := Recorded p e ∧ e.thread = i

instance (p : FvfsPath) (i : ι) : DecidablePred fun e : Event Sys ι => RecordedBy p i e :=
  fun e => inferInstanceAs (Decidable (Recorded p e ∧ e.thread = i))

structure WritersFacts (past : List (Event Sys ι)) (w : World) (phase : ι → WritePhase) : Prop where
  copy : ∀ i, LastBy (Stored .localDisk p) i past → w.tiers .localDisk p = some (data i)
  row : ∀ i, LastBy (Recorded p) i past → Describes sha256 w p (data i)
  stored : ∀ i, phase i ≠ .storing → Occurs (Stored .localDisk p) past

/-- Until some write fails at its put or its upsert, after which the bytes are anybody's. -/
structure WritersInv (past : List (Event Sys ι)) (w : World) (phase : ι → WritePhase) : Prop where
  facts : (∃ i, phase i = .failed) ∨ WritersFacts sha256 p data past w phase
  finishing : ∀ i, Occurs (RecordedBy p i) past → phase i = .finishing

variable {sha256 p data} {past : List (Event Sys ι)} {w w' : World} {phase : ι → WritePhase}
  {i : ι} {c : Choice} {e : Event Sys ι} {next : WritePhase}

theorem WritersFacts.keep (facts : WritersFacts sha256 p data past w phase)
    (step : WriteStep sha256 p (data i) i c w (phase i) e w' next) :
    next = .failed ∨ WritersFacts sha256 p data (past ++ [e]) w' (update phase i next) := by
  obtain ⟨copy, row, stored⟩ := facts
  generalize here : phase i = current at step
  cases step with
  | store =>
    refine Or.inr ⟨fun j last => ?_, fun j last => ?_, fun j _ => ?_⟩
    · obtain rfl : i = j := by simpa [Stored] using last
      exact World.setObject_same
    · exact row j (by simpa [Recorded] using last)
    · simp [Stored]
  | unstored e faulty => exact Or.inl rfl
  | tear e n faulty => exact Or.inl rfl
  | time =>
    refine Or.inr ⟨fun j last => copy j ?_, fun j last => row j ?_, fun j moved => ?_⟩
    · simpa [Stored] using last
    · simpa [Recorded] using last
    · simp [stored i (by simp [here])]
  | record now =>
    refine Or.inr ⟨fun j last => copy j ?_, fun j last => ?_, fun j _ => ?_⟩
    · simpa [Stored] using last
    · obtain rfl : i = j := by simpa [Recorded, writtenMetadata] using last
      exact describes_upsert sha256 w p _ now
    · simp [stored i (by simp [here])]
  | unrecorded now e faulty => exact Or.inl rfl
  | aside elsewhere same =>
    refine Or.inr ⟨fun j last => ?_, fun j last => ?_, fun j _ => ?_⟩
    · rw [← view_object, same]
      exact copy j (by simpa [elsewhere.not_stored] using last)
    · exact describes_of_view (row j (by simpa [elsewhere.not_recorded] using last)) same
    · simp [stored i (by simp [here])]

omit [DecidableEq ι] in
/-- Only the upsert that succeeds ends the part of a write that can fail here. -/
theorem recordedBy_of_step {data : Bytes} (step : WriteStep sha256 p data i c w (phase i) e w' next)
    {j : ι} (recorded : RecordedBy p j e) : j = i ∧ next = .finishing := by
  obtain ⟨recorded, rfl⟩ := recorded
  generalize phase i = current at step
  cases step with
  | record now => exact ⟨rfl, rfl⟩
  | aside elsewhere same => exact absurd recorded elsewhere.not_recorded
  | _ => exact recorded.elim

omit [DecidableEq ι] in
theorem WriteStep.stays_finishing {data : Bytes} {current : WritePhase}
    (step : WriteStep sha256 p data i c w current e w' next) (finishing : current = .finishing) :
    next = .finishing := by
  subst finishing
  cases step
  rfl

theorem WritersInv.keep (inv : WritersInv sha256 p data past w phase)
    (step : WriteStep sha256 p (data i) i c w (phase i) e w' next) :
    WritersInv sha256 p data (past ++ [e]) w' (update phase i next) := by
  refine ⟨?_, fun j recorded => ?_⟩
  · rcases inv.facts with ⟨j, failed⟩ | facts
    · refine Or.inl ⟨j, ?_⟩
      by_cases same : j = i
      · subst same
        rw [failed] at step
        nomatch step
      · simpa [same] using failed
    · rcases facts.keep step with failed | facts
      · exact Or.inl ⟨i, by simpa using failed⟩
      · exact Or.inr facts
  · rcases occurs_append.mp recorded with before | now
    · by_cases same : j = i
      · subst same
        simpa using step.stays_finishing (inv.finishing j before)
      · simpa [same] using inv.finishing j before
    · obtain ⟨rfl, done⟩ := recordedBy_of_step step (occurs_singleton.mp now)
      simpa using done

variable (sha256 p data) in
theorem writers_run (w : World) (schedule : List (ι × Choice)) :
    ∃ last, WritersInv sha256 p data (Pool.trace perform schedule (writers sha256 p data w))
      (Pool.run perform schedule (writers sha256 p data w)).world last :=
  ⟨_, Protocol.run_phases (fun i => writeProtocol sha256 p (data i))
    (WritersInv sha256 p data) (fun _ _ _ _ => True)
    (fun past pool phase i c op rest inv _ _ permitted =>
      inv.keep (write_step permitted i c pool.world))
    (fun _ => .storing) (Pool.along_of_forall (fun _ _ => trivial) _ _)
    ⟨Or.inr ⟨by simp, by simp, by simp⟩, by simp⟩ fun i => follows_write sha256 p (data i)⟩

/-- Bytes and row belong to one write exactly when the last put and the last upsert are of
writes that cannot be told apart by hash and length. -/
theorem writers_agree_iff [Inhabited ι] (w : World) {schedule : List (ι × Choice)}
    (recorded : ∀ i, Occurs (RecordedBy p i)
      (Pool.trace perform schedule (writers sha256 p data w))) :
    let w' := (Pool.run perform schedule (writers sha256 p data w)).world
    let trace := Pool.trace perform schedule (writers sha256 p data w)
    ∃ i j, LastBy (Stored .localDisk p) i trace ∧ LastBy (Recorded p) j trace ∧
      ((∃ k, w'.tiers .localDisk p = some (data k) ∧ Describes sha256 w' p (data k)) ↔
        sha256 (data i) = sha256 (data j) ∧ (data i).length = (data j).length) := by
  intro w' trace
  obtain ⟨phase, inv⟩ := writers_run sha256 p data w schedule
  have done (i : ι) : phase i = .finishing := inv.finishing i (recorded i)
  have facts : WritersFacts sha256 p data trace w' phase := by
    rcases inv.facts with ⟨i, failed⟩ | facts
    · nomatch (done i).symm.trans failed
    · exact facts
  obtain ⟨e, member, upsert, -⟩ := recorded default
  obtain ⟨i, stored⟩ := exists_lastBy (facts.stored default (by simp [done]))
  obtain ⟨j, last⟩ := exists_lastBy (⟨e, member, upsert⟩ : Occurs (Recorded p) trace)
  have copy := facts.copy i stored
  obtain ⟨x, row, hash, size⟩ := facts.row j last
  refine ⟨i, j, stored, last, ?_⟩
  constructor
  · rintro ⟨k, bytes, y, row', hash', size'⟩
    have same : data i = data k := Option.some.inj (copy.symm.trans bytes)
    obtain rfl := Option.some.inj (row.symm.trans row')
    rw [same]
    exact ⟨hash'.symm.trans hash, size'.symm.trans size⟩
  · rintro ⟨sameHash, sameSize⟩
    exact ⟨i, copy, x, row, hash.trans sameHash.symm, size.trans sameSize.symm⟩

end Writers

/-- Two writes of one path that both got past their upsert, as every write that returns
`Ok` has, leave bytes and row of the same write exactly when the one that put last also
upserted last, or the two have the same hash and length. -/
theorem concurrent_writes_iff (sha256 : Bytes → Text) (w : World) (p : FvfsPath)
    (data : Bool → Bytes) (schedule : List (Bool × Choice))
    (recorded : ∀ i, Occurs (RecordedBy p i)
      (Pool.trace perform schedule (writers sha256 p data w))) :
    let w' := (Pool.run perform schedule (writers sha256 p data w)).world
    let trace := Pool.trace perform schedule (writers sha256 p data w)
    (∃ i, w'.tiers .localDisk p = some (data i) ∧ Describes sha256 w' p (data i)) ↔
      (∃ i, LastBy (Stored .localDisk p) i trace ∧ LastBy (Recorded p) i trace) ∨
      (sha256 (data true) = sha256 (data false) ∧ (data true).length = (data false).length) := by
  intro w' trace
  obtain ⟨i, j, stored, last, agree⟩ := writers_agree_iff w recorded
  rw [agree]
  by_cases same : i = j
  · subst same
    exact ⟨fun _ => Or.inl ⟨i, stored, last⟩, fun _ => ⟨rfl, rfl⟩⟩
  · have apart : ¬∃ k, LastBy (Stored .localDisk p) k trace ∧ LastBy (Recorded p) k trace := by
      rintro ⟨k, put, upsert⟩
      exact same ((stored.unique put).trans (upsert.unique last))
    simp only [apart, false_or]
    cases i <;> cases j <;> first | exact absurd rfl same | grind

/-- The first writer stores its bytes, the second does all of its work, and the first
records its row over it. -/
def crossedSchedule : List (Bool × Choice) :=
  [true, false, false, false, true, true].map (·, .quiet 0) ++
    .replicate 8 (true, .quiet 0) ++ .replicate 8 (false, .quiet 0)

def crossedData (first : Bool) : Bytes := if first then [1] else [2]

theorem crossed_writes_agree_iff :
    let pool := writers sampleSha256 ⟨['/', 'a']⟩ crossedData .empty
    let w' := (Pool.run perform crossedSchedule pool).world
    let trace := Pool.trace perform crossedSchedule pool
    (∃ i, w'.tiers .localDisk ⟨['/', 'a']⟩ = some (crossedData i) ∧
      Describes sampleSha256 w' ⟨['/', 'a']⟩ (crossedData i)) ↔
      (∃ i, LastBy (Stored .localDisk ⟨['/', 'a']⟩) i trace ∧
        LastBy (Recorded ⟨['/', 'a']⟩) i trace) ∨
      (sampleSha256 (crossedData true) = sampleSha256 (crossedData false) ∧
        (crossedData true).length = (crossedData false).length) :=
  concurrent_writes_iff sampleSha256 .empty ⟨['/', 'a']⟩ crossedData crossedSchedule
    (by decide)

/-- Both writes return, with the bytes of one and the hash of the other. -/
theorem crossed_writes :
    let p : FvfsPath := ⟨['/', 'a']⟩
    let pool := Pool.run perform crossedSchedule (writers sampleSha256 p crossedData .empty)
    (∀ i, Pool.Returned (pool.threads i)) ∧
      ¬∃ i, pool.world.tiers .localDisk p = some (crossedData i) ∧
        Describes sampleSha256 pool.world p (crossedData i) := by
  intro p pool
  have bytes : pool.world.tiers .localDisk p = some [2] := by decide
  have hash : (pool.world.store.rowState p).map (·.sha256) = some (sampleSha256 [1]) := by decide
  refine ⟨by decide, ?_⟩
  rintro ⟨i, bytes', x, row, hash', -⟩
  rw [row] at hash
  have digest : sampleSha256 (crossedData i) = sampleSha256 [1] :=
    hash'.symm.trans (Option.some.inj hash)
  rw [bytes] at bytes'
  rw [← Option.some.inj bytes'] at digest
  exact absurd digest (by decide)

end Fvfs
