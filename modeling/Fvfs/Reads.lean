import Fvfs.Requests

/-! Reads under outages: which of the three backends refuse to serve is given, and the
read's answer is compared with the fastest tier that has the bit and does serve. -/
namespace Fvfs

open Lib

/-- The error each backend answers a read of the path with, if it refuses. -/
abbrev Outages := Tier → Option FvfsError

/-- The atomic steps, where a backend's reads fail exactly when it refuses. -/
def performUnder (outages : Outages) : Handler Sys World Choice
  | .get t p, c, w => getObject { c with fault := outages t } w t p
  | op, c, w => perform op c w

/-- What a backend that does not refuse hands out. -/
def served (outages : Outages) (w : World) (p : FvfsPath) (t : Tier) : Option Bytes :=
  match outages t with
  | some _ => none
  | none => w.tiers t p

/-- From the fastest tier to the slowest. -/
def tierOrder : List Tier := [.localDisk, .nas, .s3]

/-- The bytes of the fastest tier whose bit is set and whose backend serves the path. -/
def fastest (outages : Outages) (w : World) (p : FvfsPath) (b : TierBitmask) : Option Bytes :=
  tierOrder.findSome? fun t => if b.has t then served outages w p t else none

/-- The NAS bit keeps the read from S3 although the NAS does not serve. -/
structure Shadowed (outages : Outages) (w : World) (p : FvfsPath) (b : TierBitmask) : Prop where
  nas : b.has .nas = true
  refused : served outages w p .nas = none
  s3 : b.has .s3 = true
  held : served outages w p .s3 ≠ none
  cold : ¬(b.has .localDisk = true ∧ served outages w p .localDisk ≠ none)

namespace Router

variable {outages : Outages} {w : World} {p : FvfsPath} {b : TierBitmask}

/-- What the two colder branches of the router serve. -/
def colderAnswer (outages : Outages) (w : World) (p : FvfsPath) (b : TierBitmask) : Option Bytes :=
  if b.has .nas then served outages w p .nas
  else if b.has .s3 then served outages w p .s3
  else none

/-- What the router serves. -/
def readAnswer (outages : Outages) (w : World) (p : FvfsPath) (b : TierBitmask) : Option Bytes :=
  if b.has .localDisk then (served outages w p .localDisk).or (colderAnswer outages w p b)
  else colderAnswer outages w p b

/-- The outcome hands out exactly these bytes, or fails where there are none. -/
def Answers (answer : Option Bytes) (r : Outcome Bytes) : Prop :=
  ∀ data, r = .ok data ↔ answer = some data

abbrev Under (outages : Outages) (task : Async α) (post : Outcome α → World → Prop) (w : World) :
    Prop :=
  task.wp (performUnder outages) (fun _ => True) post w

theorem under_get (t : Tier) :
    Under outages (Async.get t p) (fun r w' => Answers (served outages w p t) r ∧ w' = w) w := by
  intro c _
  simp only [performUnder, getObject, served, Answers]
  cases outages t with
  | some e => simp
  | none => cases w.tiers t p <;> simp

theorem under_readAndPromote (t : Tier) :
    Under outages (readAndPromote p t) (fun r _ => Answers (served outages w p t) r) w := by
  refine wp_readAndPromote (Prog.wp_mono (under_get t) ?_)
  rintro (e | data) w' ⟨answer, rfl⟩
  · exact answer
  · exact fun _ _ => answer

theorem colderAnswer_eq : colderAnswer outages w p b = b.colder.bind (served outages w p) := by
  unfold colderAnswer TierBitmask.colder
  split
  · rfl
  · split <;> rfl

theorem under_readTiers :
    Under outages (readTiers p b) (fun r _ => Answers (readAnswer outages w p b) r) w := by
  refine wp_readTiers (fun v => v = w ∧ readAnswer outages w p b = colderAnswer outages w p b)
    (fun hot => ?_) (fun cold => ⟨rfl, by simp [readAnswer, cold]⟩) ?_ ?_
  · refine Prog.wp_mono (under_get .localDisk) ?_
    rintro (e | data) v ⟨answer, rfl⟩
    · have nothing : served outages v p .localDisk = none :=
        Option.eq_none_iff_forall_ne_some.mpr fun data there => by simpa using (answer data).mpr there
      exact ⟨rfl, by simp [readAnswer, hot, nothing]⟩
    · have here := (answer data).mp rfl
      simp [readAnswer, hot, Answers, here]
  · rintro t _ tier ⟨rfl, fallback⟩
    rw [fallback, colderAnswer_eq, tier]
    exact under_readAndPromote t
  · rintro _ nowhere ⟨rfl, fallback⟩
    rw [fallback, colderAnswer_eq, nowhere]
    simp [Answers]

theorem under_recordAccess (id : Nat) (data : Bytes) {answer : Option Bytes}
    (here : Answers answer (.ok data)) :
    Under outages (do
      let _ ← (Async.recordAccess id).attempt
      pure data) (fun r _ => Answers answer r) w := by
  have recorded : Under outages (Async.recordAccess id) (fun _ _ => True) w := by
    intro c _
    cases (performUnder outages (.recordAccess id) c w).1 <;> trivial
  exact Prog.wp_try recorded fun _ _ _ => here

/-- What a read of an existing file answers, whatever the environment does otherwise. -/
theorem exec_read {m : FileMetadata} (found : w.store.get p = some m) (file : m.isDir = false)
    (env : Nat → Choice) (known : (env 0).Faultless) :
    Answers (readAnswer outages w p m.tierBitmask)
      ((read p).exec (performUnder outages) env w).1 := by
  have loaded : performUnder outages (.metaGet p) (env 0) w = (.ok (some m), w) := by
    simp [performUnder, perform, statement_faultless known, found]
  have rest : Under outages (do
      let data ← readTiers p m.tierBitmask
      let _ ← (Async.recordAccess m.id).attempt
      pure data) (fun r _ => Answers (readAnswer outages w p m.tierBitmask) r) w := by
    apply Prog.wp_seq under_readTiers
    · exact fun data w' here => under_recordAccess m.id data here
    · exact fun e w' here => fun data => (by simp : _ = _ ↔ _).trans (here data)
  have runs := Prog.exec_of_wp rest (fun i => env (i + 1)) fun _ => trivial
  simpa [read, requireMetadata, Async.metaGet, Prog.exec, loaded, file] using runs

/-- The router's answer is the fastest tier's, unless the NAS bit shadows S3. -/
theorem readAnswer_eq_iff :
    readAnswer outages w p b = fastest outages w p b ↔ ¬Shadowed outages w p b := by
  have shadowed_iff : Shadowed outages w p b ↔ b.has .nas = true ∧
      served outages w p .nas = none ∧ b.has .s3 = true ∧ served outages w p .s3 ≠ none ∧
      ¬(b.has .localDisk = true ∧ served outages w p .localDisk ≠ none) := by
    constructor
    · rintro ⟨nas, refused, s3, held, cold⟩
      exact ⟨nas, refused, s3, held, cold⟩
    · rintro ⟨nas, refused, s3, held, cold⟩
      exact ⟨nas, refused, s3, held, cold⟩
  rw [shadowed_iff]
  simp only [readAnswer, colderAnswer, fastest, tierOrder, List.findSome?]
  generalize served outages w p .localDisk = hot
  generalize served outages w p .nas = warm
  generalize served outages w p .s3 = cold
  cases b.has .localDisk <;> cases b.has .nas <;> cases b.has .s3 <;>
    cases hot <;> cases warm <;> cases cold <;> simp

/-- A read answers with the fastest tier that serves the file, or fails when none does,
exactly when no refusing NAS stands before an S3 that has the bytes. -/
theorem read_serves_fastest_iff (outages : Outages) (w : World) (p : FvfsPath) (m : FileMetadata)
    (found : w.store.get p = some m) (file : m.isDir = false) (env : Nat → Choice)
    (known : (env 0).Faultless) :
    (∀ data, ((read p).exec (performUnder outages) env w).1 = .ok data ↔
      fastest outages w p m.tierBitmask = some data) ↔ ¬Shadowed outages w p m.tierBitmask := by
  have answers : Answers (readAnswer outages w p m.tierBitmask) _ := exec_read found file env known
  rw [← readAnswer_eq_iff]
  constructor
  · intro claimed
    apply Option.ext
    exact fun data => (answers data).symm.trans (claimed data)
  · intro same data
    rw [← same]
    exact answers data

open Request (serve sampleFile)

/-- A file replicated to the NAS and to S3 and then evicted from the local disk. -/
def replicated : World :=
  serve sampleSha256 [(.write sampleFile [1], fun _ => 0), (.replayWal, fun _ => 0),
    (.evict sampleFile .localDisk, fun _ => 0)] .empty

def nasDown : Outages
  | .nas => some (.io "mount is gone".toList)
  | _ => none

theorem cold_read_served :
    ((read sampleFile).exec (performUnder fun _ => none) (fun _ => .quiet 0) replicated).1 =
      .ok [1] := by
  have serves := read_serves_fastest_iff (fun _ => none) replicated sampleFile
    ((replicated.store.get sampleFile).get (by decide)) (by simp) (by decide) (fun _ => .quiet 0)
    rfl
  apply (serves.mpr _ [1]).mpr
  · decide
  · intro shadowed
    have refused := shadowed.refused
    revert refused
    decide

/-- With the NAS down the read fails although S3 has the bit and serves the file. -/
theorem nas_outage_hides_s3 :
    ¬∀ (outages : Outages) (w : World) (p : FvfsPath) (m : FileMetadata) (env : Nat → Choice),
      w.store.get p = some m → m.isDir = false → (env 0).Faultless →
      ∀ data, ((read p).exec (performUnder outages) env w).1 = .ok data ↔
        fastest outages w p m.tierBitmask = some data := by
  intro claimed
  have here := claimed nasDown replicated sampleFile
    ((replicated.store.get sampleFile).get (by decide)) (fun _ => .quiet 0) (by simp) (by decide)
    rfl [1]
  revert here
  decide

end Router

end Fvfs
