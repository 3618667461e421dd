import Fvfs.System

/-! `TierRouter`: reads, writes, deletes and evictions across the tier stack, and the
background tasks that call it. A step whose error the source passes on with `?` is
bound; one whose outcome it inspects or ignores is attempted first. -/
namespace Fvfs

open Lib

-- The calls the source awaits, each one atomic step.
namespace Async

def put (t : Tier) (p : FvfsPath) (data : Bytes) : Async Unit := .call (.put t p data) .lift
def get (t : Tier) (p : FvfsPath) : Async Bytes := .call (.get t p) .lift
def delete (t : Tier) (p : FvfsPath) : Async Unit := .call (.delete t p) .lift
def now : Async Int := .call .now .ret
def metaGet (p : FvfsPath) : Async (Option FileMetadata) := .call (.metaGet p) .lift
def metaGetById (id : Nat) : Async (Option FileMetadata) := .call (.metaGetById id) .lift
def upsert (m : FileMetadata) : Async Nat := .call (.upsert m) .lift
def setTierBitmask (id : Nat) (b : TierBitmask) : Async Unit := .call (.setTierBitmask id b) .lift
def recordAccess (id : Nat) : Async Unit := .call (.recordAccess id) .lift
def metaDelete (p : FvfsPath) : Async Unit := .call (.metaDelete p) .lift
def walEnqueue (fileId : Nat) (op : WalOp) : Async Nat := .call (.walEnqueue fileId op) .lift
def walComplete (id : Nat) : Async Unit := .call (.walComplete id) .lift
def walRecordFailure (id : Nat) (error : Text) : Async Unit :=
  .call (.walRecordFailure id error) .lift
def walPending : Async (List WalEntry) := .call .walPending .lift
def sendPromote (signal : PromoteSignal) : Async Unit := .call (.sendPromote signal) .ret
def recvPromote : Async (Option PromoteSignal) := .call .recvPromote .ret

end Async

namespace Router

open Async

/-- The ancestor loop. Each turn shortens the path, so its length bounds the turns. -/
def ensureParents : Nat → FvfsPath → Async Unit
  | 0, _ => pure ()
  | turns + 1, current =>
    match current.parent with
    | none => pure ()
    | some parent => do
      let existing ← metaGet parent
      if existing.isNone then
        let now ← now
        let _ ← upsert (.newDir now parent)
      ensureParents turns parent

def ensureParentDirs (p : FvfsPath) : Async Unit := ensureParents p.text.length p

/-- Any bound at least the length of the path gives the same loop. -/
theorem ensureParents_eq {n m : Nat} {p : FvfsPath} (enough : p.text.length ≤ n)
    (also : p.text.length ≤ m) : ensureParents n p = ensureParents m p := by
  induction n generalizing m p with
  | zero =>
    have top := FvfsPath.parent_of_empty (Nat.le_zero.mp enough)
    cases m <;> simp [ensureParents, top]
  | succ n ih =>
    cases m with
    | zero =>
      have top := FvfsPath.parent_of_empty (Nat.le_zero.mp also)
      simp [ensureParents, top]
    | succ m =>
      unfold ensureParents
      cases up : p.parent with
      | none => rfl
      | some q =>
        have shorter := FvfsPath.parent_shorter up
        simp only [ih (m := m) (p := q) (by omega) (by omega)]

/-- The loop as the source writes it. -/
theorem ensureParentDirs_eq (p : FvfsPath) :
    ensureParentDirs p = (match p.parent with
      | none => pure ()
      | some parent => do
        let existing ← metaGet parent
        if existing.isNone then
          let now ← now
          let _ ← upsert (.newDir now parent)
        ensureParentDirs parent) := by
  unfold ensureParentDirs
  cases up : p.parent with
  | none => cases p.text.length <;> simp [ensureParents, up]
  | some q =>
    have shorter := FvfsPath.parent_shorter up
    obtain ⟨n, length⟩ : ∃ n, p.text.length = n + 1 := ⟨p.text.length - 1, by omega⟩
    rw [length, ensureParents, up]
    simp only [ensureParents_eq (n := n) (m := q.text.length) (p := q) (by omega) (Nat.le_refl _)]

/-- The metadata a write records: only the local disk holds the new bytes. -/
def writtenMetadata (sha256 : Bytes → Text) (p : FvfsPath) (data : Bytes) (now : Int) :
    FileMetadata where
  id := 0
  path := p
  kind := .file
  sizeBytes := data.length
  sha256 := sha256 data
  tierBitmask := TierBitmask.none.set .localDisk
  createdAt := now
  modifiedAt := now
  accessedAt := now
  accessCount30d := 0
  mimeType := none

@[simp] theorem writtenMetadata_has (sha256 : Bytes → Text) (p : FvfsPath) (data : Bytes)
    (now : Int) (t : Tier) :
    (writtenMetadata sha256 p data now).tierBitmask.has t = decide (t = .localDisk) := by
  simp [writtenMetadata]

/-- The hex digests of the inputs the examples write. -/
def sampleSha256 : Bytes → Text
  | [1] => "4bf5122f344554c53bde2ebb8cd2b7e3d1600ad631c385a5d7cce23c7785459a".toList
  | [2] => "dbc1b4c900ffe48d575b5da5c638040125f65db0fe3e24494b76ea986457d986".toList
  | _ => []

def enqueueReplication (fileId : Nat) : Async Unit := do
  let _ ← walEnqueue fileId .replicateNas
  let _ ← walEnqueue fileId .uploadS3

def write (sha256 : Bytes → Text) (p : FvfsPath) (data : Bytes) : Async Unit := do
  put .localDisk p data
  let now ← now
  let fileId ← upsert (writtenMetadata sha256 p data now)
  ensureParentDirs p
  enqueueReplication fileId

/-- Everything a write does after its upsert. -/
def afterUpsert (p : FvfsPath) (fileId : Nat) : Async Unit := do
  ensureParentDirs p
  enqueueReplication fileId

def mkdir (p : FvfsPath) : Async Unit := do
  let now ← now
  let _ ← upsert (.newDir now p)
  ensureParentDirs p

def requireMetadata (p : FvfsPath) : Async FileMetadata := do
  match ← metaGet p with
  | some m => pure m
  | none => .fail (.notFound p.text)

/-- Serve from a colder tier and ask for a promotion. -/
def readAndPromote (p : FvfsPath) (t : Tier) : Async Bytes := do
  let data ← get t p
  sendPromote ⟨p, t⟩
  pure data

def readFromNasOrS3 (p : FvfsPath) (b : TierBitmask) : Async Bytes :=
  if b.has .nas then readAndPromote p .nas
  else if b.has .s3 then readAndPromote p .s3
  else .fail (.notFound p.text)

/-- The fastest tier whose bit is set; only a failed local read falls back. -/
def readTiers (p : FvfsPath) (b : TierBitmask) : Async Bytes :=
  if b.has .localDisk then do
    match ← (get .localDisk p).attempt with
    | .ok data => pure data
    | .error _ => readFromNasOrS3 p b
  else if b.has .nas then readAndPromote p .nas
  else if b.has .s3 then readAndPromote p .s3
  else .fail (.notFound p.text)

def read (p : FvfsPath) : Async Bytes := do
  let m ← requireMetadata p
  if m.isDir then .fail (.isADirectory p.text)
  else
    let data ← readTiers p m.tierBitmask
    let _ ← (recordAccess m.id).attempt
    pure data

/-- The order in which the runtime happens to run the three spawned deletions. -/
def TaskOrder := { order : List Tier // order.Perm [.localDisk, .nas, .s3] }

/-- Best effort: a backend's refusal is dropped. -/
def deleteTiers (p : FvfsPath) (b : TierBitmask) : List Tier → Async Unit
  | [] => pure ()
  | t :: rest => do
    if b.has t then
      let _ ← (Async.delete t p).attempt
    deleteTiers p b rest

def delete (order : TaskOrder) (p : FvfsPath) : Async Unit := do
  let m ← requireMetadata p
  deleteTiers p m.tierBitmask order.val
  metaDelete p

def evictFromTier (p : FvfsPath) (t : Tier) : Async Unit := do
  let m ← requireMetadata p
  if !m.tierBitmask.safeToEvictFrom t then
    .fail (.other "cannot evict: file not present on colder tier".toList)
  else if t = .s3 then
    .fail (.other "S3 tier is never evicted".toList)
  else
    Async.delete t p
    setTierBitmask m.id (m.tierBitmask.clear t)

/-- One turn of the promotion loop for a signal already received. -/
def promote (p : FvfsPath) : Async Unit := do
  match ← (read p).attempt with
  | .error _ => pure ()
  | .ok data =>
    match ← (put .localDisk p data).attempt with
    | .error _ => pure ()
    | .ok () =>
      match ← (metaGet p).attempt with
      | .ok (some m) =>
        let _ ← (setTierBitmask m.id (m.tierBitmask.set .localDisk)).attempt
      | _ => pure ()

/-- Take the next signal, if there is one, and process it. -/
def promoteNext : Async Unit := do
  match ← recvPromote with
  | some signal => promote signal.path
  | none => pure ()

def maxAttempts : Nat := 10

/-- Copy the current bytes to S3 and record it in the bitmask read earlier. -/
def uploadToS3 (m : FileMetadata) : Async Unit := do
  let data ← read m.path
  put .s3 m.path data
  setTierBitmask m.id (m.tierBitmask.set .s3)

/-- Copy the local bytes to the NAS, likewise. -/
def replicateToNas (m : FileMetadata) : Async Unit := do
  let data ← get .localDisk m.path
  put .nas m.path data
  setTierBitmask m.id (m.tierBitmask.set .nas)

/-- Remove the entry after a success, count the failure otherwise. -/
def settle (entry : WalEntry) : Outcome Unit → Async Unit
  | .ok () => do
    let _ ← (walComplete entry.id).attempt
  | .error e => do
    let _ ← (walRecordFailure entry.id e.toText).attempt

def flushEntry (entry : WalEntry) : Async Unit := do
  match ← (metaGetById entry.fileId).attempt with
  | .error _ => pure ()
  | .ok none =>
    let _ ← (walComplete entry.id).attempt
  | .ok (some m) =>
    let result ← (uploadToS3 m).attempt
    settle entry result

def flushEntries : List WalEntry → Async Unit
  | [] => pure ()
  | entry :: rest => do
    flushEntry entry
    flushEntries rest

def flushable (entry : WalEntry) : Bool :=
  entry.op == .uploadS3 && decide (entry.attempts < maxAttempts)

def flushPending : Async Unit := do
  match ← walPending.attempt with
  | .error _ => pure ()
  | .ok entries => flushEntries (entries.filter flushable)

def replayOp (entry : WalEntry) (m : FileMetadata) : Async Unit :=
  match entry.op with
  | .replicateNas => replicateToNas m
  | .uploadS3 => uploadToS3 m

/-- The retry loop of one entry, with the attempts it still has. -/
def replayEntry (entry : WalEntry) : Nat → Async Unit
  | 0 => pure ()
  | remaining + 1 => do
    match ← (metaGetById entry.fileId).attempt with
    | .error _ => pure ()
    | .ok none =>
      let _ ← (walComplete entry.id).attempt
    | .ok (some m) =>
      match ← (replayOp entry m).attempt with
      | .ok () => settle entry (.ok ())
      | .error e => do
        settle entry (.error e)
        replayEntry entry remaining

def replayEntries : List WalEntry → Async Unit
  | [] => pure ()
  | entry :: rest => do
    replayEntry entry (maxAttempts - entry.attempts)
    replayEntries rest

def replayWal : Async Unit := do
  match ← walPending.attempt with
  | .error _ => pure ()
  | .ok entries => replayEntries entries

end Router

end Fvfs
