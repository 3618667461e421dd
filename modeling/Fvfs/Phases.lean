import Fvfs.Lib.Protocol
import Fvfs.Stretches

/-! The phases of the tasks that race on one path: what each may do next, and the facts
its later steps rely on. Interleavings are argued on these, not on the programs. -/
namespace Fvfs

open Lib

namespace Step

/-- A put of this object took effect. -/
def Stored (t : Tier) (p : FvfsPath) (e : Event Sys ι) : Prop :=
  match e.op, e.res with
  | .put u q _, .ok _ => u = t ∧ q = p
  | _, _ => False

def Fetched (t : Tier) (p : FvfsPath) (e : Event Sys ι) : Prop :=
  match e.op, e.res with
  | .get u q, .ok _ => u = t ∧ q = p
  | _, _ => False

def Dropped (t : Tier) (p : FvfsPath) (e : Event Sys ι) : Prop :=
  match e.op, e.res with
  | .delete u q, .ok _ => u = t ∧ q = p
  | _, _ => False

/-- An upsert of the row of this path took effect. -/
def Recorded (p : FvfsPath) (e : Event Sys ι) : Prop :=
  match e.op, e.res with
  | .upsert m, .ok _ => m.path = p
  | _, _ => False

instance (p : FvfsPath) : DecidablePred fun e : Event Sys ι => Recorded p e
  | ⟨_, .upsert m, .ok _⟩ => inferInstanceAs (Decidable (m.path = p))
  | ⟨_, .upsert _, .error _⟩ | ⟨_, .put _ _ _, _⟩ | ⟨_, .get _ _, _⟩ | ⟨_, .delete _ _, _⟩
  | ⟨_, .now, _⟩ | ⟨_, .metaGet _, _⟩ | ⟨_, .metaGetById _, _⟩ | ⟨_, .setTierBitmask _ _, _⟩
  | ⟨_, .recordAccess _, _⟩ | ⟨_, .metaDelete _, _⟩ | ⟨_, .walEnqueue _ _, _⟩
  | ⟨_, .walComplete _, _⟩ | ⟨_, .walRecordFailure _ _, _⟩ | ⟨_, .walPending, _⟩
  | ⟨_, .sendPromote _, _⟩ | ⟨_, .recvPromote, _⟩ => .isFalse id

/-- A bitmask was written back to this row. -/
def Marked (id : Nat) (e : Event Sys ι) : Prop :=
  match e.op, e.res with
  | .setTierBitmask i _, .ok _ => i = id
  | _, _ => False

/-- A step that stored or removed this object. -/
def Changed (t : Tier) (p : FvfsPath) (e : Event Sys ι) : Prop := Stored t p e ∨ Dropped t p e

/-- A step that wrote the row of `p`. In the races on `p` no other row's bitmask is set. -/
def Updated (p : FvfsPath) (e : Event Sys ι) : Prop := Recorded p e ∨ ∃ id, Marked id e

/-- Steps of a write that do not concern the path it writes. -/
def Aside (p : FvfsPath) : Step → Prop
  | metaGet _ => True
  | now => True
  | upsert m => m.path ≠ p
  | walEnqueue _ _ => True
  | _ => False

end Step

inductive WritePhase where
  | storing
  | timing
  | recording (now : Int)
  | finishing
  | failed

def writeProtocol (sha256 : Bytes → Text) (p : FvfsPath) (data : Bytes) :
    Protocol Sys FvfsError Unit WritePhase where
  permits
    | .storing, op => op = .put .localDisk p data
    | .timing, op => op = .now
    | .recording now, op => op = .upsert (Router.writtenMetadata sha256 p data now)
    | .finishing, op => op.Aside p
    | .failed, _ => False
  next
    | .storing, .put _ _ _, .ok _ => .timing
    | .storing, .put _ _ _, .error _ => .failed
    | .timing, .now, clock => .recording clock
    | .recording _, .upsert _, .ok _ => .finishing
    | .recording _, .upsert _, .error _ => .failed
    | phase, _, _ => phase
  final
    | .finishing, _ => True
    | .failed, .error _ => True
    | _, _ => False

theorem ensureParents_aside {turns : Nat} {p q : FvfsPath}
    (outside : p ∉ FvfsPath.ancestorsWithin turns q) :
    (Router.ensureParents turns q).Only (Step.Aside p) := by
  rw [Router.ensureParents_eq_dirs]
  refine Router.only_ensureDirs (fun _ _ => trivial) trivial fun parent above now same => ?_
  exact outside (same ▸ above)

theorem enqueueReplication_aside (p : FvfsPath) (fileId : Nat) :
    (Router.enqueueReplication fileId).Only (Step.Aside p) := by
  refine ⟨trivial, fun answer => ?_⟩
  cases answer with
  | error e => trivial
  | ok id =>
    refine ⟨trivial, fun answer => ?_⟩
    cases answer <;> trivial

theorem afterUpsert_aside (p : FvfsPath) (fileId : Nat) :
    (Router.afterUpsert p fileId).Only (Step.Aside p) :=
  (ensureParents_aside fun above => FvfsPath.ancestor_ne above rfl).bind
    fun _ => enqueueReplication_aside p fileId

theorem follows_write (sha256 : Bytes → Text) (p : FvfsPath) (data : Bytes) :
    (writeProtocol sha256 p data).Follows .storing (Router.write sha256 p data) := by
  refine ⟨rfl, fun answer => ?_⟩
  cases answer with
  | error e => trivial
  | ok =>
    refine ⟨rfl, fun now => ⟨rfl, fun answer => ?_⟩⟩
    cases answer with
    | error e => trivial
    | ok fileId =>
      refine Protocol.follows_of_only (afterUpsert_aside p fileId) (fun _ aside => aside) ?_
        fun _ => trivial
      intro op answer aside
      cases op <;> first | exact aside.elim | rfl

inductive EvictPhase where
  | loading
  | dropping (m : FileMetadata)
  | marking (m : FileMetadata)
  | ended

/-- The object is gone and its bit is still to be cleared. -/
def EvictPhase.Owes : EvictPhase → Prop
  | .marking _ => True
  | _ => False

def evictProtocol (p : FvfsPath) (t : Tier) : Protocol Sys FvfsError Unit EvictPhase where
  permits
    | .loading, op => op = .metaGet p
    | .dropping _, op => op = .delete t p
    | .marking m, op => op = .setTierBitmask m.id (m.tierBitmask.clear t)
    | .ended, _ => False
  next
    | .loading, .metaGet _, .ok (some m) =>
      if m.tierBitmask.safeToEvictFrom t then .dropping m else .ended
    | .dropping m, .delete _ _, .ok _ => .marking m
    | _, _, _ => .ended
  final
    | .ended, _ => True
    | _, _ => False

/-- Everything an eviction does after its metadata lookup. -/
def evictLoaded (p : FvfsPath) (t : Tier) (m : FileMetadata) : Async Unit :=
  if !m.tierBitmask.safeToEvictFrom t then
    .fail (.other "cannot evict: file not present on colder tier".toList)
  else if t = .s3 then
    .fail (.other "S3 tier is never evicted".toList)
  else do
    Async.delete t p
    Async.setTierBitmask m.id (m.tierBitmask.clear t)

theorem follows_evictLoaded (p : FvfsPath) (t : Tier) (m : FileMetadata) :
    (evictProtocol p t).Follows
      (if m.tierBitmask.safeToEvictFrom t then .dropping m else .ended) (evictLoaded p t m) := by
  unfold evictLoaded
  by_cases safe : m.tierBitmask.safeToEvictFrom t = true
  · have warm : t ≠ .s3 := by
      rintro rfl
      simp at safe
    rw [if_pos safe, if_neg (by simp [safe]), if_neg warm]
    refine ⟨rfl, fun answer => ?_⟩
    cases answer with
    | error e => trivial
    | ok =>
      refine ⟨rfl, fun answer => ?_⟩
      cases answer <;> trivial
  · rw [if_neg safe, if_pos (by simp [safe])]
    trivial

theorem follows_evict (p : FvfsPath) (t : Tier) :
    (evictProtocol p t).Follows .loading (Router.evictFromTier p t) := by
  refine ⟨rfl, fun answer => ?_⟩
  cases answer with
  | error e => trivial
  | ok found =>
    cases found with
    | none => trivial
    | some m => exact follows_evictLoaded p t m

/-- The metadata an upload began with; a promotion has none. -/
abbrev Opened := Option FileMetadata

def Opened.path (p : FvfsPath) : Opened → FvfsPath
  | none => p
  | some m => m.path

/-- Promotions and uploads read the file through the router, put the bytes on one tier, and set
its bit, in the row looked up again or in the one the upload began with. -/
inductive CopyPhase where
  | opening
  | loading (o : Opened)
  | fetching (o : Opened) (b : TierBitmask) (u : Tier)
  | fetched (o : Opened) (data : Bytes)
  | refreshing
  | marking (m : FileMetadata)
  | ended

/-- The object is stored and its bit is still to be set. -/
def CopyPhase.Owes : CopyPhase → Prop
  | .refreshing | .marking _ => True
  | _ => False

/-- The read goes on to this tier, or fails. -/
def CopyPhase.attempting (o : Opened) (b : TierBitmask) : Option Tier → CopyPhase
  | some u => .fetching o b u
  | none => .ended

def CopyPhase.stored : Opened → CopyPhase
  | none => .refreshing
  | some m => .marking m

def copyProtocol (p : FvfsPath) (id : Nat) (t : Tier) :
    Protocol Sys FvfsError Unit CopyPhase where
  permits
    | .opening, op => op = .metaGetById id
    | .loading o, op => op = .metaGet (o.path p)
    | .fetching o _ u, op => op = .get u (o.path p)
    | .fetched o data, op => op = .put t (o.path p) data ∨
      (∃ signal, op = .sendPromote signal) ∨ ∃ i, op = .recordAccess i
    | .refreshing, op => op = .metaGet p
    | .marking m, op => op = .setTierBitmask m.id (m.tierBitmask.set t)
    | .ended, op => (∃ i, op = .walComplete i) ∨ ∃ i error, op = .walRecordFailure i error
  next
    | .opening, .metaGetById _, .ok (some m) => .loading (some m)
    | .loading o, .metaGet _, .ok (some m) =>
      if m.isDir then .ended else .attempting o m.tierBitmask m.tierBitmask.fastest
    | .fetching o _ _, .get _ _, .ok data => .fetched o data
    | .fetching o b .localDisk, .get _ _, .error _ => .attempting o b b.colder
    | .fetched o _, .put _ _ _, .ok _ => .stored o
    | .fetched o data, .sendPromote _, _ => .fetched o data
    | .fetched o data, .recordAccess _, _ => .fetched o data
    | .refreshing, .metaGet _, .ok (some m) => .marking m
    | _, _, _ => .ended
  final
    | .ended, _ => True
    | _, _ => False

section Copy

open Router

variable {p q : FvfsPath} {id : Nat} {t : Tier} {o : Opened} {k : Outcome Bytes → Async Unit}

theorem follows_readTiers {b : TierBitmask}
    (ok : ∀ data, (copyProtocol p id t).Follows (.fetched o data) (k (.ok data)))
    (err : ∀ e, (copyProtocol p id t).Follows .ended (k (.error e))) :
    (copyProtocol p id t).Follows (.attempting o b b.fastest)
      ((readTiers (o.path p) b).attempt >>= k) := by
  rw [Protocol.follows_iff_meets]
  refine meets_readTiers (· = .attempting o b b.colder) (fun hot => ?_) (fun cold => ?_) ?_ ?_
  · rw [TierBitmask.fastest, if_pos hot]
    refine ⟨rfl, fun answer s next => ?_⟩
    subst next
    cases answer with
    | ok data => exact ok data
    | error e => rfl
  · rw [TierBitmask.fastest, cold]
    rfl
  · rintro u _ tier rfl
    rw [tier]
    refine meets_readAndPromote ⟨rfl, fun answer s next => ?_⟩
    subst next
    cases answer with
    | ok data =>
      refine ⟨Or.inr (Or.inl ⟨_, rfl⟩), fun answer s next => ?_⟩
      subst next
      exact ok data
    | error e =>
      have cold := (TierBitmask.colder_has tier).2
      cases u <;> first | exact absurd rfl cold | exact err e
  · rintro _ nowhere rfl
    rw [nowhere]
    exact err _

/-- Everything a read does after its metadata lookup. -/
def readLoaded (p : FvfsPath) (m : FileMetadata) : Async Bytes :=
  if m.isDir then .fail (.isADirectory p.text)
  else do
    let data ← readTiers p m.tierBitmask
    let _ ← (Async.recordAccess m.id).attempt
    pure data

theorem follows_readLoaded (m : FileMetadata)
    (ok : ∀ data, (copyProtocol p id t).Follows (.fetched o data) (k (.ok data)))
    (err : ∀ e, (copyProtocol p id t).Follows .ended (k (.error e))) :
    (copyProtocol p id t).Follows
      (if m.isDir then .ended else .attempting o m.tierBitmask m.tierBitmask.fastest)
      ((readLoaded (o.path p) m).attempt >>= k) := by
  unfold readLoaded
  split
  · exact err _
  · rw [Prog.attempt_bind, bind_assoc]
    refine follows_readTiers (fun data => ?_) err
    exact ⟨Or.inr (Or.inr ⟨_, rfl⟩), fun answer => by cases answer <;> exact ok data⟩

/-- A read inside a task: what it answers decides where the task goes on. -/
theorem follows_read (ok : ∀ data, (copyProtocol p id t).Follows (.fetched o data) (k (.ok data)))
    (err : ∀ e, (copyProtocol p id t).Follows .ended (k (.error e))) :
    (copyProtocol p id t).Follows (.loading o) ((Router.read (o.path p)).attempt >>= k) := by
  refine ⟨rfl, fun answer => ?_⟩
  cases answer with
  | error e => exact err e
  | ok found =>
    cases found with
    | none => exact err _
    | some m => exact follows_readLoaded m ok err

theorem follows_promote : (copyProtocol p id .localDisk).Follows (.loading none) (promote p) := by
  refine follows_read (o := none) (fun data => ?_) fun e => trivial
  refine ⟨Or.inl rfl, fun answer => ?_⟩
  cases answer with
  | error e => trivial
  | ok =>
    refine ⟨rfl, fun answer => ?_⟩
    cases answer with
    | error e => trivial
    | ok found =>
      cases found with
      | none => trivial
      | some m => exact ⟨rfl, fun answer => by cases answer <;> trivial⟩

theorem follows_settle (entry : WalEntry) (r : Outcome Unit) :
    (copyProtocol p id t).Follows .ended (settle entry r) := by
  cases r with
  | ok => exact ⟨Or.inl ⟨_, rfl⟩, fun answer => by cases answer <;> trivial⟩
  | error e => exact ⟨Or.inr ⟨_, _, rfl⟩, fun answer => by cases answer <;> trivial⟩

theorem follows_flushEntry (entry : WalEntry) :
    (copyProtocol p entry.fileId .s3).Follows .opening (flushEntry entry) := by
  refine ⟨rfl, fun answer => ?_⟩
  cases answer with
  | error e => trivial
  | ok found =>
    cases found with
    | none => exact ⟨Or.inl ⟨_, rfl⟩, fun answer => by cases answer <;> trivial⟩
    | some m =>
      change (copyProtocol p entry.fileId .s3).Follows (.loading (some m))
        ((uploadToS3 m).attempt >>= fun result => settle entry result)
      rw [uploadToS3, Prog.attempt_bind, bind_assoc]
      refine follows_read (o := some m) (fun data => ?_) fun e => follows_settle entry (.error e)
      refine ⟨Or.inl rfl, fun answer => ?_⟩
      cases answer with
      | error e => exact follows_settle entry (.error e)
      | ok =>
        refine ⟨rfl, fun answer => ?_⟩
        cases answer with
        | error e => exact follows_settle entry (.error e)
        | ok => exact follows_settle entry (.ok ())

end Copy

end Fvfs
