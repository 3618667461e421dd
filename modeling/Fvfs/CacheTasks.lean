import Fvfs.Lib.Protocol
import Fvfs.LocalCache

/-! The tasks of the client that share one cache, and the phases their threads go through:
what each may do next, and what it has learnt from the answers so far. -/
namespace Fvfs

open Lib

/-- What one thread of the client does. A crash is a thread that is never scheduled again. -/
inductive CacheTask where
  | put (data : Bytes)
  | get (sha256 : Text) (turns : Nat)
  | read (path : Option FvfsPath) (offset : Int64) (size : UInt32) (turns : Nat)
  | evict (turns : Nat)

inductive CacheReply where
  | stored (sha256 : Text)
  | found (data : Option Bytes)
  | answered (reply : ReadReply)
  | evicted

namespace CacheTask

def run (sha256 : Bytes → Digest) (cache : LocalCache) : CacheTask → ClientTask CacheReply
  | put data => do
    let hash ← cache.put sha256 data
    pure (.stored hash)
  | get hash turns => do
    let data ← cache.getByHash turns hash
    pure (.found data)
  | read path offset size turns => do
    let reply ← VfscFuse.read turns cache path offset size
    pure (.answered reply)
  | evict turns => do
    cache.evictIfNeeded turns
    pure .evicted

/-- The content a task puts into the cache. -/
def content : CacheTask → Bytes
  | put data => data
  | _ => []

end CacheTask

inductive CachePhase where
  | preparing
  | checking
  | creating
  | writing (file offset : Nat)
  | stopped
  | statting
  | opening (sha256 : Text)
  | reading (sha256 : Text) (file : Nat) (data : Bytes)
  | hit (sha256 : Text) (data : Bytes)
  | missed
  | evicting

/-- The calls of an eviction. -/
def ClientCall.Sweeps : ClientCall → Prop
  | .readDir _ | .isDir _ | .metadata _ | .removeFile _ => True
  | _ => False

/-- What a reply with cached bytes says about the phase its thread has reached. -/
def CacheReply.Grounded (task : CacheTask) (phase : CachePhase) : CacheReply → Prop
  | found (some data) => ∃ sha256 turns, task = .get sha256 turns ∧ phase = .hit sha256 data
  | answered (.data (some sha256) bytes) => ∃ path offset size turns data,
    task = .read path offset size turns ∧ phase = .hit sha256 data ∧
      bytes = VfscFuse.slice offset size data
  | _ => True

def cacheProtocol (sha256 : Bytes → Digest) (cache : LocalCache) (task : CacheTask) :
    Protocol ClientSys Halt CacheReply CachePhase where
  permits
    | .preparing, op => ∃ dir, op = .createDirAll dir
    | .checking, op => ∃ path, op = .pathExists path
    | .creating, op => ∃ data path, task = .put data ∧
      cache.place (sha256 data).text = some path ∧ op = .create path
    | .writing file offset, op => ∃ data, task = .put data ∧
      op = .write file offset (data.drop offset)
    | .statting, op => ∃ path, op = .stat path
    | .opening hash, op => ∃ path, cache.place hash = some path ∧ op = .openFile path
    | .reading _ file data, op => op = .read file data.length
    | .missed, op => ∃ path, op = .fetch path
    | .evicting, op => op.Sweeps
    | _, _ => False
  next
    | _, .createDirAll _, true => .checking
    | _, .createDirAll _, false => .stopped
    | _, .pathExists _, true => .stopped
    | _, .pathExists _, false => .creating
    | _, .create _, some file => .writing file 0
    | _, .create _, none => .stopped
    | _, .write file offset _, some n => .writing file (offset + n)
    | _, .write _ _ _, none => .stopped
    | _, .stat _, some (c :: hash) => .opening (c :: hash)
    | _, .stat _, _ => .missed
    | .opening hash, .openFile _, some file => .reading hash file []
    | _, .openFile _, none => .missed
    | .reading hash _ data, .read _ _, some [] => .hit hash data
    | .reading hash file data, .read _ _, some (byte :: more) =>
      .reading hash file (data ++ byte :: more)
    | _, .read _ _, none => .missed
    | phase, _, _ => phase
  final
    | phase, .ok reply => reply.Grounded task phase
    | _, .error _ => True

/-- Where a task starts. -/
def CacheTask.start : CacheTask → CachePhase
  | put _ => .preparing
  | get hash _ => .opening hash
  | read _ _ _ _ => .statting
  | evict _ => .evicting

namespace CacheTask

section Follows

variable {sha256 : Bytes → Digest} {cache : LocalCache} {task : CacheTask}

theorem follows_writeFrom (file : Nat) {data : Bytes} (putting : task = .put data) (hash : Text)
    (turns offset : Nat) : (cacheProtocol sha256 cache task).Follows (.writing file offset)
      (LocalCache.writeFrom file turns offset (data.drop offset) >>= fun _ =>
        .ret (.stored hash)) := by
  induction turns generalizing offset with
  | zero => trivial
  | succ turns ih =>
    unfold LocalCache.writeFrom
    split
    next => trivial
    next =>
      refine ⟨⟨data, putting, rfl⟩, fun answer => ?_⟩
      rcases answer with _ | _ | n
      · trivial
      · trivial
      · have rest := ih (offset + (n + 1))
        rw [← List.drop_drop] at rest
        exact rest

theorem follows_storeNew {data : Bytes} {path : Place} (putting : task = .put data)
    (located : cache.place (sha256 data).text = some path) (hash : Text) :
    (cacheProtocol sha256 cache task).Follows .checking
      (LocalCache.storeNew path data >>= fun _ => .ret (.stored hash)) := by
  refine ⟨⟨path, rfl⟩, fun found => ?_⟩
  match found with
  | true => trivial
  | false =>
    refine ⟨⟨data, path, putting, located, rfl⟩, fun made => ?_⟩
    match made with
    | none => trivial
    | some file => exact follows_writeFrom file putting hash data.length 0

theorem follows_put (sha256 : Bytes → Digest) (cache : LocalCache) (data : Bytes) :
    (cacheProtocol sha256 cache (.put data)).Follows .preparing
      ((CacheTask.put data).run sha256 cache) := by
  obtain ⟨path, parent, located, up⟩ := cache.exists_parent (sha256 data).hex
  unfold CacheTask.run LocalCache.put
  simp only [located, up]
  refine ⟨⟨parent, rfl⟩, fun made => ?_⟩
  match made with
  | true =>
    change (cacheProtocol sha256 cache _).Follows .checking
      ((LocalCache.storeNew path data >>= fun _ => .ret _) >>= fun hash => .ret (.stored hash))
    rw [bind_assoc]
    exact follows_storeNew rfl located _
  | false => trivial

theorem follows_readToEnd {hash : Text} {file : Nat} {k : Option Bytes → ClientTask CacheReply}
    (missed : (cacheProtocol sha256 cache task).Follows .missed (k none))
    (hit : ∀ data, (cacheProtocol sha256 cache task).Follows (.hit hash data) (k (some data)))
    (turns : Nat) (data : Bytes) :
    (cacheProtocol sha256 cache task).Follows (.reading hash file data)
      (LocalCache.readToEnd file turns data >>= k) := by
  induction turns generalizing data with
  | zero => trivial
  | succ turns ih =>
    refine ⟨rfl, fun answer => ?_⟩
    match answer with
    | none => exact missed
    | some [] => exact hit data
    | some (byte :: more) => exact ih (data ++ byte :: more)

theorem follows_getByHash {hash : Text} {k : Option Bytes → ClientTask CacheReply}
    (missed : (cacheProtocol sha256 cache task).Follows .missed (k none))
    (hit : ∀ data, (cacheProtocol sha256 cache task).Follows (.hit hash data) (k (some data)))
    (turns : Nat) : (cacheProtocol sha256 cache task).Follows (.opening hash)
      (cache.getByHash turns hash >>= k) := by
  unfold LocalCache.getByHash
  cases located : cache.place hash with
  | none => trivial
  | some path =>
    refine ⟨⟨path, located, rfl⟩, fun answer => ?_⟩
    match answer with
    | none => exact missed
    | some file => exact follows_readToEnd missed hit turns []

theorem follows_get (sha256 : Bytes → Digest) (cache : LocalCache) (hash : Text) (turns : Nat) :
    (cacheProtocol sha256 cache (.get hash turns)).Follows (.opening hash)
      ((CacheTask.get hash turns).run sha256 cache) := by
  unfold CacheTask.run
  apply follows_getByHash
  · trivial
  · exact fun data => ⟨hash, turns, rfl, rfl⟩

theorem follows_fetch (path : FvfsPath) (offset : Int64) (size : UInt32) :
    (cacheProtocol sha256 cache task).Follows .missed
      (VfscFuse.fetchSlice path offset size >>= fun reply => .ret (.answered reply)) := by
  refine ⟨⟨path, rfl⟩, fun answer => ?_⟩
  cases answer with
  | ok data => trivial
  | error e => trivial

theorem follows_lookUp {k : Option (Text × Bytes) → ClientTask CacheReply}
    (missed : (cacheProtocol sha256 cache task).Follows .missed (k none))
    (hit : ∀ hash data,
      (cacheProtocol sha256 cache task).Follows (.hit hash data) (k (some (hash, data))))
    (turns : Nat) (path : FvfsPath) : (cacheProtocol sha256 cache task).Follows .statting
      (VfscFuse.lookUp turns cache path >>= k) := by
  refine ⟨⟨path, rfl⟩, fun answer => ?_⟩
  match answer with
  | none => exact missed
  | some [] => exact missed
  | some (c :: hash) =>
    change (cacheProtocol sha256 cache task).Follows (.opening (c :: hash))
      ((cache.getByHash turns (c :: hash) >>= _) >>= k)
    rw [bind_assoc]
    apply follows_getByHash
    · exact missed
    · exact fun data => hit (c :: hash) data

theorem follows_read (sha256 : Bytes → Digest) (cache : LocalCache) (path : Option FvfsPath)
    (offset : Int64) (size : UInt32) (turns : Nat) :
    (cacheProtocol sha256 cache (.read path offset size turns)).Follows .statting
      ((CacheTask.read path offset size turns).run sha256 cache) := by
  unfold CacheTask.run VfscFuse.read
  cases path with
  | none => trivial
  | some path =>
    dsimp only
    rw [bind_assoc]
    apply follows_lookUp
    · exact follows_fetch path offset size
    · exact fun hash data => ⟨some path, offset, size, turns, data, rfl, rfl, rfl⟩

theorem visit_sweeps (dir : Place) (names : List Text) (stack : List Place)
    (out : List LocalCache.Entry) :
    (LocalCache.visit dir names stack out).Only ClientCall.Sweeps := by
  induction names generalizing stack out with
  | nil => trivial
  | cons name names ih =>
    refine ⟨trivial, fun directory => ?_⟩
    match directory with
    | true => exact ih _ _
    | false =>
      refine ⟨trivial, fun answer => ?_⟩
      match answer with
      | none => exact ih _ _
      | some (modified, size) => exact ih _ _

theorem walk_sweeps (turns : Nat) (stack : List Place) (out : List LocalCache.Entry) :
    (LocalCache.walk turns stack out).Only ClientCall.Sweeps := by
  induction turns generalizing stack out with
  | zero => trivial
  | succ turns ih =>
    cases stack with
    | nil => trivial
    | cons dir stack =>
      refine ⟨trivial, fun answer => ?_⟩
      match answer with
      | none => exact ih _ _
      | some names => exact (visit_sweeps dir names stack out).bind fun _ => ih _ _

theorem removeOldest_sweeps (used target freed : UInt64) (entries : List LocalCache.Entry) :
    (LocalCache.removeOldest used target freed entries).Only ClientCall.Sweeps := by
  induction entries generalizing freed with
  | nil => trivial
  | cons entry entries ih =>
    unfold LocalCache.removeOldest
    split
    next => trivial
    next =>
      refine ⟨trivial, fun removed => ?_⟩
      match removed with
      | true => exact ih _
      | false => exact ih _

theorem evictIfNeeded_sweeps (turns : Nat) (cache : LocalCache) :
    (cache.evictIfNeeded turns).Only ClientCall.Sweeps := by
  unfold LocalCache.evictIfNeeded
  refine Prog.Only.bind ((walk_sweeps turns _ _).bind fun _ => trivial) fun used => ?_
  split
  next => trivial
  next => exact (walk_sweeps turns _ _).bind fun entries => removeOldest_sweeps _ _ _ _

theorem follows_evict (sha256 : Bytes → Digest) (cache : LocalCache) (turns : Nat) :
    (cacheProtocol sha256 cache (.evict turns)).Follows .evicting
      ((CacheTask.evict turns).run sha256 cache) := by
  apply Protocol.follows_bind_of_only (evictIfNeeded_sweeps turns cache)
  · exact fun op sweeps => sweeps
  · intro op answer sweeps
    cases op <;> first | rfl | exact sweeps.elim
  · exact fun _ => trivial
  · exact fun _ => trivial

theorem follows (sha256 : Bytes → Digest) (cache : LocalCache) (task : CacheTask) :
    (cacheProtocol sha256 cache task).Follows task.start (task.run sha256 cache) := by
  cases task with
  | put data => exact follows_put sha256 cache data
  | get hash turns => exact follows_get sha256 cache hash turns
  | read path offset size turns => exact follows_read sha256 cache path offset size turns
  | evict turns => exact follows_evict sha256 cache turns

end Follows

end CacheTask

end Fvfs
