import Fvfs.Router

/-! What a WAL replay comes to, as a function of the durable state without its access
statistics: which entries it tries, what each attempt stores, and that doing part of an
entry twice comes to the same as doing it once. -/
namespace Fvfs

open Lib
open Function (update)

/-- Backends whose answers depend only on what they hold. A put creates the object or
replaces it, so where one succeeded the same put succeeds again. -/
structure Backends where
  getFault : Tier → (FvfsPath → Option Bytes) → FvfsPath → Option FvfsError
  putFault : Tier → (FvfsPath → Option Bytes) → FvfsPath → Bytes → Option FvfsError
  repeatable : ∀ t held p data, putFault t held p data = none →
    putFault t (update held p (some data)) p data = none

namespace Backends

/-- Mounted disks, where nothing can be created below a file, and S3. A tier that is down
answers every call with an error. -/
def mounted (down : Tier → Bool) : Backends where
  getFault t _ _ := if down t then some (.io "unreachable".toList) else none
  putFault t held p _ :=
    if down t ∨ (t ≠ .s3 ∧ ∃ q ∈ p.ancestors, held q ≠ none) then some (.io "unreachable".toList)
    else none
  repeatable := by
    intro t held p data accepted
    simp only [ite_eq_right_iff, reduceCtorEq, imp_false] at accepted ⊢
    rintro (off | ⟨disk, q, above, file⟩)
    · exact accepted (Or.inl off)
    · rw [Function.update_of_ne (FvfsPath.ancestor_ne above)] at file
      exact accepted (Or.inr ⟨disk, q, above, file⟩)

def fault (b : Backends) (w : World) : Step → Option FvfsError
  | .put t p data => b.putFault t (w.tiers t) p data
  | .get t p => b.getFault t (w.tiers t) p
  | _ => none

/-- Steps on these backends; the environment reads the clock only. -/
def perform (b : Backends) : Handler Sys World Int :=
  fun op clock w => Fvfs.perform op ⟨clock, b.fault w op, none⟩ w

end Backends

namespace Store

def unaccessed (r : FileRow) : FileRow := { r with accessedAt := 0, accessCount30d := 0 }

def bare (s : Store) : Store where
  files := s.files.map unaccessed
  wal := s.wal
  lastInsertRowid := 0
  paths_unique := by
    intro i j r t hr ht same
    rw [Table.get?_map, Option.map_eq_some_iff] at hr ht
    obtain ⟨x, hx, rfl⟩ := hr
    obtain ⟨y, hy, rfl⟩ := ht
    exact s.paths_unique i j x y hx hy same
  wal_refs := by
    intro e w found
    rw [Table.get?_map, Option.isSome_map]
    exact s.wal_refs e w found

theorem ext_tables {s t : Store} (files : s.files = t.files) (wal : s.wal = t.wal)
    (last : s.lastInsertRowid = t.lastInsertRowid) : s = t := by
  cases s
  cases t
  cases files
  cases wal
  cases last
  rfl

section bare

variable (s : Store)

@[simp] theorem bare_wal : s.bare.wal = s.wal := rfl

theorem bare_recordAccess (id : Nat) (now : Int) : (s.recordAccess id now).bare = s.bare :=
  ext_tables (Table.map_modify_of_same fun _ => rfl) rfl rfl

theorem bare_setTierBitmask (id : Nat) (b : TierBitmask) :
    (s.setTierBitmask id b).bare = s.bare.setTierBitmask id b := by
  refine ext_tables ?_ rfl rfl
  exact Table.map_modify (k := fun r : FileRow => { r with tierBitmask := b }) fun _ => rfl

theorem bare_fileAt (p : FvfsPath) :
    s.bare.fileAt p = (s.fileAt p).map fun x => (x.1, unaccessed x.2) :=
  Table.findRow_map fun _ => rfl

@[simp] theorem bare_rowState (p : FvfsPath) : s.bare.rowState p = s.rowState p := by
  simp only [rowState, bare_fileAt, Option.map_map]
  rfl

end bare

end Store

/-- The record of a row whose accesses are not counted. -/
def FileMetadata.bare (m : FileMetadata) : FileMetadata :=
  { m with accessedAt := 0, accessCount30d := 0 }

namespace Store

theorem bare_get (s : Store) (p : FvfsPath) : s.bare.get p = (s.get p).map FileMetadata.bare := by
  simp only [get, bare_fileAt, Option.map_map]
  rfl

theorem bare_getById (s : Store) (id : Nat) :
    s.bare.getById id = (s.getById id).map FileMetadata.bare := by
  simp only [getById, bare, Table.get?_map, Option.map_map]
  rfl

end Store

namespace World

def bare (w : World) : World := ⟨w.tiers, w.store.bare, []⟩

section bare

variable (w : World)

@[simp] theorem bare_tiers : w.bare.tiers = w.tiers := rfl
@[simp] theorem bare_store : w.bare.store = w.store.bare := rfl

theorem bare_setObject (t : Tier) (p : FvfsPath) (x : Option Bytes) :
    (w.setObject t p x).bare = w.bare.setObject t p x := rfl

theorem bare_withStore (s : Store) : (w.withStore s).bare = w.bare.withStore s.bare := rfl

end bare

end World

def WalOp.target : WalOp → Tier
  | replicateNas => .nas
  | uploadS3 => .s3

namespace Store

/-- The entries a replay still tries. -/
def retriable (s : Store) : List WalEntry :=
  s.walPending.filter fun e => e.attempts < Router.maxAttempts

end Store

namespace Backends

open Router

variable (b : Backends)

def fetch (w : World) (t : Tier) (p : FvfsPath) : Outcome Bytes :=
  match b.getFault t (w.tiers t) p, w.tiers t p with
  | some e, _ => .error e
  | none, some data => .ok data
  | none, none => .error (.notFound p.text)

def fetchColder (w : World) (p : FvfsPath) (bits : TierBitmask) : Outcome Bytes :=
  if bits.has .nas then b.fetch w .nas p
  else if bits.has .s3 then b.fetch w .s3 p
  else .error (.notFound p.text)

def fetchFastest (w : World) (p : FvfsPath) (bits : TierBitmask) : Outcome Bytes :=
  if bits.has .localDisk then
    match b.fetch w .localDisk p with
    | .ok data => .ok data
    | .error _ => b.fetchColder w p bits
  else b.fetchColder w p bits

def readNow (w : World) (p : FvfsPath) : Outcome Bytes :=
  match w.store.get p with
  | none => .error (.notFound p.text)
  | some m => if m.isDir then .error (.isADirectory p.text) else b.fetchFastest w p m.tierBitmask

/-- The bytes an entry copies. -/
def source (w : World) (op : WalOp) (p : FvfsPath) : Outcome Bytes :=
  match op with
  | .replicateNas => b.fetch w .localDisk p
  | .uploadS3 => b.readNow w p

/-- One attempt at an entry: the copy stored and its bit set, or the error. -/
def attempt (w : World) (op : WalOp) (m : FileMetadata) : Outcome World :=
  match b.source w op m.path with
  | .error e => .error e
  | .ok data =>
    match b.putFault op.target (w.tiers op.target) m.path data with
    | some e => .error e
    | none => .ok ((w.setObject op.target m.path (some data)).withStore
        (w.store.setTierBitmask m.id (m.tierBitmask.set op.target)))

/-- An entry worked off. One that fails, fails at every attempt it has left. -/
def settle (w : World) (entry : WalEntry) : World :=
  match w.store.getById entry.fileId with
  | none => w.withStore (w.store.walComplete entry.id)
  | some m =>
    match b.attempt w entry.op m with
    | .ok w' => w'.withStore (w'.store.walComplete entry.id)
    | .error e => w.withStore
        ((fun s => s.walRecordFailure entry.id e.toText)^[maxAttempts - entry.attempts] w.store)

/-- What a replay leaves. -/
def replayed (w : World) : World := w.store.retriable.foldl b.settle w

end Backends

namespace Store

open Router

instance : Std.Total fun a b : WalEntry => a.enqueuedAt ≤ b.enqueuedAt :=
  ⟨fun a b => le_total a.enqueuedAt b.enqueuedAt⟩

instance : IsTrans WalEntry fun a b => a.enqueuedAt ≤ b.enqueuedAt :=
  ⟨fun _ _ _ first second => le_trans first second⟩

theorem walPending_walComplete (s : Store) (id : Nat) :
    (s.walComplete id).walPending = s.walPending.filter fun e => e.id != id := by
  unfold walPending
  rw [filter_insertionSort, List.filter_map]
  rfl

/-- An entry as a failure counted under this id leaves it. -/
def failedEntry (id : Nat) (error : Text) (e : WalEntry) : WalEntry :=
  if e.id = id then { e with attempts := (e.attempts + 1) % 2 ^ 32, lastError := some error } else e

theorem failedEntry_enqueuedAt (id : Nat) (error : Text) (e : WalEntry) :
    (failedEntry id error e).enqueuedAt = e.enqueuedAt := by
  unfold failedEntry
  split <;> rfl

theorem walPending_walRecordFailure (s : Store) (id : Nat) (error : Text) :
    (s.walRecordFailure id error).walPending = s.walPending.map (failedEntry id error) := by
  have rows : (s.walRecordFailure id error).wal.rows.map toEntry =
      (s.wal.rows.map toEntry).map (failedEntry id error) := by
    simp only [walRecordFailure, Table.modify, List.map_map]
    refine List.map_congr_left fun x _ => ?_
    by_cases same : x.1 = id
    · simp [toEntry, failedEntry, same, Nat.add_mod]
    · simp [toEntry, failedEntry, same]
  unfold walPending
  rw [rows]
  refine (List.map_insertionSort _ _ _ _ fun a _ b _ => ?_).symm
  rw [failedEntry_enqueuedAt, failedEntry_enqueuedAt]

theorem walPending_ids_nodup (s : Store) : (s.walPending.map WalEntry.id).Nodup := by
  have same : (s.walPending.map WalEntry.id).Perm s.wal.ids := by
    refine ((List.perm_insertionSort _ _).map _).trans ?_
    rw [List.map_map]
    exact List.Perm.refl _
  exact same.nodup_iff.mpr s.wal.ids_nodup

/-- Where the next entry to try stands among those pending. -/
theorem retriable_split {s : Store} {head : WalEntry} {rest : List WalEntry}
    (next : s.retriable = head :: rest) :
    head.attempts < maxAttempts ∧ ∃ before after, s.walPending = before ++ head :: after ∧
      (∀ e ∈ before, maxAttempts ≤ e.attempts ∧ e.id ≠ head.id) ∧ (∀ e ∈ after, e.id ≠ head.id) ∧
      after.filter (fun e => e.attempts < maxAttempts) = rest := by
  obtain ⟨before, after, split, none, live, rfl⟩ := List.filter_eq_cons_iff.mp next
  have nodup := s.walPending_ids_nodup
  rw [split, List.map_append, List.map_cons, List.nodup_append, List.nodup_cons] at nodup
  obtain ⟨-, ⟨unique, -⟩, apart⟩ := nodup
  refine ⟨by simpa using live, before, after, split, fun e earlier => ⟨?_, ?_⟩, ?_, rfl⟩
  · simpa using none e earlier
  · exact apart _ (List.mem_map_of_mem earlier) _ List.mem_cons_self
  · intro e later same
    exact unique (same ▸ List.mem_map_of_mem later)

theorem retriable_walComplete {s : Store} {head : WalEntry} {rest : List WalEntry}
    (next : s.retriable = head :: rest) : (s.walComplete head.id).retriable = rest := by
  obtain ⟨-, before, after, split, spent, apart, rfl⟩ := retriable_split next
  have kept : after.filter (fun e => e.id != head.id) = after := by
    rw [List.filter_eq_self]
    intro e later
    simpa using apart e later
  have dropped : (before.filter fun e => e.id != head.id).filter
      (fun e => e.attempts < maxAttempts) = [] := by
    rw [List.filter_eq_nil_iff]
    intro e earlier
    have := (spent e (List.mem_of_mem_filter earlier)).1
    simpa using this
  simp only [retriable, walPending_walComplete, split, List.filter_append, List.filter_cons, kept,
    dropped]
  simp

theorem retriable_walRecordFailure {s : Store} {head : WalEntry} {rest : List WalEntry}
    (next : s.retriable = head :: rest) (error : Text) :
    (s.walRecordFailure head.id error).retriable =
      if head.attempts + 1 < maxAttempts then
        { head with attempts := head.attempts + 1, lastError := some error } :: rest
      else rest := by
  obtain ⟨live, before, after, split, spent, apart, rfl⟩ := retriable_split next
  have others {es : List WalEntry} (other : ∀ e ∈ es, e.id ≠ head.id) :
      es.map (failedEntry head.id error) = es := by
    refine (List.map_congr_left fun e inside => ?_).trans (List.map_id es)
    exact if_neg (other e inside)
  have counted : failedEntry head.id error head =
      { head with attempts := head.attempts + 1, lastError := some error } := by
    have small : (head.attempts + 1) % 2 ^ 32 = head.attempts + 1 := by
      unfold maxAttempts at live
      omega
    rw [failedEntry, if_pos rfl, small]
  have dropped : before.filter (fun e => e.attempts < maxAttempts) = [] := by
    rw [List.filter_eq_nil_iff]
    intro e earlier
    simpa using (spent e earlier).1
  unfold retriable
  rw [walPending_walRecordFailure, split, List.map_append, List.map_cons,
    others fun e earlier => (spent e earlier).2, others apart, counted, List.filter_append, dropped,
    List.nil_append, List.filter_cons]
  simp

end Store

namespace Store

theorem get_setTierBitmask (s : Store) (id : Nat) (bits : TierBitmask) (p : FvfsPath) :
    (s.setTierBitmask id bits).get p =
      (s.get p).map fun m => if m.id = id then { m with tierBitmask := bits } else m := by
  simp only [get, setTierBitmask, fileAt_updateFile, Option.map_map]
  congr 1
  funext x
  simp only [Function.comp_apply]
  by_cases same : x.1 = id
  · simp [same, rowToMetadata]
  · simp [same, rowToMetadata]

theorem getById_setTierBitmask_self (s : Store) (id : Nat) (bits : TierBitmask) :
    (s.setTierBitmask id bits).getById id =
      (s.getById id).map fun m => { m with tierBitmask := bits } := by
  simp only [getById, setTierBitmask, updateFile_files, Table.get?_modify, if_pos, Option.map_map]
  rfl

theorem getById_id {s : Store} {id : Nat} {m : FileMetadata} (found : s.getById id = some m) :
    m.id = id := by
  obtain ⟨r, -, rfl⟩ := Option.map_eq_some_iff.mp found
  rfl

/-- A row found by its path is found by its id. -/
theorem getById_of_get {s : Store} {p : FvfsPath} {m : FileMetadata} (found : s.get p = some m) :
    s.getById m.id = some m := by
  obtain ⟨⟨i, r⟩, here, rfl⟩ := Option.map_eq_some_iff.mp found
  have there := (fileAt_eq_some_iff.mp here).1
  simp [getById, rowToMetadata, there]

theorem setTierBitmask_again (s : Store) (id : Nat) (bits : TierBitmask) :
    (s.setTierBitmask id bits).setTierBitmask id bits = s.setTierBitmask id bits := by
  refine ext_tables ?_ rfl rfl
  simp only [setTierBitmask, updateFile_files, Table.modify, List.map_map, Table.mk.injEq]
  refine List.map_congr_left fun x _ => ?_
  simp only [Function.comp_apply]
  split <;> rfl

end Store

theorem TierBitmask.set_again (bits : TierBitmask) (t : Tier) :
    (bits.set t).set t = bits.set t := by
  simp only [TierBitmask.set, BitVec.or_assoc, BitVec.or_self]

theorem World.setObject_again (w : World) (t : Tier) (p : FvfsPath) (x : Option Bytes) :
    (w.setObject t p x).setObject t p x = w.setObject t p x := by
  simp only [World.setObject, Function.update_self, Function.update_idem]

namespace Backends

open Router

variable {b : Backends} {w : World} {p : FvfsPath} {data : Bytes}

theorem fetch_congr {w' : World} {t : Tier} (same : w'.tiers t = w.tiers t) :
    b.fetch w' t p = b.fetch w t p := by
  simp only [fetch, same]

theorem holds_of_fetch {t : Tier} (got : b.fetch w t p = .ok data) : w.tiers t p = some data := by
  unfold fetch at got
  split at got
  · contradiction
  next _ _ held =>
    rw [held, Except.ok.inj got]
  · contradiction

/-- A fetch finds the bytes again after they were stored somewhere. -/
theorem fetch_stored {t : Tier} (u : Tier) (got : b.fetch w t p = .ok data) :
    b.fetch (w.setObject u p (some data)) t p = .ok data := by
  rw [fetch_congr, got]
  by_cases tier : t = u
  · subst tier
    have held : update (w.tiers t) p (some data) = w.tiers t := by
      rw [← holds_of_fetch got, Function.update_eq_self]
    simp [World.setObject, held]
  · simp [World.setObject, tier]

/-- The bits of the warmer tiers are the same, and no bit of S3 is lost. -/
structure Warms (bits bits' : TierBitmask) : Prop where
  warm : ∀ t, t ≠ .s3 → bits'.has t = bits.has t
  cold : bits.has .s3 = true → bits'.has .s3 = true

theorem warms_set (bits : TierBitmask) : Warms bits (bits.set .s3) := by
  refine ⟨fun t warm => ?_, fun cold => ?_⟩
  · simp [warm]
  · simp

theorem fetchColder_stored {bits bits' : TierBitmask} (warms : Warms bits bits')
    (got : b.fetchColder w p bits = .ok data) :
    b.fetchColder (w.setObject .s3 p (some data)) p bits' = .ok data := by
  unfold fetchColder at got ⊢
  rw [warms.warm .nas (by simp)]
  split at got
  next nas =>
    rw [if_pos nas]
    exact fetch_stored .s3 got
  next nas =>
    rw [if_neg nas]
    split at got
    next cold =>
      rw [if_pos (warms.cold cold)]
      exact fetch_stored .s3 got
    next => contradiction

theorem fetchFastest_stored {bits bits' : TierBitmask} (warms : Warms bits bits')
    (got : b.fetchFastest w p bits = .ok data) :
    b.fetchFastest (w.setObject .s3 p (some data)) p bits' = .ok data := by
  have colder (cold : b.fetchColder w p bits = .ok data) := fetchColder_stored warms cold
  have same : b.fetch (w.setObject .s3 p (some data)) .localDisk p = b.fetch w .localDisk p :=
    fetch_congr (by simp [World.setObject])
  unfold fetchFastest at got ⊢
  rw [warms.warm .localDisk (by simp), same]
  split at got
  next hot =>
    rw [if_pos hot]
    cases read : b.fetch w .localDisk p with
    | ok found =>
      rw [read] at got
      exact got
    | error e =>
      rw [read] at got
      exact colder got
  next hot =>
    rw [if_neg hot]
    exact colder got

theorem readNow_stored {s : Store} (got : b.readNow w p = .ok data)
    (rows : ∀ m, w.store.get p = some m →
      ∃ m', s.get p = some m' ∧ m'.isDir = m.isDir ∧ Warms m.tierBitmask m'.tierBitmask) :
    b.readNow ((w.setObject .s3 p (some data)).withStore s) p = .ok data := by
  unfold readNow at got ⊢
  cases found : w.store.get p with
  | none =>
    rw [found] at got
    contradiction
  | some m =>
    obtain ⟨m', still, dir, warms⟩ := rows m found
    simp only [found] at got
    simp only [World.withStore_store, still, dir]
    split at got
    next => contradiction
    next plain =>
      rw [if_neg plain]
      exact fetchFastest_stored warms got

/-- The bytes an entry copied are the ones it would copy again. -/
theorem source_stored {s : Store} {op : WalOp} (got : b.source w op p = .ok data)
    (rows : op = .uploadS3 → ∀ m, w.store.get p = some m →
      ∃ m', s.get p = some m' ∧ m'.isDir = m.isDir ∧ Warms m.tierBitmask m'.tierBitmask) :
    b.source ((w.setObject op.target p (some data)).withStore s) op p = .ok data := by
  cases op with
  | replicateNas => exact fetch_stored .nas got
  | uploadS3 => exact readNow_stored got (rows rfl)

theorem attempt_ok {op : WalOp} {m : FileMetadata} {w' : World} (done : b.attempt w op m = .ok w') :
    ∃ data, b.source w op m.path = .ok data ∧
      b.putFault op.target (w.tiers op.target) m.path data = none ∧
      w' = (w.setObject op.target m.path (some data)).withStore
        (w.store.setTierBitmask m.id (m.tierBitmask.set op.target)) := by
  unfold attempt at done
  split at done
  next => contradiction
  next data got =>
    split at done
    next => contradiction
    next accepted => exact ⟨data, got, accepted, (Except.ok.inj done).symm⟩

theorem attempt_of {op : WalOp} {m : FileMetadata} (got : b.source w op m.path = .ok data)
    (accepted : b.putFault op.target (w.tiers op.target) m.path data = none) :
    b.attempt w op m = .ok ((w.setObject op.target m.path (some data)).withStore
      (w.store.setTierBitmask m.id (m.tierBitmask.set op.target))) := by
  simp only [attempt, got, accepted]

theorem accepted_stored {t : Tier} (accepted : b.putFault t (w.tiers t) p data = none) :
    b.putFault t ((w.setObject t p (some data)).tiers t) p data = none := by
  have again := b.repeatable t (w.tiers t) p data accepted
  simpa [World.setObject] using again

/-- The copy is stored and its bit still to be set. -/
theorem attempt_stored {op : WalOp} {m : FileMetadata} (got : b.source w op m.path = .ok data)
    (accepted : b.putFault op.target (w.tiers op.target) m.path data = none) :
    b.attempt (w.setObject op.target m.path (some data)) op m = b.attempt w op m := by
  have again : b.source (w.setObject op.target m.path (some data)) op m.path = .ok data := by
    refine source_stored (s := w.store) got fun _ m found => ⟨m, found, rfl, ?_⟩
    exact ⟨fun _ _ => rfl, id⟩
  rw [attempt_of got accepted, attempt_of again (accepted_stored accepted), World.setObject_again]
  rfl

/-- The copy is stored and its bit set, but the entry is still there. -/
theorem attempt_marked {op : WalOp} {m : FileMetadata} {w' : World}
    (row : w.store.getById m.id = some m) (done : b.attempt w op m = .ok w') :
    ∃ m', w'.store.getById m.id = some m' ∧ b.attempt w' op m' = .ok w' := by
  obtain ⟨data, got, accepted, rfl⟩ := attempt_ok done
  refine ⟨{ m with tierBitmask := m.tierBitmask.set op.target }, ?_, ?_⟩
  · simp [Store.getById_setTierBitmask_self, row]
  · have again : b.source ((w.setObject op.target m.path (some data)).withStore
        (w.store.setTierBitmask m.id (m.tierBitmask.set op.target))) op m.path = .ok data := by
      refine source_stored got fun upload r found => ?_
      subst upload
      rw [Store.get_setTierBitmask, found]
      by_cases same : r.id = m.id
      · obtain rfl : r = m := by
          have back := Store.getById_of_get found
          rw [same, row] at back
          exact (Option.some.inj back).symm
        exact ⟨_, rfl, by simp [FileMetadata.isDir],
          by simpa [WalOp.target] using warms_set r.tierBitmask⟩
      · exact ⟨_, rfl, by simp [same], by simpa [same] using ⟨fun _ _ => rfl, id⟩⟩
    refine (attempt_of (m := { m with tierBitmask := m.tierBitmask.set op.target }) again
      (accepted_stored accepted)).trans ?_
    simp only [World.withStore_store, TierBitmask.set_again, Store.setTierBitmask_again]
    change Except.ok (((w.setObject _ _ _).setObject _ _ _).withStore _) = _
    rw [World.setObject_again]

end Backends

namespace Store

open Router

theorem retriable_failures {s : Store} {head : WalEntry} {rest : List WalEntry}
    (next : s.retriable = head :: rest) (error : Text) :
    ((fun s => s.walRecordFailure head.id error)^[maxAttempts - head.attempts] s).retriable =
      rest := by
  obtain ⟨n, left⟩ : ∃ n, maxAttempts - head.attempts = n := ⟨_, rfl⟩
  have live := (retriable_split next).1
  rw [left]
  induction n generalizing s head with
  | zero => omega
  | succ n ih =>
    have counted := retriable_walRecordFailure next error
    rw [Function.iterate_succ_apply]
    cases n with
    | zero => rw [Function.iterate_zero_apply, counted, if_neg (by omega)]
    | succ n =>
      have more : head.attempts + 1 < maxAttempts := by omega
      rw [if_pos more] at counted
      have left' : maxAttempts - (head.attempts + 1) = n + 1 := by omega
      exact @ih _ { head with attempts := head.attempts + 1, lastError := some error } counted
        left' more

end Store

namespace Backends

open Router

variable {b : Backends} {w w' : World} {head head' : WalEntry} {rest : List WalEntry}

theorem attempt_retriable {op : WalOp} {m : FileMetadata} (done : b.attempt w op m = .ok w') :
    w'.store.retriable = w.store.retriable := by
  obtain ⟨data, -, -, rfl⟩ := attempt_ok done
  rfl

theorem retriable_settle (next : w.store.retriable = head :: rest) :
    (b.settle w head).store.retriable = rest := by
  unfold settle
  cases w.store.getById head.fileId with
  | none => exact Store.retriable_walComplete next
  | some m =>
    simp only
    cases tried : b.attempt w head.op m with
    | ok w' => exact Store.retriable_walComplete ((attempt_retriable tried).trans next)
    | error e => exact Store.retriable_failures next e.toText

theorem replayed_of_done (next : w.store.retriable = head :: rest)
    (done : b.settle w head = w') : b.replayed w' = b.replayed w := by
  subst done
  unfold replayed
  rw [retriable_settle next, next]
  rfl

/-- Inside an entry: the same entry is next, and working it off comes to the same. -/
theorem replayed_of_next (next : w.store.retriable = head :: rest)
    (still : w'.store.retriable = head' :: rest) (same : b.settle w' head' = b.settle w head) :
    b.replayed w' = b.replayed w := by
  unfold replayed
  rw [still, next, List.foldl_cons, List.foldl_cons, same]

theorem settle_failed {m : FileMetadata} {e : FvfsError}
    (row : w.store.getById head.fileId = some m)
    (failed : b.attempt w head.op m = .error e) :
    b.settle w head = w.withStore
      ((fun s => s.walRecordFailure head.id e.toText)^[maxAttempts - head.attempts] w.store) := by
  simp only [settle, row, failed]

theorem settle_done {m : FileMetadata} (row : w.store.getById head.fileId = some m)
    (done : b.attempt w head.op m = .ok w') :
    b.settle w head = w'.withStore (w'.store.walComplete head.id) := by
  simp only [settle, row, done]

theorem attempt_error_withStore {op : WalOp} {m : FileMetadata} {e : FvfsError} {s : Store}
    (same : s.get m.path = w.store.get m.path) (failed : b.attempt w op m = .error e) :
    b.attempt (w.withStore s) op m = .error e := by
  have source : b.source (w.withStore s) op m.path = b.source w op m.path := by
    cases op with
    | replicateNas => rfl
    | uploadS3 =>
      simp only [source, readNow, World.withStore_store, same]
      rfl
  unfold attempt at failed ⊢
  rw [source]
  split at failed
  next => exact failed
  next =>
    split at failed
    next refused => simpa [refused] using failed
    next => contradiction

/-- A crash with the copy stored. -/
theorem settle_stored {m : FileMetadata} {data : Bytes}
    (row : w.store.getById head.fileId = some m)
    (got : b.source w head.op m.path = .ok data)
    (accepted : b.putFault head.op.target (w.tiers head.op.target) m.path data = none) :
    b.settle (w.setObject head.op.target m.path (some data)) head = b.settle w head := by
  have still : (w.setObject head.op.target m.path (some data)).store.getById head.fileId = some m :=
    row
  have again := attempt_stored got accepted
  have done := attempt_of got accepted
  rw [settle_done row done, settle_done still (again.trans done)]

/-- A crash with the copy stored and its bit set. -/
theorem settle_marked {m : FileMetadata} (row : w.store.getById head.fileId = some m)
    (done : b.attempt w head.op m = .ok w') : b.settle w' head = b.settle w head := by
  have id := Store.getById_id row
  rw [← id] at row
  obtain ⟨m', row', done'⟩ := attempt_marked row done
  rw [id] at row row'
  rw [settle_done row done, settle_done row' done']

/-- One counted failure is the first of those left. -/
theorem settle_recorded {m : FileMetadata} {e : FvfsError}
    (row : w.store.getById head.fileId = some m) (failed : b.attempt w head.op m = .error e)
    (live : head.attempts < maxAttempts) (l : Option Text) :
    b.settle (w.withStore (w.store.walRecordFailure head.id e.toText))
      { head with attempts := head.attempts + 1, lastError := l } = b.settle w head := by
  have again : b.attempt (w.withStore (w.store.walRecordFailure head.id e.toText)) head.op m =
      .error e :=
    attempt_error_withStore rfl failed
  rw [settle_failed row failed]
  refine (@settle_failed b (w.withStore (w.store.walRecordFailure head.id e.toText))
    { head with attempts := head.attempts + 1, lastError := l } m e row again).trans ?_
  obtain ⟨n, left⟩ : ∃ n, maxAttempts - head.attempts = n + 1 :=
    ⟨maxAttempts - head.attempts - 1, by omega⟩
  have less : maxAttempts - (head.attempts + 1) = n := by omega
  simp only [left, less, Function.iterate_succ_apply]
  rfl

end Backends

end Fvfs
