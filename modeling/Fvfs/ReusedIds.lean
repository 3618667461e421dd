import Fvfs.Requests
import Fvfs.Steps

/-! Ids that outlive their rows. A flush keeps the ids of the entries it has listed and of the
row it has loaded, while clients delete those rows and the tables hand the ids out again. -/
namespace Fvfs

open Lib Step Router

/-- What a step that changes the store at all makes of it. -/
inductive StoreStep (s : Store) : Step → Store → Prop
  | upsert (m : FileMetadata) : StoreStep s (.upsert m) (s.upsert m).2
  | setTierBitmask (id : Nat) (b : TierBitmask) :
      StoreStep s (.setTierBitmask id b) (s.setTierBitmask id b)
  | recordAccess (id : Nat) (now : Int) : StoreStep s (.recordAccess id) (s.recordAccess id now)
  | delete (p : FvfsPath) : StoreStep s (.metaDelete p) (s.delete p)
  | enqueue (fileId : Nat) (op : WalOp) (now : Int) {id : Nat} {s' : Store}
      (enqueued : s.walEnqueue fileId op now = .ok (id, s')) :
      StoreStep s (.walEnqueue fileId op) s'
  | complete (id : Nat) : StoreStep s (.walComplete id) (s.walComplete id)
  | recordFailure (id : Nat) (error : Text) :
      StoreStep s (.walRecordFailure id error) (s.walRecordFailure id error)

theorem statement_store {c : Choice} {w : World} {op : Step} {s : Store} (answer : α)
    (step : StoreStep w.store op s) : (statement c w answer s).2.store = w.store ∨
      StoreStep w.store op (statement c w answer s).2.store := by
  rcases statement_cases (c := c) (w := w) answer s with eq | ⟨e, _, eq⟩ <;> rw [eq]
  · exact Or.inr step
  · exact Or.inl rfl

theorem statement_same {c : Choice} {w : World} (answer : α) :
    (statement c w answer w.store).2.store = w.store := by
  rcases statement_cases (c := c) (w := w) answer w.store with eq | ⟨e, _, eq⟩ <;> rw [eq]
  rfl

theorem perform_store (op : Step) (c : Choice) (w : World) :
    (perform op c w).2.store = w.store ∨ StoreStep w.store op (perform op c w).2.store := by
  cases op with
  | put t p data =>
    simp only [perform]
    rcases putObject_cases (c := c) (w := w) t p data with ⟨_, eq⟩ | ⟨e, _, eq⟩ | ⟨e, n, _, _, eq⟩ <;>
      exact Or.inl (congrArg (·.2.store) eq)
  | get t p =>
    simp only [perform]
    rcases getObject_cases (c := c) (w := w) t p with ⟨data, _, eq⟩ | ⟨e, eq⟩ <;>
      exact Or.inl (congrArg (·.2.store) eq)
  | delete t p =>
    simp only [perform]
    rcases deleteObject_cases (c := c) (w := w) t p with eq | ⟨e, eq⟩ <;>
      exact Or.inl (congrArg (·.2.store) eq)
  | upsert m => exact statement_store _ (.upsert m)
  | setTierBitmask id b => exact statement_store _ (.setTierBitmask id b)
  | recordAccess id => exact statement_store _ (.recordAccess id c.clock)
  | metaDelete p => exact statement_store _ (.delete p)
  | walEnqueue fileId op =>
    simp only [perform]
    rcases enqueueEntry_cases (c := c) (w := w) fileId op with ⟨id, s, enqueued, eq⟩ | ⟨e, eq⟩ <;>
      rw [eq]
    · exact Or.inr (.enqueue fileId op c.clock enqueued)
    · exact Or.inl rfl
  | walComplete id => exact statement_store _ (.complete id)
  | walRecordFailure id error => exact statement_store _ (.recordFailure id error)
  | now | sendPromote signal | recvPromote => exact Or.inl rfl
  | metaGet p | metaGetById id | walPending => exact Or.inl (statement_same _)

/-- The id of the file row a step would create. -/
def Step.newRow (s : Store) : Step → Option Nat
  | upsert m => if s.fileAt m.path = none then some s.files.nextId else none
  | _ => none

/-- The id of the WAL entry a step would create. -/
def Step.newEntry (s : Store) : Step → Option Nat
  | walEnqueue _ _ => some s.wal.nextId
  | _ => none

/-- The row with this id is there, and has this path. -/
def HasRow (fid : Nat) (path : Text) (s : Store) : Prop :=
  ∃ r, s.files.get? fid = some r ∧ r.path = path

def HasEntry (id : Nat) (s : Store) : Prop := (s.wal.get? id).isSome

section Rows

variable {s s' : Store} {op : Step} {fid id : Nat} {path : Text}

theorem hasRow_updateFile {f : FileRow → FileRow} {keeps : ∀ r, (f r).path = r.path}
    (there : HasRow fid path (s.updateFile id f keeps)) : HasRow fid path s := by
  obtain ⟨r', found, rfl⟩ := there
  simp only [Store.updateFile_files, Table.get?_modify] at found
  split at found
  · obtain ⟨r, before, rfl⟩ := Option.map_eq_some_iff.mp found
    exact ⟨r, before, (keeps r).symm⟩
  · exact ⟨r', found, rfl⟩

/-- No step gives a row a new path, and a row not there before has the id the step creates. -/
theorem StoreStep.hasRow (step : StoreStep s op s') (there : HasRow fid path s') :
    HasRow fid path s ∨ op.newRow s = some fid := by
  cases step with
  | upsert m =>
    cases found : s.fileAt m.path with
    | none =>
      obtain ⟨r, at_id, rfl⟩ := there
      simp only [Store.upsert_insert found, Store.insertFile, Table.get?_insert] at at_id
      split at at_id
      next fresh => exact Or.inr (by simp [newRow, found, fresh])
      next => exact Or.inl ⟨r, at_id, rfl⟩
    | some x =>
      have updated : HasRow fid path
          (s.updateFile x.1 (Store.conflictRow m) (Store.conflictRow_path m)) := by
        rwa [Store.upsert_conflict found] at there
      exact Or.inl (hasRow_updateFile updated)
  | setTierBitmask id b => exact Or.inl (hasRow_updateFile there)
  | recordAccess id now => exact Or.inl (hasRow_updateFile there)
  | delete p =>
    obtain ⟨r, found, rfl⟩ := there
    simp only [Store.delete, Table.get?_filter, Option.filter_eq_some_iff] at found
    exact Or.inl ⟨r, found.1, rfl⟩
  | enqueue fileId op now enqueued =>
    unfold Store.walEnqueue at enqueued
    split at enqueued
    · obtain ⟨-, rfl⟩ := Prod.mk.inj (Except.ok.inj enqueued)
      exact Or.inl there
    · contradiction
  | complete id => exact Or.inl there
  | recordFailure id error => exact Or.inl there

theorem StoreStep.hasEntry (step : StoreStep s op s') (there : HasEntry id s') :
    HasEntry id s ∨ op.newEntry s = some id := by
  cases step with
  | upsert m => exact Or.inl (by rwa [HasEntry, Store.upsert_wal] at there)
  | setTierBitmask id b => exact Or.inl there
  | recordAccess id now => exact Or.inl there
  | delete p =>
    obtain ⟨entry, found⟩ := Option.isSome_iff_exists.mp there
    simp only [Store.delete, Table.get?_filter, Option.filter_eq_some_iff] at found
    exact Or.inl (Option.isSome_iff_exists.mpr ⟨entry, found.1⟩)
  | enqueue fileId op now enqueued =>
    unfold Store.walEnqueue at enqueued
    split at enqueued
    · obtain ⟨-, rfl⟩ := Prod.mk.inj (Except.ok.inj enqueued)
      rw [HasEntry, Table.get?_insert] at there
      split at there
      next fresh => exact Or.inr (by simp [newEntry, fresh])
      next => exact Or.inl there
    · contradiction
  | complete done =>
    obtain ⟨entry, found⟩ := Option.isSome_iff_exists.mp there
    simp only [Store.walComplete, Table.get?_filter, Option.filter_eq_some_iff] at found
    exact Or.inl (Option.isSome_iff_exists.mpr ⟨entry, found.1⟩)
  | recordFailure failed error =>
    rw [HasEntry, Table.isSome_get?_iff] at there ⊢
    exact Or.inl (by simpa [Store.walRecordFailure] using there)

end Rows

theorem hasRow_perform {op : Step} {c : Choice} {w : World} {fid : Nat} {path : Text}
    (there : HasRow fid path (perform op c w).2.store) :
    HasRow fid path w.store ∨ op.newRow w.store = some fid := by
  rcases perform_store op c w with same | step
  · exact Or.inl (same ▸ there)
  · exact step.hasRow there

theorem hasEntry_perform {op : Step} {c : Choice} {w : World} {id : Nat}
    (there : HasEntry id (perform op c w).2.store) :
    HasEntry id w.store ∨ op.newEntry w.store = some id := by
  rcases perform_store op c w with same | step
  · exact Or.inl (same ▸ there)
  · exact step.hasEntry there

/-- Steps that get a file's bytes. -/
def Step.Fetches : Step → Prop
  | get _ _ | sendPromote _ => True
  | _ => False

/-- Steps of a read. -/
def Step.Reads : Step → Prop
  | get _ _ | metaGet _ | recordAccess _ | sendPromote _ => True
  | _ => False

inductive FlushPhase where
  | listing
  | opening (entry : WalEntry) (rest : List WalEntry)
  | uploading (entry : WalEntry) (rest : List WalEntry) (m : FileMetadata)
  | marking (entry : WalEntry) (rest : List WalEntry) (m : FileMetadata)
  | settling (entry : WalEntry) (rest : List WalEntry)
  | ended

namespace FlushPhase

def begin : List WalEntry → FlushPhase
  | [] => ended
  | entry :: rest => opening entry rest

/-- The file in flight: its row is loaded, and its bitmask still to be written. -/
def loaded : FlushPhase → Option FileMetadata
  | uploading _ _ m | marking _ _ m => some m
  | _ => none

/-- The WAL entries in flight: listed, and still to be settled. -/
def entries : FlushPhase → List Nat
  | opening entry rest | uploading entry rest _ | marking entry rest _ | settling entry rest =>
    entry.id :: rest.map (·.id)
  | _ => []

end FlushPhase

def flushProtocol : Protocol Sys FvfsError Unit FlushPhase where
  permits
    | .listing, op => op = .walPending
    | .opening entry _, op => op = .metaGetById entry.fileId
    | .uploading entry _ m, op => op.Reads ∨ (∃ data, op = .put .s3 m.path data) ∨
      ∃ error, op = .walRecordFailure entry.id error
    | .marking _ _ m, op => op = .setTierBitmask m.id (m.tierBitmask.set .s3)
    | .settling entry _, op => op = .walComplete entry.id ∨
      ∃ error, op = .walRecordFailure entry.id error
    | .ended, _ => False
  next
    | .listing, .walPending, .ok entries => .begin (entries.filter flushable)
    | .opening entry rest, .metaGetById _, .ok (some m) => .uploading entry rest m
    | .opening entry rest, .metaGetById _, .ok none => .settling entry rest
    | .opening _ rest, .metaGetById _, .error _ => .begin rest
    | .uploading entry rest m, .put _ _ _, .ok _ => .marking entry rest m
    | .uploading entry rest _, .put _ _ _, .error _ => .settling entry rest
    | .uploading _ rest _, .walRecordFailure _ _, _ => .begin rest
    | .uploading entry rest m, _, _ => .uploading entry rest m
    | .marking entry rest _, _, _ => .settling entry rest
    | .settling _ rest, _, _ => .begin rest
    | _, _, _ => .ended
  final
    | .ended, _ => True
    | _, _ => False

section Follows

variable {entry : WalEntry} {rest : List WalEntry} {k : Unit → Async Unit}

theorem readTiers_fetches (p : FvfsPath) (b : TierBitmask) :
    (readTiers p b).Only Step.Fetches :=
  only_readTiers (fun _ _ => trivial) fun _ _ => trivial

theorem Step.Fetches.reads {op : Step} (fetches : op.Fetches) : op.Reads := by
  cases op with
  | get | sendPromote => trivial
  | _ => exact fetches.elim

theorem readLoaded_reads (p : FvfsPath) (m : FileMetadata) :
    (readLoaded p m).Only Step.Reads := by
  unfold readLoaded
  split
  · trivial
  · have fetches := (readTiers_fetches p m.tierBitmask).mono fun _ => Step.Fetches.reads
    refine fetches.bind fun data => ⟨trivial, fun answer => ?_⟩
    cases answer <;> trivial

theorem read_reads (p : FvfsPath) : (Router.read p).Only Step.Reads := by
  refine ⟨trivial, fun answer => ?_⟩
  cases answer with
  | error e => trivial
  | ok found =>
    cases found with
    | none => trivial
    | some m => exact readLoaded_reads p m

theorem follows_settling (next : flushProtocol.Follows (.begin rest) (k ())) (r : Outcome Unit) :
    flushProtocol.Follows (.settling entry rest) (settle entry r >>= k) := by
  cases r with
  | ok => exact ⟨Or.inl rfl, fun answer => by cases answer <;> exact next⟩
  | error e => exact ⟨Or.inr ⟨_, rfl⟩, fun answer => by cases answer <;> exact next⟩

theorem follows_uploading (entry : WalEntry) (next : flushProtocol.Follows (.begin rest) (k ()))
    (m : FileMetadata) :
    flushProtocol.Follows (.uploading entry rest m)
      ((uploadToS3 m).attempt >>= fun result => settle entry result >>= k) := by
  rw [uploadToS3, Prog.attempt_bind, bind_assoc]
  apply Protocol.follows_attempt_of_only (read_reads m.path) (fun _ reads => Or.inl reads)
  · intro op answer reads
    cases op <;> first | exact reads.elim | rfl
  · intro outcome
    cases outcome with
    | error e => exact ⟨Or.inr (Or.inr ⟨_, rfl⟩), fun answer => by cases answer <;> exact next⟩
    | ok data =>
      refine ⟨Or.inr (Or.inl ⟨data, rfl⟩), fun answer => ?_⟩
      cases answer with
      | error e => exact follows_settling next (.error e)
      | ok =>
        refine ⟨rfl, fun answer => ?_⟩
        cases answer with
        | error e => exact follows_settling next (.error e)
        | ok => exact follows_settling next (.ok ())

theorem follows_opening (next : flushProtocol.Follows (.begin rest) (k ())) :
    flushProtocol.Follows (.opening entry rest) (flushEntry entry >>= k) := by
  refine ⟨rfl, fun answer => ?_⟩
  cases answer with
  | error e => exact next
  | ok found =>
    cases found with
    | none => exact follows_settling next (.ok ())
    | some m =>
      have uploading := follows_uploading entry next m
      rw [← bind_assoc] at uploading
      exact uploading

theorem follows_flushEntries (entries : List WalEntry) :
    flushProtocol.Follows (.begin entries) (flushEntries entries) := by
  induction entries with
  | nil => trivial
  | cons entry rest ih => exact follows_opening ih

theorem follows_flushPending : flushProtocol.Follows .listing flushPending := by
  refine ⟨rfl, fun answer => ?_⟩
  cases answer with
  | error e => trivial
  | ok entries => exact follows_flushEntries (entries.filter flushable)

end Follows

/-- One step of the flush: the event it leaves and the phase that comes next. -/
inductive FlushStep (i : ι) : FlushPhase → Event Sys ι → FlushPhase → Prop
  | list (entries : List WalEntry) :
      FlushStep i .listing ⟨i, .walPending, .ok entries⟩ (.begin (entries.filter flushable))
  | unlisted (e : FvfsError) : FlushStep i .listing ⟨i, .walPending, .error e⟩ .ended
  | load (entry : WalEntry) (rest : List WalEntry) (m : FileMetadata) :
      FlushStep i (.opening entry rest) ⟨i, .metaGetById entry.fileId, .ok (some m)⟩
        (.uploading entry rest m)
  | gone (entry : WalEntry) (rest : List WalEntry) :
      FlushStep i (.opening entry rest) ⟨i, .metaGetById entry.fileId, .ok none⟩
        (.settling entry rest)
  | skip (entry : WalEntry) (rest : List WalEntry) (e : FvfsError) :
      FlushStep i (.opening entry rest) ⟨i, .metaGetById entry.fileId, .error e⟩ (.begin rest)
  | read (entry : WalEntry) (rest : List WalEntry) (m : FileMetadata) {e : Event Sys ι}
      (reads : e.op.Reads) : FlushStep i (.uploading entry rest m) e (.uploading entry rest m)
  | store (entry : WalEntry) (rest : List WalEntry) (m : FileMetadata) (data : Bytes) :
      FlushStep i (.uploading entry rest m) ⟨i, .put .s3 m.path data, .ok ()⟩ (.marking entry rest m)
  | unstored (entry : WalEntry) (rest : List WalEntry) (m : FileMetadata) {e : Event Sys ι} :
      FlushStep i (.uploading entry rest m) e (.settling entry rest)
  | unread (entry : WalEntry) (rest : List WalEntry) (m : FileMetadata) {e : Event Sys ι} :
      FlushStep i (.uploading entry rest m) e (.begin rest)
  | mark (entry : WalEntry) (rest : List WalEntry) (m : FileMetadata) {e : Event Sys ι} :
      FlushStep i (.marking entry rest m) e (.settling entry rest)
  | settle (entry : WalEntry) (rest : List WalEntry) {e : Event Sys ι} :
      FlushStep i (.settling entry rest) e (.begin rest)

theorem flush_step {s : FlushPhase} {op : Step} (permitted : flushProtocol.permits s op) (i : ι)
    (r : Sys.Res op) : FlushStep i s ⟨i, op, r⟩ (flushProtocol.next s op r) := by
  cases s with
  | listing =>
    obtain rfl : op = .walPending := permitted
    cases r with
    | ok entries => exact .list entries
    | error e => exact .unlisted e
  | opening entry rest =>
    obtain rfl : op = .metaGetById entry.fileId := permitted
    cases r with
    | error e => exact .skip entry rest e
    | ok found =>
      cases found with
      | none => exact .gone entry rest
      | some m => exact .load entry rest m
  | uploading entry rest m =>
    rcases permitted with reads | ⟨data, rfl⟩ | ⟨error, rfl⟩
    · have stays : flushProtocol.next (.uploading entry rest m) op r = .uploading entry rest m := by
        cases op <;> first | exact reads.elim | rfl
      rw [stays]
      exact .read entry rest m reads
    · cases r with
      | ok => exact .store entry rest m data
      | error e => exact .unstored entry rest m
    · exact .unread entry rest m
  | marking entry rest m =>
    obtain rfl : op = .setTierBitmask m.id (m.tierBitmask.set .s3) := permitted
    exact .mark entry rest m
  | settling entry rest =>
    rcases permitted with rfl | ⟨error, rfl⟩ <;> exact .settle entry rest
  | ended => exact permitted.elim

section Inversion

variable {ι : Type} {i : ι} {s s' : FlushPhase} {e : Event Sys ι}

@[simp] theorem begin_loaded (entries : List WalEntry) : (FlushPhase.begin entries).loaded = none := by
  cases entries <;> rfl

@[simp] theorem begin_entries (entries : List WalEntry) :
    (FlushPhase.begin entries).entries = entries.map (·.id) := by cases entries <;> rfl

theorem FlushStep.loaded {m : FileMetadata} (step : FlushStep i s e s') (loaded : m ∈ s'.loaded) :
    m ∈ s.loaded ∨ ∃ fid, e = ⟨i, .metaGetById fid, .ok (some m)⟩ := by
  cases step with
  | load entry rest m' =>
    obtain rfl := Option.some.inj loaded
    exact Or.inr ⟨entry.fileId, rfl⟩
  | read entry rest m' reads => exact Or.inl loaded
  | store entry rest m' data => exact Or.inl loaded
  | list entries => simp at loaded
  | skip entry rest e => simp at loaded
  | unread entry rest m' => simp at loaded
  | settle entry rest => simp at loaded
  | unlisted e | gone entry rest | unstored entry rest m' | mark entry rest m' => nomatch loaded

theorem FlushStep.entries {id : Nat} (step : FlushStep i s e s') (listed : id ∈ s'.entries) :
    id ∈ s.entries ∨ e.op = .walPending := by
  have later (entry : WalEntry) (rest : List WalEntry) (inside : id ∈ (FlushPhase.begin rest).entries) :
      id ∈ entry.id :: rest.map (·.id) := by
    rw [begin_entries] at inside
    exact List.mem_cons_of_mem _ inside
  cases step with
  | list entries => exact Or.inr rfl
  | unlisted e => nomatch listed
  | skip entry rest e => exact Or.inl (later entry rest listed)
  | unread entry rest m => exact Or.inl (later entry rest listed)
  | settle entry rest => exact Or.inl (later entry rest listed)
  | _ => exact Or.inl listed

theorem FlushStep.marking {entry : WalEntry} {rest : List WalEntry} {m : FileMetadata}
    (step : FlushStep i s e s') (marking : s' = .marking entry rest m) :
    ∃ data, e = ⟨i, .put .s3 m.path data, .ok ()⟩ := by
  have never (entries : List WalEntry) : FlushPhase.begin entries ≠ .marking entry rest m := by
    cases entries <;> nofun
  cases step with
  | store entry' rest' m' data =>
    obtain ⟨-, -, rfl⟩ := FlushPhase.marking.inj marking
    exact ⟨data, rfl⟩
  | list entries => exact absurd marking (never _)
  | skip entry rest e => exact absurd marking (never _)
  | unread entry rest m' => exact absurd marking (never _)
  | settle entry rest => exact absurd marking (never _)
  | _ => nomatch marking

end Inversion

section Flushing

variable {ι : Type} [DecidableEq ι]

/-- One flush, and any programs of clients: writes, deletes or others. -/
def flushing (clients : ι → Async Unit) (w : World) : Pool Sys FvfsError Unit World (Option ι) :=
  ⟨w, fun | none => flushPending | some i => clients i⟩

/-- The phase the flush has reached. -/
def flushPhase (past : List (Event Sys (Option ι))) : FlushPhase :=
  flushProtocol.after none .listing past

/-- No step creates a row or an entry under an id the flush has in flight. -/
def NoReuse (past : List (Event Sys (Option ι))) (pool : Pool Sys FvfsError Unit World (Option ι))
    (i : Option ι) (_ : Choice) : Prop :=
  ∀ op ∈ Pool.nextOp (pool.threads i),
    (∀ fid ∈ op.newRow pool.world.store, ∀ m ∈ (flushPhase past).loaded, m.id ≠ fid) ∧
    ∀ id ∈ op.newEntry pool.world.store, id ∉ (flushPhase past).entries

/-- The flush is about to perform this step. -/
def AboutTo (op : Step) (pool : Pool Sys FvfsError Unit World (Option ι)) : Prop :=
  Pool.nextOp (pool.threads none) = some op

def RowThere (fid : Nat) (path : Text) (pool : Pool Sys FvfsError Unit World (Option ι)) : Prop :=
  HasRow fid path pool.world.store

def EntryThere (id : Nat) (pool : Pool Sys FvfsError Unit World (Option ι)) : Prop :=
  HasEntry id pool.world.store

/-- The flush has stored the object of this path, and looked no row up since. -/
def UploadedTo (p : FvfsPath) (past : List (Event Sys (Option ι))) : Prop :=
  Since (fun e => Stored .s3 p e ∧ e.thread = none)
    (fun e => (∃ fid, e.op = .metaGetById fid) ∧ e.thread = none) past

structure FlushInv (start : Pool Sys FvfsError Unit World (Option ι)) (σ : List (Option ι × Choice)) :
    Prop where
  row : ∀ m ∈ (flushPhase (Pool.trace perform σ start)).loaded, ∀ r,
    (Pool.run perform σ start).world.store.files.get? m.id = some r →
    m.path = (Store.rowToMetadata m.id r).path ∧
    Pool.EverSince perform (AboutTo (.metaGetById m.id)) (RowThere m.id r.path) σ start
  entry : ∀ id ∈ (flushPhase (Pool.trace perform σ start)).entries,
    EntryThere id (Pool.run perform σ start) →
    Pool.EverSince perform (AboutTo .walPending) (EntryThere id) σ start
  uploaded : ∀ entry rest m, flushPhase (Pool.trace perform σ start) = .marking entry rest m →
    UploadedTo m.path (Pool.trace perform σ start)

variable {start : Pool Sys FvfsError Unit World (Option ι)} {σ : List (Option ι × Choice)}
  {i : Option ι} {c : Choice}

theorem rowToMetadata_path_congr {i j : Nat} {r r' : FileRow} (same : r.path = r'.path) :
    (Store.rowToMetadata i r).path = (Store.rowToMetadata j r').path := by
  simp [Store.rowToMetadata, same]

/-- The phase after one more event: the flush's own steps move it. -/
theorem flushPhase_snoc (past : List (Event Sys (Option ι))) (e : Event Sys (Option ι)) :
    flushPhase (past ++ [e]) = if e.thread = none then flushProtocol.next (flushPhase past) e.op e.res
      else flushPhase past := Protocol.after_snoc ..

theorem rowThere_before {fid : Nat} {path : Text}
    (there : RowThere fid path (Pool.run perform (σ ++ [(i, c)]) start)) :
    RowThere fid path (Pool.run perform σ start) ∨
      ∃ op ∈ Pool.nextOp ((Pool.run perform σ start).threads i),
        op.newRow (Pool.run perform σ start).world.store = some fid := by
  rcases Pool.run_snoc_cases (h := perform) σ i c start with ⟨_, same, _⟩ | ⟨op, next, at_op, new, _⟩
  · exact Or.inl (same ▸ there)
  · rw [new] at there
    exact (hasRow_perform there).imp id fun created => ⟨op, by simp [at_op, Pool.nextOp], created⟩

theorem entryThere_before {id : Nat}
    (there : EntryThere id (Pool.run perform (σ ++ [(i, c)]) start)) :
    EntryThere id (Pool.run perform σ start) ∨
      ∃ op ∈ Pool.nextOp ((Pool.run perform σ start).threads i),
        op.newEntry (Pool.run perform σ start).world.store = some id := by
  rcases Pool.run_snoc_cases (h := perform) σ i c start with ⟨_, same, _⟩ | ⟨op, next, at_op, new, _⟩
  · exact Or.inl (same ▸ there)
  · rw [new] at there
    exact (hasEntry_perform there).imp (fun before => before)
      fun created => ⟨op, by simp [at_op, Pool.nextOp], created⟩

/-- The file in flight stays the one that was loaded. -/
theorem FlushInv.row_stays (inv : FlushInv start σ)
    (fresh : NoReuse (Pool.trace perform σ start) (Pool.run perform σ start) i c) {m : FileMetadata}
    (loaded : m ∈ (flushPhase (Pool.trace perform σ start)).loaded) {r : FileRow}
    (found : (Pool.run perform (σ ++ [(i, c)]) start).world.store.files.get? m.id = some r) :
    m.path = (Store.rowToMetadata m.id r).path ∧ Pool.EverSince perform
      (AboutTo (.metaGetById m.id)) (RowThere m.id r.path) (σ ++ [(i, c)]) start := by
  have now : RowThere m.id r.path (Pool.run perform (σ ++ [(i, c)]) start) := ⟨r, found, rfl⟩
  rcases rowThere_before now with ⟨r', before, path⟩ | ⟨op, next, created⟩
  · obtain ⟨same, since⟩ := inv.row m loaded r' before
    rw [path] at since
    exact ⟨same.trans (rowToMetadata_path_congr path), since.snoc now⟩
  · exact absurd rfl ((fresh op next).1 m.id created m loaded)

theorem FlushInv.entry_stays (inv : FlushInv start σ)
    (fresh : NoReuse (Pool.trace perform σ start) (Pool.run perform σ start) i c) {id : Nat}
    (listed : id ∈ (flushPhase (Pool.trace perform σ start)).entries)
    (now : EntryThere id (Pool.run perform (σ ++ [(i, c)]) start)) :
    Pool.EverSince perform (AboutTo .walPending) (EntryThere id) (σ ++ [(i, c)]) start := by
  rcases entryThere_before now with before | ⟨op, next, created⟩
  · exact (inv.entry id listed before).snoc now
  · exact absurd listed ((fresh op next).2 id created)

/-- One more step of the run is the flush's own or leaves its phase alone. -/
theorem flush_snoc_cases (σ : List (Option ι × Choice)) (i : Option ι) (c : Choice)
    (follows : flushProtocol.Follows .listing (start.threads none)) :
    (flushPhase (Pool.trace perform (σ ++ [(i, c)]) start) = flushPhase (Pool.trace perform σ start) ∧
      ∀ p, UploadedTo p (Pool.trace perform σ start) →
        UploadedTo p (Pool.trace perform (σ ++ [(i, c)]) start)) ∨
    ∃ op, AboutTo op (Pool.run perform σ start) ∧
      FlushStep (none : Option ι) (flushPhase (Pool.trace perform σ start))
        ⟨none, op, (perform op c (Pool.run perform σ start).world).1⟩
        (flushPhase (Pool.trace perform (σ ++ [(i, c)]) start)) ∧
      (Pool.run perform (σ ++ [(i, c)]) start).world =
        (perform op c (Pool.run perform σ start).world).2 ∧
      Pool.trace perform (σ ++ [(i, c)]) start = Pool.trace perform σ start ++
        [⟨none, op, (perform op c (Pool.run perform σ start).world).1⟩] := by
  rcases Pool.run_snoc_cases (h := perform) σ i c start with
    ⟨_, same, still⟩ | ⟨op, next, at_op, new, grown⟩
  · exact Or.inl (by rw [still]; exact ⟨rfl, fun _ uploaded => uploaded⟩)
  · cases i with
    | none =>
      have here := flushProtocol.run_follows (h := perform) follows σ
      rw [at_op] at here
      refine Or.inr ⟨op, by simp [AboutTo, at_op, Pool.nextOp], ?_, by rw [new], grown⟩
      rw [grown, flushPhase_snoc]
      exact flush_step here.1 none _
    | some j =>
      rw [grown, flushPhase_snoc]
      exact Or.inl ⟨rfl, fun p uploaded => since_snoc.mpr (Or.inr ⟨by simp, uploaded⟩)⟩

/-- What a lookup by id finds, where it is found and what it leaves. -/
theorem perform_metaGetById {w : World} {fid : Nat} {m : FileMetadata}
    (answered : (perform (.metaGetById fid) c w).1 = .ok (some m)) :
    (perform (.metaGetById fid) c w).2 = w ∧ w.store.getById fid = some m := by
  simp only [perform] at answered ⊢
  rcases statement_cases (c := c) (w := w) (w.store.getById fid) w.store with eq | ⟨e, _, eq⟩
  · rw [eq] at answered ⊢
    exact ⟨World.withStore_self, Except.ok.inj answered⟩
  · rw [eq] at answered
    contradiction

theorem FlushInv.keep (inv : FlushInv start σ)
    (follows : flushProtocol.Follows .listing (start.threads none))
    (fresh : NoReuse (Pool.trace perform σ start) (Pool.run perform σ start) i c) :
    FlushInv start (σ ++ [(i, c)]) := by
  rcases flush_snoc_cases σ i c follows with
    ⟨same, uploaded⟩ | ⟨op, about, step, world, grown⟩
  · refine ⟨?_, ?_, ?_⟩
    · rw [same]
      exact fun m loaded r found => inv.row_stays fresh loaded found
    · rw [same]
      exact fun id listed now => inv.entry_stays fresh listed now
    · rw [same]
      exact fun entry rest m marking => uploaded _ (inv.uploaded entry rest m marking)
  · refine ⟨fun m loaded r found => ?_, fun id listed now => ?_, fun entry rest m marking => ?_⟩
    · rcases step.loaded loaded with before | ⟨fid, event⟩
      · exact inv.row_stays fresh before found
      · obtain ⟨rfl, answered⟩ : op = .metaGetById fid ∧ _ := by simpa using event
        obtain ⟨same, there⟩ := perform_metaGetById (eq_of_heq answered)
        rw [same] at world
        obtain ⟨r', at_id, rfl⟩ := Option.map_eq_some_iff.mp there
        rw [world] at found
        obtain rfl := Option.some.inj (at_id.symm.trans found)
        refine ⟨rfl, Pool.everSince_last about ⟨r', at_id, rfl⟩ ?_⟩
        exact ⟨r', by rw [world]; exact at_id, rfl⟩
    · rcases step.entries listed with before | listing
      · exact inv.entry_stays fresh before now
      · obtain rfl : op = .walPending := listing
        refine Pool.everSince_last about ?_ now
        unfold EntryThere at now
        rw [world] at now
        exact (hasEntry_perform now).resolve_right nofun
    · obtain ⟨data, event⟩ := step.marking marking
      rw [grown, event]
      exact since_snoc.mpr (Or.inl (by simp [Stored]))

theorem permits_setTierBitmask {s : FlushPhase} {fid : Nat} {b : TierBitmask}
    (permitted : flushProtocol.permits s (.setTierBitmask fid b)) :
    ∃ entry rest m, s = .marking entry rest m ∧ m.id = fid := by
  cases s with
  | marking entry rest m =>
    obtain ⟨rfl, -⟩ := Step.setTierBitmask.inj permitted
    exact ⟨entry, rest, m, rfl, rfl⟩
  | uploading entry rest m => simp [flushProtocol, Reads] at permitted
  | settling entry rest => simp [flushProtocol] at permitted
  | ended => exact permitted.elim
  | listing | opening entry rest => nomatch permitted

theorem permits_walComplete {s : FlushPhase} {id : Nat}
    (permitted : flushProtocol.permits s (.walComplete id)) : id ∈ s.entries := by
  cases s with
  | settling entry rest =>
    rcases permitted with same | ⟨error, other⟩
    · obtain rfl := Step.walComplete.inj same
      exact List.mem_cons_self
    · nomatch other
  | uploading entry rest m => simp [flushProtocol, Reads] at permitted
  | ended => exact permitted.elim
  | listing | opening entry rest | marking entry rest m => nomatch permitted

/-- In a run that never hands out an id in flight, the row whose bitmask the flush is about to
write, if it exists, has been there since the flush was about to load it, and is of the path
the flush has stored on S3; and the entry it is about to remove, if it exists, has been
there since it was about to list the entries. -/
theorem flush_hits_own (clients : ι → Async Unit) (w : World) (schedule : List (Option ι × Choice))
    (fresh : Pool.Along perform NoReuse [] schedule (flushing clients w)) :
    let start := flushing clients w
    let pool := Pool.run perform schedule start
    (∀ fid b, AboutTo (.setTierBitmask fid b) pool →
      ∀ r, pool.world.store.files.get? fid = some r →
        Pool.EverSince perform (AboutTo (.metaGetById fid)) (RowThere fid r.path) schedule start ∧
        UploadedTo (Store.rowToMetadata fid r).path (Pool.trace perform schedule start)) ∧
    ∀ id, AboutTo (.walComplete id) pool → EntryThere id pool →
      Pool.EverSince perform (AboutTo .walPending) (EntryThere id) schedule start := by
  intro start pool
  have inv : FlushInv start schedule :=
    Pool.run_invariant (FlushInv start) NoReuse
      (fun σ i c inv fresh => inv.keep follows_flushPending fresh) fresh
      ⟨nofun, nofun, nofun⟩
  have follows : flushProtocol.Follows (flushPhase (Pool.trace perform schedule start))
      (pool.threads none) := flushProtocol.run_follows follows_flushPending schedule
  refine ⟨fun fid b about r found => ?_, fun id about there => ?_⟩
  · obtain ⟨entry, rest, m, marking, rfl⟩ :=
      permits_setTierBitmask (follows.permits_nextOp about)
    obtain ⟨path, since⟩ := inv.row m (by rw [marking]; rfl) r found
    exact ⟨since, path ▸ inv.uploaded entry rest m marking⟩
  · exact inv.entry id (permits_walComplete (follows.permits_nextOp about)) there

end Flushing

def otherFile : CanonPath := ⟨⟨['/', 'b']⟩, by decide⟩
def thirdFile : CanonPath := ⟨⟨['/', 'c']⟩, by decide⟩

def inOrder : TaskOrder := ⟨[.localDisk, .nas, .s3], List.Perm.refl _⟩

/-- One file, in the last row of the table. -/
def lastRow : World :=
  Request.serve sampleSha256 [(.write Request.sampleFile [1], fun _ => 0),
    (.delete inOrder Request.sampleFile, fun _ => 0), (.write otherFile [1], fun _ => 0)] .empty

/-- One client deletes the file, the other writes a new one. -/
def sampleClients (deletes : Bool) : Async Unit :=
  if deletes then delete inOrder otherFile else write sampleSha256 thirdFile [2]

/-- The flush has uploaded the file; the new one has got a row of its own meanwhile. -/
def separateSchedule : List (Option Bool × Choice) :=
  .replicate 5 (none, .quiet 0) ++ .replicate 8 (some false, .quiet 0) ++ [(none, .quiet 0)]

instance (op : Step) (pool : Pool Sys FvfsError Unit World (Option Bool)) :
    Decidable (AboutTo op pool) := inferInstanceAs (Decidable (_ = some op))

instance (pool : Pool Sys FvfsError Unit World (Option Bool)) (past : List (Event Sys (Option Bool)))
    (i : Option Bool) (c : Choice) : Decidable (NoReuse past pool i c) :=
  inferInstanceAs (Decidable (∀ op ∈ Pool.nextOp (pool.threads i),
    (∀ fid ∈ op.newRow pool.world.store, ∀ m ∈ (flushPhase past).loaded, m.id ≠ fid) ∧
    ∀ id ∈ op.newEntry pool.world.store, id ∉ (flushPhase past).entries))

theorem separate_flush_hits_own :
    Pool.EverSince perform (AboutTo (.metaGetById 3)) (RowThere 3 otherFile.val.text) separateSchedule
      (flushing sampleClients lastRow) ∧
    UploadedTo otherFile.val (Pool.trace perform separateSchedule (flushing sampleClients lastRow)) := by
  have about : AboutTo (.setTierBitmask 3 ((TierBitmask.none.set .localDisk).set .s3))
      (Pool.run perform separateSchedule (flushing sampleClients lastRow)) := by decide
  have row : ((Pool.run perform separateSchedule
      (flushing sampleClients lastRow)).world.store.files.get? 3).map
        (fun r => (r.path, (Store.rowToMetadata 3 r).path)) =
        some (otherFile.val.text, otherFile.val) := by decide
  obtain ⟨r, found, same⟩ := Option.map_eq_some_iff.mp row
  obtain ⟨path, name⟩ := Prod.mk.inj same
  have hits := (flush_hits_own sampleClients lastRow separateSchedule (by decide)).1 3 _ about r found
  rw [path, name] at hits
  exact hits

/-- The flush has read the file; it is deleted, its ids go to the new file and its entries,
and the flush goes on. -/
def reusedSchedule : List (Option Bool × Choice) :=
  .replicate 5 (none, .quiet 0) ++ .replicate 8 (some true, .quiet 0) ++
    .replicate 8 (some false, .quiet 0) ++ .replicate 3 (none, .quiet 0)

/-- The new file, which S3 does not hold, is marked as stored there, and its upload is no
longer pending. -/
theorem reused_ids :
    let start := flushing sampleClients lastRow
    let pool := Pool.run perform reusedSchedule start
    (lastRow.store.rowState otherFile).map (·.id) = some 3 ∧
      (∀ i, Pool.Returned (pool.threads i)) ∧ pool.world.tiers .s3 thirdFile = none ∧
      pool.world.store.rowState thirdFile =
        some ⟨3, 1, sampleSha256 [2], (TierBitmask.none.set .localDisk).set .s3, false⟩ ∧
      ∀ entry ∈ pool.world.store.walPending, entry.op ≠ .uploadS3 := by
  refine ⟨by decide, fun i => ?_, by decide, by decide, by decide⟩
  cases i with
  | none => decide
  | some deletes => cases deletes <;> decide

end Fvfs
