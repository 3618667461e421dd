import Fvfs.Lib.History
import Fvfs.Namespace
import Fvfs.ReusedIds

/-! The access statistics of the files, while clients read and write them and the daemon's own
tasks run between any two of their steps. -/
namespace Fvfs

open Lib
open Function (update)

structure Usage where
  id : Nat
  count : Nat
  time : Int
  deriving DecidableEq

namespace Store

def usageOf (x : Nat × FileRow) : Option Usage :=
  if x.2.isDir then none else some ⟨x.1, x.2.accessCount30d, x.2.accessedAt⟩

/-- The statistics of the file at the path, if its row is a file's. -/
def usage (s : Store) (p : FvfsPath) : Option Usage := (s.fileAt p).bind usageOf

section Usage

variable {s : Store} {p : FvfsPath}

theorem rowState_of_usage {u : Usage} (used : s.usage p = some u) :
    ∃ x, s.rowState p = some x ∧ x.id = u.id := by
  obtain ⟨⟨i, r⟩, found, row⟩ := Option.bind_eq_some_iff.mp used
  unfold usageOf at row
  split at row
  · cases row
  · obtain rfl := Option.some.inj row
    exact ⟨stateOf (i, r), by rw [rowState, found]; rfl, rfl⟩

theorem usage_upsert_self (m : FileMetadata) : (s.upsert m).2.usage m.path =
    if m.isDir then none else some ⟨s.upsertedId m.path, m.accessCount30d, m.accessedAt⟩ := by
  rw [usage, fileAt_upsert_self, Option.bind_some, usageOf]
  cases s.fileAt m.path <;> rfl

theorem usage_upsert_other {m : FileMetadata} (other : p ≠ m.path) :
    (s.upsert m).2.usage p = s.usage p := by
  rw [usage, fileAt_upsert_other other, usage]

theorem usageOf_id {x : Nat × FileRow} {u : Usage} (used : usageOf x = some u) : u.id = x.1 := by
  unfold usageOf at used
  split at used
  · cases used
  · rw [← Option.some.inj used]

theorem usage_updateFile {id : Nat} {f : FileRow → FileRow} {keeps : ∀ r, (f r).path = r.path}
    (g : Usage → Usage) (commutes : ∀ r, usageOf (id, f r) = (usageOf (id, r)).map g) :
    (s.updateFile id f keeps).usage p =
      (s.usage p).map fun u => if u.id = id then g u else u := by
  rw [usage, usage, fileAt_updateFile]
  cases s.fileAt p with
  | none => rfl
  | some x =>
    obtain ⟨i, r⟩ := x
    simp only [Option.map_some, Option.bind_some]
    by_cases here : i = id
    · subst here
      rw [if_pos rfl, commutes]
      cases used : usageOf (i, r) with
      | none => rfl
      | some u => simp [usageOf_id used]
    · rw [if_neg here]
      cases used : usageOf (i, r) with
      | none => rfl
      | some u => simp [usageOf_id used, here]

theorem usage_recordAccess (id : Nat) (now : Int) : (s.recordAccess id now).usage p =
    (s.usage p).map fun u => if u.id = id then ⟨u.id, u.count + 1, now⟩ else u := by
  refine usage_updateFile (fun u => ⟨u.id, u.count + 1, now⟩) fun r => ?_
  cases dir : r.isDir <;> simp [usageOf, accessedRow, dir]

theorem usage_setTierBitmask (id : Nat) (b : TierBitmask) :
    (s.setTierBitmask id b).usage p = s.usage p := by
  refine (usage_updateFile (fun u => u) fun r => ?_).trans (by simp)
  cases dir : r.isDir <;> simp [usageOf, dir]

theorem fileAt_walEnqueue {fileId : Nat} {op : WalOp} {now : Int} {id : Nat} {t : Store}
    (enqueued : s.walEnqueue fileId op now = .ok (id, t)) : t.fileAt p = s.fileAt p := by
  unfold walEnqueue at enqueued
  split at enqueued
  · obtain ⟨-, rfl⟩ := Prod.mk.inj (Except.ok.inj enqueued)
    rfl
  · cases enqueued

end Usage

end Store

/-- The row of the path has this id. -/
def HasId (p : FvfsPath) (id : Nat) (s : Store) : Prop := ∃ x, s.rowState p = some x ∧ x.id = id

/-- Steps that leave the statistics of every file as they are. -/
def Step.Unused : Step → Prop
  | upsert _ | recordAccess _ | metaDelete _ => False
  | _ => True

section Steps

variable {s s' : Store} {op : Step} {p : FvfsPath} {id : Nat}

theorem StoreStep.hasId (step : StoreStep s op s') (kept : ∀ q, op ≠ .metaDelete q)
    (there : HasId p id s) : HasId p id s' := by
  obtain ⟨x, row, rfl⟩ := there
  cases step with
  | upsert m =>
    by_cases here : p = m.path
    · subst here
      exact ⟨_, Store.rowState_upsert_self m, Store.upsertedId_of_rowState row⟩
    · exact ⟨x, (Store.rowState_upsert_other here).trans row, rfl⟩
  | setTierBitmask i b =>
    refine ⟨_, by rw [Store.rowState_setTierBitmask, row]; rfl, ?_⟩
    dsimp only
    split <;> rfl
  | recordAccess i now => exact ⟨x, (Store.rowState_recordAccess i now).trans row, rfl⟩
  | delete q => exact absurd rfl (kept q)
  | enqueue fileId op now enqueued =>
    exact ⟨x, (Store.rowState_walEnqueue enqueued).trans row, rfl⟩
  | complete i => exact ⟨x, row, rfl⟩
  | recordFailure i error => exact ⟨x, row, rfl⟩

theorem hasId_perform {c : Choice} {w : World} (kept : ∀ q, op ≠ .metaDelete q)
    (there : HasId p id w.store) : HasId p id (perform op c w).2.store := by
  rcases perform_store op c w with same | step
  · rwa [same]
  · exact step.hasId kept there

theorem StoreStep.usage (step : StoreStep s op s') (unused : op.Unused) :
    s'.usage p = s.usage p := by
  cases step with
  | upsert m => exact unused.elim
  | setTierBitmask i b => exact Store.usage_setTierBitmask i b
  | recordAccess i now => exact unused.elim
  | delete q => exact unused.elim
  | enqueue fileId op now enqueued => rw [Store.usage, Store.fileAt_walEnqueue enqueued]; rfl
  | complete i => rfl
  | recordFailure i error => rfl

theorem usage_perform {c : Choice} {w : World} (unused : op.Unused) :
    (perform op c w).2.store.usage p = w.store.usage p := by
  rcases perform_store op c w with same | step
  · rw [same]
  · exact step.usage unused

end Steps

/-- What runs in the daemon: requests of clients, and its own tasks. -/
inductive Activity where
  | write (p : FvfsPath) (data : Bytes)
  | read (p : FvfsPath)
  | flushPending
  | replayWal
  | promoteNext

/-- Steps of a write: it records the file as not read yet, and directories above it. -/
def Step.Writes : Step → Prop
  | put _ _ _ | now | metaGet _ | walEnqueue _ _ => True
  | upsert m => m.isDir = true ∨ m.accessCount30d = 0 ∧ m.accessedAt = m.modifiedAt
  | _ => False

namespace Activity

def task (sha256 : Bytes → Text) : Activity → Async Unit
  | write p data => Router.write sha256 p data
  | read p => do let _ ← Router.read p
  | flushPending => Router.flushPending
  | replayWal => Router.replayWal
  | promoteNext => Router.promoteNext

def IsRead : Activity → Prop
  | read _ => True
  | _ => False

end Activity

namespace Router

theorem ensureParents_writes (turns : Nat) (p : FvfsPath) :
    (ensureParents turns p).Only Step.Writes := by
  rw [ensureParents_eq_dirs]
  exact only_ensureDirs (fun _ _ => trivial) trivial fun _ _ _ => Or.inl rfl

theorem write_writes (sha256 : Bytes → Text) (p : FvfsPath) (data : Bytes) :
    (write sha256 p data).Only Step.Writes := by
  refine ⟨trivial, fun answer => ?_⟩
  cases answer with
  | error e => trivial
  | ok =>
    refine ⟨trivial, fun clock => ⟨Or.inr ⟨rfl, rfl⟩, fun answer => ?_⟩⟩
    cases answer with
    | error e => trivial
    | ok id =>
      refine (ensureParents_writes p.text.length p).bind fun _ => ⟨trivial, fun answer => ?_⟩
      cases answer with
      | error e => trivial
      | ok entry =>
        refine ⟨trivial, fun answer => ?_⟩
        cases answer <;> trivial

/-- A read whose metadata is loaded ends with the access to this row. -/
theorem readLoaded_closes (p : FvfsPath) (m : FileMetadata) :
    (readLoaded p m).Closes Step.Fetches (· = Step.recordAccess m.id) := by
  unfold readLoaded
  split
  · trivial
  · refine (readTiers_fetches p m.tierBitmask).closes_bind fun data => Or.inr ⟨rfl, fun answer => ?_⟩
    cases answer <;> exact ⟨data, rfl⟩

theorem reads_settled {op : Step} (reads : op.Reads) : op.Settled := by
  cases op <;> first | exact reads.elim | trivial

theorem settle_settled (entry : WalEntry) (r : Outcome Unit) :
    (settle entry r).Only Step.Settled := by
  cases r <;> exact ⟨trivial, fun answer => by cases answer <;> trivial⟩

theorem uploadToS3_settled (m : FileMetadata) : (uploadToS3 m).Only Step.Settled := by
  refine ((read_reads m.path).mono fun _ => reads_settled).bind fun data =>
    ⟨trivial, fun answer => ?_⟩
  cases answer with
  | error e => trivial
  | ok => exact ⟨trivial, fun answer => by cases answer <;> trivial⟩

theorem replicateToNas_settled (m : FileMetadata) : (replicateToNas m).Only Step.Settled := by
  refine ⟨trivial, fun answer => ?_⟩
  cases answer with
  | error e => trivial
  | ok data =>
    refine ⟨trivial, fun answer => ?_⟩
    cases answer with
    | error e => trivial
    | ok => exact ⟨trivial, fun answer => by cases answer <;> trivial⟩

theorem flushEntry_settled (entry : WalEntry) : (flushEntry entry).Only Step.Settled := by
  refine ⟨trivial, fun answer => ?_⟩
  cases answer with
  | error e => trivial
  | ok found =>
    cases found with
    | none => exact ⟨trivial, fun answer => by cases answer <;> trivial⟩
    | some m => exact (uploadToS3_settled m).attempt.bind (settle_settled entry)

theorem flushEntries_settled (entries : List WalEntry) :
    (flushEntries entries).Only Step.Settled := by
  induction entries with
  | nil => trivial
  | cons entry rest ih => exact (flushEntry_settled entry).bind fun _ => ih

theorem flushPending_settled : flushPending.Only Step.Settled := by
  refine ⟨trivial, fun answer => ?_⟩
  cases answer with
  | error e => trivial
  | ok entries => exact flushEntries_settled _

theorem replayOp_settled (entry : WalEntry) (m : FileMetadata) :
    (replayOp entry m).Only Step.Settled := by
  unfold replayOp
  cases entry.op with
  | replicateNas => exact replicateToNas_settled m
  | uploadS3 => exact uploadToS3_settled m

theorem replayEntry_settled (entry : WalEntry) (remaining : Nat) :
    (replayEntry entry remaining).Only Step.Settled := by
  induction remaining with
  | zero => trivial
  | succ remaining ih =>
    refine ⟨trivial, fun answer => ?_⟩
    cases answer with
    | error e => trivial
    | ok found =>
      cases found with
      | none => exact ⟨trivial, fun answer => by cases answer <;> trivial⟩
      | some m =>
        refine (replayOp_settled entry m).attempt.bind fun r => ?_
        cases r with
        | ok => exact settle_settled entry _
        | error e => exact (settle_settled entry _).bind fun _ => ih

theorem replayEntries_settled (entries : List WalEntry) :
    (replayEntries entries).Only Step.Settled := by
  induction entries with
  | nil => trivial
  | cons entry rest ih => exact (replayEntry_settled entry _).bind fun _ => ih

theorem replayWal_settled : replayWal.Only Step.Settled := by
  refine ⟨trivial, fun answer => ?_⟩
  cases answer with
  | error e => trivial
  | ok entries => exact replayEntries_settled _

theorem promote_settled (p : FvfsPath) : (promote p).Only Step.Settled := by
  refine ((read_reads p).mono fun _ => reads_settled).attempt.bind fun r => ?_
  cases r with
  | error e => trivial
  | ok data =>
    refine ⟨trivial, fun answer => ?_⟩
    cases answer with
    | error e => trivial
    | ok =>
      refine ⟨trivial, fun answer => ?_⟩
      cases answer with
      | error e => trivial
      | ok found =>
        cases found with
        | none => trivial
        | some m => exact ⟨trivial, fun answer => by cases answer <;> trivial⟩

theorem promoteNext_settled : promoteNext.Only Step.Settled := by
  refine ⟨trivial, fun answer => ?_⟩
  cases answer with
  | none => trivial
  | some signal => exact promote_settled signal.path

end Router

/-- A client's write recorded its file, or a client's read returned its bytes. -/
inductive Note where
  | written (p : FvfsPath) (time : Int)
  | served (p : FvfsPath) (time : Int)

namespace Note

def path : Note → FvfsPath
  | written p _ | served p _ => p

def time : Note → Int
  | written _ time | served _ time => time

def Writes (p : FvfsPath) : Note → Bool
  | written q _ => q = p
  | served _ _ => false

def Reads (p : FvfsPath) : Note → Bool
  | written _ _ => false
  | served q _ => q = p

end Note

/-- The successful reads of the path since the last write of it. -/
def readsSince (p : FvfsPath) (notes : List Note) : Nat :=
  (notes.reverse.takeWhile fun note => !note.Writes p).countP (Note.Reads p)

/-- The time of the last of these, or of the write. -/
def lastUse (p : FvfsPath) (notes : List Note) : Option Int :=
  (notes.reverse.find? fun note => note.path = p).map Note.time

section Notes

variable {p : FvfsPath} {notes : List Note}

theorem readsSince_written (time : Int) : readsSince p (notes ++ [.written p time]) = 0 := by
  simp [readsSince, Note.Writes]

theorem readsSince_served (time : Int) :
    readsSince p (notes ++ [.served p time]) = readsSince p notes + 1 := by
  simp [readsSince, Note.Writes, Note.Reads]

theorem readsSince_other {note : Note} (other : note.path ≠ p) :
    readsSince p (notes ++ [note]) = readsSince p notes := by
  cases note with
  | written q time =>
    have apart : q ≠ p := other
    simp [readsSince, Note.Writes, Note.Reads, apart]
  | served q time =>
    have apart : q ≠ p := other
    simp [readsSince, Note.Writes, Note.Reads, apart]

theorem lastUse_snoc (note : Note) : lastUse p (notes ++ [note]) =
    if note.path = p then some note.time else lastUse p notes := by
  unfold lastUse
  rw [List.reverse_append, List.reverse_singleton, List.singleton_append, List.find?_cons]
  by_cases here : note.path = p
  · simp [here]
  · simp [here]

end Notes

/-- Any number of tasks, each with what it was started for, and the clients' notes. -/
structure Daemon (ι : Type) where
  pool : Pool Sys FvfsError Unit World ι
  activity : ι → Activity
  notes : List Note

/-- A task is started, in place of one that ended or was dropped, or takes its next step; or the
daemon is restarted, and with it goes whatever runs in it. -/
inductive Action (ι : Type) where
  | start (i : ι) (a : Activity)
  | step (i : ι) (c : Choice)
  | restart

namespace Daemon

variable {ι : Type}

def fresh : Daemon ι := ⟨⟨.empty, fun _ => .ret ()⟩, fun _ => .flushPending, []⟩

/-- A write counts from its upsert on, at the modification time it records, and a read from the
step after which it returns. -/
def noted (s : Daemon ι) (i : ι) (c : Choice) : List Note :=
  match s.activity i, s.pool.threads i with
  | .write _ _, .call (.upsert m) _ =>
    if c.Faultless ∧ m.isDir = false then [.written m.path m.modifiedAt] else []
  | .read p, .call op next =>
    if Pool.Returned (next (perform op c s.pool.world).1) then [.served p c.clock] else []
  | _, _ => []

def act [DecidableEq ι] (sha256 : Bytes → Text) (s : Daemon ι) : Action ι → Daemon ι
  | .start i a =>
    ⟨⟨s.pool.world, update s.pool.threads i (a.task sha256)⟩, update s.activity i a, s.notes⟩
  | .step i c => ⟨s.pool.step perform i c, s.activity, s.notes ++ s.noted i c⟩
  | .restart => ⟨⟨s.pool.world.restart, fun _ => .ret ()⟩, s.activity, s.notes⟩

/-- Every file's statistics are those of the clients' reads since its last write. -/
def Counted (s : Daemon ι) : Prop :=
  ∀ p u, s.pool.world.store.usage p = some u →
    u.count = readsSince p s.notes ∧ lastUse p s.notes = some u.time

/-- The step that records an access to a file's row does so for one of the daemon's own tasks,
or fails for a client's read. -/
def Miscounts (s : Daemon ι) : Action ι → Prop
  | .step i c => ∃ id next, s.pool.threads i = .call (.recordAccess id) next ∧
      (∃ p u, s.pool.world.store.usage p = some u ∧ u.id = id) ∧
      ((s.activity i).IsRead ∧ ¬c.Faultless ∨ ¬(s.activity i).IsRead ∧ c.Faultless)
  | _ => False

/-- What is left of a task that was started for this. -/
def Running (sha256 : Bytes → Text) (a : Activity) (w : World) (task : Async Unit) : Prop :=
  match a with
  | .write _ _ => task.Only Step.Writes
  | .read p => Pool.Done task ∨ task = a.task sha256 ∨
      ∃ id, HasId p id w.store ∧ task.Closes Step.Fetches (· = Step.recordAccess id)
  | _ => task.Only Step.Settled

variable {sha256 : Bytes → Text} {a : Activity} {w w' : World} {task : Async Unit}

theorem running_ret : Running sha256 a w (.ret ()) := by
  cases a with
  | write p data => trivial
  | read p => exact Or.inl (Pool.done_ret _)
  | flushPending | replayWal | promoteNext => trivial

theorem running_task : Running sha256 a w (a.task sha256) := by
  cases a with
  | write p data => exact Router.write_writes sha256 p data
  | read p => exact Or.inr (Or.inl rfl)
  | flushPending => exact Router.flushPending_settled
  | replayWal => exact Router.replayWal_settled
  | promoteNext => exact Router.promoteNext_settled

/-- As long as rows stay, other tasks do not matter. -/
theorem Running.grows (running : Running sha256 a w task)
    (stay : ∀ p id, HasId p id w.store → HasId p id w'.store) : Running sha256 a w' task := by
  cases a with
  | read p =>
    rcases running with ended | begins | ⟨id, row, closes⟩
    · exact Or.inl ended
    · exact Or.inr (Or.inl begins)
    · exact Or.inr (Or.inr ⟨id, stay p id row, closes⟩)
  | write p data => exact running
  | flushPending | replayWal | promoteNext => exact running

/-- A step of a task, by what it means for the statistics. -/
inductive Takes (s : Daemon ι) (i : ι) (c : Choice) : Step → Prop
  | quiet {op : Step} (unused : op.Unused) (silent : s.noted i c = []) : Takes s i c op
  | directory {m : FileMetadata} (dir : m.isDir = true) (silent : s.noted i c = []) :
      Takes s i c (.upsert m)
  | write {m : FileMetadata} (file : m.isDir = false) (count : m.accessCount30d = 0)
      (time : m.accessedAt = m.modifiedAt)
      (noted : s.noted i c = if c.Faultless then [.written m.path m.modifiedAt] else []) :
      Takes s i c (.upsert m)
  | read {p : FvfsPath} {id : Nat} (client : (s.activity i).IsRead)
      (row : HasId p id s.pool.world.store) (noted : s.noted i c = [.served p c.clock]) :
      Takes s i c (.recordAccess id)
  | background {id : Nat} (own : ¬(s.activity i).IsRead) (silent : s.noted i c = []) :
      Takes s i c (.recordAccess id)

variable {s : Daemon ι} {i : ι} {c : Choice} {op : Step} {next : Step.Res op → Async Unit}

theorem settled_takes (settled : op.Settled) (own : ¬(s.activity i).IsRead)
    (silent : s.noted i c = []) : Takes s i c op := by
  cases op with
  | recordAccess id => exact .background own silent
  | upsert m | metaDelete p => exact settled.elim
  | _ => exact .quiet trivial silent

/-- A read first looks its row up. -/
theorem begun {p : FvfsPath} {next : Step.Res (.metaGet p) → Async Unit}
    (task : (Activity.read p).task sha256 = .call (.metaGet p) next) :
    ¬Pool.Returned (next (perform (.metaGet p) c w).1) ∧
      Running sha256 (.read p) (perform (.metaGet p) c w).2 (next (perform (.metaGet p) c w).1) := by
  obtain rfl := eq_of_heq (Prog.call.inj task).2
  simp only [perform]
  rcases statement_cases (c := c) (w := w) (w.store.get p) w.store with eq | ⟨e, -, eq⟩
  · rw [eq]
    cases found : w.store.get p with
    | none => exact ⟨Prog.unreturned_fail _, Or.inl (Pool.done_fail _)⟩
    | some m =>
      have row : HasId p m.id w.store := ⟨_, Store.rowState_of_get found, rfl⟩
      have closes := (Router.readLoaded_closes p m).map fun _ => ()
      exact ⟨closes.unreturned, Or.inr (Or.inr ⟨m.id, row, closes⟩)⟩
  · rw [eq]
    exact ⟨Prog.unreturned_fail _, Or.inl (Pool.done_fail _)⟩

/-- The steps of a running task, and what is left of it after each. -/
theorem step_cases (at_op : s.pool.threads i = .call op next)
    (running : Running sha256 (s.activity i) s.pool.world (.call op next)) :
    Takes s i c op ∧ (∀ q, op ≠ .metaDelete q) ∧
      Running sha256 (s.activity i) (perform op c s.pool.world).2
        (next (perform op c s.pool.world).1) := by
  cases what : s.activity i with
  | write p data =>
    rw [what] at running
    obtain ⟨writes, onward⟩ := running
    refine ⟨?_, fun q same => by rw [same] at writes; exact writes, onward _⟩
    cases op with
    | upsert m =>
      cases dir : m.isDir with
      | true => exact .directory dir (by simp [noted, what, at_op, dir])
      | false =>
        rcases writes with is_dir | ⟨count, time⟩
        · rw [dir] at is_dir
          cases is_dir
        · exact .write dir count time (by simp [noted, what, at_op, dir])
    | put | now | metaGet | walEnqueue => exact .quiet trivial (by simp [noted, what, at_op])
    | _ => exact writes.elim
  | read p =>
    rw [what] at running
    have noted_eq : s.noted i c =
        if Pool.Returned (next (perform op c s.pool.world).1) then [.served p c.clock] else [] := by
      simp only [noted, what, at_op]
    rcases running with ended | begins | ⟨id, row, closes⟩
    · exact absurd rfl (ended op next)
    · obtain ⟨rfl, -⟩ := Prog.call.inj begins
      obtain ⟨unreturned, onward⟩ := begun (c := c) (w := s.pool.world) begins.symm
      exact ⟨.quiet trivial (by rw [noted_eq]; exact if_neg unreturned), nofun, onward⟩
    · rcases closes with ⟨fetches, onward⟩ | ⟨rfl, returns⟩
      · have later := onward (perform op c s.pool.world).1
        have kept : ∀ q, op ≠ .metaDelete q := fun q same => by rw [same] at fetches; exact fetches
        have unused : op.Unused := by cases op <;> first | exact fetches.elim | trivial
        refine ⟨.quiet unused ?_, kept, Or.inr (Or.inr ⟨id, hasId_perform kept row, later⟩)⟩
        rw [noted_eq]
        exact if_neg later.unreturned
      · obtain ⟨value, eq⟩ := returns (perform (.recordAccess id) c s.pool.world).1
        refine ⟨.read (by rw [what]; trivial) row ?_, nofun, ?_⟩
        · rw [noted_eq, eq, if_pos ⟨value, rfl⟩]
        · rw [eq]
          exact Or.inl (Pool.done_ret value)
  | flushPending | replayWal | promoteNext =>
    rw [what] at running
    obtain ⟨settled, onward⟩ := running
    have own : ¬(s.activity i).IsRead := by
      rw [what]
      exact id
    exact ⟨settled_takes settled own (by simp [noted, what]),
      fun q same => by rw [same] at settled; exact settled, onward _⟩

/-- The statistics are right, and every task is one of those. -/
structure Inv (sha256 : Bytes → Text) (s : Daemon ι) : Prop where
  counted : s.Counted
  running : ∀ i, Running sha256 (s.activity i) s.pool.world (s.pool.threads i)

theorem usage_statement {p : FvfsPath} {t : Store} (answer : α) :
    (statement c w answer t).2.store.usage p =
      if c.Faultless then t.usage p else w.store.usage p := by
  cases fault : c.fault with
  | none =>
    have quiet : c.Faultless := fault
    rw [if_pos quiet, statement_faultless quiet]
    rfl
  | some e =>
    have faulty : ¬c.Faultless := by simp [Choice.Faultless, fault]
    rw [if_neg faulty]
    simp [statement, fault]

/-- The file whose row has the id that a read found. -/
theorem usage_id {p q : FvfsPath} {id : Nat} {t : Store} {u : Usage} (row : HasId q id t)
    (used : t.usage p = some u) : u.id = id ↔ p = q := by
  obtain ⟨x, at_q, rfl⟩ := row
  obtain ⟨y, at_p, same⟩ := Store.rowState_of_usage used
  rw [← same]
  constructor
  · exact Store.rowState_id_inj at_p at_q
  · rintro rfl
    exact congrArg Store.RowState.id (Option.some.inj (at_p.symm.trans at_q))

/-- The statistics after a step that does not miscount. -/
theorem counted_step (counted : s.Counted) (at_op : s.pool.threads i = .call op next)
    (takes : Takes s i c op) (right : ¬s.Miscounts (.step i c)) (p : FvfsPath) (u : Usage)
    (used : (perform op c s.pool.world).2.store.usage p = some u) :
    u.count = readsSince p (s.notes ++ s.noted i c) ∧
      lastUse p (s.notes ++ s.noted i c) = some u.time := by
  cases takes with
  | quiet unused silent =>
    rw [usage_perform unused] at used
    rw [silent, List.append_nil]
    exact counted p u used
  | @directory m dir silent =>
    rw [silent, List.append_nil]
    apply counted p u
    rw [perform, usage_statement] at used
    split at used
    · by_cases here : p = m.path
      · subst here
        rw [Store.usage_upsert_self, dir] at used
        cases used
      · rwa [Store.usage_upsert_other here] at used
    · exact used
  | @write m file count time noted =>
    rw [perform, usage_statement] at used
    rw [noted]
    split at used
    next quiet =>
      rw [if_pos quiet]
      by_cases here : p = m.path
      · subst here
        rw [Store.usage_upsert_self, file] at used
        obtain rfl := Option.some.inj used
        rw [readsSince_written, lastUse_snoc]
        exact ⟨count, (if_pos rfl).trans (congrArg some time.symm)⟩
      · rw [Store.usage_upsert_other here] at used
        have other : (Note.written m.path m.modifiedAt).path ≠ p := fun same => here same.symm
        rw [readsSince_other other, lastUse_snoc, if_neg other]
        exact counted p u used
    next faulty =>
      rw [if_neg faulty, List.append_nil]
      exact counted p u used
  | @read q id client row noted =>
    rw [perform, usage_statement] at used
    rw [noted]
    have faultless {v : Usage} (file : s.pool.world.store.usage q = some v) (same : v.id = id) :
        c.Faultless := by
      by_contra faulty
      exact right ⟨id, next, at_op, ⟨q, v, file, same⟩, Or.inl ⟨client, faulty⟩⟩
    by_cases here : p = q
    · subst here
      split at used
      next quiet =>
        rw [Store.usage_recordAccess] at used
        obtain ⟨v, before, rfl⟩ := Option.map_eq_some_iff.mp used
        obtain ⟨reads, -⟩ := counted p v before
        rw [if_pos ((usage_id row before).mpr rfl), readsSince_served, lastUse_snoc]
        exact ⟨congrArg (· + 1) reads, if_pos rfl⟩
      next faulty => exact absurd (faultless used ((usage_id row used).mpr rfl)) faulty
    · have other : (Note.served q c.clock).path ≠ p := fun same => here same.symm
      rw [readsSince_other other, lastUse_snoc, if_neg other]
      split at used
      · rw [Store.usage_recordAccess] at used
        obtain ⟨v, before, rfl⟩ := Option.map_eq_some_iff.mp used
        rw [if_neg fun same => here ((usage_id row before).mp same)]
        exact counted p v before
      · exact counted p u used
  | @background id own silent =>
    rw [silent, List.append_nil]
    rw [perform, usage_statement] at used
    split at used
    next quiet =>
      rw [Store.usage_recordAccess] at used
      obtain ⟨v, before, rfl⟩ := Option.map_eq_some_iff.mp used
      have other : v.id ≠ id := fun same =>
        right ⟨id, next, at_op, ⟨p, v, before, same⟩, Or.inr ⟨own, quiet⟩⟩
      rw [if_neg other]
      exact counted p v before
    next => exact counted p u used

/-- A step that miscounts shows in the statistics. -/
theorem not_counted_step (counted : s.Counted) (at_op : s.pool.threads i = .call op next)
    (takes : Takes s i c op) (wrong : s.Miscounts (.step i c)) :
    ¬∀ p u, (perform op c s.pool.world).2.store.usage p = some u →
      u.count = readsSince p (s.notes ++ s.noted i c) ∧
        lastUse p (s.notes ++ s.noted i c) = some u.time := by
  obtain ⟨id, next', at_record, ⟨p, u, file, rfl⟩, sides⟩ := wrong
  obtain rfl := (Prog.call.inj (at_op.symm.trans at_record)).1
  obtain ⟨reads, -⟩ := counted p u file
  intro claimed
  simp only [perform, usage_statement] at claimed
  cases takes with
  | quiet unused silent => exact unused
  | @read q _ client row noted =>
    obtain rfl := (usage_id row file).mp rfl
    have faulty : ¬c.Faultless := (sides.resolve_right fun own => own.1 client).2
    have after := (claimed p u (by rw [if_neg faulty]; exact file)).1
    rw [noted, readsSince_served] at after
    omega
  | background own silent =>
    have quiet : c.Faultless := (sides.resolve_left fun client => own client.1).2
    have bumped : (s.pool.world.store.recordAccess u.id c.clock).usage p =
        some ⟨u.id, u.count + 1, c.clock⟩ := by
      rw [Store.usage_recordAccess, file, Option.map_some, if_pos rfl]
    have after := (claimed p _ (by rw [if_pos quiet]; exact bumped)).1
    rw [silent, List.append_nil] at after
    dsimp only at after
    omega

theorem noted_done (done : Pool.Done (s.pool.threads i)) : s.noted i c = [] := by
  unfold noted
  split
  next at_op => exact absurd at_op (done _ _)
  next at_op => exact absurd at_op (done _ _)
  next => rfl

theorem inv_fresh : Inv sha256 (fresh : Daemon ι) :=
  ⟨nofun, fun _ => running_ret⟩

section Run

variable [DecidableEq ι]

theorem act_done (done : Pool.Done (s.pool.threads i)) : s.act sha256 (.step i c) = s := by
  rw [act, (Pool.step_done done c).1, noted_done done, List.append_nil]

/-- One step of a task, and the daemon after it. -/
theorem act_step (at_op : s.pool.threads i = .call op next) :
    s.act sha256 (.step i c) = ⟨⟨(perform op c s.pool.world).2,
      update s.pool.threads i (next (perform op c s.pool.world).1)⟩, s.activity,
      s.notes ++ s.noted i c⟩ := by
  rw [act, Pool.step_call at_op]

theorem inv_act (o : Action ι) (inv : Inv sha256 s) (right : ¬s.Miscounts o) :
    Inv sha256 (s.act sha256 o) := by
  obtain ⟨counted, running⟩ := inv
  cases o with
  | start i a =>
    refine ⟨counted, fun j => ?_⟩
    by_cases here : j = i
    · subst here
      simpa [act] using running_task
    · simpa [act, here] using running j
  | restart => exact ⟨counted, fun _ => running_ret⟩
  | step i c =>
    cases at_op : s.pool.threads i with
    | ret value =>
      rw [act_done (by simp [at_op])]
      exact ⟨counted, running⟩
    | fail error =>
      rw [act_done (by simp [at_op])]
      exact ⟨counted, running⟩
    | call op next =>
      obtain ⟨takes, kept, onward⟩ := step_cases (c := c) at_op (at_op ▸ running i)
      rw [act_step at_op]
      refine ⟨counted_step counted at_op takes right, fun j => ?_⟩
      by_cases here : j = i
      · subst here
        simpa using onward
      · simpa [here] using (running j).grows fun p id row => hasId_perform kept row

theorem counts_of_counted (o : Action ι) (inv : Inv sha256 s) (after : (s.act sha256 o).Counted) :
    ¬s.Miscounts o := by
  cases o with
  | start i a => exact id
  | restart => exact id
  | step i c =>
    intro wrong
    obtain ⟨id, next, at_op, sides⟩ := wrong
    have takes := (step_cases (c := c) at_op (at_op ▸ inv.running i)).1
    rw [act_step at_op] at after
    exact not_counted_step inv.counted at_op takes ⟨id, next, at_op, sides⟩ after

/-- In every state of a run the statistics are those of the clients' reads, exactly where no step
of it miscounts. -/
theorem counted_iff (history : List (Action ι)) :
    Throughout (act sha256) fresh history Counted ↔
      EachStep (act sha256) fresh history fun s o => ¬s.Miscounts o :=
  throughout_iff_eachStep (Inv sha256) (fun _ _ => True) inv_fresh
    (fun _ o inv _ right => inv_act o inv right) (fun _ inv => inv.counted)
    (fun _ o inv _ after => counts_of_counted o inv after) fun _ _ _ => trivial

end Run

open Router (sampleSha256)

/-- A write, and a flush of its upload. -/
def writtenAndFlushed : List (Action Unit) :=
  .start () (.write ⟨"/a".toList⟩ [1]) :: List.replicate 8 (.step () (.quiet 0)) ++
    .start () .flushPending :: List.replicate 5 (.step () (.quiet 1))

/-- The flush counts as a use of the file, which no client has read. -/
theorem flush_counted_as_read :
    ¬∀ history : List (Action Unit),
      Throughout (act sampleSha256) fresh history Counted := by
  intro claimed
  have counted := claimed writtenAndFlushed writtenAndFlushed List.prefix_rfl
  have used : (writtenAndFlushed.foldl (act sampleSha256) fresh).pool.world.store.usage
      ⟨"/a".toList⟩ = some ⟨1, 1, 1⟩ := by decide
  have reads : readsSince ⟨"/a".toList⟩
      (writtenAndFlushed.foldl (act sampleSha256) fresh).notes = 0 := by decide
  have equal := (counted _ _ used).1
  rw [reads] at equal
  cases equal

end Daemon

end Fvfs
