import Fvfs.Requests

/-! The migration: crawling two source trees, hashing and deduplicating what they hold,
uploading each content once and recording it under the path of its first occurrence. -/
namespace Fvfs

open Lib

/-- The name of a directory entry, as its lossy conversion to a string renders it. -/
structure FileName where
  text : Text
  valid : FvfsPath.Segment text

/-- What hashing and, later, uploading a file each read from it. -/
structure SourceFile where
  hashed : Except Text Bytes
  content : Except Text Bytes

/-- The entries of a directory in the order they are listed, up to an error. Links are
followed; what is neither a file nor a directory is skipped. -/
inductive Dir where
  | done
  | broken (error : Text)
  | file (name : FileName) (source : SourceFile) (rest : Dir)
  | folder (name : FileName) (inner : Dir) (rest : Dir)
  | other (rest : Dir)

structure Found where
  tier : Tier
  names : List FileName
  source : SourceFile

structure Hashed extends Found where
  hash : Text
  size : Nat

structure MigrateReport where
  totalFiles : Nat
  totalBytes : Nat
  duplicates : Nat
  s3UploadBytes : Nat
  errors : Nat
  deriving DecidableEq

namespace Migrate

/-- `collect_recursive` below the names already descended into; any error gives up. -/
def collectRecursive (t : Tier) (above : List FileName) : Dir → Except Text (List Found)
  | .done => .ok []
  | .broken error => .error error
  | .file name source rest => do
    let later ← collectRecursive t above rest
    .ok (⟨t, above ++ [name], source⟩ :: later)
  | .folder name inner rest => do
    let below ← collectRecursive t (above ++ [name]) inner
    let later ← collectRecursive t above rest
    .ok (below ++ later)
  | .other rest => collectRecursive t above rest

/-- A root that cannot be crawled contributes nothing. -/
def crawl (t : Tier) (tree : Dir) : List Found :=
  match collectRecursive t [] tree with
  | .ok files => files
  | .error _ => []

def hashFile (sha256 : Bytes → Text) (f : Found) : Option Hashed :=
  match f.source.hashed with
  | .ok data => some { f with hash := sha256 data, size := data.length }
  | .error _ => none

/-- The crawled files that could be hashed, local ones first. -/
def results (sha256 : Bytes → Text) (localTree nasTree : Dir) : List Hashed :=
  (crawl .localDisk localTree ++ crawl .nas nasTree).filterMap (hashFile sha256)

/-- The first file of each hash not seen before, and how many others there are. -/
def dedup (seen : List Text) : List Hashed → List Hashed × Nat
  | [] => ([], 0)
  | f :: rest =>
    if f.hash ∈ seen then
      let (unique, duplicates) := dedup seen rest
      (unique, duplicates + 1)
    else
      let (unique, duplicates) := dedup (f.hash :: seen) rest
      (f :: unique, duplicates)

/-- The path relative to the root, with backslashes read as separators. -/
def relative (f : Hashed) : Text :=
  (['/'].intercalate (f.names.map FileName.text)).map fun c => if c = '\\' then '/' else c

def vfsPath (f : Hashed) : Except FvfsError FvfsPath := FvfsPath.new ('/' :: relative f)

def metaEntry (p : FvfsPath) (f : Hashed) (created modified accessed : Int) : FileMetadata where
  id := 0
  path := p
  kind := .file
  sizeBytes := f.size
  sha256 := f.hash
  tierBitmask := (TierBitmask.none.set f.tier).set .s3
  createdAt := created
  modifiedAt := modified
  accessedAt := accessed
  accessCount30d := 0
  mimeType := none

/-- Uploaded bytes and errors so far. -/
structure Counts where
  s3UploadBytes : Nat
  errors : Nat
  deriving DecidableEq

def Counts.failed (counts : Counts) : Counts := { counts with errors := counts.errors + 1 }

def Counts.uploaded (counts : Counts) (f : Hashed) : Counts :=
  { counts with s3UploadBytes := counts.s3UploadBytes + f.size }

open Async

/-- One turn of the upload loop. The upsert's own error is dropped. -/
def migrateFile (f : Hashed) (counts : Counts) : Async Counts :=
  match vfsPath f, f.source.content with
  | .ok p, .ok data => do
    match ← (put .s3 p data).attempt with
    | .error _ => pure counts.failed
    | .ok () =>
      let created ← now
      let modified ← now
      let accessed ← now
      let _ ← (upsert (metaEntry p f created modified accessed)).attempt
      pure (counts.uploaded f)
  | _, _ => pure counts.failed

def migrateFiles : List Hashed → Counts → Async Counts
  | [], counts => pure counts
  | f :: rest, counts => do
    let counts ← migrateFile f counts
    migrateFiles rest counts

def runMigration (sha256 : Bytes → Text) (localTree nasTree : Dir) : Async MigrateReport := do
  let files := results sha256 localTree nasTree
  let (toUpload, duplicates) := dedup [] files
  let counts ← migrateFiles toUpload ⟨0, 0⟩
  pure ⟨files.length, (files.map Hashed.size).sum, duplicates, counts.s3UploadBytes, counts.errors⟩

/-- What a run leaves: the objects its puts stored, also those of failed puts, and the rows
its upserts recorded. -/
inductive Effect where
  | object (p : FvfsPath) (data : Bytes)
  | row (p : FvfsPath) (f : Hashed) (created modified accessed : Int)

def Effect.apply (w : World) : Effect → World
  | object p data => w.setObject .s3 p (some data)
  | row p f created modified accessed =>
    w.withStore (w.store.upsert (metaEntry p f created modified accessed)).2

/-- The effects of one turn, the steps it takes, and what it adds to the counts. -/
def turn (f : Hashed) (env : Nat → Choice) : List Effect × Nat × (Counts → Counts) :=
  match vfsPath f, f.source.content with
  | .ok p, .ok data =>
    match (env 0).fault, (env 0).torn with
    | some _, none => ([], 1, Counts.failed)
    | some _, some n => ([.object p (data.take n)], 1, Counts.failed)
    | none, _ =>
      let recorded :=
        if (env 4).Faultless then [.row p f (env 1).clock (env 2).clock (env 3).clock] else []
      (.object p data :: recorded, 5, fun counts => counts.uploaded f)
  | _, _ => ([], 0, Counts.failed)

def effects : List Hashed → (Nat → Choice) → List Effect
  | [], _ => []
  | f :: rest, env => (turn f env).1 ++ effects rest fun i => env (i + (turn f env).2.1)

/-- What follows a put that succeeded. -/
def record (f : Hashed) (counts : Counts) (p : FvfsPath) : Async Counts := do
  let created ← now
  let modified ← now
  let accessed ← now
  let _ ← (upsert (metaEntry p f created modified accessed)).attempt
  pure (counts.uploaded f)

theorem exec_record (f : Hashed) (counts : Counts) (p : FvfsPath) (env : Nat → Choice) (w : World) :
    (record f counts p).exec perform env w = (.ok (counts.uploaded f),
      (if (env 3).Faultless then
        [Effect.row p f (env 0).clock (env 1).clock (env 2).clock] else []).foldl Effect.apply w) ∧
    (record f counts p).steps perform env w = 4 := by
  cases fourth : (env 3).fault with
  | none => simp [record, now, upsert, Prog.exec, Prog.steps, perform, statement, fourth,
      Choice.Faultless, Effect.apply]
  | some e => simp [record, now, upsert, Prog.exec, Prog.steps, perform, statement, fourth,
      Choice.Faultless]

theorem exec_migrateFile (f : Hashed) (counts : Counts) (env : Nat → Choice) (w : World) :
    (migrateFile f counts).exec perform env w =
      (.ok ((turn f env).2.2 counts), (turn f env).1.foldl Effect.apply w) ∧
    (migrateFile f counts).steps perform env w = (turn f env).2.1 := by
  unfold migrateFile turn
  cases vfsPath f with
  | error e => exact ⟨rfl, rfl⟩
  | ok p =>
    cases f.source.content with
    | error e => exact ⟨rfl, rfl⟩
    | ok data =>
      obtain ⟨exec, steps⟩ := exec_record f counts p (fun i => env (i + 1))
        (w.setObject .s3 p (some data))
      cases first : (env 0).fault with
      | none =>
        simp only [Async.put, Prog.attempt_call, Prog.call_bind, Prog.exec, Prog.steps_call,
          perform, putObject, first, Prog.lift_ok, Prog.attempt_ret, Prog.ret_bind]
        exact ⟨exec, congrArg (· + 1) steps⟩
      | some e =>
        cases cut : (env 0).torn with
        | none => simp [Async.put, Prog.exec, Prog.steps, perform, putObject, first, cut]
        | some n =>
          simp [Async.put, Prog.exec, Prog.steps, perform, putObject, first, cut, Effect.apply]

/-- What a run adds to the counts. -/
def tally : List Hashed → (Nat → Choice) → Counts → Counts
  | [], _, counts => counts
  | f :: rest, env, counts =>
    tally rest (fun i => env (i + (turn f env).2.1)) ((turn f env).2.2 counts)

theorem exec_migrateFiles (fs : List Hashed) (counts : Counts) (env : Nat → Choice) (w : World) :
    (migrateFiles fs counts).exec perform env w =
      (.ok (tally fs env counts), (effects fs env).foldl Effect.apply w) := by
  induction fs generalizing counts env w with
  | nil => rfl
  | cons f rest ih =>
    obtain ⟨exec, steps⟩ := exec_migrateFile f counts env w
    simp only [migrateFiles, Prog.exec_bind, exec, steps, effects, tally, List.foldl_append]
    exact ih _ _ _

/-- A whole migration: its report, and the effects of its uploads on the world. -/
theorem exec_runMigration (sha256 : Bytes → Text) (localTree nasTree : Dir) (env : Nat → Choice)
    (w : World) :
    (runMigration sha256 localTree nasTree).exec perform env w =
      (.ok ⟨(results sha256 localTree nasTree).length,
        ((results sha256 localTree nasTree).map Hashed.size).sum,
        (dedup [] (results sha256 localTree nasTree)).2,
        (tally (dedup [] (results sha256 localTree nasTree)).1 env ⟨0, 0⟩).s3UploadBytes,
        (tally (dedup [] (results sha256 localTree nasTree)).1 env ⟨0, 0⟩).errors⟩,
      (effects (dedup [] (results sha256 localTree nasTree)).1 env).foldl Effect.apply w) := by
  simp only [runMigration, Prog.exec_bind, exec_migrateFiles]
  rfl

def objectAt (p : FvfsPath) : Effect → Option Bytes
  | .object q data => if q = p then some data else none
  | .row _ _ _ _ _ => none

def rowAt (p : FvfsPath) : Effect → Option Hashed
  | .row q f _ _ _ => if q = p then some f else none
  | .object _ _ => none

def lastObject (es : List Effect) (p : FvfsPath) : Option Bytes := es.reverse.findSome? (objectAt p)

def lastRow (es : List Effect) (p : FvfsPath) : Option Hashed := es.reverse.findSome? (rowAt p)

/-- The row state an upsert of a migrated file leaves. -/
def rowOf (f : Hashed) (id : Nat) : Store.RowState :=
  ⟨id, f.size, f.hash, (TierBitmask.none.set f.tier).set .s3, false⟩

theorem tiers_effects (es : List Effect) (w : World) (t : Tier) (p : FvfsPath) :
    (es.foldl Effect.apply w).tiers t p =
      if t = .s3 then (lastObject es p).or (w.tiers .s3 p) else w.tiers t p := by
  unfold lastObject
  induction es using List.reverseRecOn with
  | nil =>
    by_cases cold : t = .s3
    · subst cold
      simp
    · simp [cold]
  | append_singleton es e ih =>
    simp only [List.foldl_append, List.foldl_cons, List.foldl_nil, List.reverse_append,
      List.reverse_singleton, List.singleton_append, List.findSome?_cons]
    cases e with
    | row q f created modified accessed => exact ih
    | object q data =>
      simp only [Effect.apply, World.setObject_tiers, ih, objectAt]
      by_cases cold : t = .s3
      · by_cases here : q = p
        · simp [cold, here]
        · simp [cold, here, Ne.symm here]
      · simp [cold]

theorem rowState_effects (es : List Effect) (w : World) (p : FvfsPath) :
    match lastRow es p with
    | some f => ∃ id, (es.foldl Effect.apply w).store.rowState p = some (rowOf f id)
    | none => (es.foldl Effect.apply w).store.rowState p = w.store.rowState p := by
  unfold lastRow
  induction es using List.reverseRecOn with
  | nil => rfl
  | append_singleton es e ih =>
    simp only [List.foldl_append, List.foldl_cons, List.foldl_nil, List.reverse_append,
      List.reverse_singleton, List.singleton_append, List.findSome?_cons]
    cases e with
    | object q data => exact ih
    | row q f created modified accessed =>
      simp only [Effect.apply, rowAt, World.withStore_store]
      by_cases here : q = p
      · subst here
        simp only [if_true]
        exact ⟨_, Store.rowState_upsert_self (metaEntry q f created modified accessed)⟩
      · have other : p ≠ (metaEntry q f created modified accessed).path :=
          fun same => here same.symm
        simp only [here, if_false, Store.rowState_upsert_other other]
        exact ih

/-- What one turn may leave at the file's path. -/
inductive Leaves (f : Hashed) (env : Nat → Choice) (p : FvfsPath) (data : Bytes) :
    List Effect → Prop
  | torn (n : Nat) (faulty : ¬(env 0).Faultless) : Leaves f env p data [.object p (data.take n)]
  | unrecorded (faulty : ¬(env 4).Faultless) : Leaves f env p data [.object p data]
  | recorded (created modified accessed : Int) :
      Leaves f env p data [.object p data, .row p f created modified accessed]

theorem turn_leaves (f : Hashed) (env : Nat → Choice) : (turn f env).1 = [] ∨
    ∃ p data, vfsPath f = .ok p ∧ f.source.content = .ok data ∧
      Leaves f env p data (turn f env).1 := by
  unfold turn
  cases vfsPath f with
  | error e => exact Or.inl rfl
  | ok p =>
    cases f.source.content with
    | error e => exact Or.inl rfl
    | ok data =>
      cases first : (env 0).fault with
      | none =>
        refine Or.inr ⟨p, data, rfl, rfl, ?_⟩
        by_cases quiet : (env 4).Faultless
        · simp only [quiet, if_true]
          exact .recorded _ _ _
        · simp only [quiet, if_false]
          exact .unrecorded quiet
      | some e =>
        have faulty : ¬(env 0).Faultless := by simp [Choice.Faultless, first]
        cases cut : (env 0).torn with
        | none => exact Or.inl rfl
        | some n => exact Or.inr ⟨p, data, rfl, rfl, .torn n faulty⟩

/-- A row was recorded for a file of the list, at its path and after its upload. -/
theorem row_of_mem {fs : List Hashed} {env : Nat → Choice} {p : FvfsPath} {f : Hashed}
    {created modified accessed : Int}
    (member : .row p f created modified accessed ∈ effects fs env) :
    f ∈ fs ∧ vfsPath f = .ok p ∧ ∃ data, f.source.content = .ok data ∧
      .object p data ∈ effects fs env := by
  induction fs generalizing env with
  | nil => cases member
  | cons g rest ih =>
    rcases List.mem_append.mp member with here | later
    · rcases turn_leaves g env with nothing | ⟨q, data, path, content, leaves⟩
      · simp [nothing] at here
      · generalize left_eq : (turn g env).1 = left at here leaves
        cases leaves with
        | torn n faulty => simp at here
        | unrecorded faulty => simp at here
        | recorded c m a =>
          obtain ⟨rfl, rfl, -⟩ : p = q ∧ f = g ∧ _ := by simpa using here
          exact ⟨by simp, path, data, content, List.mem_append_left _ (by simp [left_eq])⟩
    · obtain ⟨inside, path, data, content, stored⟩ := ih later
      exact ⟨by simp [inside], path, data, content, List.mem_append_right _ stored⟩

theorem lastRow_mem {fs : List Hashed} {env : Nat → Choice} {p : FvfsPath} {f : Hashed}
    (last : lastRow (effects fs env) p = some f) :
    f ∈ fs ∧ vfsPath f = .ok p ∧ ∃ data, f.source.content = .ok data ∧
      .object p data ∈ effects fs env := by
  obtain ⟨e, member, at_p⟩ := List.exists_of_findSome?_eq_some last
  cases e with
  | object q data => simp [rowAt] at at_p
  | row q g created modified accessed =>
    obtain ⟨rfl, rfl⟩ : q = p ∧ g = f := by simpa [rowAt] using at_p
    exact row_of_mem (List.mem_reverse.mp member)

theorem lastObject_of_mem {es : List Effect} {p : FvfsPath} {data : Bytes}
    (stored : .object p data ∈ es) : ∃ copy, lastObject es p = some copy := by
  rw [← Option.isSome_iff_exists]
  apply List.findSome?_isSome_iff.mpr
  exact ⟨_, List.mem_reverse.mpr stored, by simp [objectAt]⟩

theorem lastRow_of_mem {es : List Effect} {p : FvfsPath} {f : Hashed}
    {created modified accessed : Int} (recorded : .row p f created modified accessed ∈ es) :
    ∃ g, lastRow es p = some g := by
  rw [← Option.isSome_iff_exists]
  apply List.findSome?_isSome_iff.mpr
  exact ⟨_, List.mem_reverse.mpr recorded, by simp [rowAt]⟩

/-- The turns of the upload loop, each with the choices from its first step on. -/
def turns : List Hashed → (Nat → Choice) → List (Hashed × (Nat → Choice))
  | [], _ => []
  | f :: rest, env => (f, env) :: turns rest fun i => env (i + (turn f env).2.1)

theorem turn_stored {f : Hashed} {env : Nat → Choice} {p : FvfsPath} {data : Bytes}
    (path : vfsPath f = .ok p) (content : f.source.content = .ok data) (quiet : (env 0).Faultless) :
    turn f env = (.object p data :: (if (env 4).Faultless then
      [.row p f (env 1).clock (env 2).clock (env 3).clock] else []), 5, fun c => c.uploaded f) := by
  have fault : (env 0).fault = none := quiet
  unfold turn
  rw [path, content, fault]

/-- Every file has its turn, with what it leaves among the effects. -/
theorem turn_of_mem {fs : List Hashed} {env : Nat → Choice} {f : Hashed} (member : f ∈ fs) :
    ∃ e, (f, e) ∈ turns fs env ∧ (turn f e).1 ⊆ effects fs env := by
  induction fs generalizing env with
  | nil => cases member
  | cons g rest ih =>
    rcases List.mem_cons.mp member with rfl | inside
    · exact ⟨env, List.mem_cons_self .., List.subset_append_left _ _⟩
    · obtain ⟨e, taken, left⟩ := ih inside
      exact ⟨e, List.mem_cons_of_mem _ taken, List.subset_append_of_subset_right _ left⟩

/-- The turn leaves nothing, or the file's bytes and its row. -/
def Placed (t : Hashed × (Nat → Choice)) : Prop :=
  (turn t.1 t.2).1 = [] ∨ ∃ p data created modified accessed, vfsPath t.1 = .ok p ∧
    t.1.source.content = .ok data ∧
    (turn t.1 t.2).1 = [.object p data, .row p t.1 created modified accessed]

theorem lastRow_append (es later : List Effect) (p : FvfsPath) :
    lastRow (es ++ later) p = (lastRow later p).or (lastRow es p) := by
  simp [lastRow, List.findSome?_append]

theorem lastObject_append (es later : List Effect) (p : FvfsPath) :
    lastObject (es ++ later) p = (lastObject later p).or (lastObject es p) := by
  simp [lastObject, List.findSome?_append]

/-- Where every turn does one of these, the last object and the last row at a path are one
file's. -/
theorem last_placed {fs : List Hashed} {env : Nat → Choice} (all : ∀ t ∈ turns fs env, Placed t)
    (p : FvfsPath) :
    (lastObject (effects fs env) p = none ∧ lastRow (effects fs env) p = none) ∨
    ∃ f ∈ fs, ∃ data, vfsPath f = .ok p ∧ f.source.content = .ok data ∧
      lastObject (effects fs env) p = some data ∧ lastRow (effects fs env) p = some f := by
  induction fs generalizing env with
  | nil => exact Or.inl ⟨rfl, rfl⟩
  | cons g rest ih =>
    obtain ⟨placed, others⟩ := List.forall_mem_cons.mp all
    simp only [effects, lastRow_append, lastObject_append]
    rcases ih others with ⟨no_object, no_row⟩ | ⟨f, inside, data, path, content, object, row⟩
    · rw [no_object, no_row, Option.none_or, Option.none_or]
      rcases placed with nothing | ⟨q, data, c, m, a, path, content, left⟩
      · rw [nothing]
        exact Or.inl ⟨rfl, rfl⟩
      · rw [left]
        by_cases here : q = p
        · subst here
          refine Or.inr ⟨g, List.mem_cons_self .., data, path, content, ?_, ?_⟩
          · simp [lastObject, objectAt, List.findSome?_cons]
          · simp [lastRow, rowAt]
        · refine Or.inl ⟨?_, ?_⟩
          · simp [lastObject, objectAt, here]
          · simp [lastRow, rowAt, here]
    · refine Or.inr ⟨f, List.mem_cons_of_mem _ inside, data, path, content, ?_, ?_⟩
      · rw [object, Option.some_or]
      · rw [row, Option.some_or]

/-- At the path of a file whose turn leaves something, some file of the list is in place. -/
theorem last_of_placed {fs : List Hashed} {env : Nat → Choice} {p : FvfsPath} {f : Hashed}
    (all : ∀ t ∈ turns fs env, Placed t) (member : f ∈ fs) (path : vfsPath f = .ok p)
    (leaves : ∀ e, (f, e) ∈ turns fs env → (turn f e).1 ≠ []) :
    ∃ g ∈ fs, ∃ data, vfsPath g = .ok p ∧ g.source.content = .ok data ∧
      lastObject (effects fs env) p = some data ∧ lastRow (effects fs env) p = some g := by
  obtain ⟨e, taken, left⟩ := @turn_of_mem fs env f member
  rcases all _ taken with nothing | ⟨q, _, c, m, a, path', -, whole⟩
  · exact absurd nothing (leaves e taken)
  · obtain rfl : q = p := Except.ok.inj (path'.symm.trans path)
    have recorded : .row q f c m a ∈ (turn f e).1 := by
      rw [whole]
      exact List.mem_cons_of_mem _ (List.mem_cons_self ..)
    obtain ⟨_, found⟩ := lastRow_of_mem (left recorded)
    refine (last_placed all q).resolve_left fun none_there => ?_
    rw [none_there.2] at found
    cases found

section Quiet

variable {fs : List Hashed} {env : Nat → Choice}

theorem quiet_turns (quiet : ∀ i, (env i).Faultless) {t : Hashed × (Nat → Choice)}
    (taken : t ∈ turns fs env) (i : Nat) : (t.2 i).Faultless := by
  induction fs generalizing env with
  | nil => cases taken
  | cons f rest ih =>
    rcases List.mem_cons.mp taken with rfl | later
    · exact quiet i
    · exact ih (fun i => quiet _) later

theorem turn_whole {f : Hashed} {p : FvfsPath} {data : Bytes} (quiet : ∀ i, (env i).Faultless)
    (path : vfsPath f = .ok p) (content : f.source.content = .ok data) :
    (turn f env).1 = [.object p data, .row p f (env 1).clock (env 2).clock (env 3).clock] := by
  rw [turn_stored path content (quiet 0), if_pos (quiet 4)]

theorem placed_of_quiet (quiet : ∀ i, (env i).Faultless) :
    ∀ t ∈ turns fs env, Placed t := by
  intro t taken
  obtain ⟨f, e⟩ := t
  have still := quiet_turns quiet taken
  rcases turn_leaves f e with nothing | ⟨p, data, path, content, -⟩
  · exact Or.inl nothing
  · exact Or.inr ⟨p, data, _, _, _, path, content, turn_whole still path content⟩

/-- At the path of a file that no other file of the list claims, the run leaves its bytes
and its row. -/
theorem last_of_sole {p : FvfsPath} {f : Hashed} {data : Bytes} (quiet : ∀ i, (env i).Faultless)
    (member : f ∈ fs) (path : vfsPath f = .ok p) (content : f.source.content = .ok data)
    (sole : ∀ g ∈ fs, vfsPath g = .ok p → g = f) :
    lastObject (effects fs env) p = some data ∧ lastRow (effects fs env) p = some f := by
  have leaves (e : Nat → Choice) (taken : (f, e) ∈ turns fs env) : (turn f e).1 ≠ [] := by
    rw [turn_whole (quiet_turns quiet taken) path content]
    exact List.cons_ne_nil _ _
  obtain ⟨g, claims, copy, path', sent, last⟩ :=
    last_of_placed (placed_of_quiet quiet) member path leaves
  obtain rfl := sole g claims path'
  obtain rfl := Except.ok.inj (content.symm.trans sent)
  exact last

/-- The last row at a path and the last object there are one file's. -/
theorem lastObject_of_lastRow {p : FvfsPath} {f : Hashed} {data : Bytes}
    (quiet : ∀ i, (env i).Faultless) (last : lastRow (effects fs env) p = some f)
    (content : f.source.content = .ok data) : lastObject (effects fs env) p = some data := by
  rcases last_placed (placed_of_quiet quiet) p with ⟨-, no_row⟩ | ⟨g, -, copy, -, sent, object, row⟩
  · rw [no_row] at last
    cases last
  · obtain rfl := Option.some.inj (row.symm.trans last)
    obtain rfl := Except.ok.inj (content.symm.trans sent)
    exact object

theorem turn_quiet {f : Hashed} (quiet : ∀ i, (env i).Faultless) {p : FvfsPath} {data : Bytes}
    (path : vfsPath f = .ok p) (content : f.source.content = .ok data) (counts : Counts) :
    ((turn f env).2.2 counts).errors = counts.errors := by
  rw [turn_stored path content (quiet 0)]
  rfl

theorem tally_errors (quiet : ∀ i, (env i).Faultless)
    (sound : ∀ f ∈ fs, (∃ p, vfsPath f = .ok p) ∧ ∃ data, f.source.content = .ok data)
    (counts : Counts) : (tally fs env counts).errors = counts.errors := by
  induction fs generalizing env counts with
  | nil => rfl
  | cons f rest ih =>
    obtain ⟨⟨p, path⟩, data, content⟩ := sound f (by simp)
    have here := turn_quiet quiet path content counts
    exact (ih (fun i => quiet _) (fun g member => sound g (by simp [member])) _).trans here

end Quiet

/-- The first file with a hash. -/
def first (files : List Hashed) (hash : Text) : Option Hashed := files.find? (·.hash == hash)

theorem mem_dedup {seen : List Text} {files : List Hashed} {f : Hashed} :
    f ∈ (dedup seen files).1 ↔ f.hash ∉ seen ∧ first files f.hash = some f := by
  unfold first
  induction files generalizing seen with
  | nil => simp [dedup]
  | cons g rest ih =>
    by_cases known : g.hash ∈ seen
    · simp only [dedup, known, if_true, ih, List.find?_cons]
      by_cases same : g.hash = f.hash
      · simp [← same, known]
      · have test : (g.hash == f.hash) = false := by simpa using same
        simp only [test]
    · simp only [dedup, known, if_false, List.mem_cons, ih, List.find?_cons]
      by_cases same : g.hash = f.hash
      · simp only [same, beq_self_eq_true, Option.some.injEq, not_or, not_true_eq_false, false_and,
          or_false]
        constructor
        · rintro rfl
          exact ⟨known, rfl⟩
        · exact fun both => both.2.symm
      · have apart : f ≠ g := fun eq => same (congrArg Hashed.hash eq.symm)
        have test : (g.hash == f.hash) = false := by simpa using same
        simp [test, Ne.symm same, apart]

theorem dedup_length (seen : List Text) (files : List Hashed) :
    (dedup seen files).1.length + (dedup seen files).2 = files.length := by
  induction files generalizing seen with
  | nil => rfl
  | cons g rest ih =>
    by_cases known : g.hash ∈ seen
    · have := ih seen
      simp only [dedup, known, if_true, List.length_cons]
      omega
    · have := ih (g.hash :: seen)
      simp only [dedup, known, if_false, List.length_cons]
      omega

theorem first_of_mem {files : List Hashed} {f : Hashed} (member : f ∈ files) :
    ∃ r ∈ files, first files f.hash = some r ∧ r.hash = f.hash := by
  have some_first : (first files f.hash).isSome := by
    apply List.find?_isSome.mpr
    exact ⟨f, member, by simp⟩
  obtain ⟨r, found⟩ := Option.isSome_iff_exists.mp some_first
  exact ⟨r, List.mem_of_find?_eq_some found, found, by simpa using List.find?_some found⟩

end Migrate

def SourceFile.Intact (source : SourceFile) : Prop :=
  ∃ data, source.hashed = .ok data ∧ source.content = .ok data

/-- No directory and no file fails, and files do not change while they are migrated. -/
def Dir.Intact : Dir → Prop
  | done => True
  | broken _ => False
  | file _ source rest => source.Intact ∧ rest.Intact
  | folder _ inner rest => inner.Intact ∧ rest.Intact
  | other rest => rest.Intact

namespace Migrate

theorem collectRecursive_intact (t : Tier) {tree : Dir} (intact : tree.Intact)
    (above : List FileName) : ∃ files, collectRecursive t above tree = .ok files ∧
      ∀ f ∈ files, f.tier = t ∧ f.source.Intact := by
  induction tree generalizing above with
  | done => exact ⟨[], rfl, by simp⟩
  | broken error => exact intact.elim
  | file name source rest ih =>
    obtain ⟨later, found, sound⟩ := ih intact.2 above
    refine ⟨⟨t, above ++ [name], source⟩ :: later,
      by simp [collectRecursive, found, bind, Except.bind], ?_⟩
    intro f member
    rcases List.mem_cons.mp member with rfl | inside
    · exact ⟨rfl, intact.1⟩
    · exact sound f inside
  | folder name inner rest ih_inner ih =>
    obtain ⟨below, found, sound⟩ := ih_inner intact.1 (above ++ [name])
    obtain ⟨later, found', sound'⟩ := ih intact.2 above
    refine ⟨below ++ later, by simp [collectRecursive, found, found', bind, Except.bind], ?_⟩
    intro f member
    rcases List.mem_append.mp member with inside | inside
    · exact sound f inside
    · exact sound' f inside
  | other rest ih =>
    obtain ⟨files, found, sound⟩ := ih intact above
    exact ⟨files, found, sound⟩

theorem relative_clean (f : Hashed) : FvfsPath.nul ∉ relative f := by
  have plain : FvfsPath.nul ∉ ['/'].intercalate (f.names.map FileName.text) := by
    generalize f.names = names
    induction names with
    | nil => simp
    | cons name names ih =>
      have clean := name.valid.no_nul
      cases names with
      | nil => simpa using clean
      | cons other names =>
        simp only [List.map_cons, List.intercalate_cons_cons, List.mem_append, not_or] at ih ⊢
        exact ⟨⟨clean, by decide⟩, ih⟩
  unfold relative
  rw [List.mem_map]
  rintro ⟨c, member, same⟩
  split at same
  · exact absurd same (by decide)
  · exact plain (same ▸ member)

theorem vfsPath_ok (f : Hashed) : ∃ p, vfsPath f = .ok p := FvfsPath.new_of_clean (relative_clean f)

/-- Every crawled file is hashed, and its bytes are the ones it was hashed from. -/
theorem results_intact (sha256 : Bytes → Text) {localTree nasTree : Dir}
    (intact : localTree.Intact) (intact' : nasTree.Intact) :
    (results sha256 localTree nasTree).map Hashed.toFound =
      crawl .localDisk localTree ++ crawl .nas nasTree ∧
    ∀ f ∈ results sha256 localTree nasTree, ∃ data, f.source.content = .ok data ∧
      f.hash = sha256 data ∧ f.size = data.length := by
  obtain ⟨files, found, sound⟩ := collectRecursive_intact .localDisk intact []
  obtain ⟨files', found', sound'⟩ := collectRecursive_intact .nas intact' []
  have readable : ∀ f ∈ files ++ files', f.source.Intact := by
    intro f member
    rcases List.mem_append.mp member with inside | inside
    · exact (sound f inside).2
    · exact (sound' f inside).2
  simp only [results, crawl, found, found']
  generalize files ++ files' = all at readable
  constructor
  · induction all with
    | nil => rfl
    | cons f rest ih =>
      obtain ⟨data, hashed, -⟩ := readable f (by simp)
      have here : hashFile sha256 f = some { f with hash := sha256 data, size := data.length } := by
        simp [hashFile, hashed]
      rw [List.filterMap_cons, here, List.map_cons,
        ih fun g member => readable g (by simp [member])]
  · intro f member
    obtain ⟨g, inside, made⟩ := List.mem_filterMap.mp member
    obtain ⟨data, hashed, content⟩ := readable g inside
    simp only [hashFile, hashed, Option.some.injEq] at made
    subst made
    exact ⟨data, content, rfl, rfl⟩

/-- A file's row at a path, with its own hash and size, and its bytes on S3. -/
structure Migrated (w : World) (p : FvfsPath) (f : Hashed) (data : Bytes) : Prop where
  row : ∃ x, w.store.rowState p = some x ∧ x.isDir = false ∧ x.sha256 = f.hash ∧
    x.sizeBytes = data.length
  object : w.tiers .s3 p = some data

/-- A migration in which nothing fails counts no error and keeps every content once: under
the path of the first file it was crawled from, unless another first file has that path. -/
theorem first_occurrence_kept (sha256 : Bytes → Text) (localTree nasTree : Dir)
    (intact : localTree.Intact) (intact' : nasTree.Intact) (env : Nat → Choice)
    (quiet : ∀ i, (env i).Faultless) (w : World) :
    ∃ report, ((runMigration sha256 localTree nasTree).exec perform env w).1 = .ok report ∧
      report.errors = 0 ∧
      report.totalFiles = (crawl .localDisk localTree ++ crawl .nas nasTree).length ∧
      report.duplicates + (dedup [] (results sha256 localTree nasTree)).1.length =
        report.totalFiles ∧
      ∀ f ∈ results sha256 localTree nasTree, ∃ r ∈ results sha256 localTree nasTree,
        first (results sha256 localTree nasTree) f.hash = some r ∧ ∃ p data,
          vfsPath r = .ok p ∧ r.source.content = .ok data ∧ sha256 data = f.hash ∧
          ((∀ g, first (results sha256 localTree nasTree) g.hash = some g →
              vfsPath g = .ok p → g.hash = f.hash) →
            Migrated ((runMigration sha256 localTree nasTree).exec perform env w).2 p r data) := by
  obtain ⟨crawled, sound⟩ := results_intact sha256 intact intact'
  rw [exec_runMigration, ← crawled]
  generalize results sha256 localTree nasTree = files at sound
  refine ⟨_, rfl, ?_, by simp, ?_, ?_⟩
  · apply tally_errors quiet
    intro f member
    obtain ⟨_, kept⟩ := mem_dedup.mp member
    obtain ⟨data, content, -⟩ := sound f (List.mem_of_find?_eq_some kept)
    exact ⟨vfsPath_ok f, data, content⟩
  · have length := dedup_length [] files
    simp only
    omega
  · intro f member
    obtain ⟨r, inside, found, hash⟩ := first_of_mem member
    obtain ⟨p, path⟩ := vfsPath_ok r
    obtain ⟨data, content, digest, size⟩ := sound r inside
    refine ⟨r, inside, found, p, data, path, content, digest.symm.trans hash, fun sole => ?_⟩
    have kept : r ∈ (dedup [] files).1 := mem_dedup.mpr ⟨by simp, hash ▸ found⟩
    obtain ⟨object, row⟩ := last_of_sole quiet kept path content (by
      intro g claims path'
      obtain ⟨_, first_g⟩ := mem_dedup.mp claims
      have same := sole g first_g path'
      rw [same] at first_g
      exact Option.some.inj (first_g.symm.trans found))
    have rows := rowState_effects (effects (dedup [] files).1 env) w p
    rw [row] at rows
    obtain ⟨id, recorded⟩ := rows
    constructor
    · exact ⟨_, recorded, rfl, rfl, size⟩
    · rw [tiers_effects]
      simp [object]

open Router (sampleSha256)

def plain (data : Bytes) : SourceFile := ⟨.ok data, .ok data⟩

def fileA : FileName := ⟨['a'], by constructor <;> decide⟩

def fileB : FileName := ⟨['b'], by constructor <;> decide⟩

/-- Two files of one content on the local disk. -/
def twins : Dir := .file fileA (plain [1]) (.file fileB (plain [1]) .done)

theorem twins_intact : twins.Intact := ⟨⟨[1], rfl, rfl⟩, ⟨[1], rfl, rfl⟩, trivial⟩

def twinA : Hashed := ⟨⟨.localDisk, [fileA], plain [1]⟩, sampleSha256 [1], 1⟩

def twinB : Hashed := ⟨⟨.localDisk, [fileB], plain [1]⟩, sampleSha256 [1], 1⟩

theorem results_twins : results sampleSha256 twins .done = [twinA, twinB] := rfl

/-- The content of the twins is kept under the path of the first. -/
theorem twins_kept : Migrated ((runMigration sampleSha256 twins .done).exec perform
    (fun _ => .quiet 0) .empty).2 ⟨['/', 'a']⟩ twinA [1] := by
  obtain ⟨report, -, -, -, -, kept⟩ := first_occurrence_kept sampleSha256 twins .done twins_intact
    trivial (fun _ => .quiet 0) (fun _ => rfl) .empty
  rw [results_twins] at kept
  obtain ⟨r, -, found, p, data, path, content, -, migrated⟩ := kept twinA (by simp)
  have here : first [twinA, twinB] twinA.hash = some twinA := rfl
  obtain rfl := Option.some.inj (here.symm.trans found)
  have root : vfsPath twinA = .ok ⟨['/', 'a']⟩ := rfl
  obtain rfl := Except.ok.inj (root.symm.trans path)
  obtain rfl : [1] = data := Except.ok.inj content
  apply migrated
  intro g first_g _
  have inside := List.mem_of_find?_eq_some first_g
  simp only [List.mem_cons, List.not_mem_nil, or_false] at inside
  rcases inside with rfl | rfl
  · rfl
  · rfl

/-- The file is in place, or another source's different bytes at its path are an error. -/
def Kept (sha256 : Bytes → Text) (localTree nasTree : Dir) (report : MigrateReport) (w : World)
    (f : Hashed) : Prop :=
  ∃ p data, vfsPath f = .ok p ∧ f.source.content = .ok data ∧ (Migrated w p f data ∨
    (∃ g ∈ results sha256 localTree nasTree, vfsPath g = .ok p ∧
      g.source.content ≠ f.source.content) ∧ 0 < report.errors)

/-- A file whose content was crawled before, under another path, gets no row. -/
theorem migration_drops_twin :
    ¬∀ (localTree nasTree : Dir) (env : Nat → Choice) (w : World) (report : MigrateReport),
      localTree.Intact → nasTree.Intact → (∀ i, (env i).Faultless) →
      ((runMigration sampleSha256 localTree nasTree).exec perform env w).1 = .ok report →
      ∀ f ∈ results sampleSha256 localTree nasTree, Kept sampleSha256 localTree nasTree report
        ((runMigration sampleSha256 localTree nasTree).exec perform env w).2 f := by
  intro claimed
  obtain ⟨p, data, path, content, kept⟩ := claimed twins .done (fun _ => .quiet 0) .empty
    ⟨2, 2, 1, 1, 0⟩ twins_intact trivial (fun _ => rfl) rfl
    twinB (by simp [results_twins])
  have root : vfsPath twinB = .ok ⟨['/', 'b']⟩ := rfl
  obtain rfl := Except.ok.inj (root.symm.trans path)
  rcases kept with migrated | ⟨_, counted⟩
  · obtain ⟨x, row, -⟩ := migrated.row
    have missing : ((runMigration sampleSha256 twins .done).exec perform (fun _ => .quiet 0)
      .empty).2.store.rowState ⟨['/', 'b']⟩ = none := by decide
    rw [missing] at row
    contradiction
  · exact absurd counted (by decide)

end Migrate

end Fvfs
