import Fvfs.Requests
import Fvfs.TieredDisks

/-! Runs of everything the daemon does, one task after the other, through any number of
restarts, on whatever answers its steps. Over the two directories, with any call of the host
failing at any point, they are runs of the model in which a tier is a map. -/
namespace Fvfs

open Lib
open Lib.UnixPath (components)

/-- What the daemon's tasks run on. -/
structure Machine (W C : Type) where
  perform : Handler Sys W C
  answer : Handler Queries W C
  restart : W → W

namespace Machine

def model : Machine World Choice := ⟨Fvfs.perform, Fvfs.answer, World.restart⟩

def disks (roots : DiskRoots) : Machine DiskWorld DiskChoice :=
  ⟨performOnDisks roots, answerOnDisks, DiskWorld.restart⟩

def steps (m : Machine W C) : Handler (Sys.sum Queries) W C := m.perform.sum m.answer

/-- Whatever tasks of the discipline find on one machine they may find on the other. -/
structure Follows (m : Machine W C) (ok : C → Prop) (g : Machine V D) (files : FvfsPath → Prop)
    (R : W → V → Prop) : Prop where
  perform : Simulates m.perform ok g.perform (fun _ => True) (disciplined files) R
  answer : Simulates m.answer ok g.answer (fun _ => True) disciplinedQueries R
  restart : ∀ w v, R w v → R (m.restart w) (g.restart v)

end Machine

/-- What clients ask for, what the daemon does by itself, and restarts. -/
inductive Turn where
  | request (asked : Request)
  | mkdir (p : CanonPath)
  | cycle (ranking : Ranking) (t : Tier) (wm : TierWatermarks)
  | restart

namespace Turn

/-- A file is only written where clients may write one. -/
def Writes (files : FvfsPath → Prop) : Turn → Prop
  | request (.write p _) => files p
  | _ => True

def task (sha256 : Bytes → Text) : Turn → Option (EvictionTask.Task Unit)
  | request asked => some (asked.task sha256).inl
  | mkdir p => some (Router.mkdir p).inl
  | cycle ranking t wm => some (EvictionTask.runEvictionCycle ranking t wm)
  | restart => none

def run (m : Machine W C) (sha256 : Bytes → Text) (turn : Turn) (env : Nat → C) (w : W) :
    Outcome Unit × W :=
  match turn.task sha256 with
  | some task => task.exec m.steps env w
  | none => (.ok (), m.restart w)

/-- The outcomes, and what is left in the end. -/
def runs (m : Machine W C) (sha256 : Bytes → Text) :
    List (Turn × (Nat → C)) → W → List (Outcome Unit) × W
  | [], w => ([], w)
  | (turn, env) :: rest, w =>
    let (r, after) := turn.run m sha256 env w
    let (later, last) := runs m sha256 rest after
    (r :: later, last)

section Follows

variable {sha256 : Bytes → Text} {W C V D : Type} {m : Machine W C} {ok : C → Prop}
  {g : Machine V D} {files : FvfsPath → Prop} {R : W → V → Prop} {w : W} {v : V}

theorem heeds_request {asked : Request} (writes : (request asked).Writes files) :
    Heeds files (asked.task sha256) := by
  cases asked with
  | write p data => exact Router.heeds_write sha256 writes p.property data
  | read p => exact Heeds.bind (Router.heeds_read p.property) fun _ => trivial
  | delete order p => exact Router.heeds_delete order p.property
  | evict p t => exact Router.heeds_evictFromTier p.property t
  | flushPending => exact Router.heeds_flushPending
  | replayWal => exact Router.heeds_replayWal
  | promoteNext => exact Router.heeds_promoteNext

theorem heeds_task {turn : Turn} (writes : turn.Writes files) {task : EvictionTask.Task Unit}
    (runs : turn.task sha256 = some task) :
    task.meets ((disciplined files).sum disciplinedQueries) (fun _ _ => True) () := by
  cases turn with
  | request asked =>
    obtain rfl := Option.some.inj runs
    exact (Prog.meets_inl ..).mpr (heeds_request writes)
  | mkdir p =>
    obtain rfl := Option.some.inj runs
    exact (Prog.meets_inl ..).mpr (Router.heeds_mkdir p.property)
  | cycle ranking t wm =>
    obtain rfl := Option.some.inj runs
    exact EvictionTask.heeds_runEvictionCycle ranking t wm
  | restart => cases runs

/-- One turn on the first machine is the turn on the second under some choices. -/
theorem run_follows (follows : m.Follows ok g files R) (some_choice : Nonempty D) {turn : Turn}
    (writes : turn.Writes files) (related : R w v) (env : Nat → C) (permitted : ∀ i, ok (env i)) :
    ∃ env', (turn.run g sha256 env' v).1 = (turn.run m sha256 env w).1 ∧
      R (turn.run m sha256 env w).2 (turn.run g sha256 env' v).2 := by
  obtain ⟨some_choice⟩ := some_choice
  unfold run
  cases runs : turn.task sha256 with
  | none => exact ⟨fun _ => some_choice, rfl, follows.restart w v related⟩
  | some task =>
    obtain ⟨env', -, same, after⟩ := (follows.perform.sum follows.answer).exec
      ⟨some_choice, trivial⟩ related (heeds_task writes runs) env permitted
    exact ⟨env', same, after⟩

theorem runs_follows (sha256 : Bytes → Text) (follows : m.Follows ok g files R)
    (some_choice : Nonempty D) (history : List (Turn × (Nat → C)))
    (writes : ∀ turn ∈ history, turn.1.Writes files)
    (permitted : ∀ turn ∈ history, ∀ i, ok (turn.2 i)) (related : R w v) :
    ∃ history' : List (Turn × (Nat → D)), history'.map Prod.fst = history.map Prod.fst ∧
      (runs g sha256 history' v).1 = (runs m sha256 history w).1 ∧
      R (runs m sha256 history w).2 (runs g sha256 history' v).2 := by
  induction history generalizing w v with
  | nil => exact ⟨[], rfl, rfl, related⟩
  | cons turn rest ih =>
    obtain ⟨turn, env⟩ := turn
    simp only [List.mem_cons, forall_eq_or_imp] at writes permitted
    obtain ⟨env', same, after⟩ := run_follows follows some_choice writes.1 related env permitted.1
    obtain ⟨rest', turns, later, last⟩ := ih writes.2 permitted.2 after
    refine ⟨(turn, env') :: rest', by simp [turns], ?_, last⟩
    simp only [runs]
    rw [same, later]

end Follows

end Turn

/-- Nothing is below the two directories, and no file is in the way to them. -/
structure DiskRoots.Blank (roots : DiskRoots) (host : Host.Tree) : Prop where
  clear : ∀ t root, roots.of t = some root → ¬host.Blocked (components root)
  below : ∀ t root name place, roots.of t = some root →
    host.entry (components root ++ name :: place) = none

section Blank

variable {roots : DiskRoots} {files : FvfsPath → Prop} {host : Host.Tree}

/-- Empty disks hold nothing. -/
theorem DiskRoots.Blank.world (blank : roots.Blank host) :
    (⟨host, .empty⟩ : DiskWorld).world roots = .empty := by
  have nothing (t : Tier) (p : FvfsPath) :
      ((⟨host, .empty⟩ : DiskWorld).world roots).tiers t p = none := by
    cases at_t : roots.of t with
    | none => exact world_tiers_elsewhere at_t
    | some root =>
      by_cases canonical : p.Canonical
      · rw [world_tiers at_t canonical,
          LocalDiskBackend.components_fsPath_canonical root canonical]
        by_contra used
        obtain ⟨data, file⟩ := Option.ne_none_iff_exists'.mp used
        cases split : p.segments with
        | nil =>
          rw [split, List.map_nil, List.append_nil] at file
          exact blank.clear t root at_t ⟨_, List.prefix_rfl, by simp [file]⟩
        | cons part parts =>
          rw [split, List.map_cons] at file
          have empty := blank.below t root (.normal part) (parts.map .normal) at_t
          simp [DirTree.content, empty] at file
      · simp [DiskWorld.world, at_t, canonical]
  exact congrArg (fun tiers => (⟨tiers, .empty, []⟩ : World)) (funext fun t => funext (nothing t))

theorem DiskRoots.Blank.backs (blank : roots.Blank host) :
    Backs roots files ⟨host, .empty⟩ .empty := ⟨blank.world.symm, tame_empty⟩

theorem DiskRoots.Blank.laid (blank : roots.Blank host) (names : FileNames files) :
    Laid roots files host := by
  refine ⟨blank.clear, fun t root p at_t owned dir => ?_⟩
  rw [LocalDiskBackend.components_fsPath_canonical root (names.canonical p owned)] at dir
  obtain ⟨part, parts, split⟩ := List.exists_cons_of_ne_nil (names.segments owned)
  rw [split, List.map_cons, blank.below t root _ _ at_t] at dir
  cases dir

theorem blank_empty (roots : DiskRoots) : roots.Blank DirTree.empty :=
  ⟨fun _ _ _ ⟨_, _, file⟩ => absurd file (by simp [DirTree.content, DirTree.empty]),
    fun _ _ _ _ _ => rfl⟩

end Blank

namespace Turn

theorem disks_follow (roots : DiskRoots) :
    (Machine.disks roots).Follows (fun _ => True) .model FvfsPath.Canonical
      (Backs roots FvfsPath.Canonical) where
  perform := disks_simulate fun _ canonical => canonical
  answer := answers_simulate
  restart := by
    rintro d _ ⟨rfl, tame⟩
    exact ⟨rfl, tame.restart⟩

theorem writes_canonical (turn : Turn) : turn.Writes FvfsPath.Canonical := by
  cases turn with
  | request asked =>
    cases asked with
    | write p data => exact p.property
    | _ => trivial
  | _ => trivial

/-- Whatever fails on the host and in the middle of which call: every history over the two
directories is a history of the model, with the same outcomes and the same files in the end,
and what is then read from the disks may be read in the model. -/
theorem disk_runs (roots : DiskRoots) (sha256 : Bytes → Text) {host : Host.Tree}
    (blank : roots.Blank host) (history : List (Turn × (Nat → DiskChoice))) :
    ∃ history' : List (Turn × (Nat → Choice)), history'.map Prod.fst = history.map Prod.fst ∧
      let disks := runs (.disks roots) sha256 history ⟨host, .empty⟩
      let model := runs .model sha256 history' .empty
      model.1 = disks.1 ∧ model.2 = disks.2.world roots ∧
        ∀ (p : CanonPath) env, ∃ env', ((Router.read p).exec perform env' model.2).1 =
          ((Router.read p).exec (performOnDisks roots) env disks.2).1 := by
  obtain ⟨history', turns, outcomes, last⟩ := runs_follows sha256 (disks_follow roots) ⟨.quiet 0⟩
    history (fun turn _ => turn.1.writes_canonical) (fun _ _ _ => trivial) blank.backs
  refine ⟨history', turns, outcomes, last.1, fun p env => ?_⟩
  obtain ⟨env', -, same, -⟩ := (disks_follow roots).perform.exec ⟨.quiet 0, trivial⟩ last
    (Router.heeds_read p.property) env fun _ => trivial
  exact ⟨env', same⟩

def sampleRoots : DiskRoots := ⟨"/srv/fvfs".toList, "/mnt/nas".toList, by decide, by decide⟩

/-- The disk is full when the bytes of the second file are written. -/
def fullDisk : List (Turn × (Nat → DiskChoice)) :=
  [(.request (.write TreeOp.sampleEntry [1]), fun _ => ⟨.quiet 0, fun _ => ⟨none, 0⟩⟩),
    (.request (.write TreeOp.sampleEntry [2, 3]), fun _ => ⟨.quiet 1, fun i =>
      ⟨if i = 2 then some (.other "No space left on device".toList) else none, 1⟩⟩)]

theorem disk_runs_fullDisk :
    ∃ history' : List (Turn × (Nat → Choice)), history'.map Prod.fst = fullDisk.map Prod.fst ∧
      let disks := runs (.disks sampleRoots) Router.sampleSha256 fullDisk ⟨DirTree.empty, .empty⟩
      let model := runs .model Router.sampleSha256 history' .empty
      model.1 = disks.1 ∧ model.2 = disks.2.world sampleRoots ∧
        ∀ (p : CanonPath) env, ∃ env', ((Router.read p).exec perform env' model.2).1 =
          ((Router.read p).exec (performOnDisks sampleRoots) env disks.2).1 :=
  disk_runs sampleRoots _ (blank_empty _) fullDisk

end Turn

end Fvfs
