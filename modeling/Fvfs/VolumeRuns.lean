import Fvfs.Listing
import Fvfs.Namespace
import Fvfs.Turns
import Fvfs.Volume

/-! Runs of everything the daemon does over its two directories, against the volume the disks
show. -/
namespace Fvfs

open Lib

namespace EvictionTask

/-- No query fails. -/
def calmAnswer : Handler Queries World Choice := fun op c w => answer op { c with fault := none } w

/-- The precondition of a task in which no query and no step fails that can be done. -/
abbrev QuietTask (task : Task α) (post : Outcome α → World → Prop) (w : World) : Prop :=
  task.wp (calm.sum calmAnswer) (fun _ => True) post w

theorem calmAnswer_faultless {c : Choice} (faultless : c.Faultless) (op : Query) (w : World) :
    calmAnswer op c w = answer op c w := by
  obtain ⟨clock, fault, torn⟩ := c
  obtain rfl : fault = none := faultless
  rfl

section Quiet

variable {files : FvfsPath → Option Bytes} {inv : World → Prop} {w : World} {t : Tier}

@[simp] theorem quiet_bytesOnTier (post) :
    QuietTask (bytesOnTier t) post w ↔ post (.ok (w.store.bytesOnTier t)) w := by
  constructor
  · exact fun valid => valid (.quiet 0) trivial
  · exact fun holds _ _ => holds

@[simp] theorem quiet_filesOnTier (post) :
    QuietTask (filesOnTier t) post w ↔ post (.ok (w.store.filesOnTier t)) w := by
  constructor
  · exact fun valid => valid (.quiet 0) trivial
  · exact fun holds _ _ => holds

theorem quiet_evictFiles (keeps : Router.Background files inv) (holds : inv w) (targetFree : Nat)
    (freed : Nat) (candidates : List FileMetadata) :
    Quiet (evictFiles t targetFree freed candidates) (fun _ w' => inv w') w := by
  induction candidates generalizing w freed with
  | nil => exact holds
  | cons file rest ih =>
    unfold evictFiles
    split
    · exact holds
    · split
      · exact ih holds freed
      · refine Prog.wp_try (Router.quiet_evictFromTier keeps holds file.path t) fun r w' holds' => ?_
        cases r with
        | ok => exact ih holds' _
        | error e => exact ih holds' _

theorem quiet_runEvictionCycle (keeps : Router.Background files inv) (holds : inv w)
    (ranking : Ranking) (wm : TierWatermarks) :
    QuietTask (runEvictionCycle ranking t wm) (fun _ w' => inv w') w := by
  simp only [runEvictionCycle, Prog.wp_bind, Prog.wp_attempt, quiet_bytesOnTier]
  split
  · exact holds
  · simp only [Prog.wp_bind, Prog.wp_attempt, quiet_filesOnTier, Prog.wp_inl]
    refine Prog.wp_mono (quiet_evictFiles keeps holds _ _ _) fun r w' holds' => ?_
    cases r with
    | ok => exact holds'
    | error e => exact holds'

end Quiet

end EvictionTask

/-- The model in which no step fails that can be done. -/
def Machine.calm : Machine World Choice :=
  ⟨Fvfs.calm, EvictionTask.calmAnswer, World.restart⟩

namespace Turn

def effect : Turn → Volume → Volume
  | request (.write p data), v => v.write p data
  | request (.delete _ p), v => v.remove p
  | request _, v => v
  | mkdir p, v => v.mkdir p
  | cycle _ _ _, v => v
  | restart, v => v

/-- A directory is not made in the place of a file. -/
def Fits : Turn → Volume → Prop
  | mkdir p, v => ∀ data, v p ≠ some (.file data)
  | _, _ => True

def volume : List (Turn × (Nat → C)) → Volume → Volume
  | [], v => v
  | (turn, _) :: rest, v => volume rest (turn.effect v)

def Orderly : List (Turn × (Nat → C)) → Volume → Prop
  | [], _ => True
  | (turn, _) :: rest, v => turn.Fits v ∧ Orderly rest (turn.effect v)

section Model

variable {sha256 : Bytes → Text} {w : World} {v : Volume}

theorem request_models (models : Models sha256 w v) (asked : Request) :
    Quiet (asked.task sha256) (fun _ w' => Models sha256 w' ((request asked).effect v)) w := by
  have keeps : Router.Background v.files (Models sha256 · v) := Router.models_background
  cases asked with
  | write p data =>
    exact Prog.wp_mono (Router.quiet_write_models models p.property data) fun _ _ done => done.2
  | read p =>
    refine Prog.wp_seq (Router.quiet_read_models models p) ?_ ?_
    · exact fun _ _ same => models.of_view same.2
    · exact fun _ _ same => models.of_view same.2
  | delete order p =>
    exact Prog.wp_mono (Router.quiet_delete_models models order p) fun _ _ done => done.2
  | evict p t => exact Router.quiet_evictFromTier keeps models p t
  | flushPending => exact Router.quiet_flushPending keeps models
  | replayWal => exact Router.quiet_replayWal keeps models
  | promoteNext => exact Router.quiet_promoteNext keeps models

/-- One turn does to the world what it does to the volume. -/
theorem run_models (models : Models sha256 w v) {turn : Turn} (fits : turn.Fits v)
    (env : Nat → Choice) : Models sha256 (turn.run .calm sha256 env w).2 (turn.effect v) := by
  have alone {task : Async Unit} (quiet : Quiet task (fun _ w' => Models sha256 w' (turn.effect v)) w) :
      Models sha256 (task.inl.exec Machine.calm.steps env w).2 (turn.effect v) :=
    Prog.exec_of_wp ((Prog.wp_inl ..).mpr quiet) env fun _ => trivial
  cases turn with
  | request asked => exact alone (request_models models asked)
  | mkdir p =>
    have made := Router.quiet_mkdir_models models p.property fits
    exact alone (Prog.wp_mono made fun _ _ done => done.2)
  | cycle ranking t wm =>
    exact Prog.exec_of_wp (EvictionTask.quiet_runEvictionCycle Router.models_background models
      ranking wm) env fun _ => trivial
  | restart => exact models.of_view rfl

end Model

end Turn

/-- The two directories and the rest of the world show a volume. -/
def Shown (sha256 : Bytes → Text) (roots : DiskRoots) (files : FvfsPath → Prop) (d : DiskWorld)
    (v : Volume) : Prop :=
  ∃ w, Hosts roots files d w ∧ Models sha256 w v

section Shown

variable {sha256 : Bytes → Text} {roots : DiskRoots} {files : FvfsPath → Prop} {d : DiskWorld}
  {v : Volume}

theorem calm_follows (names : FileNames files) :
    (Machine.disks roots).Follows DiskChoice.Reliable .calm files (Hosts roots files) where
  perform := disks_simulate_calm names
  answer := by
    rintro op c d w reliable ⟨backs, laid⟩ asks
    obtain ⟨rfl, tame⟩ := backs
    obtain ⟨⟨⟩, told, kept⟩ := answer_disciplined op c.step _ () trivial tame asks
    have run := (EvictionTask.calmAnswer_faultless reliable.1 op (d.world roots)).trans
      (@answer_world roots d op c)
    have same : (EvictionTask.calmAnswer op c.step (d.world roots)).1 = (answerOnDisks op c d).1 := by
      rw [run]
    have after : (EvictionTask.calmAnswer op c.step (d.world roots)).2 =
        (answerOnDisks op c d).2.world roots := by rw [run]
    rw [answer_world] at told kept
    exact ⟨c.step, trivial, same, told, ⟨after, by rwa [← after] at kept⟩, laid⟩
  restart := by
    rintro d _ ⟨⟨rfl, tame⟩, laid⟩
    exact ⟨⟨rfl, tame.restart⟩, laid⟩

/-- What a task does to every world that shows the volume it does on the disks. -/
theorem Shown.exec (names : FileNames files) (shown : Shown sha256 roots files d v)
    {task : Async α} (heeds : Heeds files task) (post : Outcome α → Prop) (v' : Volume)
    (quiet : ∀ w, Models sha256 w v → Quiet task (fun r w' => post r ∧ Models sha256 w' v') w)
    {env : Nat → DiskChoice} (reliable : ∀ i, (env i).Reliable) :
    post (task.exec (performOnDisks roots) env d).1 ∧
      Shown sha256 roots files (task.exec (performOnDisks roots) env d).2 v' := by
  obtain ⟨w, hosts, models⟩ := shown
  obtain ⟨w', hosts', done, models'⟩ := Prog.exec_of_wp
    ((disks_simulate_calm names).wp hosts heeds (quiet w models)) env reliable
  exact ⟨done, w', hosts', models'⟩

theorem Turn.runs_shown (names : FileNames files) (shown : Shown sha256 roots files d v)
    {history : List (Turn × (Nat → DiskChoice))} (writes : ∀ turn ∈ history, turn.1.Writes files)
    (reliable : ∀ turn ∈ history, ∀ i, (turn.2 i).Reliable) (orderly : Orderly history v) :
    Shown sha256 roots files (runs (.disks roots) sha256 history d).2 (volume history v) := by
  induction history generalizing d v with
  | nil => exact shown
  | cons turn rest ih =>
    obtain ⟨w, hosts, models⟩ := shown
    simp only [List.mem_cons, forall_eq_or_imp] at writes reliable
    obtain ⟨env', -, hosts'⟩ := run_follows (calm_follows names) ⟨.quiet 0⟩ writes.1 hosts turn.2
      reliable.1
    exact ih ⟨_, hosts', run_models models orderly.1 env'⟩ writes.2 reliable.2 orderly.2

end Shown

def Item.kind : Item → EntryKind
  | directory => .directory
  | file _ => .file

/-- Every entry is of the volume and there once, and every child of the directory is among them. -/
structure Volume.Lists (v : Volume) (d : FvfsPath) (entries : List FileEntry) : Prop where
  listed : ∀ e ∈ entries, ∃ item, v e.path = some item ∧ e.kind = item.kind ∧
    e.sizeBytes = item.size
  once : (entries.map FileEntry.path).Nodup
  children : ∀ p, p.parent = some d → v p ≠ none → ∃ e ∈ entries, e.path = p

/-- Reads, stats and listings answer from the volume: a read the content or why there is
none, a stat the kind, size and hash, a listing what is there. -/
structure Answers (sha256 : Bytes → Text) (roots : DiskRoots) (d : DiskWorld) (v : Volume) :
    Prop where
  read : ∀ (p : CanonPath) (env : Nat → DiskChoice), (∀ i, (env i).Reliable) →
    ((Router.read p).exec (performOnDisks roots) env d).1 = v.read p
  stat : ∀ (p : CanonPath) (env : Nat → DiskChoice), (∀ i, (env i).Reliable) →
    Router.Describes sha256 p ((Router.stat p).exec (performOnDisks roots) env d).1 (v p)
  lists : ∀ dir, v.Lists dir (d.rest.list dir)

section Answers

variable {sha256 : Bytes → Text} {w : World} {v : Volume} {roots : DiskRoots}
  {files : FvfsPath → Prop} {d : DiskWorld}

theorem Models.listed (models : Models sha256 w v) {d : FvfsPath} {e : FileEntry}
    (member : e ∈ w.list d) :
    ∃ item, v e.path = some item ∧ e.kind = item.kind ∧ e.sizeBytes = item.size := by
  obtain ⟨m, inside, rfl⟩ := List.mem_map.mp member
  obtain ⟨i, r, at_id, -, rfl⟩ := Store.mem_listDir.mp inside
  have row : w.store.rowState ⟨r.path⟩ = some (Store.stateOf (i, r)) :=
    Store.rowState_eq_some_iff.mpr ⟨i, r, at_id, rfl, rfl⟩
  obtain ⟨item, here, tells⟩ := models.item_of_row row
  have path : (Store.rowToMetadata i r).path = ⟨r.path⟩ :=
    Store.rowToMetadata_path (models.canonical _ _ row) rfl
  refine ⟨item, (congrArg v path).trans here, ?_, tells.size⟩
  have kind : r.isDir = item.isDir := tells.kind
  cases item <;> simpa [FileEntry.ofMetadata, Store.rowToMetadata, Item.kind, Item.isDir] using kind

theorem Models.children (models : Models sha256 w v) {p d : FvfsPath} (up : p.parent = some d)
    (used : v p ≠ none) : ∃ e ∈ w.list d, e.path = p := by
  rw [Ne, models.absent_iff] at used
  obtain ⟨x, row⟩ := Option.ne_none_iff_exists'.mp used
  have canonical := models.canonical p x row
  obtain ⟨i, r, at_id, path, -⟩ := Store.rowState_eq_some_iff.mp row
  have listed : Store.likeListed d r.path = true := by
    rw [path, Store.likeListed_canonical (FvfsPath.parent_canonical canonical up) canonical]
    exact Or.inr ⟨d, up, rfl⟩
  refine ⟨_, List.mem_map.mpr ⟨_, Store.mem_listDir.mpr ⟨i, r, at_id, listed, rfl⟩, rfl⟩, ?_⟩
  exact (Store.rowToMetadata_path canonical path : (Store.rowToMetadata i r).path = p)

theorem Models.lists (models : Models sha256 w v) (d : FvfsPath) : v.Lists d (w.list d) where
  listed _ member := models.listed member
  once := World.list_paths_nodup models.canonical d
  children _ up used := models.children up used

theorem heeds_stat (p : FvfsPath) : Heeds files (Router.stat p) := Router.heeds_requireMetadata p

theorem Shown.answers (names : FileNames files) (shown : Shown sha256 roots files d v) :
    Answers sha256 roots d v where
  read p env reliable := by
    refine (shown.exec names (Router.heeds_read p.property) (fun r => r = v.read p) v
      (fun w models => ?_) reliable).1
    exact Prog.wp_mono (Router.quiet_read_models models p) fun _ _ answer =>
      ⟨answer.1, models.of_view answer.2⟩
  stat p env reliable := by
    refine (shown.exec names (heeds_stat p) (fun r => Router.Describes sha256 p r (v p)) v
      (fun w models => ?_) reliable).1
    exact Prog.wp_mono (Router.quiet_stat_models models p) fun _ _ answer =>
      ⟨answer.1, answer.2 ▸ models⟩
  lists dir := by
    obtain ⟨_, ⟨⟨rfl, -⟩, -⟩, models⟩ := shown
    exact models.lists dir

end Answers

theorem DiskRoots.Blank.shown {sha256 : Bytes → Text} {roots : DiskRoots} {files : FvfsPath → Prop}
    {host : Host.Tree} (blank : roots.Blank host) (names : FileNames files) :
    Shown sha256 roots files ⟨host, .empty⟩ .empty :=
  ⟨_, ⟨blank.backs, blank.laid names⟩, models_empty⟩

namespace Turn

/-- Where clients write at names for files, and make no directory over one: after any history
in which nothing fails the daemon answers from its two directories as the volume does. -/
theorem answers_runs (roots : DiskRoots) (sha256 : Bytes → Text) {host : Host.Tree}
    (blank : roots.Blank host) {files : FvfsPath → Prop} (names : FileNames files)
    (history : List (Turn × (Nat → DiskChoice)))
    (writes : ∀ turn ∈ history, turn.1.Writes files) (orderly : Orderly history .empty)
    (reliable : ∀ turn ∈ history, ∀ i, (turn.2 i).Reliable) :
    Answers sha256 roots (runs (.disks roots) sha256 history ⟨host, .empty⟩).2
      (volume history .empty) :=
  (runs_shown names (blank.shown names) writes reliable orderly).answers names

def sampleHistory : List (Turn × (Nat → DiskChoice)) :=
  [(.mkdir TreeOp.sampleDir, fun _ => .quiet 0),
    (.request (.write TreeOp.sampleEntry [1]), fun _ => .quiet 1),
    (.request .flushPending, fun _ => .quiet 2), (.restart, fun _ => .quiet 0),
    (.cycle ⟨id, fun files => .refl files⟩ .localDisk ⟨0, 0⟩, fun _ => .quiet 3),
    (.request (.read TreeOp.sampleEntry), fun _ => .quiet 4),
    (.request .promoteNext, fun _ => .quiet 5)]

theorem sampleHistory_orderly : Orderly sampleHistory .empty := by
  simp [sampleHistory, Orderly, Fits, Volume.empty]

theorem sampleHistory_reliable : ∀ turn ∈ sampleHistory, ∀ i, (turn.2 i).Reliable := by
  simp [sampleHistory, DiskChoice.reliable_quiet]

/-- The one file the sample writes. -/
def sampleFiles (p : FvfsPath) : Prop := p = TreeOp.sampleEntry.val

theorem sampleFiles_names : FileNames sampleFiles where
  canonical _ owned := owned ▸ TreeOp.sampleEntry.property
  proper _ owned := owned ▸ by decide
  apart _ _ owned also _ := owned.trans also.symm

theorem sampleHistory_writes : ∀ turn ∈ sampleHistory, turn.1.Writes sampleFiles := by
  simp [sampleHistory, Writes, sampleFiles]

theorem answers_sampleHistory :
    Answers Router.sampleSha256 sampleRoots
      (runs (.disks sampleRoots) Router.sampleSha256 sampleHistory ⟨DirTree.empty, .empty⟩).2
      (volume sampleHistory .empty) :=
  answers_runs _ _ (blank_empty _) sampleFiles_names _ sampleHistory_writes sampleHistory_orderly
    sampleHistory_reliable

end Turn

end Fvfs
