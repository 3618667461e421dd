import Fvfs.Lib.Hierarchy
import Fvfs.Requests

/-! What the daemon is for: a volume of directories and files. A world shows a volume where
every row tells what its path holds, the length and the hash of a content included. -/
namespace Fvfs

open Lib
open Function (update)

inductive Item where
  | directory
  | file (data : Bytes)
  deriving DecidableEq

abbrev Volume := FvfsPath → Option Item

namespace Volume

def empty : Volume := fun _ => none

def files (v : Volume) (p : FvfsPath) : Option Bytes :=
  match v p with
  | some (.file data) => some data
  | _ => none

def read (v : Volume) (p : FvfsPath) : Outcome Bytes :=
  match v p with
  | none => .error (.notFound p.text)
  | some .directory => .error (.isADirectory p.text)
  | some (.file data) => .ok data

/-- Every unused path of the list becomes a directory. -/
def fill (v : Volume) (paths : List FvfsPath) : Volume :=
  fun q => if q ∈ paths ∧ v q = none then some .directory else v q

def write (v : Volume) (p : FvfsPath) (data : Bytes) : Volume :=
  fill (update v p (some (.file data))) p.ancestors

def mkdir (v : Volume) (p : FvfsPath) : Volume := fill (update v p (some .directory)) p.ancestors

def remove (v : Volume) (p : FvfsPath) : Volume := update v p none

theorem fill_nil (v : Volume) : v.fill [] = v := by
  funext q
  simp [fill]

theorem fill_cons (v : Volume) (q : FvfsPath) (paths : List FvfsPath) :
    v.fill (q :: paths) =
      fill (if v q = none then update v q (some .directory) else v) paths := by
  funext r
  by_cases unused : v q = none
  · by_cases same : r = q
    · subst same
      simp [fill, unused]
    · simp [fill, unused, same]
  · by_cases same : r = q
    · subst same
      simp [fill, unused]
    · simp [fill, unused, same]

theorem files_eq_some_iff {v : Volume} {p : FvfsPath} {data : Bytes} :
    v.files p = some data ↔ v p = some (.file data) := by
  unfold files
  split
  next found here => simp [here]
  next other => simp only [reduceCtorEq, false_iff]; exact other data

end Volume

namespace Item

def isDir : Item → Bool
  | directory => true
  | file _ => false

def size : Item → Nat
  | directory => 0
  | file data => data.length

def hash (sha256 : Bytes → Text) : Item → Text
  | directory => []
  | file data => sha256 data

end Item

/-- What a row tells of the item at its path. -/
structure Tells (sha256 : Bytes → Text) (x : Store.RowState) (item : Item) : Prop where
  kind : x.isDir = item.isDir
  size : x.sizeBytes = item.size
  hash : x.sha256 = item.hash sha256

/-- A path's row and copies, and what the path holds. -/
inductive Shows (sha256 : Bytes → Text) (view : View) : Option Item → Prop
  | absent (row : view.row = none) (clean : view.object .localDisk = none) : Shows sha256 view none
  | directory (row : view.row = some x) (tells : Tells sha256 x .directory)
      (clean : view.object .localDisk = none) : Shows sha256 view (some .directory)
  | file (row : view.row = some x) (tells : Tells sha256 x (.file data))
      (copies : Copies x.tierBitmask view.object data) : Shows sha256 view (some (.file data))

structure Models (sha256 : Bytes → Text) (w : World) (v : Volume) : Prop where
  canonical : ∀ p x, w.store.rowState p = some x → p.Canonical
  shows : ∀ p, Shows sha256 (w.view p) (v p)

section Models

variable {sha256 : Bytes → Text} {w w' : World} {v : Volume} {p : FvfsPath} {view : View}
  {item : Option Item}

theorem Models.refines (models : Models sha256 w v) : Refines w v.files := by
  refine ⟨models.canonical, fun p => ?_⟩
  have shows := models.shows p
  revert shows
  unfold Volume.files
  generalize v p = item
  intro shows
  cases shows with
  | absent row clean => exact .absent row clean
  | directory row tells clean => exact .directory row tells.kind clean
  | file row tells copies => exact .file row tells.kind copies

theorem Models.of_view (models : Models sha256 w v) (same : w'.view = w.view) :
    Models sha256 w' v := by
  refine ⟨(models.refines.of_view same).canonical, ?_⟩
  rw [same]
  exact models.shows

theorem Models.of_update (models : Models sha256 w v) (changed : w'.view = update w.view p view)
    (canonical : view.row.isSome → p.Canonical) (shows : Shows sha256 view item) :
    Models sha256 w' (update v p item) := by
  constructor
  · intro q x row
    have row' : (w'.view q).row = some x := row
    rw [changed] at row'
    by_cases here : q = p
    · subst here
      exact canonical (by simpa using congrArg Option.isSome row')
    · rw [Function.update_of_ne here] at row'
      exact models.canonical q x row'
  · intro q
    rw [changed]
    by_cases here : q = p
    · subst here
      simpa using shows
    · simpa [here] using models.shows q

theorem Models.of_update_same (models : Models sha256 w v)
    (changed : w'.view = update w.view p view) (canonical : view.row.isSome → p.Canonical)
    (shows : Shows sha256 view (v p)) : Models sha256 w' v := by
  have := models.of_update changed canonical shows
  rwa [Function.update_eq_self] at this

/-- What a row's path holds. -/
theorem Models.item_of_row {x : Store.RowState} (models : Models sha256 w v)
    (row : w.store.rowState p = some x) : ∃ item, v p = some item ∧ Tells sha256 x item := by
  have shows := models.shows p
  revert shows
  generalize v p = item
  intro shows
  cases shows with
  | absent missing => simp [row] at missing
  | directory there tells =>
    obtain rfl := Option.some.inj (row.symm.trans there)
    exact ⟨_, rfl, tells⟩
  | file there tells =>
    obtain rfl := Option.some.inj (row.symm.trans there)
    exact ⟨_, rfl, tells⟩

theorem Models.clean {data : Bytes} (models : Models sha256 w v)
    (there : w.tiers .localDisk p = some data) : v p = some (.file data) :=
  Volume.files_eq_some_iff.mp ((models.refines.represents p).local_content there)

/-- The local disk holds nothing where no file is. -/
theorem Models.clean_of_no_file (models : Models sha256 w v)
    (plain : ∀ data, v p ≠ some (.file data)) :
    w.tiers .localDisk p = none :=
  Option.eq_none_iff_forall_ne_some.mpr fun data there => plain data (models.clean there)

theorem Models.absent_iff (models : Models sha256 w v) :
    v p = none ↔ w.store.rowState p = none := by
  constructor
  · intro nothing
    by_contra present
    obtain ⟨x, row⟩ := Option.ne_none_iff_exists'.mp present
    obtain ⟨item, here, -⟩ := models.item_of_row row
    simp [nothing] at here
  · intro missing
    have shows := models.shows p
    revert shows
    generalize v p = item
    intro shows
    cases shows with
    | absent => rfl
    | directory there => simp [missing] at there
    | file there => simp [missing] at there

theorem models_empty : Models sha256 .empty .empty :=
  ⟨nofun, fun _ => .absent rfl rfl⟩

end Models

namespace Router

section Background

variable {sha256 : Bytes → Text} {w : World} {v : Volume} {p : FvfsPath} {x : Store.RowState}

theorem models_addCopy {data : Bytes} (models : Models sha256 w v)
    (row : w.store.rowState p = some x) (current : v.files p = some data) (t : Tier) :
    Models sha256 ((w.setObject t p (some data)).withStore
      (w.store.setTierBitmask x.id (x.tierBitmask.set t))) v := by
  apply models.of_update_same (view_setCopy row t _ _) fun _ => models.canonical _ _ row
  rw [Volume.files_eq_some_iff] at current
  have shows := models.shows p
  rw [current] at shows ⊢
  cases shows with
  | file there tells copies =>
    obtain rfl := Option.some.inj (row.symm.trans there)
    exact .file rfl ⟨tells.kind, tells.size, tells.hash⟩ (copies.add t)

theorem models_dropCopy {t : Tier} (models : Models sha256 w v)
    (row : w.store.rowState p = some x) (backed : x.tierBitmask.has .s3 = true)
    (warmer : t ≠ .s3) :
    Models sha256 ((w.setObject t p none).withStore
      (w.store.setTierBitmask x.id (x.tierBitmask.clear t))) v := by
  apply models.of_update_same (view_setCopy row t _ _) fun _ => models.canonical _ _ row
  have shows := models.shows p
  revert shows
  generalize v p = item
  intro shows
  cases shows with
  | absent there => simp [row] at there
  | directory there tells clean =>
    obtain rfl := Option.some.inj (row.symm.trans there)
    refine .directory rfl ⟨tells.kind, tells.size, tells.hash⟩ ?_
    by_cases hot : Tier.localDisk = t
    · simp [hot]
    · simpa [hot] using clean
  | file there tells copies =>
    obtain rfl := Option.some.inj (row.symm.trans there)
    exact .file rfl ⟨tells.kind, tells.size, tells.hash⟩ (copies.drop backed warmer.symm)

theorem models_background : Background v.files (Models sha256 · v) where
  refines := Models.refines
  of_view := Models.of_view
  add := fun models row current t => models_addCopy models row current t
  drop := fun models row backed warmer => models_dropCopy models row backed warmer

end Background

/-- `TierRouter::stat`. -/
def stat (p : FvfsPath) : Async FileMetadata := requireMetadata p

variable {sha256 : Bytes → Text} {w : World} {v : Volume} {p : FvfsPath}

theorem models_insertDirectory (models : Models sha256 w v) (canonical : p.Canonical) (now : Int)
    (clean : w.tiers .localDisk p = none) :
    Models sha256 (w.withStore (w.store.upsert (.newDir now p)).2)
      (update v p (some .directory)) :=
  models.of_update (view_upsert _) (fun _ => canonical) (.directory rfl ⟨rfl, rfl, rfl⟩ clean)

theorem quiet_ensureParentDirs (models : Models sha256 w v) (canonical : p.Canonical) :
    Quiet (ensureParentDirs p) (fun r w' => r = .ok () ∧
      Models sha256 w' (v.fill p.ancestors)) w := by
  refine quiet_of_sure (ensureParentDirs_sure p) ?_
  -- The volume shown already, and the directories still to be made in it.
  refine Prog.wp_mono (wp_ensureParents (fun rest u => (∀ q ∈ rest, q.Canonical) ∧
    ∃ shown, Models sha256 u shown ∧ shown.fill rest = v.fill p.ancestors) ?_
    ⟨fun q above => FvfsPath.ancestor_canonical canonical above, v, models, rfl⟩) ?_
  · rintro q rest u _ ⟨above, shown, models, filled⟩ (@⟨m, there⟩ | ⟨now, absent⟩)
    · have used : shown q ≠ none := by
        rw [Ne, models.absent_iff, Store.rowState_of_get there]
        exact Option.some_ne_none _
      rw [Volume.fill_cons, if_neg used] at filled
      exact ⟨fun r later => above r (List.mem_cons_of_mem _ later), shown, models, filled⟩
    · have unused : shown q = none := models.absent_iff.mpr (Store.get_eq_none_iff.mp absent)
      rw [Volume.fill_cons, if_pos unused] at filled
      refine ⟨fun r later => above r (List.mem_cons_of_mem _ later), _, ?_, filled⟩
      exact models_insertDirectory models (above q List.mem_cons_self) now
        (models.clean_of_no_file fun _ => by simp [unused])
  · rintro r u ⟨rest, ⟨-, shown, models, filled⟩, all, returns⟩
    have ok := returns fun _ faultless => faultless
    obtain rfl := all ok
    rw [Volume.fill_nil] at filled
    exact ⟨ok, filled ▸ models⟩

theorem models_written (models : Models sha256 w v) (canonical : p.Canonical) (data : Bytes)
    (clock : Int) :
    Models sha256 ((w.setObject .localDisk p (some data)).withStore
      (w.store.upsert (writtenMetadata sha256 p data clock)).2)
      (update v p (some (.file data))) := by
  refine models.of_update (view_setUpsert _ _ _) (fun _ => canonical) (.file rfl ⟨rfl, rfl, rfl⟩ ?_)
  refine ⟨⟨.localDisk, by simp [Store.metadataState]⟩, fun t bit => ?_, ?_⟩
  · obtain rfl : t = .localDisk := by simpa [Store.metadataState] using bit
    simp
  · simp [Store.metadataState]

/-- Queued or not, the work shows nowhere; it is refused by the table alone. -/
theorem quiet_walEnqueue (fileId : Nat) (op : WalOp) :
    Quiet (Async.walEnqueue fileId op)
      (fun r w' => (∀ e, r = .error e → ∃ source, e = .metadata source) ∧ w'.view = w.view) w := by
  refine (quiet_call rfl).mpr fun clock torn => ?_
  simp only [perform, enqueueEntry]
  cases enqueued : w.store.walEnqueue fileId op clock with
  | error e =>
    refine ⟨fun _ same => ?_, rfl⟩
    obtain rfl := Except.error.inj same
    unfold Store.walEnqueue at enqueued
    split at enqueued
    · contradiction
    · exact ⟨_, (Except.error.inj enqueued).symm⟩
  | ok answer =>
    obtain ⟨id, s⟩ := answer
    simp only [statement]
    exact ⟨fun _ absurd => (by cases absurd), view_withStore fun _ => Store.rowState_walEnqueue enqueued⟩

theorem quiet_enqueueReplication (fileId : Nat) :
    Quiet (enqueueReplication fileId)
      (fun r w' => (∀ e, r = .error e → ∃ source, e = .metadata source) ∧ w'.view = w.view) w := by
  refine Prog.wp_seq (quiet_walEnqueue fileId .replicateNas) ?_ ?_
  · rintro id w' ⟨-, same⟩
    refine Prog.wp_seq (quiet_walEnqueue fileId .uploadS3) ?_ ?_
    · exact fun _ _ queued => ⟨nofun, queued.2.trans same⟩
    · rintro e w'' ⟨refused, same'⟩
      exact ⟨fun _ eq => Except.error.inj eq ▸ refused e rfl, same'.trans same⟩
  · rintro e w' ⟨refused, same⟩
    exact ⟨fun _ eq => Except.error.inj eq ▸ refused e rfl, same⟩

theorem quiet_write_models (models : Models sha256 w v) (canonical : p.Canonical) (data : Bytes) :
    Quiet (write sha256 p data) (fun r w' =>
      (∀ e, r = .error e → ∃ source, e = .metadata source) ∧ Models sha256 w' (v.write p data))
      w := by
  simp only [write, Prog.wp_bind, quiet_put, quiet_now, quiet_upsert]
  intro clock
  apply Prog.wp_mono (quiet_ensureParentDirs (models_written models canonical data clock) canonical)
  rintro r w' ⟨rfl, models'⟩
  exact Prog.wp_mono (quiet_enqueueReplication _) fun _ _ queued =>
    ⟨queued.1, models'.of_view queued.2⟩

theorem quiet_mkdir_models (models : Models sha256 w v) (canonical : p.Canonical)
    (plain : ∀ data, v p ≠ some (.file data)) :
    Quiet (mkdir p) (fun r w' => r = .ok () ∧ Models sha256 w' (v.mkdir p)) w := by
  simp only [mkdir, Prog.wp_bind, quiet_now, quiet_upsert]
  intro now
  exact quiet_ensureParentDirs (models_insertDirectory models canonical now
    (models.clean_of_no_file plain)) canonical

theorem quiet_delete_models (models : Models sha256 w v) (order : TaskOrder) (p : FvfsPath) :
    Quiet (delete order p) (fun r w' =>
      r = (if v p = none then .error (.notFound p.text) else .ok ()) ∧
        Models sha256 w' (v.remove p)) w := by
  simp only [delete, Prog.wp_bind, quiet_requireMetadata]
  cases found : w.store.get p with
  | none =>
    have nothing := models.absent_iff.mpr (Store.get_eq_none_iff.mp found)
    simp only [nothing, if_true, true_and, Volume.remove]
    rwa [← nothing, Function.update_eq_self]
  | some m =>
    have row := Store.rowState_of_get found
    have used : v p ≠ none := by rw [Ne, models.absent_iff, row]; exact Option.some_ne_none _
    apply Prog.wp_mono (quiet_deleteTiers p m.tierBitmask order.val)
    rintro r w' ⟨rfl, store, view⟩
    simp only [quiet_metaDelete, used, if_false, true_and]
    have gone : (w'.withStore (w'.store.delete p)).view =
        Function.update w.view p ⟨none, (w'.view p).object⟩ := by
      rw [view_metaDelete, view]
      simp
    refine models.of_update gone (by simp) (.absent rfl ?_)
    · rw [view, Function.update_self]
      have everywhere : Tier.localDisk ∈ order.val := order.property.mem_iff.mpr (by simp)
      by_cases hot : m.tierBitmask.has .localDisk = true
      · simp [everywhere, hot]
      · have clean := (models.refines.represents p).clean row (Bool.eq_false_iff.mpr hot)
        simpa [hot] using clean

theorem quiet_read_models (models : Models sha256 w v) (p : FvfsPath) :
    Quiet (read p) (fun r w' => r = v.read p ∧ w'.view = w.view) w := by
  have shows := models.shows p
  unfold Volume.read
  revert shows
  generalize v p = item
  intro shows
  cases found : w.store.get p with
  | none =>
    cases shows with
    | absent => simp [read, Prog.wp_bind, quiet_requireMetadata, found]
    | directory there => simp [Store.get_eq_none_iff.mp found] at there
    | file there => simp [Store.get_eq_none_iff.mp found] at there
  | some m =>
    have row := Store.rowState_of_get found
    cases shows with
    | absent there => simp [row] at there
    | directory there tells =>
      obtain rfl := Option.some.inj (row.symm.trans there)
      have dir : m.isDir = true := tells.kind
      simp [read, Prog.wp_bind, quiet_requireMetadata, found, dir]
    | file there tells copies =>
      obtain rfl := Option.some.inj (row.symm.trans there)
      exact quiet_readFile found tells.kind copies.somewhere copies.holds

/-- The record of a path gives its item's kind, size and hash. -/
def Describes (sha256 : Bytes → Text) (p : FvfsPath) : Outcome FileMetadata → Option Item → Prop
  | r, none => r = .error (.notFound p.text)
  | r, some item => ∃ m, r = .ok m ∧ m.path = p ∧ Tells sha256 (Store.metadataState m m.id) item

theorem quiet_stat_models (models : Models sha256 w v) (p : FvfsPath) :
    Quiet (stat p) (fun r w' => Describes sha256 p r (v p) ∧ w' = w) w := by
  simp only [stat, quiet_requireMetadata]
  cases found : w.store.get p with
  | none =>
    have nothing := models.absent_iff.mpr (Store.get_eq_none_iff.mp found)
    rw [nothing]
    exact ⟨rfl, trivial⟩
  | some m =>
    have row := Store.rowState_of_get found
    obtain ⟨item, here, tells⟩ := models.item_of_row row
    rw [here]
    exact ⟨⟨m, rfl, Store.path_of_get (models.canonical p _ row) found, tells⟩, trivial⟩

end Router

end Fvfs
