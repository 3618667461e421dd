import Fvfs.Lib.Service
import Fvfs.RowIds
import Fvfs.VolumeRuns

/-! The volume as a service to the handlers over the router: what each call may answer, and
that the daemon answers so whatever it does by itself between the calls. -/
namespace Fvfs

open Lib

/-- What the handlers call, each call run to completion. -/
inductive DaemonCall where
  | read (p : FvfsPath)
  | write (p : FvfsPath) (data : Bytes)
  | delete (p : FvfsPath)
  | mkdir (p : FvfsPath)
  | metaGet (p : FvfsPath)
  | list (d : FvfsPath)

@[reducible] def DaemonCall.Res : DaemonCall → Type
  | read _ => Outcome Bytes
  | write _ _ => Outcome Unit
  | delete _ => Outcome Unit
  | mkdir _ => Outcome Unit
  | metaGet _ => Outcome (Option FileMetadata)
  | list _ => Outcome (List FileEntry)

abbrev DaemonCalls : Interface := ⟨DaemonCall, DaemonCall.Res⟩

namespace Volume

/-- What a metadata query says of the item at a path. -/
def Described (sha256 : Bytes → Text) (p : FvfsPath) : Option FileMetadata → Option Item → Prop
  | none, none => True
  | some m, some item => m.path = p ∧ Tells sha256 (Store.metadataState m m.id) item
  | _, _ => False

/-- A stat turns no row into an error. -/
theorem Described.describes {sha256 : Bytes → Text} {p : FvfsPath} {found : Option FileMetadata}
    {item : Option Item} (described : Described sha256 p found item) :
    Router.Describes sha256 p (found.elim (.error (.notFound p.text)) .ok) item := by
  cases found with
  | none =>
    cases item with
    | none => rfl
    | some item => exact described.elim
  | some m =>
    cases item with
    | none => exact described.elim
    | some item => exact ⟨m, rfl, described⟩

/-- A write over a row may be refused once it is done: the id it queues work for may be none. -/
def WriteAnswer (v : Volume) (p : FvfsPath) (r : Outcome Unit) : Prop :=
  r = .ok () ∨ v p ≠ none ∧ ∃ source, r = .error (.metadata source)

/-- Files are written where clients may write one, and no directory is made over a file. -/
def service (sha256 : Bytes → Text) (files : FvfsPath → Prop) : Service DaemonCalls Volume where
  pre
    | .write p _, _ => files p
    | .read p, _ => p.Canonical
    | .delete p, _ => p.Canonical
    | .mkdir p, v => p.Canonical ∧ ∀ data, v p ≠ some (.file data)
    | _, _ => True
  may
    | .read p, v, r, v' => r = v.read p ∧ v' = v
    | .write p data, v, r, v' => v.WriteAnswer p r ∧ v' = v.write p data
    | .delete p, v, r, v' =>
      r = (if v p = none then .error (.notFound p.text) else .ok ()) ∧ v' = v.remove p
    | .mkdir p, v, r, v' => r = .ok () ∧ v' = v.mkdir p
    | .metaGet p, v, r, v' => (∃ found, r = .ok found ∧ Described sha256 p found (v p)) ∧ v' = v
    | .list d, v, r, v' => (∃ entries, r = .ok entries ∧ v.Lists d entries) ∧ v' = v

end Volume

namespace Daemon

def read (p : FvfsPath) : Prog DaemonCalls FvfsError Bytes := .call (.read p) .lift
def write (p : FvfsPath) (data : Bytes) : Prog DaemonCalls FvfsError Unit :=
  .call (.write p data) .lift
def delete (p : FvfsPath) : Prog DaemonCalls FvfsError Unit := .call (.delete p) .lift
def mkdir (p : FvfsPath) : Prog DaemonCalls FvfsError Unit := .call (.mkdir p) .lift
def metaGet (p : FvfsPath) : Prog DaemonCalls FvfsError (Option FileMetadata) :=
  .call (.metaGet p) .lift
def list (d : FvfsPath) : Prog DaemonCalls FvfsError (List FileEntry) := .call (.list d) .lift

def stat (p : FvfsPath) : Prog DaemonCalls FvfsError FileMetadata := do
  match ← metaGet p with
  | some m => pure m
  | none => .fail (.notFound p.text)

section Meets

variable {sha256 : Bytes → Text} {files : FvfsPath → Prop} {v : Volume} {p : FvfsPath}

theorem meets_read (canonical : p.Canonical) (post : Outcome Bytes → Volume → Prop) :
    (read p).meets (Volume.service sha256 files) post v ↔ post (v.read p) v := by
  simp [read, Volume.service, canonical]

@[simp] theorem meets_metaGet (p : FvfsPath)
    (post : Outcome (Option FileMetadata) → Volume → Prop) :
    (metaGet p).meets (Volume.service sha256 files) post v ↔
      ∀ found, Volume.Described sha256 p found (v p) → post (.ok found) v := by
  simp only [metaGet, Prog.meets_call, Prog.meets_lift, Volume.service, true_and]
  constructor
  · exact fun all found described => all _ _ ⟨⟨found, rfl, described⟩, rfl⟩
  · rintro all _ _ ⟨⟨found, rfl, described⟩, rfl⟩
    exact all found described

end Meets

end Daemon

/-- Whether the turn is the daemon's own. -/
def Turn.silent : Turn → Bool
  | request (.write _ _) => false
  | request (.delete _ _) => false
  | mkdir _ => false
  | _ => true

/-- What the daemon does before a call, and what the call meets. -/
structure Moment where
  before : List (Turn × (Nat → DiskChoice))
  order : Router.TaskOrder
  env : Nat → DiskChoice

/-- No client's request is among what the daemon does by itself, and nothing fails. -/
structure Moment.Own (m : Moment) : Prop where
  silent : ∀ turn ∈ m.before, turn.1.silent = true
  before : ∀ turn ∈ m.before, ∀ i, (turn.2 i).Reliable
  call : ∀ i, (m.env i).Reliable

/-- What a call finds. -/
def DiskWorld.after (roots : DiskRoots) (sha256 : Bytes → Text) (m : Moment) (d : DiskWorld) :
    DiskWorld := (Turn.runs (.disks roots) sha256 m.before d).2

def daemon (roots : DiskRoots) (sha256 : Bytes → Text) : Handler DaemonCalls DiskWorld Moment
  | .read p, m, d => (Router.read p).exec (performOnDisks roots) m.env (d.after roots sha256 m)
  | .write p data, m, d =>
    (Router.write sha256 p data).exec (performOnDisks roots) m.env (d.after roots sha256 m)
  | .delete p, m, d =>
    (Router.delete m.order p).exec (performOnDisks roots) m.env (d.after roots sha256 m)
  | .mkdir p, m, d => (Router.mkdir p).exec (performOnDisks roots) m.env (d.after roots sha256 m)
  | .metaGet p, m, d => (Async.metaGet p).exec (performOnDisks roots) m.env (d.after roots sha256 m)
  | .list dir, m, d => (.ok ((d.after roots sha256 m).rest.list dir), d.after roots sha256 m)

section Daemon

variable {roots : DiskRoots} {sha256 : Bytes → Text} {files : FvfsPath → Prop} {w : World}
  {d : DiskWorld} {v : Volume}

theorem Turn.silent_fits {turn : Turn} (silent : turn.silent = true) (v : Volume) :
    turn.Fits v ∧ turn.effect v = v ∧ turn.Writes files := by
  cases turn with
  | request asked => cases asked <;> simp_all [Turn.silent, Turn.Fits, Turn.effect, Turn.Writes]
  | mkdir p => simp [Turn.silent] at silent
  | cycle ranking t wm => exact ⟨trivial, rfl, trivial⟩
  | restart => exact ⟨trivial, rfl, trivial⟩

theorem Turn.silent_runs {before : List (Turn × (Nat → DiskChoice))}
    (silent : ∀ turn ∈ before, turn.1.silent = true) (v : Volume) :
    Orderly before v ∧ volume before v = v := by
  induction before with
  | nil => exact ⟨trivial, rfl⟩
  | cons turn rest ih =>
    simp only [List.mem_cons, forall_eq_or_imp] at silent
    obtain ⟨fits, still, -⟩ := @Turn.silent_fits (fun _ => True) _ silent.1 v
    simp only [Orderly, volume, still]
    exact ⟨⟨fits, (ih silent.2).1⟩, (ih silent.2).2⟩

/-- What the daemon does by itself does not show. -/
theorem Shown.after (names : FileNames files) (shown : Shown sha256 roots files d v) {m : Moment}
    (own : m.Own) : Shown sha256 roots files (d.after roots sha256 m) v := by
  obtain ⟨orderly, still⟩ := Turn.silent_runs own.silent v
  have ran := Turn.runs_shown names shown
    (fun turn member => (Turn.silent_fits (own.silent turn member) v).2.2) own.before orderly
  rwa [still] at ran

theorem Models.described (models : Models sha256 w v) (p : FvfsPath) :
    Volume.Described sha256 p (w.store.get p) (v p) := by
  cases found : w.store.get p with
  | none =>
    rw [models.absent_iff.mpr (Store.get_eq_none_iff.mp found)]
    trivial
  | some m =>
    have row := Store.rowState_of_get found
    obtain ⟨item, here, tells⟩ := models.item_of_row row
    rw [here]
    exact ⟨Store.path_of_get (models.canonical p _ row) found, tells⟩

end Daemon

end Fvfs
