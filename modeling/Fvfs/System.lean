import Fvfs.Lib.Prog
import Fvfs.Store
import Mathlib.Logic.Function.Basic

/-! The daemon's shared state and the atomic steps its tasks take on it: one backend
call, one metadata statement, one clock reading, or one use of the promotion channel.
Between two steps of a task any other task may run. -/
namespace Fvfs

open Lib

abbrev Outcome (α : Type) := Except FvfsError α

inductive Step where
  | put (t : Tier) (p : FvfsPath) (data : Bytes)
  | get (t : Tier) (p : FvfsPath)
  | delete (t : Tier) (p : FvfsPath)
  | now
  | metaGet (p : FvfsPath)
  | metaGetById (id : Nat)
  | upsert (m : FileMetadata)
  | setTierBitmask (id : Nat) (b : TierBitmask)
  | recordAccess (id : Nat)
  | metaDelete (p : FvfsPath)
  | walEnqueue (fileId : Nat) (op : WalOp)
  | walComplete (id : Nat)
  | walRecordFailure (id : Nat) (error : Text)
  | walPending
  | sendPromote (signal : PromoteSignal)
  | recvPromote
  deriving DecidableEq

@[reducible] def Step.Res : Step → Type
  | put _ _ _ => Outcome Unit
  | get _ _ => Outcome Bytes
  | delete _ _ => Outcome Unit
  | now => Int
  | metaGet _ => Outcome (Option FileMetadata)
  | metaGetById _ => Outcome (Option FileMetadata)
  | upsert _ => Outcome Nat
  | setTierBitmask _ _ => Outcome Unit
  | recordAccess _ => Outcome Unit
  | metaDelete _ => Outcome Unit
  | walEnqueue _ _ => Outcome Nat
  | walComplete _ => Outcome Unit
  | walRecordFailure _ _ => Outcome Unit
  | walPending => Outcome (List WalEntry)
  | sendPromote _ => Unit
  | recvPromote => Option PromoteSignal

abbrev Sys : Interface := ⟨Step, Step.Res⟩

/-- What each backend holds, the metadata store, and the promotion channel. -/
structure World where
  tiers : Tier → FvfsPath → Option Bytes
  store : Store
  promotions : List PromoteSignal

namespace World

def empty : World := ⟨fun _ _ => none, .empty, []⟩

def setObject (w : World) (t : Tier) (p : FvfsPath) (x : Option Bytes) : World :=
  { w with tiers := Function.update w.tiers t (Function.update (w.tiers t) p x) }

def withStore (w : World) (s : Store) : World := { w with store := s }

/-- What a restart finds: the channel is gone and the connection is new. -/
def restart (w : World) : World := ⟨w.tiers, w.store.reopen, []⟩

section setObject

variable {w : World} {t : Tier} {p : FvfsPath} {x : Option Bytes}

@[simp] theorem setObject_store : (w.setObject t p x).store = w.store := rfl
@[simp] theorem setObject_promotions : (w.setObject t p x).promotions = w.promotions := rfl
@[simp] theorem setObject_same : (w.setObject t p x).tiers t p = x := by simp [setObject]

theorem setObject_tiers (u : Tier) (q : FvfsPath) :
    (w.setObject t p x).tiers u q = if u = t ∧ q = p then x else w.tiers u q := by
  by_cases tier : u = t
  · subst tier
    by_cases path : q = p
    · simp [setObject, path]
    · simp [setObject, path]
  · simp [setObject, tier]

@[simp] theorem withStore_store (s : Store) : (w.withStore s).store = s := rfl
@[simp] theorem withStore_self : w.withStore w.store = w := rfl
@[simp] theorem withStore_tiers (s : Store) : (w.withStore s).tiers = w.tiers := rfl
@[simp] theorem withStore_promotions (s : Store) : (w.withStore s).promotions = w.promotions := rfl

end setObject

end World

/-- The environment's part in one step. A fault makes the step fail with that error;
a failing `put` may still have created the object and written its first bytes. -/
structure Choice where
  clock : Int
  fault : Option FvfsError
  torn : Option Nat

namespace Choice

def quiet (clock : Int) : Choice := ⟨clock, none, none⟩

/-- The step does what it was asked. -/
def Faultless (c : Choice) : Prop := c.fault = none

/-- The step either does what it was asked or fails without a trace. -/
def Clean (c : Choice) : Prop := c.torn = none

instance (c : Choice) : Decidable c.Faultless := inferInstanceAs (Decidable (c.fault = none))
instance (c : Choice) : Decidable c.Clean := inferInstanceAs (Decidable (c.torn = none))

@[simp] theorem faultless_quiet (clock : Int) : (quiet clock).Faultless := rfl

end Choice

/-- A metadata statement, or the error the environment makes of it. -/
def statement (c : Choice) (w : World) (answer : α) (s : Store) : Outcome α × World :=
  match c.fault with
  | some e => (.error e, w)
  | none => (.ok answer, w.withStore s)

def putObject (c : Choice) (w : World) (t : Tier) (p : FvfsPath) (data : Bytes) :
    Outcome Unit × World :=
  match c.fault, c.torn with
  | none, _ => (.ok (), w.setObject t p (some data))
  | some e, none => (.error e, w)
  | some e, some n => (.error e, w.setObject t p (some (data.take n)))

def getObject (c : Choice) (w : World) (t : Tier) (p : FvfsPath) : Outcome Bytes × World :=
  match c.fault, w.tiers t p with
  | some e, _ => (.error e, w)
  | none, some data => (.ok data, w)
  | none, none => (.error (.notFound p.text), w)

def deleteObject (c : Choice) (w : World) (t : Tier) (p : FvfsPath) : Outcome Unit × World :=
  match c.fault with
  | some e => (.error e, w)
  | none =>
    -- S3 deletes are idempotent.
    if (w.tiers t p).isSome ∨ t = .s3 then (.ok (), w.setObject t p none)
    else (.error (.notFound p.text), w)

def enqueueEntry (c : Choice) (w : World) (fileId : Nat) (op : WalOp) : Outcome Nat × World :=
  match w.store.walEnqueue fileId op c.clock with
  | .ok (id, s) => statement c w id s
  | .error e => (.error e, w)

def perform : Handler Sys World Choice
  | .put t p data, c, w => putObject c w t p data
  | .get t p, c, w => getObject c w t p
  | .delete t p, c, w => deleteObject c w t p
  | .now, c, w => (c.clock, w)
  | .metaGet p, c, w => statement c w (w.store.get p) w.store
  | .metaGetById id, c, w => statement c w (w.store.getById id) w.store
  | .upsert m, c, w => statement c w (w.store.upsert m).1 (w.store.upsert m).2
  | .setTierBitmask id b, c, w => statement c w () (w.store.setTierBitmask id b)
  | .recordAccess id, c, w => statement c w () (w.store.recordAccess id c.clock)
  | .metaDelete p, c, w => statement c w () (w.store.delete p)
  | .walEnqueue fileId op, c, w => enqueueEntry c w fileId op
  | .walComplete id, c, w => statement c w () (w.store.walComplete id)
  | .walRecordFailure id error, c, w => statement c w () (w.store.walRecordFailure id error)
  | .walPending, c, w => statement c w w.store.walPending w.store
  | .sendPromote signal, _, w => ((), { w with promotions := w.promotions ++ [signal] })
  | .recvPromote, _, w => (w.promotions.head?, { w with promotions := w.promotions.tail })

/-- What the daemon knows and stores about one path. -/
@[ext] structure View where
  row : Option Store.RowState
  object : Tier → Option Bytes

def World.view (w : World) (p : FvfsPath) : View := ⟨w.store.rowState p, fun t => w.tiers t p⟩

section View

open Function (update)

variable {w : World} {p : FvfsPath}

@[simp] theorem view_row : (w.view p).row = w.store.rowState p := rfl
@[simp] theorem view_object (t : Tier) : (w.view p).object t = w.tiers t p := rfl

theorem view_setObject (t : Tier) (p : FvfsPath) (x : Option Bytes) :
    (w.setObject t p x).view =
      update w.view p { w.view p with object := update (w.view p).object t x } := by
  funext q
  by_cases here : q = p
  · subst here
    ext u
    · simp
    · by_cases tier : u = t <;> simp [World.setObject_tiers, tier]
  · rw [Function.update_of_ne here]
    ext u
    · simp
    · simp [World.setObject_tiers, here]

/-- A statement on other tables, or on columns no task depends on. -/
theorem view_withStore {s : Store} (same : ∀ q, s.rowState q = w.store.rowState q) :
    (w.withStore s).view = w.view := by
  funext q
  exact View.ext (same q) rfl

theorem view_withStore_at {s : Store} {row : Option Store.RowState} (here : s.rowState p = row)
    (other : ∀ q, q ≠ p → s.rowState q = w.store.rowState q) :
    (w.withStore s).view = update w.view p { w.view p with row := row } := by
  funext q
  by_cases same : q = p
  · subst same
    rw [Function.update_self]
    exact View.ext here rfl
  · rw [Function.update_of_ne same]
    exact View.ext (other q same) rfl

theorem view_setTierBitmask {x : Store.RowState} (there : w.store.rowState p = some x)
    (b : TierBitmask) :
    (w.withStore (w.store.setTierBitmask x.id b)).view =
      update w.view p { w.view p with row := some { x with tierBitmask := b } } := by
  refine view_withStore_at (by simp [Store.rowState_setTierBitmask, there]) fun q other => ?_
  rw [Store.rowState_setTierBitmask]
  cases at_q : w.store.rowState q with
  | none => rfl
  | some y =>
    have apart : y.id ≠ x.id := fun same => other (Store.rowState_id_inj at_q there same)
    simp [apart]

theorem view_upsert (m : FileMetadata) :
    (w.withStore (w.store.upsert m).2).view = update w.view m.path
      { w.view m.path with row := some (Store.metadataState m (w.store.upsertedId m.path)) } :=
  view_withStore_at (Store.rowState_upsert_self m) fun _ other => Store.rowState_upsert_other other

theorem view_metaDelete (p : FvfsPath) :
    (w.withStore (w.store.delete p)).view = update w.view p { w.view p with row := none } :=
  view_withStore_at Store.rowState_delete_self fun _ other => Store.rowState_delete_other other

end View

section Frame

variable {c : Choice} {w : World}

theorem statement_cases (answer : α) (s : Store) :
    statement c w answer s = (.ok answer, w.withStore s) ∨
    ∃ e, ¬c.Faultless ∧ statement c w answer s = (.error e, w) := by
  unfold statement Choice.Faultless
  cases c.fault with
  | none => exact Or.inl rfl
  | some e => exact Or.inr ⟨e, nofun, rfl⟩

@[simp] theorem statement_faultless (quiet : c.Faultless) (answer : α) (s : Store) :
    statement c w answer s = (.ok answer, w.withStore s) := by
  simp only [statement, show c.fault = none from quiet]

/-- A statement that leaves the view of a path alone does so whether or not it fails. -/
theorem statement_view {p : FvfsPath} (answer : α) {s : Store}
    (same : s.rowState p = w.store.rowState p) :
    (statement c w answer s).2.view p = w.view p := by
  rcases statement_cases (c := c) (w := w) answer s with eq | ⟨e, _, eq⟩ <;> rw [eq]
  exact View.ext same rfl

theorem statement_view_all (answer : α) {s : Store}
    (same : ∀ q, s.rowState q = w.store.rowState q) :
    (statement c w answer s).2.view = w.view := by
  rcases statement_cases (c := c) (w := w) answer s with eq | ⟨e, _, eq⟩ <;> rw [eq]
  exact view_withStore same

theorem putObject_cases (t : Tier) (p : FvfsPath) (data : Bytes) :
    (c.Faultless ∧ putObject c w t p data = (.ok (), w.setObject t p (some data))) ∨
    (∃ e, ¬c.Faultless ∧ putObject c w t p data = (.error e, w)) ∨
    ∃ e n, ¬c.Faultless ∧ c.torn = some n ∧
      putObject c w t p data = (.error e, w.setObject t p (some (data.take n))) := by
  obtain ⟨clock, _ | e, torn⟩ := c
  · exact Or.inl ⟨rfl, rfl⟩
  · cases torn with
    | none => exact Or.inr (Or.inl ⟨e, nofun, rfl⟩)
    | some n => exact Or.inr (Or.inr ⟨e, n, nofun, rfl, rfl⟩)

theorem getObject_cases (t : Tier) (p : FvfsPath) :
    (∃ data, w.tiers t p = some data ∧ getObject c w t p = (.ok data, w)) ∨
    ∃ e, getObject c w t p = (.error e, w) := by
  unfold getObject
  cases c.fault with
  | some e => exact Or.inr ⟨e, rfl⟩
  | none =>
    cases there : w.tiers t p with
    | some data => exact Or.inl ⟨data, rfl, rfl⟩
    | none => exact Or.inr ⟨_, rfl⟩

theorem deleteObject_cases (t : Tier) (p : FvfsPath) :
    deleteObject c w t p = (.ok (), w.setObject t p none) ∨
    ∃ e, deleteObject c w t p = (.error e, w) := by
  unfold deleteObject
  split
  next e _ => exact Or.inr ⟨e, rfl⟩
  next =>
    split
    · exact Or.inl rfl
    · exact Or.inr ⟨_, rfl⟩

theorem enqueueEntry_cases (fileId : Nat) (op : WalOp) :
    (∃ id s, w.store.walEnqueue fileId op c.clock = .ok (id, s) ∧
      enqueueEntry c w fileId op = (.ok id, w.withStore s)) ∨
    ∃ e, enqueueEntry c w fileId op = (.error e, w) := by
  unfold enqueueEntry
  cases w.store.walEnqueue fileId op c.clock with
  | ok answer =>
    obtain ⟨id, s⟩ := answer
    rcases statement_cases (c := c) (w := w) id s with same | ⟨e, _, same⟩
    · exact Or.inl ⟨id, s, rfl, same⟩
    · exact Or.inr ⟨e, same⟩
  | error e => exact Or.inr ⟨e, rfl⟩

end Frame

/-- Steps that cannot change the view of a path. -/
def Step.Spares (p : FvfsPath) : Step → Prop
  | put _ q _ => q ≠ p
  | delete _ q => q ≠ p
  | upsert m => m.path ≠ p
  | setTierBitmask _ _ => False
  | metaDelete q => q ≠ p
  | _ => True

theorem setObject_view_other {w : World} {p q : FvfsPath} (other : q ≠ p) (t : Tier)
    (x : Option Bytes) : (w.setObject t q x).view p = w.view p := by
  rw [view_setObject, Function.update_of_ne other.symm]

theorem perform_spares {p : FvfsPath} {op : Step} (spares : op.Spares p) (c : Choice) (w : World) :
    (perform op c w).2.view p = w.view p := by
  cases op with
  | put t q data =>
    simp only [perform]
    rcases putObject_cases (c := c) (w := w) t q data with ⟨_, eq⟩ | ⟨e, _, eq⟩ | ⟨e, n, _, _, eq⟩
    · rw [eq]
      exact setObject_view_other spares t _
    · rw [eq]
    · rw [eq]
      exact setObject_view_other spares t _
  | get t q =>
    simp only [perform]
    rcases getObject_cases (c := c) (w := w) t q with ⟨data, _, eq⟩ | ⟨e, eq⟩ <;> rw [eq]
  | delete t q =>
    simp only [perform]
    rcases deleteObject_cases (c := c) (w := w) t q with eq | ⟨e, eq⟩
    · rw [eq]
      exact setObject_view_other spares t _
    · rw [eq]
  | upsert m =>
    have other : p ≠ m.path := fun same => spares same.symm
    exact statement_view _ (Store.rowState_upsert_other other)
  | setTierBitmask id b => exact spares.elim
  | metaDelete q =>
    have other : p ≠ q := fun same => spares same.symm
    exact statement_view _ (Store.rowState_delete_other other)
  | walEnqueue fileId op =>
    simp only [perform]
    rcases enqueueEntry_cases (c := c) (w := w) fileId op with ⟨id, s, enqueued, eq⟩ | ⟨e, eq⟩
    · rw [eq]
      exact View.ext (Store.rowState_walEnqueue enqueued) rfl
    · rw [eq]
  | recordAccess id => exact statement_view _ (Store.rowState_recordAccess _ _)
  | now | sendPromote signal | recvPromote => rfl
  | metaGet q | metaGetById id | walComplete id | walRecordFailure id error | walPending =>
    exact statement_view _ rfl

abbrev Async (α : Type) := Prog Sys FvfsError α

end Fvfs
