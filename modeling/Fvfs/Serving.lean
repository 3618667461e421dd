import Fvfs.Lib.Journal
import Fvfs.Stretches

/-! Runs in which the metadata store works and any backend call may fail, with the journal
of what was asked and answered. -/
namespace Fvfs

open Lib

/-- What the environment's choice comes to: statements do not fail, and S3 takes an object
whole or not at all. -/
def granted : Step → Choice → Choice
  | .get _ _, c => c
  | .delete _ _, c => c
  | .put .s3 _ _, c => { c with torn := none }
  | .put _ _ _, c => c
  | _, c => { c with fault := none }

def serve : Handler Sys World Choice := fun op c w => perform op (granted op c) w

/-- The precondition of a run under any behaviour of the backends. -/
abbrev Serves (task : Async α) (post : Outcome α → Journal Sys World → World → Prop) (w : World) :
    Prop := task.noted serve (fun _ => True) post w

section Calls

variable {w : World}

/-- A step that does not depend on what the environment may still choose. -/
theorem serves_steady {task : Async α} {post : Outcome α → Journal Sys World → World → Prop}
    {result : Prop} (runs : Serves task post w ↔ Choice → True → result) :
    Serves task post w ↔ result :=
  runs.trans ⟨fun valid => valid (.quiet 0) trivial, fun valid _ _ => valid⟩

/-- A step that depends on the clock. -/
theorem serves_timed {task : Async α} {post : Outcome α → Journal Sys World → World → Prop}
    {result : Int → Prop} (runs : Serves task post w ↔ ∀ c : Choice, True → result c.clock) :
    Serves task post w ↔ ∀ clock, result clock :=
  runs.trans ⟨fun valid clock => valid (.quiet clock) trivial, fun valid c _ => valid c.clock⟩

@[simp] theorem serves_metaGet (p : FvfsPath) (post) :
    Serves (Async.metaGet p) post w ↔
      post (.ok (w.store.get p)) [⟨w, .metaGet p, .ok (w.store.get p)⟩] w :=
  serves_steady Iff.rfl

@[simp] theorem serves_metaGetById (id : Nat) (post) :
    Serves (Async.metaGetById id) post w ↔
      post (.ok (w.store.getById id)) [⟨w, .metaGetById id, .ok (w.store.getById id)⟩] w :=
  serves_steady Iff.rfl

@[simp] theorem serves_setTierBitmask (id : Nat) (b : TierBitmask) (post) :
    Serves (Async.setTierBitmask id b) post w ↔
      post (.ok ()) [⟨w, .setTierBitmask id b, .ok ()⟩]
        (w.withStore (w.store.setTierBitmask id b)) :=
  serves_steady Iff.rfl

@[simp] theorem serves_recordAccess (id : Nat) (post) :
    Serves (Async.recordAccess id) post w ↔
      ∀ now, post (.ok ()) [⟨w, .recordAccess id, .ok ()⟩]
        (w.withStore (w.store.recordAccess id now)) :=
  serves_timed Iff.rfl

@[simp] theorem serves_walComplete (id : Nat) (post) :
    Serves (Async.walComplete id) post w ↔
      post (.ok ()) [⟨w, .walComplete id, .ok ()⟩] (w.withStore (w.store.walComplete id)) :=
  serves_steady Iff.rfl

@[simp] theorem serves_walRecordFailure (id : Nat) (error : Text) (post) :
    Serves (Async.walRecordFailure id error) post w ↔
      post (.ok ()) [⟨w, .walRecordFailure id error, .ok ()⟩]
        (w.withStore (w.store.walRecordFailure id error)) :=
  serves_steady Iff.rfl

@[simp] theorem serves_walPending (post) :
    Serves Async.walPending post w ↔
      post (.ok w.store.walPending) [⟨w, .walPending, .ok w.store.walPending⟩] w :=
  serves_steady Iff.rfl

@[simp] theorem serves_sendPromote (signal : PromoteSignal) (post) :
    Serves (Async.sendPromote signal) post w ↔
      post (.ok ()) [⟨w, .sendPromote signal, ()⟩]
        { w with promotions := w.promotions ++ [signal] } :=
  serves_steady Iff.rfl

theorem serves_get {t : Tier} {p : FvfsPath} {post}
    (answered : ∀ data, w.tiers t p = some data → post (.ok data) [⟨w, .get t p, .ok data⟩] w)
    (failed : ∀ e, post (.error e) [⟨w, .get t p, .error e⟩] w) :
    Serves (Async.get t p) post w := by
  intro c _
  simp only [serve, granted, perform]
  rcases getObject_cases (c := c) (w := w) t p with ⟨data, there, eq⟩ | ⟨e, eq⟩
  · simpa [eq] using answered data there
  · simpa [eq] using failed e

theorem serves_delete {t : Tier} {p : FvfsPath} {post}
    (answered : post (.ok ()) [⟨w, .delete t p, .ok ()⟩] (w.setObject t p none))
    (failed : ∀ e, post (.error e) [⟨w, .delete t p, .error e⟩] w) :
    Serves (Async.delete t p) post w := by
  intro c _
  simp only [serve, granted, perform]
  rcases deleteObject_cases (c := c) (w := w) t p with eq | ⟨e, eq⟩
  · simpa [eq] using answered
  · simpa [eq] using failed e

/-- A refused put leaves anything in its place, except on S3. -/
theorem serves_put {t : Tier} {p : FvfsPath} {data : Bytes} {post}
    (answered : post (.ok ()) [⟨w, .put t p data, .ok ()⟩] (w.setObject t p (some data)))
    (failed : ∀ e, post (.error e) [⟨w, .put t p data, .error e⟩] w)
    (torn : ∀ e n, t ≠ .s3 →
      post (.error e) [⟨w, .put t p data, .error e⟩] (w.setObject t p (some (data.take n)))) :
    Serves (Async.put t p data) post w := by
  intro c _
  have cases := putObject_cases (c := granted (.put t p data) c) (w := w) t p data
  simp only [serve, perform]
  rcases cases with ⟨_, eq⟩ | ⟨e, _, eq⟩ | ⟨e, n, _, cut, eq⟩
  · simpa [eq] using answered
  · simpa [eq] using failed e
  · have warmer : t ≠ .s3 := by
      rintro rfl
      simp [granted] at cut
    simpa [eq] using torn e n warmer

end Calls

end Fvfs
