import Fvfs.Replay
import Fvfs.Serving

/-! One upload or replication under any behaviour of the backends: what it reads, what the
target tier takes, and what it changes in the store. -/
namespace Fvfs

open Lib

instance : Inhabited Choice := ⟨.quiet 0⟩

namespace Router

/-- The bytes a run read. -/
def fetched (log : Journal Sys World) : Option Bytes :=
  log.findSome? fun
    | ⟨_, .get _ _, .ok data⟩ => some data
    | _ => none

/-- The bytes a tier took in a run. -/
def stored (t : Tier) (log : Journal Sys World) : Option Bytes :=
  log.findSome? fun
    | ⟨_, .put u _ data, .ok _⟩ => if u = t then some data else none
    | _ => none

@[simp] theorem fetched_append (log later : Journal Sys World) :
    fetched (log ++ later) = (fetched log).or (fetched later) := List.findSome?_append

@[simp] theorem stored_append (t : Tier) (log later : Journal Sys World) :
    stored t (log ++ later) = (stored t log).or (stored t later) := List.findSome?_append

@[simp] theorem stored_put (w : World) (t : Tier) (p : FvfsPath) (data : Bytes)
    (later : Journal Sys World) :
    stored t (⟨w, .put t p data, .ok ()⟩ :: later) = some data := by simp [stored]

@[simp] theorem stored_refused (w : World) (t : Tier) (p : FvfsPath) (data : Bytes) (e : FvfsError) :
    stored t [⟨w, .put t p data, .error e⟩] = none := rfl

/-- A run that reads changes nothing but access statistics and the promotion queue. -/
structure Looked (w : World) (r : Outcome Bytes) (log : Journal Sys World) (w' : World) : Prop where
  bare : w'.bare = w.bare
  unstored : ∀ t, stored t log = none
  read : fetched log = r.toOption

variable {w v w' : World} {log later : Journal Sys World} {p : FvfsPath} {t : Tier}

theorem Looked.store {r : Outcome Bytes} (looked : Looked w r log w') :
    w'.store.bare = w.store.bare := congrArg World.store looked.bare

theorem Looked.tiers {r : Outcome Bytes} (looked : Looked w r log w') : w'.tiers = w.tiers := by
  rw [← World.bare_tiers w', looked.bare, World.bare_tiers]

/-- A failed read and what is tried after it. -/
theorem Looked.append {e : FvfsError} {r : Outcome Bytes} (failed : Looked w (.error e) log v)
    (next : Looked v r later w') : Looked w r (log ++ later) w' where
  bare := next.bare.trans failed.bare
  unstored t := by rw [stored_append, failed.unstored, next.unstored, Option.or_none]
  read := by
    rw [fetched_append, failed.read, next.read]
    rfl

/-- A read and a step that neither reads nor stores. -/
theorem Looked.then {r : Outcome Bytes} (looked : Looked w r log v)
    (same : w'.bare = v.bare) (idle : fetched later = none) (quiet : ∀ t, stored t later = none) :
    Looked w r (log ++ later) w' where
  bare := same.trans looked.bare
  unstored t := by rw [stored_append, looked.unstored, quiet, Option.or_none]
  read := by rw [fetched_append, looked.read, idle, Option.or_none]

theorem serves_get_looked : Serves (Async.get t p) (Looked w) w :=
  serves_get (fun _ _ => ⟨rfl, fun _ => rfl, rfl⟩) fun _ => ⟨rfl, fun _ => rfl, rfl⟩

theorem serves_readAndPromote : Serves (readAndPromote p t) (Looked w) w := by
  refine Prog.noted_seq serves_get_looked ?_ fun _ _ _ looked => looked
  intro data log v looked
  refine (Prog.noted_bind ..).mpr ((serves_sendPromote ..).mpr ?_)
  exact looked.then rfl rfl fun _ => rfl

theorem looked_nothing (e : FvfsError) : Looked w (.error e) [] w :=
  ⟨rfl, fun _ => rfl, rfl⟩

theorem serves_readTiers (b : TierBitmask) : Serves (readTiers p b) (Looked w) w := by
  refine (Prog.noted_iff_meets _ _ [] w).mpr ?_
  refine meets_readTiers (fun s => ∃ e, Looked w (.error e) s.1 s.2) (fun _ => ?_)
    (fun _ => ⟨.notFound [], looked_nothing _⟩) ?_ ?_
  · refine Prog.meets_mono ((Prog.noted_iff_meets _ _ [] w).mp serves_get_looked) ?_
    rintro (e | data) s looked
    · exact ⟨e, looked⟩
    · exact looked
  · rintro t ⟨log, v⟩ - ⟨e, failed⟩
    refine (Prog.noted_iff_meets _ _ log v).mp ?_
    exact Prog.noted_mono serves_readAndPromote fun _ _ _ next => failed.append next
  · rintro ⟨log, v⟩ - ⟨e, failed⟩
    exact ⟨failed.bare, failed.unstored, failed.read⟩

/-- A lookup comes before. -/
theorem Looked.preceded {r : Outcome Bytes} (looked : Looked w r later w')
    (idle : fetched log = none) (quiet : ∀ t, stored t log = none) :
    Looked w r (log ++ later) w' where
  bare := looked.bare
  unstored t := by rw [stored_append, quiet, looked.unstored, Option.or_none]
  read := by rw [fetched_append, idle, looked.read, Option.none_or]

theorem serves_requireMetadata :
    Serves (requireMetadata p) (fun r log w' => w' = w ∧ fetched log = none ∧
      (∀ t, stored t log = none) ∧ r.toOption = w.store.get p) w := by
  unfold requireMetadata
  refine (Prog.noted_bind ..).mpr ((serves_metaGet ..).mpr ?_)
  cases found : w.store.get p with
  | none => exact ⟨rfl, rfl, fun _ => rfl, rfl⟩
  | some m => exact ⟨rfl, rfl, fun _ => rfl, rfl⟩

theorem serves_read : Serves (Router.read p) (Looked w) w := by
  unfold Router.read
  refine Prog.noted_seq serves_requireMetadata ?_ ?_
  · rintro m log _ ⟨rfl, idle, quiet, -⟩
    split
    · exact (looked_nothing _).preceded idle quiet
    · refine Prog.noted_seq (serves_readTiers m.tierBitmask) ?_ ?_
      · intro data first v looked
        refine (Prog.noted_bind ..).mpr ((Prog.noted_attempt ..).mpr ((serves_recordAccess ..).mpr ?_))
        intro now
        change Looked _ (.ok data) (log ++ (first ++ [⟨v, .recordAccess m.id, .ok ()⟩])) _
        refine Looked.preceded (looked.then ?_ rfl fun _ => rfl) idle quiet
        rw [World.bare_withStore, Store.bare_recordAccess]
        rfl
      · exact fun e first v looked => looked.preceded idle quiet
  · rintro e log _ ⟨rfl, idle, quiet, -⟩
    exact ⟨rfl, quiet, idle⟩

/-- The file loaded as `m`, with a copy on `t` and its bit. -/
def shipped (w : World) (t : Tier) (m : FileMetadata) (data : Bytes) : World :=
  (w.setObject t m.path (some data)).withStore (w.store.setTierBitmask m.id (m.tierBitmask.set t))

/-- What an upload or a replication to `t` of the file loaded as `m` comes to. -/
inductive Shipped (t : Tier) (m : FileMetadata) (w : World) :
    Outcome Unit → Journal Sys World → World → Prop
  | done {log : Journal Sys World} {w' : World} (data : Bytes) (took : stored t log = some data)
      (read : fetched log = some data) (bare : w'.bare = (shipped w t m data).bare) :
      Shipped t m w (.ok ()) log w'
  | refused {log : Journal Sys World} {w' : World} (e : FvfsError) (took : stored t log = none)
      (store : w'.store.bare = w.store.bare) (tiers : t = .s3 → w'.tiers = w.tiers) :
      Shipped t m w (.error e) log w'

/-- Read somewhere, then put on `t` and mark. -/
def ship (t : Tier) (m : FileMetadata) (source : Async Bytes) : Async Unit := do
  let data ← source
  Async.put t m.path data
  Async.setTierBitmask m.id (m.tierBitmask.set t)

theorem serves_ship {m : FileMetadata} {source : Async Bytes}
    (reads : Serves source (Looked w) w) : Serves (ship t m source) (Shipped t m w) w := by
  unfold ship
  refine Prog.noted_seq reads ?_ ?_
  · intro data log v looked
    refine (Prog.noted_bind ..).mpr (serves_put ?_ ?_ ?_)
    · refine (serves_setTierBitmask ..).mpr (.done data ?_ ?_ ?_)
      · simp [looked.unstored]
      · simp [looked.read, Except.toOption]
      · unfold shipped
        rw [World.bare_withStore, World.bare_withStore, World.bare_setObject, World.bare_setObject,
          looked.bare, World.setObject_store, Store.bare_setTierBitmask, Store.bare_setTierBitmask,
          looked.store]
    · refine fun e => .refused e ?_ looked.store fun _ => looked.tiers
      simp [looked.unstored]
    · refine fun e n warm => .refused e ?_ looked.store fun cold => absurd cold warm
      simp [looked.unstored]
  · exact fun e log v looked => .refused e (looked.unstored t) looked.store fun _ => looked.tiers

theorem serves_uploadToS3 (m : FileMetadata) : Serves (uploadToS3 m) (Shipped .s3 m w) w :=
  serves_ship serves_read

theorem serves_replicateToNas (m : FileMetadata) :
    Serves (replicateToNas m) (Shipped .nas m w) w := serves_ship serves_get_looked

end Router

end Fvfs
