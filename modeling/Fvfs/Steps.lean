import Fvfs.Phases

/-! One step of each racing task, by inversion: from a phase, what event it leaves in the
trace, what it does to the world and which phase comes next. -/
namespace Fvfs

open Lib

/-- None of the steps the races are about: nothing read, stored, dropped or recorded. -/
def Step.Silent (e : Event Sys ι) : Prop :=
  match e.op, e.res with
  | .put _ _ _, .ok _ => False
  | .get _ _, .ok _ => False
  | .delete _ _, .ok _ => False
  | .upsert _, .ok _ => False
  | .setTierBitmask _ _, .ok _ => False
  | _, _ => True

namespace Step

variable {e : Event Sys ι} {p q : FvfsPath} {t : Tier}

theorem Silent.not_stored (silent : Silent e) : ¬Stored t p e := by
  obtain ⟨i, op, r⟩ := e
  cases op with
  | put u q data => cases r <;> first | exact silent.elim | exact id
  | _ => exact id

theorem Silent.not_fetched (silent : Silent e) : ¬Fetched t p e := by
  obtain ⟨i, op, r⟩ := e
  cases op with
  | get u q => cases r <;> first | exact silent.elim | exact id
  | _ => exact id

theorem Silent.not_dropped (silent : Silent e) : ¬Dropped t p e := by
  obtain ⟨i, op, r⟩ := e
  cases op with
  | delete u q => cases r <;> first | exact silent.elim | exact id
  | _ => exact id

theorem Silent.not_recorded (silent : Silent e) : ¬Recorded p e := by
  obtain ⟨i, op, r⟩ := e
  cases op with
  | upsert m => cases r <;> first | exact silent.elim | exact id
  | _ => exact id

theorem Silent.not_marked {id : Nat} (silent : Silent e) : ¬Marked id e := by
  obtain ⟨i, op, r⟩ := e
  cases op with
  | setTierBitmask row b => cases r <;> first | exact silent.elim | exact fun marked => marked
  | _ => exact fun marked => marked

theorem Aside.not_stored (aside : e.op.Aside p) : ¬Stored t q e := by
  obtain ⟨i, op, r⟩ := e
  cases op <;> first | exact aside.elim | exact id

theorem Aside.not_fetched (aside : e.op.Aside p) : ¬Fetched t q e := by
  obtain ⟨i, op, r⟩ := e
  cases op <;> first | exact aside.elim | exact id

theorem Aside.not_dropped (aside : e.op.Aside p) : ¬Dropped t q e := by
  obtain ⟨i, op, r⟩ := e
  cases op <;> first | exact aside.elim | exact id

theorem Aside.not_recorded (aside : e.op.Aside p) : ¬Recorded p e := by
  obtain ⟨i, op, r⟩ := e
  cases op with
  | upsert m => cases r <;> first | exact aside | exact id
  | _ => exact id

theorem Aside.not_marked {id : Nat} (aside : e.op.Aside p) : ¬Marked id e := by
  obtain ⟨i, op, r⟩ := e
  cases op <;> first | exact aside.elim | exact fun marked => marked

theorem Aside.spares {op : Step} (aside : op.Aside p) : op.Spares p := by
  cases op <;> first | exact aside.elim | trivial

end Step

inductive WriteStep (sha256 : Bytes → Text) (p : FvfsPath) (data : Bytes) (i : ι) (c : Choice)
    (w : World) : WritePhase → Event Sys ι → World → WritePhase → Prop
  | store : WriteStep sha256 p data i c w .storing ⟨i, .put .localDisk p data, .ok ()⟩
      (w.setObject .localDisk p (some data)) .timing
  | unstored (e : FvfsError) (faulty : ¬c.Faultless) :
      WriteStep sha256 p data i c w .storing ⟨i, .put .localDisk p data, .error e⟩ w .failed
  | tear (e : FvfsError) (n : Nat) (faulty : ¬c.Faultless) (torn : c.torn = some n) :
      WriteStep sha256 p data i c w .storing ⟨i, .put .localDisk p data, .error e⟩
        (w.setObject .localDisk p (some (data.take n))) .failed
  | time : WriteStep sha256 p data i c w .timing ⟨i, .now, c.clock⟩ w (.recording c.clock)
  | record (now : Int) : WriteStep sha256 p data i c w (.recording now)
      ⟨i, .upsert (Router.writtenMetadata sha256 p data now),
        .ok (w.store.upsert (Router.writtenMetadata sha256 p data now)).1⟩
      (w.withStore (w.store.upsert (Router.writtenMetadata sha256 p data now)).2) .finishing
  | unrecorded (now : Int) (e : FvfsError) (faulty : ¬c.Faultless) :
      WriteStep sha256 p data i c w (.recording now)
        ⟨i, .upsert (Router.writtenMetadata sha256 p data now), .error e⟩ w .failed
  | aside {e : Event Sys ι} {w' : World} (elsewhere : e.op.Aside p) (same : w'.view p = w.view p) :
      WriteStep sha256 p data i c w .finishing e w' .finishing

theorem write_step {sha256 : Bytes → Text} {p : FvfsPath} {data : Bytes} {phase : WritePhase}
    {op : Step} (permitted : (writeProtocol sha256 p data).permits phase op) (i : ι) (c : Choice)
    (w : World) :
    WriteStep sha256 p data i c w phase ⟨i, op, (perform op c w).1⟩ (perform op c w).2
      ((writeProtocol sha256 p data).next phase op (perform op c w).1) := by
  cases phase with
  | storing =>
    obtain rfl : op = .put .localDisk p data := permitted
    simp only [perform]
    rcases putObject_cases (c := c) (w := w) .localDisk p data with
      ⟨_, eq⟩ | ⟨e, faulty, eq⟩ | ⟨e, n, faulty, torn, eq⟩ <;> rw [eq]
    · exact .store
    · exact .unstored e faulty
    · exact .tear e n faulty torn
  | timing =>
    obtain rfl : op = .now := permitted
    exact .time
  | recording now =>
    obtain rfl : op = .upsert (Router.writtenMetadata sha256 p data now) := permitted
    simp only [perform]
    rcases statement_cases (c := c) (w := w)
      (w.store.upsert (Router.writtenMetadata sha256 p data now)).1
      (w.store.upsert (Router.writtenMetadata sha256 p data now)).2 with eq | ⟨e, faulty, eq⟩ <;>
      rw [eq]
    · exact .record now
    · exact .unrecorded now e faulty
  | finishing =>
    have aside : op.Aside p := permitted
    have stays : (writeProtocol sha256 p data).next .finishing op (perform op c w).1 =
        .finishing := by
      cases op <;> first | exact aside.elim | rfl
    rw [stays]
    exact .aside aside (perform_spares aside.spares c w)
  | failed => exact permitted.elim

inductive EvictStep (p : FvfsPath) (t : Tier) (i : ι) (c : Choice) (w : World) :
    EvictPhase → Event Sys ι → World → EvictPhase → Prop
  | load (m : FileMetadata) (found : w.store.get p = some m)
      (safe : m.tierBitmask.safeToEvictFrom t = true) :
      EvictStep p t i c w .loading ⟨i, .metaGet p, .ok (some m)⟩ w (.dropping m)
  | drop (m : FileMetadata) : EvictStep p t i c w (.dropping m) ⟨i, .delete t p, .ok ()⟩
      (w.setObject t p none) (.marking m)
  | mark (m : FileMetadata) : EvictStep p t i c w (.marking m)
      ⟨i, .setTierBitmask m.id (m.tierBitmask.clear t), .ok ()⟩
      (w.withStore (w.store.setTierBitmask m.id (m.tierBitmask.clear t))) .ended
  | stop {phase : EvictPhase} {e : Event Sys ι} (silent : Step.Silent e)
      (cause : phase.Owes → ¬c.Faultless) : EvictStep p t i c w phase e w .ended

theorem evict_step {p : FvfsPath} {t : Tier} {phase : EvictPhase} {op : Step}
    (permitted : (evictProtocol p t).permits phase op) (i : ι) (c : Choice) (w : World) :
    EvictStep p t i c w phase ⟨i, op, (perform op c w).1⟩ (perform op c w).2
      ((evictProtocol p t).next phase op (perform op c w).1) := by
  cases phase with
  | loading =>
    obtain rfl : op = .metaGet p := permitted
    simp only [perform]
    rcases statement_cases (c := c) (w := w) (w.store.get p) w.store with eq | ⟨e, _, eq⟩ <;>
      rw [eq]
    · rw [World.withStore_self]
      cases found : w.store.get p with
      | none => exact .stop trivial False.elim
      | some m =>
        by_cases safe : m.tierBitmask.safeToEvictFrom t = true
        · simpa [evictProtocol, safe] using .load m found safe
        · simpa [evictProtocol, safe] using .stop trivial False.elim
    · exact .stop trivial False.elim
  | dropping m =>
    obtain rfl : op = .delete t p := permitted
    simp only [perform]
    rcases deleteObject_cases (c := c) (w := w) t p with eq | ⟨e, eq⟩ <;> rw [eq]
    · exact .drop m
    · exact .stop trivial False.elim
  | marking m =>
    obtain rfl : op = .setTierBitmask m.id (m.tierBitmask.clear t) := permitted
    simp only [perform]
    rcases statement_cases (c := c) (w := w) ()
      (w.store.setTierBitmask m.id (m.tierBitmask.clear t)) with eq | ⟨e, faulty, eq⟩ <;> rw [eq]
    · exact .mark m
    · exact .stop trivial fun _ => faulty
  | ended => exact permitted.elim

inductive CopyStep (p : FvfsPath) (id : Nat) (t : Tier) (i : ι) (c : Choice) (w : World) :
    CopyPhase → Event Sys ι → World → CopyPhase → Prop
  | opened (m : FileMetadata) (found : w.store.getById id = some m) :
      CopyStep p id t i c w .opening ⟨i, .metaGetById id, .ok (some m)⟩ w (.loading (some m))
  | load (o : Opened) (m : FileMetadata) (u : Tier) (found : w.store.get (o.path p) = some m)
      (plain : m.isDir = false) (fastest : m.tierBitmask.fastest = some u) :
      CopyStep p id t i c w (.loading o) ⟨i, .metaGet (o.path p), .ok (some m)⟩ w
        (.fetching o m.tierBitmask u)
  | fetch (o : Opened) (b : TierBitmask) (u : Tier) (data : Bytes)
      (there : w.tiers u (o.path p) = some data) :
      CopyStep p id t i c w (.fetching o b u) ⟨i, .get u (o.path p), .ok data⟩ w (.fetched o data)
  | fallBack (o : Opened) (b : TierBitmask) (u : Tier) (e : FvfsError)
      (colder : b.colder = some u) :
      CopyStep p id t i c w (.fetching o b .localDisk) ⟨i, .get .localDisk (o.path p), .error e⟩ w
        (.fetching o b u)
  | linger (o : Opened) (data : Bytes) {e : Event Sys ι} {w' : World} (silent : Step.Silent e)
      (same : w'.view = w.view) : CopyStep p id t i c w (.fetched o data) e w' (.fetched o data)
  | store (o : Opened) (data : Bytes) :
      CopyStep p id t i c w (.fetched o data) ⟨i, .put t (o.path p) data, .ok ()⟩
        (w.setObject t (o.path p) (some data)) (.stored o)
  | tear (o : Opened) (data : Bytes) (e : FvfsError) (n : Nat) (torn : c.torn = some n) :
      CopyStep p id t i c w (.fetched o data) ⟨i, .put t (o.path p) data, .error e⟩
        (w.setObject t (o.path p) (some (data.take n))) .ended
  | refresh (m : FileMetadata) (found : w.store.get p = some m) :
      CopyStep p id t i c w .refreshing ⟨i, .metaGet p, .ok (some m)⟩ w (.marking m)
  | mark (m : FileMetadata) : CopyStep p id t i c w (.marking m)
      ⟨i, .setTierBitmask m.id (m.tierBitmask.set t), .ok ()⟩
      (w.withStore (w.store.setTierBitmask m.id (m.tierBitmask.set t))) .ended
  | stop {phase : CopyPhase} {e : Event Sys ι} {w' : World} (silent : Step.Silent e)
      (same : w'.view = w.view) (cause : phase.Owes → ¬c.Faultless ∨ w.store.get p = none) :
      CopyStep p id t i c w phase e w' .ended

theorem copy_step {p : FvfsPath} {id : Nat} {t : Tier} {phase : CopyPhase} {op : Step}
    (permitted : (copyProtocol p id t).permits phase op) (i : ι) (c : Choice) (w : World) :
    CopyStep p id t i c w phase ⟨i, op, (perform op c w).1⟩ (perform op c w).2
      ((copyProtocol p id t).next phase op (perform op c w).1) := by
  cases phase with
  | opening =>
    obtain rfl : op = .metaGetById id := permitted
    simp only [perform]
    rcases statement_cases (c := c) (w := w) (w.store.getById id) w.store with eq | ⟨e, _, eq⟩ <;>
      rw [eq]
    · rw [World.withStore_self]
      cases found : w.store.getById id with
      | none => exact .stop trivial rfl False.elim
      | some m => exact .opened m found
    · exact .stop trivial rfl False.elim
  | loading o =>
    obtain rfl : op = .metaGet (o.path p) := permitted
    simp only [perform]
    rcases statement_cases (c := c) (w := w) (w.store.get (o.path p)) w.store with
      eq | ⟨e, _, eq⟩ <;> rw [eq]
    · rw [World.withStore_self]
      cases found : w.store.get (o.path p) with
      | none => exact .stop trivial rfl False.elim
      | some m =>
        cases dir : m.isDir with
        | true => simpa [copyProtocol, dir] using .stop trivial rfl False.elim
        | false =>
          cases fastest : m.tierBitmask.fastest with
          | none =>
            simpa [copyProtocol, dir, fastest, CopyPhase.attempting] using .stop trivial rfl False.elim
          | some u =>
            simpa [copyProtocol, dir, fastest, CopyPhase.attempting] using
              .load o m u found dir fastest
    · exact .stop trivial rfl False.elim
  | fetching o b u =>
    obtain rfl : op = .get u (o.path p) := permitted
    simp only [perform]
    rcases getObject_cases (c := c) (w := w) u (o.path p) with ⟨data, there, eq⟩ | ⟨e, eq⟩ <;>
      rw [eq]
    · exact .fetch o b u data there
    · cases u with
      | localDisk =>
        cases colder : b.colder with
        | none => simpa [copyProtocol, colder, CopyPhase.attempting] using .stop trivial rfl False.elim
        | some v =>
          simpa [copyProtocol, colder, CopyPhase.attempting] using .fallBack o b v e colder
      | nas => exact .stop trivial rfl False.elim
      | s3 => exact .stop trivial rfl False.elim
  | fetched o data =>
    rcases permitted with rfl | ⟨signal, rfl⟩ | ⟨row, rfl⟩
    · simp only [perform]
      rcases putObject_cases (c := c) (w := w) t (o.path p) data with
        ⟨_, eq⟩ | ⟨e, _, eq⟩ | ⟨e, n, _, torn, eq⟩ <;> rw [eq]
      · exact .store o data
      · exact .stop trivial rfl False.elim
      · exact .tear o data e n torn
    · exact .linger o data trivial rfl
    · refine .linger o data ?_ (statement_view_all _ fun _ => Store.rowState_recordAccess _ _)
      simp only [Step.Silent]
  | refreshing =>
    obtain rfl : op = .metaGet p := permitted
    simp only [perform]
    rcases statement_cases (c := c) (w := w) (w.store.get p) w.store with eq | ⟨e, faulty, eq⟩ <;>
      rw [eq]
    · rw [World.withStore_self]
      cases found : w.store.get p with
      | none => exact .stop trivial rfl fun _ => Or.inr found
      | some m => exact .refresh m found
    · exact .stop trivial rfl fun _ => Or.inl faulty
  | marking m =>
    obtain rfl : op = .setTierBitmask m.id (m.tierBitmask.set t) := permitted
    simp only [perform]
    rcases statement_cases (c := c) (w := w) ()
      (w.store.setTierBitmask m.id (m.tierBitmask.set t)) with eq | ⟨e, faulty, eq⟩ <;> rw [eq]
    · exact .mark m
    · exact .stop trivial rfl fun _ => Or.inl faulty
  | ended =>
    rcases permitted with ⟨row, rfl⟩ | ⟨row, error, rfl⟩
    · exact .stop trivial (statement_view_all _ fun _ => rfl) False.elim
    · exact .stop trivial (statement_view_all _ fun _ => rfl) False.elim

end Fvfs
