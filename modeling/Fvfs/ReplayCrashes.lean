import Fvfs.Lib.Recovery
import Fvfs.Replay
import Fvfs.Stretches

/-! The WAL replay under crashes. Every step of a replay, and every crash and restart,
leaves what a replay comes to as it is. -/
namespace Fvfs

open Lib

namespace Router

open Async

/-- From this durable state the program answers `r`, and leaves the state as it is. -/
def Responds (b : Backends) (x : World) (prog : Prog Sys ε α) (r : Except ε α) : Prop :=
  ∀ (inv : World → Prop) (post : Except ε α → World → Prop) (w : World), w.bare = x → inv x →
    (∀ w', w'.bare = x → post r w') →
    prog.always b.perform (fun _ => True) (fun w => inv w.bare) post w

variable {b : Backends} {x : World} {p : FvfsPath}

theorem responds_ret (value : α) : Responds b x (.ret value : Prog Sys ε α) (.ok value) :=
  fun _ _ w same _ done => done w same

theorem responds_fail (e : ε) : Responds b x (.fail e : Prog Sys ε α) (.error e) :=
  fun _ _ w same _ done => done w same

theorem responds_call {op : Step} {next : op.Res → Prog Sys ε α} {r : Except ε α}
    (quiet : ∀ c w, w.bare = x →
      (b.perform op c w).2.bare = x ∧ Responds b x (next (b.perform op c w).1) r) :
    Responds b x (.call op next) r := by
  intro inv post w same here done
  subst same
  refine ⟨here, fun c _ => ?_⟩
  obtain ⟨after, rest⟩ := quiet c w rfl
  exact rest inv post _ after here done

theorem Responds.bind {first : Prog Sys ε α} {k : α → Prog Sys ε β} {value : α} {r : Except ε β}
    (answer : Responds b x first (.ok value)) (rest : Responds b x (k value) r) :
    Responds b x (first >>= k) r := by
  intro inv post w same here done
  apply Prog.always_bind
  exact answer inv _ w same here fun w' same' => rest inv post w' same' here done

theorem Responds.fail {first : Prog Sys ε α} {k : α → Prog Sys ε β} {e : ε}
    (answer : Responds b x first (.error e)) : Responds b x (first >>= k) (.error e) := by
  intro inv post w same here done
  apply Prog.always_bind
  exact answer inv _ w same here done

/-- Calls that leave this durable state as it is, and what they answer in it. -/
def idle (b : Backends) (x : World) : Service Sys Unit where
  pre op _ := ∀ c w, w.bare = x → (b.perform op c w).2.bare = x
  may op _ answer _ := ∃ c w, w.bare = x ∧ (b.perform op c w).1 = answer

theorem responds_of_meets {prog : Prog Sys ε α} {r : Except ε α}
    (meets : prog.meets (idle b x) (fun answer _ => answer = r) ()) : Responds b x prog r := by
  induction prog with
  | ret value =>
    obtain rfl : .ok value = r := meets
    exact responds_ret value
  | fail e =>
    obtain rfl : .error e = r := meets
    exact responds_fail e
  | call op next ih =>
    exact responds_call fun c w same =>
      ⟨meets.1 c w same, ih _ (meets.2 _ () ⟨c, w, same, rfl⟩)⟩

theorem perform_get (b : Backends) (t : Tier) (p : FvfsPath) (c : Int) (w : World) :
    b.perform (.get t p) c w = (b.fetch w t p, w) := by
  simp only [Backends.perform, Fvfs.perform, getObject, Backends.fault, Backends.fetch]
  cases b.getFault t (w.tiers t) p with
  | some e => rfl
  | none => cases w.tiers t p <;> rfl

theorem idle_get (t : Tier) (p : FvfsPath) {post : Outcome Bytes → Unit → Prop}
    (holds : post (b.fetch x t p) ()) : (get t p).meets (idle b x) post () := by
  refine ⟨fun c w same => by rw [perform_get]; exact same, ?_⟩
  rintro _ _ ⟨c, w, rfl, rfl⟩
  rw [perform_get]
  exact (Prog.meets_lift ..).mpr holds

theorem responds_get (t : Tier) (p : FvfsPath) : Responds b x (get t p) (b.fetch x t p) :=
  responds_of_meets (idle_get t p rfl)

theorem responds_requireMetadata {k : FileMetadata → Async β} {r : Outcome β}
    (missing : x.store.get p = none → r = .error (.notFound p.text))
    (found : ∀ m, x.store.get p = some m.bare → Responds b x (k m) r) :
    Responds b x (requireMetadata p >>= k) r := by
  refine responds_call fun c w same => ⟨same, ?_⟩
  subst same
  rw [World.bare_store, Store.bare_get] at missing found
  change Responds b w.bare ((Prog.lift (.ok (w.store.get p)) >>= _) >>= k) r
  cases there : w.store.get p with
  | none =>
    rw [there] at missing
    rw [missing rfl]
    exact responds_fail _
  | some m => exact found m (by rw [there]; rfl)

theorem fetchColder_eq (p : FvfsPath) (bits : TierBitmask) :
    b.fetchColder x p bits = match bits.colder with
      | some t => b.fetch x t p
      | none => .error (.notFound p.text) := by
  unfold Backends.fetchColder TierBitmask.colder
  split
  · rfl
  · split <;> rfl

theorem responds_readTiers (p : FvfsPath) (bits : TierBitmask) :
    Responds b x (readTiers p bits) (b.fetchFastest x p bits) := by
  refine responds_of_meets (meets_readTiers
    (fun _ => b.fetchColder x p bits = b.fetchFastest x p bits) (fun hot => ?_) (fun cold => ?_)
    (fun t _ tier fallback => ?_) fun _ nowhere fallback => ?_)
  · apply idle_get
    unfold Backends.fetchFastest
    rw [if_pos hot]
    cases b.fetch x .localDisk p <;> rfl
  · simp [Backends.fetchFastest, cold]
  · rw [← fallback, fetchColder_eq, tier]
    apply meets_readAndPromote
    apply idle_get
    dsimp only
    cases b.fetch x t p with
    | ok data => exact ⟨fun _ _ same => same, fun _ _ ⟨_, _, _, sent⟩ => sent ▸ rfl⟩
    | error e => rfl
  · rw [← fallback, fetchColder_eq, nowhere]

theorem responds_read (p : FvfsPath) : Responds b x (Router.read p) (b.readNow x p) := by
  unfold Router.read
  apply responds_requireMetadata
  · intro missing
    simp only [Backends.readNow, missing]
  · intro m found
    have dir : m.bare.isDir = m.isDir := rfl
    have bits : m.bare.tierBitmask = m.tierBitmask := rfl
    simp only [Backends.readNow, found, dir, bits]
    split
    · exact responds_fail _
    · have tiers := responds_readTiers (b := b) (x := x) p m.tierBitmask
      cases got : b.fetchFastest x p m.tierBitmask with
      | error e =>
        rw [got] at tiers
        exact tiers.fail
      | ok data =>
        rw [got] at tiers
        refine tiers.bind (responds_call fun c w same => ⟨?_, responds_ret data⟩)
        rw [← same]
        exact congrArg w.bare.withStore (Store.bare_recordAccess _ _ _)

theorem perform_put (b : Backends) (t : Tier) (p : FvfsPath) (data : Bytes) (c : Int) (w : World) :
    b.perform (.put t p data) c w = match b.putFault t (w.tiers t) p data with
      | some e => (.error e, w)
      | none => (.ok (), w.setObject t p (some data)) := by
  simp only [Backends.perform, Fvfs.perform, putObject, Backends.fault]
  cases b.putFault t (w.tiers t) p data <;> rfl

/-- How an entry obtains the bytes it copies. -/
def loadBytes (op : WalOp) (p : FvfsPath) : Async Bytes :=
  match op with
  | .replicateNas => get .localDisk p
  | .uploadS3 => Router.read p

theorem replayOp_eq (entry : WalEntry) (m : FileMetadata) :
    replayOp entry m = (do
      let data ← loadBytes entry.op m.path
      put entry.op.target m.path data
      setTierBitmask m.id (m.tierBitmask.set entry.op.target)) := by
  unfold replayOp
  cases entry.op <;> rfl

theorem responds_loadBytes (op : WalOp) (p : FvfsPath) :
    Responds b x (loadBytes op p) (b.source x op p) := by
  cases op with
  | replicateNas => exact responds_get .localDisk p
  | uploadS3 => exact responds_read p

/-- An attempt at the copy and its bit, told by what it comes to. -/
theorem always_replayOp (inv : World → Prop) {post : Outcome Unit → World → Prop} {w : World}
    {entry : WalEntry} {m : FileMetadata} (here : inv w.bare)
    (fails : ∀ e, b.attempt w.bare entry.op m = .error e → ∀ w', w'.bare = w.bare →
      post (.error e) w')
    (stored : ∀ data, b.source w.bare entry.op m.path = .ok data →
      b.putFault entry.op.target (w.tiers entry.op.target) m.path data = none →
      inv (w.bare.setObject entry.op.target m.path (some data)))
    (succeeds : ∀ x, b.attempt w.bare entry.op m = .ok x → ∀ w', w'.bare = x → post (.ok ()) w') :
    (replayOp entry m).always b.perform (fun _ => True) (fun w => inv w.bare) post w := by
  have source := responds_loadBytes (b := b) (x := w.bare) entry.op m.path
  rw [replayOp_eq]
  cases got : b.source w.bare entry.op m.path with
  | error e =>
    rw [got] at source
    have failed : b.attempt w.bare entry.op m = .error e := by simp only [Backends.attempt, got]
    exact source.fail inv post w rfl here fun w' same => fails e failed w' same
  | ok data =>
    rw [got] at source
    apply Prog.always_bind
    refine source inv _ w rfl here fun w' same => ?_
    have tiers := congrArg World.tiers same
    have store := congrArg World.store same
    simp only [World.bare_tiers, World.bare_store] at tiers store
    have still : inv w'.bare := by
      rw [same]
      exact here
    refine ⟨still, fun c _ => ?_⟩
    rw [perform_put, tiers]
    cases refused : b.putFault entry.op.target (w.tiers entry.op.target) m.path data with
    | some e =>
      have failed : b.attempt w.bare entry.op m = .error e := by
        simp only [Backends.attempt, got, World.bare_tiers, refused]
      exact fails e failed w' same
    | none =>
      have after : (w'.setObject entry.op.target m.path (some data)).bare =
          w.bare.setObject entry.op.target m.path (some data) := by
        rw [World.bare_setObject, same]
      have kept : inv (w'.setObject entry.op.target m.path (some data)).bare := by
        rw [after]
        exact stored data got refused
      refine ⟨kept, fun c _ => succeeds _ (Backends.attempt_of got refused) _ ?_⟩
      change ((w'.setObject _ _ _).withStore (w'.store.setTierBitmask _ _)).bare = _
      rw [World.bare_withStore, after, Store.bare_setTierBitmask, store, World.bare_store]

/-- The retry loop holds the entry as it was loaded; `head` is the same entry as it is now. -/
theorem always_replayEntry {n attempts : Nat} {error : Option Text} {head : WalEntry}
    {rest : List WalEntry} {w : World} (left : n + head.attempts = maxAttempts)
    (next : w.bare.store.retriable = head :: rest) :
    (replayEntry { head with attempts := attempts, lastError := error } n).always b.perform
      (fun _ => True) (fun w' => b.replayed w'.bare = b.replayed w.bare)
      (fun r w' => r = .ok () ∧ b.replayed w'.bare = b.replayed w.bare ∧
        w'.bare.store.retriable = rest) w := by
  induction n generalizing head w with
  | zero =>
    have live := (Store.retriable_split next).1
    omega
  | succ n ih =>
    have live : head.attempts < maxAttempts := by omega
    have finish {x w' : World} (same : w'.bare = x) (settled : b.settle w.bare head = x) :
        b.replayed w'.bare = b.replayed w.bare ∧ w'.bare.store.retriable = rest := by
      rw [same, ← settled]
      exact ⟨Backends.replayed_of_done next rfl, Backends.retriable_settle next⟩
    have row : w.bare.store.getById head.fileId = (w.store.getById head.fileId).map .bare :=
      Store.bare_getById _ _
    refine ⟨rfl, fun c _ => ?_⟩
    change ((Prog.lift (.ok (w.store.getById head.fileId)) : Async _).attempt >>= _).always
      _ _ _ _ w
    cases found : w.store.getById head.fileId with
    | none =>
      rw [found] at row
      refine ⟨rfl, fun c _ => ⟨rfl, finish rfl ?_⟩⟩
      simp only [Backends.settle, row]
      rfl
    | some m =>
      rw [found] at row
      refine Prog.always_try (p := replayOp _ m)
        (always_replayOp (fun x => b.replayed x = b.replayed w.bare) rfl ?_ ?_ ?_)
      · intro e failed w' same
        have failed : b.attempt w.bare head.op m.bare = .error e := failed
        have counted := Store.retriable_walRecordFailure next e.toText
        have recorded : (w'.withStore (w'.store.walRecordFailure head.id e.toText)).bare =
            w.bare.withStore (w.bare.store.walRecordFailure head.id e.toText) := by
          rw [← same]
          rfl
        refine ⟨congrArg b.replayed same, fun c _ => ?_⟩
        change (replayEntry _ n).always _ _ _ _
          (w'.withStore (w'.store.walRecordFailure head.id e.toText))
        cases n with
        | zero =>
          refine ⟨rfl, finish recorded ?_⟩
          have last : maxAttempts - head.attempts = 1 := by omega
          rw [Backends.settle_failed row failed, last]
          rfl
        | succ n =>
          rw [if_pos (by omega)] at counted
          have more := @ih { head with attempts := head.attempts + 1, lastError := some e.toText }
            (w'.withStore (w'.store.walRecordFailure head.id e.toText)) (by simp only; omega)
            (by rw [recorded]; exact counted)
          have kept := Backends.replayed_of_next next counted
            (Backends.settle_recorded row failed live (some e.toText))
          simp only [recorded] at more
          rw [show b.replayed _ = b.replayed w.bare from kept] at more
          exact more
      · intro data got accepted
        exact Backends.replayed_of_next next next
          (Backends.settle_stored (m := m.bare) row got accepted)
      · intro y done w' same
        have done : b.attempt w.bare head.op m.bare = .ok y := done
        have marked : b.replayed w'.bare = b.replayed w.bare := by
          rw [same]
          exact Backends.replayed_of_next next ((Backends.attempt_retriable done).trans next)
            (Backends.settle_marked row done)
        refine ⟨marked, fun c _ => ⟨rfl, finish ?_ (Backends.settle_done row done)⟩⟩
        rw [← same]
        rfl

theorem always_replayEntries {entries : List WalEntry} {w : World}
    (current : entries.filter (fun e => e.attempts < maxAttempts) = w.bare.store.retriable) :
    (replayEntries entries).always b.perform (fun _ => True)
      (fun w' => b.replayed w'.bare = b.replayed w.bare)
      (fun _ w' => b.replayed w'.bare = b.replayed w.bare ∧ w'.bare.store.retriable = []) w := by
  induction entries generalizing w with
  | nil => exact ⟨rfl, current.symm⟩
  | cons entry entries ih =>
    apply Prog.always_bind
    rw [List.filter_cons] at current
    split at current
    next live =>
      have live : entry.attempts < maxAttempts := by simpa using live
      have here := @always_replayEntry b (maxAttempts - entry.attempts) entry.attempts
        entry.lastError entry _ w (by omega) current.symm
      refine Prog.always_mono here ?_
      rintro r w' ⟨rfl, same, after⟩
      have rest := ih after.symm
      rw [same] at rest
      exact rest
    next spent =>
      have none_left : maxAttempts - entry.attempts = 0 := by
        have : ¬entry.attempts < maxAttempts := by simpa using spent
        omega
      rw [none_left]
      exact ih current

theorem replayWal_converges (b : Backends) :
    replayWal.Converges b.perform World.restart (fun w => b.replayed w.bare) World.bare := by
  refine ⟨fun w => rfl, fun w => ⟨rfl, fun c _ => ?_⟩⟩
  refine Prog.always_mono (always_replayEntries (w := w) rfl) ?_
  rintro r w' ⟨same, done⟩
  refine ⟨same, ?_⟩
  rw [← same]
  unfold Backends.replayed
  rw [done]
  rfl

/-- However often replays are cut short, each between two of its steps, a full one ends
with the tiers, the rows and the entries that one full replay would have left. -/
theorem replay_interrupted (b : Backends) (crashes : List (Nat × (Nat → Int)))
    (env env' : Nat → Int) (w : World) :
    let recovered := (replayWal.exec b.perform env
      (replayWal.interrupted b.perform World.restart crashes w)).2
    let once := (replayWal.exec b.perform env' w).2
    recovered.tiers = once.tiers ∧
      (∀ p, recovered.store.rowState p = once.store.rowState p) ∧
      recovered.store.wal = once.store.wal := by
  have same := (replayWal_converges b).recovers crashes env env' w
  have tiers := congrArg World.tiers same
  have rows (p : FvfsPath) := congrArg (fun x => x.store.rowState p) same
  have wal := congrArg (fun x => x.store.wal) same
  simp only [World.bare_tiers, World.bare_store, Store.bare_rowState, Store.bare_wal]
    at tiers rows wal
  exact ⟨tiers, rows, wal⟩

/-- A write replayed three times with the NAS down, twice cut short: the upload is done and
the copy to the NAS given up as after one replay. -/
theorem replay_interrupted_mounted :
    let b := Backends.mounted fun t => t = .nas
    let w := ((write sampleSha256 ⟨['/', 'a']⟩ [1]).exec b.perform (fun _ => 0) .empty).2
    let recovered := (replayWal.exec b.perform (fun _ => 3)
      (replayWal.interrupted b.perform World.restart [(9, fun _ => 1), (30, fun _ => 2)] w)).2
    let once := (replayWal.exec b.perform (fun _ => 1) w).2
    recovered.tiers = once.tiers ∧
      (∀ p, recovered.store.rowState p = once.store.rowState p) ∧
      recovered.store.wal = once.store.wal :=
  replay_interrupted (Backends.mounted fun t => t = .nas) [(9, fun _ => 1), (30, fun _ => 2)]
    (fun _ => 3) (fun _ => 1) _

end Router

end Fvfs
