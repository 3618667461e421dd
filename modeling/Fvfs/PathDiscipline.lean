import Fvfs.EvictionTask

/-! Which paths the daemon hands to its backends: canonical ones, and a file is only put where
the clients ask for files. Stated as a service of the router's calls that any step keeps. -/
namespace Fvfs

open Lib

/-- What the tasks ask for and are told, where clients write at the given paths. -/
def disciplined (files : FvfsPath → Prop) : Service Sys Unit where
  pre
    | .put _ p _, _ => files p
    | .get _ p, _ => p.Canonical
    | .delete _ p, _ => p.Canonical
    | .upsert m, _ => m.path.Canonical
    | .sendPromote signal, _ => signal.path.Canonical
    | _, _ => True
  may
    | .get _ p, _, r, _ => ∀ data, r = .ok data → files p
    | .metaGetById _, _, r, _ => ∀ m, r = .ok (some m) → m.path.Canonical
    | .recvPromote, _, r, _ => ∀ signal, r = some signal → signal.path.Canonical
    | _, _, _, _ => True

def disciplinedQueries : Service Queries Unit where
  pre _ _ := True
  may
    | .filesOnTier _, _, r, _ => ∀ listed, r = .ok listed → ∀ m ∈ listed, m.path.Canonical
    | .bytesOnTier _, _, _, _ => True

/-- A world that tasks of the discipline leave. -/
structure Tame (files : FvfsPath → Prop) (w : World) : Prop where
  objects : ∀ t p, (w.tiers t p).isSome → files p
  rows : ∀ p x, w.store.rowState p = some x → p.Canonical
  signals : ∀ signal ∈ w.promotions, signal.path.Canonical

section Tame

variable {files : FvfsPath → Prop} {w : World}

theorem tame_empty : Tame files .empty := ⟨nofun, nofun, nofun⟩

theorem Tame.restart (tame : Tame files w) : Tame files w.restart := ⟨tame.objects, tame.rows, nofun⟩

theorem Tame.setObject (tame : Tame files w) {p : FvfsPath} (t : Tier) {x : Option Bytes}
    (owned : x.isSome → files p) : Tame files (w.setObject t p x) := by
  refine ⟨fun u q used => ?_, tame.rows, tame.signals⟩
  rw [World.setObject_tiers] at used
  split at used
  next here =>
    rw [here.2]
    exact owned used
  next => exact tame.objects u q used

theorem Tame.withStore (tame : Tame files w) {s : Store}
    (rows : ∀ p x, s.rowState p = some x → p.Canonical) : Tame files (w.withStore s) :=
  ⟨tame.objects, rows, tame.signals⟩

theorem Tame.statement (tame : Tame files w) {s : Store} (answer : α) (c : Choice)
    (rows : ∀ p x, s.rowState p = some x → w.store.rowState p = none → p.Canonical) :
    Tame files (statement c w answer s).2 := by
  rcases statement_cases (c := c) (w := w) answer s with eq | ⟨e, -, eq⟩
  · rw [eq]
    refine tame.withStore fun p x row => ?_
    cases there : w.store.rowState p with
    | none => exact rows p x row there
    | some y => exact tame.rows p y there
  · rw [eq]
    exact tame

theorem Tame.perform (tame : Tame files w) {op : Step} (asks : (disciplined files).pre op ())
    (c : Choice) : Tame files (perform op c w).2 := by
  have unchanged {s : Store} (same : ∀ p, s.rowState p = w.store.rowState p) :
      ∀ p x, s.rowState p = some x → w.store.rowState p = none → p.Canonical := by
    intro p x row absent
    simp [same, absent] at row
  cases op with
  | put t p data =>
    simp only [Fvfs.perform]
    rcases putObject_cases (c := c) (w := w) t p data with ⟨-, eq⟩ | ⟨e, -, eq⟩ | ⟨e, n, -, -, eq⟩
    · rw [eq]
      exact tame.setObject t fun _ => asks
    · rw [eq]
      exact tame
    · rw [eq]
      exact tame.setObject t fun _ => asks
  | get t p =>
    simp only [Fvfs.perform]
    rcases getObject_cases (c := c) (w := w) t p with ⟨data, -, eq⟩ | ⟨e, eq⟩ <;> rwa [eq]
  | delete t p =>
    simp only [Fvfs.perform]
    rcases deleteObject_cases (c := c) (w := w) t p with eq | ⟨e, eq⟩
    · rw [eq]
      exact tame.setObject t (by simp)
    · rwa [eq]
  | upsert m =>
    refine tame.statement _ c fun p x row absent => ?_
    by_cases here : p = m.path
    · rw [here]
      exact asks
    · simp [Store.rowState_upsert_other here, absent] at row
  | setTierBitmask id b =>
    refine tame.statement _ c fun p x row absent => ?_
    simp [Store.rowState_setTierBitmask, absent] at row
  | metaDelete p =>
    refine tame.statement _ c fun q x row absent => ?_
    by_cases here : q = p
    · subst here
      simp [Store.rowState_delete_self] at row
    · simp [Store.rowState_delete_other here, absent] at row
  | recordAccess id => exact tame.statement _ c (unchanged fun p => Store.rowState_recordAccess _ _)
  | walEnqueue fileId op =>
    simp only [Fvfs.perform]
    rcases enqueueEntry_cases (c := c) (w := w) fileId op with ⟨id, s, enqueued, eq⟩ | ⟨e, eq⟩
    · rw [eq]
      refine tame.withStore fun p x row => tame.rows p x ?_
      rwa [Store.rowState_walEnqueue enqueued] at row
    · rwa [eq]
  | now => exact tame
  | sendPromote signal =>
    refine ⟨tame.objects, tame.rows, fun s member => ?_⟩
    rcases List.mem_append.mp member with earlier | here
    · exact tame.signals s earlier
    · obtain rfl := List.mem_singleton.mp here
      exact asks
  | recvPromote =>
    exact ⟨tame.objects, tame.rows, fun s member => tame.signals s (List.mem_of_mem_tail member)⟩
  | metaGet | metaGetById | walComplete | walRecordFailure | walPending =>
    exact tame.statement _ c (unchanged fun p => rfl)

/-- What a tame world answers. -/
theorem Tame.told (tame : Tame files w) (op : Step) (c : Choice) :
    (disciplined files).may op () (Fvfs.perform op c w).1 () := by
  cases op with
  | get t p =>
    intro data answer
    simp only [Fvfs.perform] at answer
    rcases getObject_cases (c := c) (w := w) t p with ⟨found, there, eq⟩ | ⟨e, eq⟩
    · exact tame.objects t p (by simp [there])
    · simp [eq] at answer
  | metaGetById id =>
    intro m answer
    simp only [Fvfs.perform] at answer
    rcases statement_cases (c := c) (w := w) (w.store.getById id) w.store with eq | ⟨e, -, eq⟩
    · rw [eq] at answer
      exact tame.rows _ _ (Store.rowState_of_getById tame.rows (Except.ok.inj answer)).1
    · simp [eq] at answer
  | recvPromote => exact fun signal answer => tame.signals signal (List.mem_of_mem_head? answer)
  | _ => trivial

/-- Whatever fails, the queries keep the discipline. -/
theorem answer_disciplined :
    Implements answer (fun _ => True) disciplinedQueries (fun w _ => Tame files w) := by
  intro op c w _ _ tame _
  cases op with
  | bytesOnTier t =>
    exact ⟨(), trivial, tame.statement _ c fun p x row absent => by simp [absent] at row⟩
  | filesOnTier t =>
    refine ⟨(), fun listed eq m member => ?_,
      tame.statement _ c fun p x row absent => by simp [absent] at row⟩
    simp only [answer] at eq
    rcases statement_cases (c := c) (w := w) (w.store.filesOnTier t) w.store with same | ⟨e, -, same⟩
    · rw [same] at eq
      obtain rfl := Except.ok.inj eq
      exact tame.rows _ _ (Store.rowState_of_get (Store.listed_of_mem tame.rows member).get)
    · simp [same] at eq

end Tame

/-- The task keeps the discipline. -/
abbrev Heeds (files : FvfsPath → Prop) (task : Async α) : Prop :=
  task.meets (disciplined files) (fun _ _ => True) ()

section Heeds

variable {files : FvfsPath → Prop}

theorem Heeds.bind {task : Async α} {next : α → Async β} (first : Heeds files task)
    (rest : ∀ value, Heeds files (next value)) : Heeds files (task >>= next) :=
  Prog.meets_seq first (fun value _ _ => rest value) fun _ _ _ => trivial

theorem Heeds.inspect {task : Async α} {next : Outcome α → Async β} (first : Heeds files task)
    (rest : ∀ r, Heeds files (next r)) : Heeds files (task.attempt >>= next) :=
  Prog.meets_try first fun r _ _ => rest r

theorem heeds_lift {op : Step} {into : Sys.Res op → Outcome α}
    (asks : (disciplined files).pre op ()) :
    Heeds files (.call op fun r => .lift (into r) : Async α) :=
  ⟨asks, fun _ _ _ => (Prog.meets_lift ..).mpr trivial⟩

theorem heeds_now : Heeds files Async.now := ⟨trivial, fun _ _ _ => trivial⟩

namespace Router

variable {p : FvfsPath}

theorem heeds_requireMetadata (p : FvfsPath) : Heeds files (requireMetadata p) := by
  refine Heeds.bind (heeds_lift trivial) fun found => ?_
  cases found <;> trivial

theorem disciplined_get (canonical : p.Canonical) (t : Tier) :
    (Async.get t p).meets (disciplined files) (fun r _ => ∀ data, r = .ok data → files p) () :=
  ⟨canonical, fun _ _ told => (Prog.meets_lift ..).mpr told⟩

/-- What is read was put where files are. -/
theorem disciplined_read (canonical : p.Canonical) :
    (read p).meets (disciplined files) (fun r _ => ∀ data, r = .ok data → files p) () := by
  refine Prog.meets_seq (heeds_requireMetadata p) (fun m _ _ => ?_) fun e _ _ => nofun
  split
  · exact nofun
  · have told : (readTiers p m.tierBitmask).meets (disciplined files)
        (fun r _ => ∀ data, r = .ok data → files p) () := by
      refine meets_readTiers (fun _ => True) (fun _ => ?_) (fun _ => trivial) (fun t _ _ _ => ?_)
        fun _ _ _ => nofun
      · refine Prog.meets_mono (disciplined_get canonical .localDisk) fun r _ told => ?_
        cases r with
        | ok data => exact told
        | error e => trivial
      · refine meets_readAndPromote (Prog.meets_mono (disciplined_get canonical t) fun r _ told => ?_)
        cases r with
        | ok data => exact ⟨canonical, fun _ _ _ => told⟩
        | error e => exact told
    refine Prog.meets_seq told (fun data _ own => ?_) fun e _ _ => nofun
    exact Prog.meets_try (heeds_lift trivial) fun _ _ _ _ _ => own data rfl

theorem heeds_read (canonical : p.Canonical) : Heeds files (read p) :=
  Prog.meets_mono (disciplined_read canonical) fun _ _ _ => trivial

theorem heeds_ensureParentDirs (canonical : p.Canonical) : Heeds files (ensureParentDirs p) := by
  rw [ensureParentDirs_eq_dirs]
  refine Prog.meets_of_only (only_ensureDirs (fun _ _ _ => trivial) (fun _ => trivial) ?_) ()
  exact fun q above now _ => FvfsPath.ancestor_canonical canonical above

theorem heeds_enqueueReplication (fileId : Nat) : Heeds files (enqueueReplication fileId) :=
  Heeds.bind (heeds_lift trivial) fun _ => Heeds.bind (heeds_lift trivial) fun _ => trivial

theorem heeds_write (sha256 : Bytes → Text) (owned : files p) (canonical : p.Canonical)
    (data : Bytes) : Heeds files (write sha256 p data) := by
  refine Heeds.bind (heeds_lift owned) fun _ => Heeds.bind heeds_now fun now => ?_
  refine Heeds.bind (heeds_lift ?_) fun id => ?_
  · exact canonical
  · exact Heeds.bind (heeds_ensureParentDirs canonical) fun _ => heeds_enqueueReplication id

theorem heeds_mkdir (canonical : p.Canonical) : Heeds files (mkdir p) := by
  refine Heeds.bind heeds_now fun now => Heeds.bind (heeds_lift ?_) fun id => ?_
  · exact canonical
  · exact heeds_ensureParentDirs canonical

theorem heeds_deleteTiers (canonical : p.Canonical) (b : TierBitmask) (order : List Tier) :
    Heeds files (deleteTiers p b order) := by
  induction order with
  | nil => trivial
  | cons t rest ih =>
    unfold deleteTiers
    split
    · exact Heeds.inspect (heeds_lift canonical) fun _ => ih
    · exact ih

theorem heeds_delete (order : TaskOrder) (canonical : p.Canonical) :
    Heeds files (delete order p) :=
  Heeds.bind (heeds_requireMetadata p) fun m =>
    Heeds.bind (heeds_deleteTiers canonical m.tierBitmask order.val) fun _ => heeds_lift trivial

theorem heeds_evictFromTier (canonical : p.Canonical) (t : Tier) :
    Heeds files (evictFromTier p t) := by
  refine Heeds.bind (heeds_requireMetadata p) fun m => ?_
  split
  · trivial
  · split
    · trivial
    · exact Heeds.bind (heeds_lift canonical) fun _ => heeds_lift trivial

theorem heeds_promote (canonical : p.Canonical) : Heeds files (promote p) := by
  refine Prog.meets_try (disciplined_read canonical) fun r _ told => ?_
  cases r with
  | error e => trivial
  | ok data =>
    refine Heeds.inspect (heeds_lift (told data rfl)) fun stored => ?_
    cases stored with
    | error e => trivial
    | ok =>
      refine Heeds.inspect (heeds_lift trivial) fun found => ?_
      rcases found with e | _ | m
      · trivial
      · trivial
      · exact Heeds.inspect (heeds_lift trivial) fun _ => trivial

theorem heeds_promoteNext : Heeds files promoteNext := by
  refine ⟨trivial, fun received _ told => ?_⟩
  cases received with
  | none => trivial
  | some signal => exact heeds_promote (told signal rfl)

theorem heeds_uploadToS3 {m : FileMetadata} (canonical : m.path.Canonical) :
    Heeds files (uploadToS3 m) := by
  refine Prog.meets_seq (disciplined_read canonical) (fun data _ told => ?_) fun _ _ _ => trivial
  exact Heeds.bind (heeds_lift (told data rfl)) fun _ => heeds_lift trivial

theorem heeds_replicateToNas {m : FileMetadata} (canonical : m.path.Canonical) :
    Heeds files (replicateToNas m) := by
  refine Prog.meets_seq (disciplined_get canonical .localDisk) (fun data _ told => ?_)
    fun _ _ _ => trivial
  exact Heeds.bind (heeds_lift (told data rfl)) fun _ => heeds_lift trivial

theorem heeds_settle (entry : WalEntry) (r : Outcome Unit) : Heeds files (settle entry r) := by
  cases r <;> exact Heeds.inspect (heeds_lift trivial) fun _ => trivial

/-- Of the row an entry names only the path is used as one. -/
theorem heeds_load {id : Nat} {next : Outcome (Option FileMetadata) → Async α}
    (refused : ∀ e, Heeds files (next (.error e))) (gone : Heeds files (next (.ok none)))
    (found : ∀ m : FileMetadata, m.path.Canonical → Heeds files (next (.ok (some m)))) :
    Heeds files ((Async.metaGetById id).attempt >>= next) := by
  refine ⟨trivial, fun r _ told => ?_⟩
  rcases r with e | _ | m
  · exact refused e
  · exact gone
  · exact found m (told m rfl)

theorem heeds_flushEntry (entry : WalEntry) : Heeds files (flushEntry entry) :=
  heeds_load (fun _ => trivial) (Heeds.inspect (heeds_lift trivial) fun _ => trivial)
    fun _ canonical => Heeds.inspect (heeds_uploadToS3 canonical) fun r => heeds_settle entry r

theorem heeds_flushEntries (entries : List WalEntry) : Heeds files (flushEntries entries) := by
  induction entries with
  | nil => trivial
  | cons entry rest ih => exact Heeds.bind (heeds_flushEntry entry) fun _ => ih

theorem heeds_flushPending : Heeds files flushPending := by
  refine Heeds.inspect (heeds_lift trivial) fun r => ?_
  cases r with
  | error e => trivial
  | ok entries => exact heeds_flushEntries _

theorem heeds_replayOp (entry : WalEntry) {m : FileMetadata} (canonical : m.path.Canonical) :
    Heeds files (replayOp entry m) := by
  unfold replayOp
  split
  · exact heeds_replicateToNas canonical
  · exact heeds_uploadToS3 canonical

theorem heeds_replayEntry (entry : WalEntry) (attempts : Nat) :
    Heeds files (replayEntry entry attempts) := by
  induction attempts with
  | zero => trivial
  | succ attempts ih =>
    refine heeds_load (fun _ => trivial) (Heeds.inspect (heeds_lift trivial) fun _ => trivial) ?_
    refine fun m canonical => Heeds.inspect (heeds_replayOp entry canonical) fun r => ?_
    cases r with
    | ok => exact heeds_settle entry _
    | error e => exact Heeds.bind (heeds_settle entry _) fun _ => ih

theorem heeds_replayEntries (entries : List WalEntry) : Heeds files (replayEntries entries) := by
  induction entries with
  | nil => trivial
  | cons entry rest ih => exact Heeds.bind (heeds_replayEntry entry _) fun _ => ih

theorem heeds_replayWal : Heeds files replayWal := by
  refine Heeds.inspect (heeds_lift trivial) fun r => ?_
  cases r with
  | error e => trivial
  | ok entries => exact heeds_replayEntries entries

end Router

namespace EvictionTask

theorem heeds_evictFiles (t : Tier) (targetFree freed : Nat) {candidates : List FileMetadata}
    (canonical : ∀ m ∈ candidates, m.path.Canonical) :
    Heeds files (evictFiles t targetFree freed candidates) := by
  induction candidates generalizing freed with
  | nil => trivial
  | cons file rest ih =>
    have onward (freed : Nat) := ih freed fun m member => canonical m (List.mem_cons_of_mem _ member)
    unfold evictFiles
    split
    · trivial
    · split
      · exact onward freed
      · refine Heeds.inspect (Router.heeds_evictFromTier (canonical file List.mem_cons_self) t) ?_
        intro r
        cases r with
        | ok => exact onward _
        | error e => exact onward _

theorem heeds_runEvictionCycle (ranking : Ranking) (t : Tier) (wm : TierWatermarks) :
    (runEvictionCycle ranking t wm).meets ((disciplined files).sum disciplinedQueries)
      (fun _ _ => True) () := by
  have counted : (bytesOnTier t).meets ((disciplined files).sum disciplinedQueries)
      (fun _ _ => True) () := ⟨trivial, fun r _ _ => (Prog.meets_lift ..).mpr trivial⟩
  have listed : (filesOnTier t).meets ((disciplined files).sum disciplinedQueries)
      (fun r _ => ∀ found, r = .ok found → ∀ m ∈ found, m.path.Canonical) () :=
    ⟨trivial, fun r _ told => (Prog.meets_lift ..).mpr told⟩
  refine Prog.meets_try counted fun r _ _ => ?_
  cases r with
  | error e => trivial
  | ok used =>
    dsimp only
    split
    · trivial
    · refine Prog.meets_try listed fun r _ told => ?_
      cases r with
      | error e => trivial
      | ok found =>
        have canonical (m : FileMetadata) (member : m ∈ ranking.val found) : m.path.Canonical :=
          told found rfl m ((ranking.property found).mem_iff.mp member)
        refine Prog.meets_seq ((Prog.meets_inl ..).mpr (heeds_evictFiles t _ 0 canonical)) ?_ ?_
        · exact fun _ _ _ => trivial
        · exact fun _ _ _ => trivial

end EvictionTask

end Heeds

end Fvfs
