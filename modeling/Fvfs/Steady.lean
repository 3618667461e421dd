import Fvfs.Lib.Rely
import Fvfs.Requests

/-! Reads, uploads, replications, replays and promotions among each other. While no client
writes or deletes and nothing is evicted, they may take their steps in any order. -/
namespace Fvfs

open Lib
open Function (update)

/-- Some tier's bit is set, and every tier whose bit is set holds the content. -/
structure Held (b : TierBitmask) (object : Tier → Option Bytes) (data : Bytes) : Prop where
  somewhere : ∃ t, b.has t = true
  holds : ∀ t, b.has t = true → object t = some data

/-- What a path stands for between two steps: a copy may lie on a tier before its bit is
set, and after a stale bitmask has taken the bit away again. -/
inductive Upholds (v : View) : Option Bytes → Prop
  | absent (row : v.row = none) (clean : v.object .localDisk = none) : Upholds v none
  | directory (row : v.row = some x) (dir : x.isDir = true)
      (clean : v.object .localDisk = none) : Upholds v none
  | file (row : v.row = some x) (plain : x.isDir = false) (held : Held x.tierBitmask v.object data)
      (own : ∀ found, v.object .localDisk = some found → found = data) : Upholds v (some data)

structure Steady (files : FvfsPath → Option Bytes) (w : World) : Prop where
  canonical : ∀ p x, w.store.rowState p = some x → p.Canonical
  serves : ∀ p, Upholds (w.view p) (files p)

/-- Rows keep their ids and kinds, and a tier that holds a path's content keeps it. -/
structure Grows (files : FvfsPath → Option Bytes) (w v : World) : Prop where
  row : ∀ p x, w.store.rowState p = some x →
    ∃ y, v.store.rowState p = some y ∧ y.id = x.id ∧ y.isDir = x.isDir
  copy : ∀ t p data, files p = some data → w.tiers t p = some data → v.tiers t p = some data

theorem Represents.serves {v : View} {content : Option Bytes} (rep : Represents v content) :
    Upholds v content := by
  have own (data : Bytes) := @Represents.local_content v content data rep
  cases rep with
  | absent row clean => exact .absent row clean
  | directory row dir clean => exact .directory row dir clean
  | file row plain copies =>
    refine .file row plain ⟨copies.somewhere, copies.holds⟩ fun found there => ?_
    exact (Option.some.inj (own found there)).symm

theorem Refines.steady {w : World} {files : FvfsPath → Option Bytes} (refines : Refines w files) :
    Steady files w := ⟨refines.canonical, fun p => (refines.represents p).serves⟩

theorem Grows.refl {files : FvfsPath → Option Bytes} (w : World) : Grows files w w :=
  ⟨fun _ x row => ⟨x, row, rfl, rfl⟩, fun _ _ _ _ there => there⟩

theorem Grows.trans {files : FvfsPath → Option Bytes} {u v w : World} (first : Grows files u v)
    (second : Grows files v w) : Grows files u w := by
  constructor
  · intro p x row
    obtain ⟨y, there, id, kind⟩ := first.row p x row
    obtain ⟨z, last, id', kind'⟩ := second.row p y there
    exact ⟨z, last, id'.trans id, kind'.trans kind⟩
  · exact fun t p data current there => second.copy t p data current (first.copy t p data current there)

/-- What the tasks agree on. -/
def steadiness (files : FvfsPath → Option Bytes) : Rely World where
  inv := Steady files
  grows := Grows files
  refl := Grows.refl
  trans := Grows.trans

/-- No step leaves part of an object behind; otherwise any step may fail. -/
abbrev Amid (files : FvfsPath → Option Bytes) (task : Async α)
    (post : Outcome α → World → Prop) (w : World) : Prop :=
  task.amid perform Choice.Clean (steadiness files) post w

section Steps

variable {files : FvfsPath → Option Bytes} {w v : World} {p : FvfsPath} {data : Bytes}

theorem Upholds.of_file {x : Store.RowState} (serves : Upholds (w.view p) (files p))
    (row : w.store.rowState p = some x) (plain : x.isDir = false) :
    ∃ data, files p = some data ∧ Held x.tierBitmask (w.view p).object data := by
  revert serves
  generalize files p = content
  intro serves
  cases serves with
  | absent missing => simp [row] at missing
  | directory there dir =>
    obtain rfl := Option.some.inj (row.symm.trans there)
    simp [plain] at dir
  | file there _ held =>
    obtain rfl := Option.some.inj (row.symm.trans there)
    exact ⟨_, rfl, held⟩

theorem Upholds.local_own {content : Option Bytes} {view : View} (serves : Upholds view content)
    (there : view.object .localDisk = some data) : content = some data := by
  cases serves with
  | absent _ clean => simp [clean] at there
  | directory _ _ clean => simp [clean] at there
  | file _ _ _ own => rw [own data there]

/-- A directory's path stands for no content. -/
theorem Steady.directory {x : Store.RowState} (steady : Steady files w)
    (row : w.store.rowState p = some x) (dir : x.isDir = true) : files p = none := by
  have serves := steady.serves p
  revert serves
  generalize files p = content
  intro serves
  cases serves with
  | absent => rfl
  | directory => rfl
  | file there plain =>
    obtain rfl := Option.some.inj (row.symm.trans there)
    simp [dir] at plain

/-- Worlds that look alike at every path. -/
theorem Steady.of_view (steady : Steady files w) (same : v.view = w.view) :
    Steady files v ∧ Grows files w v := by
  have rows (q : FvfsPath) : v.store.rowState q = w.store.rowState q :=
    congrArg View.row (congrFun same q)
  refine ⟨⟨fun q x row => steady.canonical q x (rows q ▸ row), ?_⟩, ⟨fun q x row => ?_, ?_⟩⟩
  · rw [same]
    exact steady.serves
  · exact ⟨x, (rows q).trans row, rfl, rfl⟩
  · intro t q content _ there
    have objects := congrArg View.object (congrFun same q)
    exact (congrFun objects t).trans there

/-- The content of a file stored on a tier once more. -/
theorem Steady.copy (steady : Steady files w) (t : Tier) (current : files p = some data) :
    Steady files (w.setObject t p (some data)) ∧ Grows files w (w.setObject t p (some data)) := by
  refine ⟨⟨steady.canonical, fun q => ?_⟩, ⟨fun q x row => ⟨x, row, rfl, rfl⟩, ?_⟩⟩
  · rw [view_setObject]
    by_cases here : q = p
    · subst here
      have serves := steady.serves q
      rw [current] at serves ⊢
      rw [Function.update_self]
      cases serves with
      | file row plain held own =>
        refine .file row plain ⟨held.somewhere, fun u bit => ?_⟩ fun found there => ?_
        · by_cases tier : u = t
          · simp [tier]
          · simpa [tier] using held.holds u bit
        · by_cases tier : Tier.localDisk = t
          · simpa [tier] using there.symm
          · exact own found (by simpa [tier] using there)
    · rw [Function.update_of_ne here]
      exact steady.serves q
  · intro u q content other there
    rw [World.setObject_tiers]
    split
    next same =>
      obtain ⟨-, rfl⟩ := same
      exact current.symm.trans other
    next => exact there

/-- A bitmask written to a file's row, every bit of which is true of the tiers. -/
theorem Steady.mark {x : Store.RowState} {b : TierBitmask} (steady : Steady files w)
    (row : w.store.rowState p = some x) (plain : x.isDir = false) (current : files p = some data)
    (held : Held b (w.view p).object data) :
    Steady files (w.withStore (w.store.setTierBitmask x.id b)) ∧
      Grows files w (w.withStore (w.store.setTierBitmask x.id b)) := by
  have marked := view_setTierBitmask row b
  have rows (q : FvfsPath) := congrArg View.row (congrFun marked q)
  refine ⟨⟨fun q y there => ?_, fun q => ?_⟩, ⟨fun q y there => ?_, fun _ _ _ _ there => there⟩⟩
  · by_cases here : q = p
    · exact here ▸ steady.canonical p x row
    · rw [← view_row, rows q, Function.update_of_ne here] at there
      exact steady.canonical q y there
  · rw [marked]
    by_cases here : q = p
    · subst here
      have serves := steady.serves q
      rw [current] at serves ⊢
      rw [Function.update_self]
      cases serves with
      | file _ _ _ own => exact .file rfl plain held own
    · rw [Function.update_of_ne here]
      exact steady.serves q
  · by_cases here : q = p
    · subst here
      obtain rfl := Option.some.inj (row.symm.trans there)
      refine ⟨{ x with tierBitmask := b }, ?_, rfl, rfl⟩
      rw [← view_row, rows q, Function.update_self]
    · refine ⟨y, ?_, rfl, rfl⟩
      rw [← view_row, rows q, Function.update_of_ne here]
      exact there

/-- What a task may still count on of a record it loaded. -/
structure KnownRow (files : FvfsPath → Option Bytes) (p : FvfsPath) (m : FileMetadata) (w : World) :
    Prop where
  row : ∃ x, w.store.rowState p = some x ∧ x.id = m.id ∧ x.isDir = m.isDir
  held : m.isDir = false →
    ∃ data, files p = some data ∧ Held m.tierBitmask (w.view p).object data

theorem Held.grow {b : TierBitmask} (held : Held b (w.view p).object data)
    (current : files p = some data) (grows : Grows files w v) : Held b (v.view p).object data :=
  ⟨held.somewhere, fun t bit => grows.copy t p data current (held.holds t bit)⟩

theorem KnownRow.grow {m : FileMetadata} (loaded : KnownRow files p m w) (grows : Grows files w v) :
    KnownRow files p m v := by
  constructor
  · obtain ⟨x, row, id, kind⟩ := loaded.row
    obtain ⟨y, there, id', kind'⟩ := grows.row p x row
    exact ⟨y, there, id'.trans id, kind'.trans kind⟩
  · intro plain
    obtain ⟨data, current, held⟩ := loaded.held plain
    exact ⟨data, current, held.grow current grows⟩

theorem Steady.loaded {m : FileMetadata} (steady : Steady files w) {id : Nat}
    (row : w.store.rowState p = some (Store.metadataState m id)) (same : m.id = id) :
    KnownRow files p m w :=
  ⟨⟨_, row, same.symm, rfl⟩, fun plain => (steady.serves p).of_file row plain⟩

end Steps

section Calls

variable {files : FvfsPath → Option Bytes} {w : World} {p : FvfsPath} {data : Bytes}

/-- One call: it keeps to the agreement, and what it answers stays true. -/
theorem amid_call {op : Step} {into : Sys.Res op → Outcome α} {post : Outcome α → World → Prop}
    (keeps : ∀ v c, Grows files w v → Steady files v → c.Clean →
      Steady files (perform op c v).2 ∧ Grows files v (perform op c v).2 ∧
        ∀ u, Grows files (perform op c v).2 u → Steady files u → post (into (perform op c v).1) u) :
    Amid files (.call op fun r => .lift (into r)) post w := by
  intro v later steady c clean
  obtain ⟨kept, grown, answered⟩ := keeps v c later steady clean
  refine ⟨kept, grown, ?_⟩
  beta_reduce
  revert answered
  cases into (perform op c v).1 with
  | ok value => exact fun answered => answered
  | error e => exact fun answered => answered

/-- A call that leaves every view alone. -/
theorem amid_watch {op : Step} {into : Sys.Res op → Outcome α} {post : Outcome α → World → Prop}
    (watches : ∀ q, op.Spares q)
    (answered : ∀ v c u, Grows files w v → Steady files v → Grows files v u →
      post (into (perform op c v).1) u) :
    Amid files (.call op fun r => .lift (into r)) post w := by
  refine amid_call fun v c later steady _ => ?_
  obtain ⟨kept, grown⟩ := steady.of_view (funext fun q => perform_spares (watches q) c v)
  exact ⟨kept, grown, fun u after _ => answered v c u later steady (grown.trans after)⟩

theorem amid_watch_any {op : Step} {into : Sys.Res op → Outcome α} (watches : ∀ q, op.Spares q) :
    Amid files (.call op fun r => .lift (into r)) (fun _ _ => True) w :=
  amid_watch watches fun _ _ _ _ _ _ => trivial

theorem amid_metaGet : Amid files (Async.metaGet p)
    (fun r u => ∀ m, r = .ok (some m) → KnownRow files p m u) w := by
  refine amid_watch (fun _ => trivial) fun v c u _ steady after m answer => ?_
  simp only [perform] at answer
  rcases statement_cases (c := c) (w := v) (v.store.get p) v.store with eq | ⟨e, _, eq⟩
  · rw [eq] at answer
    have row := Store.rowState_of_get (Except.ok.inj answer)
    exact (steady.loaded row rfl).grow after
  · rw [eq] at answer
    cases answer

theorem amid_metaGetById {id : Nat} : Amid files (Async.metaGetById id)
    (fun r u => ∀ m, r = .ok (some m) → KnownRow files m.path m u) w := by
  refine amid_watch (fun _ => trivial) fun v c u _ steady after m answer => ?_
  simp only [perform] at answer
  rcases statement_cases (c := c) (w := v) (v.store.getById id) v.store with eq | ⟨e, _, eq⟩
  · rw [eq] at answer
    obtain ⟨row, same⟩ := Store.rowState_of_getById steady.canonical (Except.ok.inj answer)
    exact (steady.loaded row same).grow after
  · rw [eq] at answer
    cases answer

/-- What a tier holds of the content, and whatever the local disk holds, is the content. -/
theorem amid_get {t : Tier} (own : ∀ v found, Grows files w v → Steady files v →
      v.tiers t p = some found → files p = some found) :
    Amid files (Async.get t p) (fun r _ => ∀ found, r = .ok found → files p = some found) w := by
  refine amid_watch (fun _ => trivial) fun v c u later steady _ found answer => ?_
  simp only [perform] at answer
  rcases getObject_cases (c := c) (w := v) t p with ⟨data, there, eq⟩ | ⟨e, eq⟩
  · rw [eq] at answer
    exact Except.ok.inj answer ▸ own v data later steady there
  · rw [eq] at answer
    cases answer

theorem amid_put (t : Tier) (current : files p = some data) :
    Amid files (Async.put t p data)
      (fun r u => r = .ok () → u.tiers t p = some data) w := by
  refine amid_call fun v c _ steady clean => ?_
  obtain ⟨kept, grown⟩ := steady.copy t current
  simp only [perform]
  rcases putObject_cases (c := c) (w := v) t p data with
    ⟨_, eq⟩ | ⟨e, _, eq⟩ | ⟨e, n, _, torn, eq⟩
  · rw [eq]
    refine ⟨kept, grown, fun u after _ _ => after.copy t p data current ?_⟩
    exact World.setObject_same
  · rw [eq]
    exact ⟨steady, Grows.refl v, fun _ _ _ absurd => by cases absurd⟩
  · rw [show c.torn = none from clean] at torn
    cases torn

/-- A bitmask of a record loaded before, to which tiers were added that hold the content. -/
theorem amid_setTierBitmask {m : FileMetadata} {b : TierBitmask} (loaded : KnownRow files p m w)
    (plain : m.isDir = false) (current : files p = some data)
    (held : Held b (w.view p).object data) :
    Amid files (Async.setTierBitmask m.id b) (fun _ _ => True) w := by
  refine amid_call fun v c later steady _ => ?_
  obtain ⟨x, row, id, kind⟩ := (loaded.grow later).row
  have marked := steady.mark row (kind.trans plain) current (held.grow current later)
  simp only [perform]
  rcases statement_cases (c := c) (w := v) () (v.store.setTierBitmask m.id b) with eq | ⟨e, _, eq⟩
  · rw [eq, ← id]
    exact ⟨marked.1, marked.2, fun _ _ _ => trivial⟩
  · rw [eq]
    exact ⟨steady, Grows.refl v, fun _ _ _ => trivial⟩

end Calls

namespace Router

variable {files : FvfsPath → Option Bytes} {w : World} {p : FvfsPath} {data : Bytes}

theorem amid_readAndPromote {t : Tier} (own : ∀ v found, Grows files w v → Steady files v →
      v.tiers t p = some found → files p = some found) :
    Amid files (readAndPromote p t)
      (fun r _ => ∀ found, r = .ok found → files p = some found) w := by
  refine Prog.amid_seq (amid_get own) (fun found v _ _ answer => ?_) fun e v _ _ => nofun
  refine Prog.amid_seq (@amid_watch_any _ _ _ _ Except.ok fun _ => trivial) ?_ ?_
  · rintro _ _ - - - u _ _ _ ⟨⟩
    exact answer found rfl
  · exact fun _ _ _ _ => nofun

theorem amid_readTiers {b : TierBitmask} (current : files p = some data)
    (held : Held b (w.view p).object data) :
    Amid files (readTiers p b) (fun r _ => ∀ found, r = .ok found → files p = some found) w := by
  have own (v u : World) (later : Grows files w v) (t : Tier) (bit : b.has t = true) (found : Bytes)
      (after : Grows files v u) (_ : Steady files u) (there : u.tiers t p = some found) :
      files p = some found := by
    have held' := (held.grow current later).grow current after
    exact current.trans ((held'.holds t bit).symm.trans there)
  refine (Prog.amid_iff_meets _ _).mpr ?_
  refine meets_readTiers (fun v => ∀ u, Grows files v u → Steady files u → Grows files w u)
    (fun hot => ?_) (fun _ _ later _ => later) ?_ ?_
  · have asked := amid_get fun u found => own w u (Grows.refl w) .localDisk hot found
    refine Prog.meets_mono ((Prog.amid_iff_meets _ _).mp (Prog.amid_since (Grows.refl w) asked)) ?_
    rintro (e | found) v since u later steady
    · exact (since u later steady).1
    · rintro _ ⟨⟩
      exact (since u later steady).2 _ rfl
  · intro t v tier since
    refine (Prog.amid_iff_meets _ _).mp (Prog.amid_of_later fun u later steady => ?_)
    refine amid_readAndPromote fun u' found => ?_
    exact own u u' (since u later steady) t (TierBitmask.colder_has tier).1 found
  · exact fun _ _ _ _ _ _ _ => nofun

/-- A read that succeeds answers the content. -/
theorem amid_read :
    Amid files (read p) (fun r _ => ∀ found, r = .ok found → files p = some found) w := by
  have required : Amid files (requireMetadata p)
      (fun r u => ∀ m, r = .ok m → KnownRow files p m u) w := by
    refine Prog.amid_seq amid_metaGet (fun row v _ _ loaded => ?_) fun _ _ _ _ => nofun
    cases row with
    | none => exact fun _ _ _ => nofun
    | some m =>
      rintro u after _ _ ⟨⟩
      exact (loaded m rfl).grow after
  unfold read
  refine Prog.amid_seq required ?_ fun _ _ _ _ => nofun
  · intro m v _ _ loaded
    split
    next => exact fun _ _ _ => nofun
    next dir =>
      obtain ⟨data, current, held⟩ := (loaded m rfl).held (by simpa using dir)
      refine Prog.amid_seq (amid_readTiers current held) (fun found u _ _ answer => ?_)
        fun _ _ _ _ => nofun
      refine Prog.amid_try (amid_watch_any fun _ => trivial) fun r u' _ _ _ => ?_
      rintro _ _ _ _ ⟨⟩
      exact answer _ rfl

/-- The tier's bit added to a record loaded before, once the tier holds the content. -/
theorem amid_addBit {m : FileMetadata} (loaded : KnownRow files p m w) (t : Tier)
    (current : files p = some data) (stored : w.tiers t p = some data) :
    Amid files (Async.setTierBitmask m.id (m.tierBitmask.set t)) (fun _ _ => True) w := by
  refine Prog.amid_of_later fun v later steady => ?_
  have loaded' := loaded.grow later
  have plain : m.isDir = false := by
    by_contra dir
    obtain ⟨x, row, -, kind⟩ := loaded'.row
    have nothing := steady.directory row (kind.trans (by simpa using dir))
    rw [current] at nothing
    cases nothing
  obtain ⟨data', current', held⟩ := loaded'.held plain
  obtain rfl : data = data' := Option.some.inj (current.symm.trans current')
  refine amid_setTierBitmask loaded' plain current ⟨⟨t, by simp⟩, fun u bit => ?_⟩
  by_cases same : u = t
  · subst same
    exact later.copy u p data current stored
  · exact held.holds u (by simpa [same] using bit)

theorem amid_uploadToS3 {m : FileMetadata} (loaded : KnownRow files m.path m w) :
    Amid files (uploadToS3 m) (fun _ _ => True) w := by
  refine Prog.amid_seq amid_read (fun data v later _ answer => ?_) fun _ _ _ _ => trivial
  have current := answer data rfl
  refine Prog.amid_seq (amid_put .s3 current) (fun _ u later' _ stored => ?_) fun _ _ _ _ => trivial
  exact amid_addBit ((loaded.grow later).grow later') .s3 current (stored rfl)

theorem amid_replicateToNas {m : FileMetadata} (loaded : KnownRow files m.path m w) :
    Amid files (replicateToNas m) (fun _ _ => True) w := by
  have own (v : World) (found : Bytes) (_ : Grows files w v) (steady : Steady files v)
      (there : v.tiers .localDisk m.path = some found) : files m.path = some found :=
    (steady.serves m.path).local_own there
  refine Prog.amid_seq (amid_get own) (fun data v later _ answer => ?_) fun _ _ _ _ => trivial
  have current := answer data rfl
  refine Prog.amid_seq (amid_put .nas current) (fun _ u later' _ stored => ?_) fun _ _ _ _ => trivial
  exact amid_addBit ((loaded.grow later).grow later') .nas current (stored rfl)

theorem amid_settle (entry : WalEntry) (r : Outcome Unit) :
    Amid files (settle entry r) (fun _ _ => True) w := by
  cases r with
  | ok =>
    exact Prog.amid_try (amid_watch_any fun _ => trivial) fun _ _ _ _ _ _ _ _ => trivial
  | error e =>
    exact Prog.amid_try (amid_watch_any fun _ => trivial) fun _ _ _ _ _ _ _ _ => trivial

theorem amid_flushEntry (entry : WalEntry) :
    Amid files (flushEntry entry) (fun _ _ => True) w := by
  refine Prog.amid_try amid_metaGetById fun r v _ _ loaded => ?_
  cases r with
  | error e => exact fun _ _ _ => trivial
  | ok found =>
    cases found with
    | none => exact amid_settle entry (.ok ())
    | some m =>
      exact Prog.amid_try (amid_uploadToS3 (loaded m rfl)) fun r _ _ _ _ => amid_settle entry r

theorem amid_flushEntries (entries : List WalEntry) :
    Amid files (flushEntries entries) (fun _ _ => True) w := by
  induction entries generalizing w with
  | nil => exact fun _ _ _ => trivial
  | cons entry rest ih =>
    exact Prog.amid_seq (amid_flushEntry entry) (fun _ _ _ _ _ => ih) fun _ _ _ _ => trivial

theorem amid_flushPending : Amid files flushPending (fun _ _ => True) w := by
  refine Prog.amid_try (amid_watch_any fun _ => trivial) fun r _ _ _ _ => ?_
  cases r with
  | error e => exact fun _ _ _ => trivial
  | ok entries => exact amid_flushEntries _

theorem amid_replayOp (entry : WalEntry) {m : FileMetadata} (loaded : KnownRow files m.path m w) :
    Amid files (replayOp entry m) (fun _ _ => True) w := by
  unfold replayOp
  split
  · exact amid_replicateToNas loaded
  · exact amid_uploadToS3 loaded

theorem amid_replayEntry (entry : WalEntry) (remaining : Nat) :
    Amid files (replayEntry entry remaining) (fun _ _ => True) w := by
  induction remaining generalizing w with
  | zero => exact fun _ _ _ => trivial
  | succ remaining ih =>
    refine Prog.amid_try amid_metaGetById fun r v _ _ loaded => ?_
    cases r with
    | error e => exact fun _ _ _ => trivial
    | ok found =>
      cases found with
      | none => exact amid_settle entry (.ok ())
      | some m =>
        refine Prog.amid_try (amid_replayOp entry (loaded m rfl)) fun r _ _ _ _ => ?_
        cases r with
        | ok => exact amid_settle entry (.ok ())
        | error e =>
          exact Prog.amid_seq (amid_settle entry (.error e)) (fun _ _ _ _ _ => ih)
            fun _ _ _ _ => trivial

theorem amid_replayEntries (entries : List WalEntry) :
    Amid files (replayEntries entries) (fun _ _ => True) w := by
  induction entries generalizing w with
  | nil => exact fun _ _ _ => trivial
  | cons entry rest ih =>
    exact Prog.amid_seq (amid_replayEntry entry _) (fun _ _ _ _ _ => ih) fun _ _ _ _ => trivial

theorem amid_replayWal : Amid files replayWal (fun _ _ => True) w := by
  refine Prog.amid_try (amid_watch_any fun _ => trivial) fun r _ _ _ _ => ?_
  cases r with
  | error e => exact fun _ _ _ => trivial
  | ok entries => exact amid_replayEntries _

theorem amid_promote (p : FvfsPath) : Amid files (promote p) (fun _ _ => True) w := by
  refine Prog.amid_try amid_read fun r v _ _ answer => ?_
  cases r with
  | error e => exact fun _ _ _ => trivial
  | ok data =>
    have current := answer data rfl
    refine Prog.amid_try (amid_put .localDisk current) fun r u _ _ stored => ?_
    cases r with
    | error e => exact fun _ _ _ => trivial
    | ok =>
      refine Prog.amid_try amid_metaGet fun r u' later _ loaded => ?_
      match r with
      | .error e => exact fun _ _ _ => trivial
      | .ok none => exact fun _ _ _ => trivial
      | .ok (some m) =>
        have held := later.copy .localDisk p data current (stored rfl)
        exact Prog.amid_try (amid_addBit (loaded m rfl) .localDisk current held)
          fun _ _ _ _ _ _ _ _ => trivial

theorem amid_promoteNext : Amid files promoteNext (fun _ _ => True) w := by
  refine Prog.amid_seq (@amid_watch_any _ _ _ _ Except.ok fun _ => trivial)
    (fun signal _ _ _ _ => ?_) fun _ _ _ _ => trivial
  cases signal with
  | none => exact fun _ _ _ => trivial
  | some signal => exact amid_promote signal.path

end Router

/-- What may run while no client changes anything. -/
inductive Errand where
  | read (p : FvfsPath)
  | flushPending
  | replayWal
  | promoteNext

namespace Errand

/-- A read answers its caller; the daemon's own tasks have none. -/
def task : Errand → Async (Option Bytes)
  | read p => do
    let data ← Router.read p
    pure (some data)
  | flushPending => do
    Router.flushPending
    pure none
  | replayWal => do
    Router.replayWal
    pure none
  | promoteNext => do
    Router.promoteNext
    pure none

/-- The content a read may answer with. -/
def Answers (files : FvfsPath → Option Bytes) : Errand → Outcome (Option Bytes) → Prop
  | read p, .ok (some data) => files p = some data
  | _, _ => True

theorem amid_task {files : FvfsPath → Option Bytes} {w : World} (errand : Errand) :
    Amid files errand.task (fun r _ => errand.Answers files r) w := by
  cases errand with
  | read p =>
    exact Prog.amid_seq Router.amid_read (fun data _ _ _ answer _ _ _ => answer data rfl)
      fun _ _ _ _ => trivial
  | flushPending =>
    exact Prog.amid_seq Router.amid_flushPending (fun _ _ _ _ _ _ _ _ => trivial)
      fun _ _ _ _ => trivial
  | replayWal =>
    exact Prog.amid_seq Router.amid_replayWal (fun _ _ _ _ _ _ _ _ => trivial)
      fun _ _ _ _ => trivial
  | promoteNext =>
    exact Prog.amid_seq Router.amid_promoteNext (fun _ _ _ _ _ _ _ _ => trivial)
      fun _ _ _ _ => trivial

/-- The errands about to start in the world a history of requests has left. -/
def started {ι : Type} (sha256 : Bytes → Text) (history : List (Request × (Nat → Int)))
    (running : ι → Errand) : Pool Sys FvfsError (Option Bytes) World ι :=
  ⟨Request.serve sha256 history .empty, fun i => (running i).task⟩

/-- After any history of requests served without faults, however the steps of any reads, flushes,
replays and promotions fall together and whichever of them fail, as long as a put that fails
stores nothing: every file keeps a tier that holds its content, no bit is set for a tier that
does not, and a read that succeeds answers the content. -/
theorem reads_amid_errands {ι : Type} [DecidableEq ι] (sha256 : Bytes → Text)
    (history : List (Request × (Nat → Int))) (running : ι → Errand)
    (schedule : List (ι × Choice)) (clean : ∀ e ∈ schedule, e.2.Clean) :
    let files := Request.contents history fun _ => none
    let pool := Pool.run perform schedule (started sha256 history running)
    Steady files pool.world ∧
      ∀ i p data, running i = read p → pool.threads i = .ret (some data) →
        files p = some data := by
  intro files pool
  have refines := Request.serve_refines sha256 Request.empty_refines history
  obtain ⟨steady, -, each⟩ := Pool.run_amid (R := steadiness files)
    (started sha256 history running) schedule refines.steady (fun i => amid_task (running i)) clean
  refine ⟨steady, fun i p data task answered => ?_⟩
  have answers := each i
  rw [show (Pool.run perform schedule _).threads i = .ret (some data) from answered] at answers
  have here := answers _ (Grows.refl _) steady
  rwa [task] at here

/-- A read whose steps fall between those of an upload. -/
def readAndFlush (reader : Bool) : Errand :=
  if reader then .read Request.sampleFile else .flushPending

def duringFlush : List (Bool × Choice) :=
  [(false, .quiet 1), (false, .quiet 1), (false, .quiet 1), (true, .quiet 2), (false, .quiet 3),
    (false, .quiet 4), (false, .quiet 5), (true, .quiet 6), (false, .quiet 7), (true, .quiet 8)]

theorem read_during_flush :
    let history := [(Request.write Request.sampleFile [1], fun _ => 0)]
    let pool := Pool.run perform duringFlush (started Router.sampleSha256 history readAndFlush)
    Steady (Request.contents history fun _ => none) pool.world ∧
      ∀ i p data, readAndFlush i = read p → pool.threads i = .ret (some data) →
        Request.contents history (fun _ => none) p = some data :=
  reads_amid_errands _ _ _ _ (by decide)

example : (Pool.run perform duringFlush (started Router.sampleSha256
    [(.write Request.sampleFile [1], fun _ => 0)] readAndFlush)).threads true =
      .ret (some [1]) := rfl

end Errand

end Fvfs
