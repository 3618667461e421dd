import Fvfs.ReplayAttempts
import Fvfs.ReplayCrashes
import Fvfs.Requests

/-! What a replay completes when the backends answer for everything they hold: every upload,
and every replication whose file is still on the local disk. -/
namespace Fvfs

open Lib Router
open Function (update)

/-- They serve what they hold and take what they are given. -/
structure Backends.Sound (b : Backends) : Prop where
  gets : ∀ t held p data, held p = some data → b.getFault t held p = none
  puts : ∀ t held p data, b.putFault t held p data = none

/-- Every bit of a file row stands for a copy of the file's bytes, and some bit is set. -/
structure Backed (w : World) (p : FvfsPath) (x : Store.RowState) (data : Bytes) : Prop where
  row : w.store.rowState p = some x
  plain : x.isDir = false
  somewhere : ∃ t, x.tierBitmask.has t = true
  holds : ∀ t, x.tierBitmask.has t = true → w.tiers t p = some data

namespace Backends

variable {b : Backends} {w w' : World} {p : FvfsPath} {x : Store.RowState} {data : Bytes}
  {entry : WalEntry}

theorem Sound.fetch (sound : b.Sound) {t : Tier} (held : w.tiers t p = some data) :
    b.fetch w t p = .ok data := by
  unfold Backends.fetch
  rw [sound.gets t _ p data held, held]

/-- A backed file is read wherever its copies are. -/
theorem Sound.readNow (sound : b.Sound) (backed : Backed w p x data) :
    b.readNow w p = .ok data := by
  obtain ⟨row, plain, ⟨t, bit⟩, holds⟩ := backed
  obtain ⟨m, found⟩ := Option.ne_none_iff_exists'.mp
    (mt Store.get_eq_none_iff.mp (by simp [row] : w.store.rowState p ≠ none))
  have loaded := Store.rowState_of_get found
  rw [row] at loaded
  obtain rfl := Option.some.inj loaded
  simp only [Store.metadataState] at plain bit holds
  unfold Backends.readNow
  simp only [found, plain, Bool.false_eq_true, if_false, fetchFastest, fetchColder]
  split
  next hot => rw [sound.fetch (holds _ hot)]
  next hot =>
    split
    next nas => exact sound.fetch (holds _ nas)
    next nas =>
      split
      next cold => exact sound.fetch (holds _ cold)
      next cold => cases t <;> contradiction

/-- The row and copies of a path after an entry for its row. -/
def settledView (source : Outcome Bytes) (t : Tier) (x : Store.RowState) (v : View) : View :=
  match source with
  | .ok data => ⟨some { x with tierBitmask := x.tierBitmask.set t }, update v.object t (some data)⟩
  | .error _ => v

theorem iterate_walRecordFailure_files (id : Nat) (error : Text) (n : Nat) (s : Store) :
    ((fun s : Store => s.walRecordFailure id error)^[n] s).files = s.files := by
  induction n generalizing s with
  | zero => rfl
  | succ n ih => exact ih _

theorem iterate_walRecordFailure_isSome (id i : Nat) (error : Text) (n : Nat) (s : Store) :
    (((fun s : Store => s.walRecordFailure id error)^[n] s).wal.get? i).isSome =
      (s.wal.get? i).isSome := by
  induction n generalizing s with
  | zero => rfl
  | succ n ih =>
    rw [Function.iterate_succ_apply, ih, Store.get?_walRecordFailure]
    split <;> simp

/-- What an entry comes to: nothing but its end where the row is gone, else the copy, or a
failure that leaves the files as they are. -/
inductive Settles (b : Backends) (w : World) (entry : WalEntry) : World → Prop
  | missing (row : w.store.getById entry.fileId = none) :
      Settles b w entry (w.withStore (w.store.walComplete entry.id))
  | copied (m : FileMetadata) (data : Bytes) (row : w.store.getById entry.fileId = some m)
      (got : b.source w entry.op m.path = .ok data) :
      Settles b w entry (((w.setObject entry.op.target m.path (some data)).withStore
        (w.store.setTierBitmask m.id (m.tierBitmask.set entry.op.target))).withStore
          ((w.store.setTierBitmask m.id (m.tierBitmask.set entry.op.target)).walComplete entry.id))
  | failed (m : FileMetadata) (e : FvfsError) (row : w.store.getById entry.fileId = some m)
      (got : b.source w entry.op m.path = .error e) (s : Store) (files : s.files = w.store.files)
      (wal : ∀ i, (s.wal.get? i).isSome = (w.store.wal.get? i).isSome) :
      Settles b w entry (w.withStore s)

theorem Sound.settles (sound : b.Sound) (w : World) (entry : WalEntry) :
    Settles b w entry (b.settle w entry) := by
  cases row : w.store.getById entry.fileId with
  | none =>
    have done : b.settle w entry = w.withStore (w.store.walComplete entry.id) := by
      simp only [settle, row]
    rw [done]
    exact .missing row
  | some m =>
    cases got : b.source w entry.op m.path with
    | ok data =>
      rw [settle_done row (attempt_of got (sound.puts ..))]
      exact .copied m data row got
    | error e =>
      have failed : b.attempt w entry.op m = .error e := by simp only [attempt, got]
      rw [settle_failed row failed]
      exact .failed m e row got _ (iterate_walRecordFailure_files ..)
        fun i => iterate_walRecordFailure_isSome ..

theorem Settles.rows (settles : Settles b w entry w') (q : FvfsPath) :
    (w'.store.rowState q).isSome = (w.store.rowState q).isSome := by
  cases settles with
  | missing row => rfl
  | copied m data row got =>
    have marked := Store.rowState_setTierBitmask (s := w.store) (p := q) m.id
      (m.tierBitmask.set entry.op.target)
    exact (congrArg Option.isSome marked).trans (by simp)
  | failed m e row got s files wal =>
    simp only [World.withStore_store, Store.rowState, Store.fileAt, files]

/-- What an entry does to the row and copies of a path. -/
theorem Settles.view (settles : Settles b w entry w')
    (canonical : ∀ q y, w.store.rowState q = some y → q.Canonical)
    (row : w.store.rowState p = some x) :
    w'.view p =
      if entry.fileId = x.id then
        settledView (b.source w entry.op p) entry.op.target x (w.view p)
      else w.view p := by
  have named {m : FileMetadata} (found : w.store.getById entry.fileId = some m)
      (ours : entry.fileId = x.id) : m.path = p := by
    rw [ours] at found
    exact (Store.metadata_of_getById (canonical p x row) row found).1
  cases settles with
  | missing gone =>
    rw [if_neg]
    · rfl
    · intro ours
      have there := Store.getById_isSome_of_rowState row
      rw [← ours, gone] at there
      contradiction
  | copied m data found got =>
    obtain ⟨loaded, same⟩ := Store.rowState_of_getById canonical found
    rw [← same] at loaded
    have view := view_setCopy loaded entry.op.target (some data) (m.tierBitmask.set entry.op.target)
    refine (congrFun view p).trans ?_
    by_cases ours : entry.fileId = x.id
    · obtain rfl := named found ours
      obtain rfl := Option.some.inj (row.symm.trans loaded)
      rw [Function.update_self, if_pos ours, got]
      rfl
    · rw [if_neg ours, Function.update_of_ne]
      rintro rfl
      obtain rfl := Option.some.inj (row.symm.trans loaded)
      exact ours same.symm
  | failed m e found got s files wal =>
    have still : (w.withStore s).view p = w.view p := by
      refine View.ext ?_ rfl
      simp only [view_row, World.withStore_store, Store.rowState, Store.fileAt, files]
    rw [still]
    split
    next ours =>
      obtain rfl := named found ours
      rw [got]
      rfl
    next => rfl

theorem Settles.hot (settles : Settles b w entry w') :
    w'.tiers .localDisk = w.tiers .localDisk := by
  cases settles with
  | missing row => rfl
  | copied m data row got => cases entry.op <;> rfl
  | failed m e row got s files wal => rfl

/-- No entry comes back, and only an entry itself goes. -/
theorem Settles.wal (settles : Settles b w entry w') (i : Nat) (other : i ≠ entry.id) :
    (w'.store.wal.get? i).isSome = (w.store.wal.get? i).isSome := by
  have completed (s : Store) : ((s.walComplete entry.id).wal.get? i) = s.wal.get? i := by
    rw [Store.get?_walComplete, if_neg other]
  cases settles with
  | missing row => exact congrArg Option.isSome (completed _)
  | copied m data row got => exact congrArg Option.isSome (completed _)
  | failed m e row got s files wal => exact wal i

theorem Settles.gone (settles : Settles b w entry w') {i : Nat}
    (before : w.store.wal.get? i = none) : w'.store.wal.get? i = none := by
  have completed (s : Store) (same : s.wal.get? i = none) :
      (s.walComplete entry.id).wal.get? i = none := by
    rw [Store.get?_walComplete, same, ite_self]
  cases settles with
  | missing row => exact completed _ before
  | copied m data row got => exact completed _ before
  | failed m e row got s files wal =>
    have same := wal i
    rw [before] at same
    simpa using same

/-- An entry whose bytes are found is gone, and one whose bytes are not stays. -/
theorem Settles.self (settles : Settles b w entry w')
    (canonical : ∀ q y, w.store.rowState q = some y → q.Canonical)
    (row : w.store.rowState p = some x) (ours : entry.fileId = x.id) :
    (∃ data, b.source w entry.op p = .ok data) ∧
        w'.store.wal.get? entry.id = none ∨
      (∃ e, b.source w entry.op p = .error e) ∧
        (w'.store.wal.get? entry.id).isSome =
          (w.store.wal.get? entry.id).isSome := by
  have completed (s : Store) : (s.walComplete entry.id).wal.get? entry.id = none := by
    rw [Store.get?_walComplete, if_pos rfl]
  have there : (w.store.getById entry.fileId).isSome := by
    rw [ours]
    exact Store.getById_isSome_of_rowState row
  have named {m : FileMetadata} (found : w.store.getById entry.fileId = some m) : m.path = p := by
    rw [ours] at found
    exact (Store.metadata_of_getById (canonical p _ row) row found).1
  cases settles with
  | missing gone =>
    rw [gone] at there
    contradiction
  | copied m data found got =>
    obtain rfl := named found
    exact Or.inl ⟨⟨data, got⟩, completed _⟩
  | failed m e found got s files wal =>
    obtain rfl := named found
    exact Or.inr ⟨⟨e, got⟩, wal entry.id⟩

theorem Sound.source (sound : b.Sound) (backed : Backed w p x data)
    (fetched : entry.op = .replicateNas → w.tiers .localDisk p = some data) :
    b.source w entry.op p = .ok data := by
  unfold Backends.source
  cases op : entry.op with
  | replicateNas => exact sound.fetch (fetched op)
  | uploadS3 => exact sound.readNow backed

/-- A file stays backed through an entry, and one of its own is done with. -/
theorem Settles.backed (settles : Settles b w entry w') (sound : b.Sound)
    (canonical : ∀ q y, w.store.rowState q = some y → q.Canonical) (backed : Backed w p x data)
    (fetched : entry.fileId = x.id → entry.op = .replicateNas → w.tiers .localDisk p = some data) :
    ∃ y, y.id = x.id ∧ Backed w' p y data ∧ (∀ t, x.tierBitmask.has t → y.tierBitmask.has t) ∧
      (entry.fileId = x.id →
        w'.store.wal.get? entry.id = none ∧ y.tierBitmask.has entry.op.target) := by
  have view := settles.view canonical backed.row
  by_cases ours : entry.fileId = x.id
  · have source := sound.source backed (fetched ours)
    rw [if_pos ours, source] at view
    have row := congrArg View.row view
    have object (t : Tier) := congrFun (congrArg View.object view) t
    refine ⟨{ x with tierBitmask := x.tierBitmask.set entry.op.target }, rfl,
      ⟨row, backed.plain, ⟨entry.op.target, by simp⟩, fun t bit => ?_⟩, fun t bit => ?_,
      fun _ => ⟨?_, by simp⟩⟩
    · refine (object t).trans ?_
      by_cases same : t = entry.op.target
      · simp [settledView, same]
      · have old : x.tierBitmask.has t = true := by simpa [same] using bit
        simpa [settledView, same] using backed.holds t old
    · simp [bit]
    · rcases settles.self canonical backed.row ours with ⟨-, gone⟩ | ⟨⟨e, failed⟩, -⟩
      · exact gone
      · rw [source] at failed
        cases failed
  · rw [if_neg ours] at view
    have row := congrArg View.row view
    have object (t : Tier) := congrFun (congrArg View.object view) t
    refine ⟨x, rfl, ⟨row.trans backed.row, backed.plain, backed.somewhere, fun t bit => ?_⟩,
      fun t bit => bit, fun same => absurd same ours⟩
    exact (object t).trans (backed.holds t bit)

theorem Settles.canonical (settles : Settles b w entry w')
    (canonical : ∀ q y, w.store.rowState q = some y → q.Canonical) (q : FvfsPath)
    (y : Store.RowState) (row : w'.store.rowState q = some y) : q.Canonical := by
  have before := settles.rows q
  rw [row] at before
  obtain ⟨z, there⟩ := Option.isSome_iff_exists.mp before.symm
  exact canonical q z there

theorem Sound.settled_gone (sound : b.Sound) {i : Nat} (entries : List WalEntry)
    (before : w.store.wal.get? i = none) :
    (entries.foldl b.settle w).store.wal.get? i = none := by
  induction entries generalizing w with
  | nil => exact before
  | cons entry rest ih => exact ih ((sound.settles w entry).gone before)

theorem Sound.settled_backed (sound : b.Sound) (entries : List WalEntry)
    (canonical : ∀ q y, w.store.rowState q = some y → q.Canonical) (backed : Backed w p x data)
    (fetched : ∀ entry ∈ entries, entry.fileId = x.id → entry.op = .replicateNas →
      w.tiers .localDisk p = some data) :
    ∃ y, y.id = x.id ∧ Backed (entries.foldl b.settle w) p y data ∧
      (∀ t, x.tierBitmask.has t → y.tierBitmask.has t) ∧ ∀ entry ∈ entries, entry.fileId = x.id →
        (entries.foldl b.settle w).store.wal.get? entry.id = none ∧
          y.tierBitmask.has entry.op.target := by
  induction entries generalizing w x with
  | nil => exact ⟨x, rfl, backed, fun _ bit => bit, nofun⟩
  | cons entry rest ih =>
    have settles := sound.settles w entry
    obtain ⟨y, same, backed', kept, own⟩ := settles.backed sound canonical backed
      (fetched entry List.mem_cons_self)
    obtain ⟨z, same', backed'', kept', others⟩ := ih (settles.canonical canonical) backed'
      fun e later ours op => by
        rw [settles.hot]
        exact fetched e (List.mem_cons_of_mem _ later) (ours.trans same) op
    refine ⟨z, same'.trans same, backed'', fun t bit => kept' t (kept t bit), ?_⟩
    intro e member ours
    rcases List.mem_cons.mp member with rfl | later
    · obtain ⟨gone, bit⟩ := own ours
      exact ⟨sound.settled_gone rest gone, kept' _ bit⟩
    · exact others e later (ours.trans same.symm)

theorem Sound.settled_others (sound : b.Sound) {i : Nat} (entries : List WalEntry)
    (others : ∀ entry ∈ entries, i ≠ entry.id) :
    ((entries.foldl b.settle w).store.wal.get? i).isSome = (w.store.wal.get? i).isSome := by
  induction entries generalizing w with
  | nil => rfl
  | cons entry rest ih =>
    exact (ih fun e later => others e (List.mem_cons_of_mem _ later)).trans
      ((sound.settles w entry).wal i (others entry List.mem_cons_self))

/-- The NAS holds what the local disk holds. -/
def Mirrored (w : World) (p : FvfsPath) : Prop :=
  w.tiers .nas p = w.tiers .localDisk p ∧ (w.tiers .localDisk p).isSome

theorem Settles.row (settles : Settles b w entry w')
    (canonical : ∀ q y, w.store.rowState q = some y → q.Canonical)
    (row : w.store.rowState p = some x) :
    ∃ y, w'.store.rowState p = some y ∧ y.id = x.id := by
  have view := settles.view canonical row
  split at view
  · cases source : b.source w entry.op p with
    | ok data =>
      rw [source] at view
      exact ⟨_, congrArg View.row view, rfl⟩
    | error e =>
      rw [source] at view
      exact ⟨x, (congrArg View.row view).trans row, rfl⟩
  · exact ⟨x, (congrArg View.row view).trans row, rfl⟩

/-- What replications copy is what the local disk holds. -/
theorem source_replicateNas {found : Bytes} (got : b.source w .replicateNas p = .ok found) :
    w.tiers .localDisk p = some found := holds_of_fetch got

theorem Settles.mirrored (settles : Settles b w entry w')
    (canonical : ∀ q y, w.store.rowState q = some y → q.Canonical)
    (row : w.store.rowState p = some x) (mirrored : Mirrored w p) : Mirrored w' p := by
  have view := settles.view canonical row
  have hot := congrFun settles.hot p
  have kept (same : (w'.view p).object .nas = (w.view p).object .nas) : Mirrored w' p := by
    unfold Mirrored
    rw [hot]
    exact ⟨same.trans mirrored.1, mirrored.2⟩
  split at view
  · cases source : b.source w entry.op p with
    | ok data =>
      rw [source] at view
      cases op : entry.op with
      | replicateNas =>
        rw [op] at source view
        have copied := congrFun (congrArg View.object view) .nas
        unfold Mirrored
        rw [hot]
        exact ⟨copied.trans (source_replicateNas source).symm, mirrored.2⟩
      | uploadS3 =>
        rw [op] at view
        exact kept (congrFun (congrArg View.object view) .nas)
    | error e =>
      rw [source] at view
      exact kept (congrFun (congrArg View.object view) .nas)
  · exact kept (congrFun (congrArg View.object view) .nas)

theorem Sound.settled_mirrored (sound : b.Sound) (entries : List WalEntry)
    (canonical : ∀ q y, w.store.rowState q = some y → q.Canonical)
    (row : w.store.rowState p = some x) (mirrored : Mirrored w p) :
    Mirrored (entries.foldl b.settle w) p := by
  induction entries generalizing w x with
  | nil => exact mirrored
  | cons entry rest ih =>
    have settles := sound.settles w entry
    obtain ⟨y, row', -⟩ := settles.row canonical row
    exact ih (settles.canonical canonical) row' (settles.mirrored canonical row mirrored)

theorem Sound.settled_row (sound : b.Sound) (entries : List WalEntry)
    (canonical : ∀ q y, w.store.rowState q = some y → q.Canonical)
    (row : w.store.rowState p = some x) :
    (∀ q y, (entries.foldl b.settle w).store.rowState q = some y → q.Canonical) ∧
      (entries.foldl b.settle w).tiers .localDisk = w.tiers .localDisk ∧
      ∃ y, (entries.foldl b.settle w).store.rowState p = some y ∧ y.id = x.id := by
  induction entries generalizing w x with
  | nil => exact ⟨canonical, rfl, x, row, rfl⟩
  | cons entry rest ih =>
    have settles := sound.settles w entry
    obtain ⟨y, row', same⟩ := settles.row canonical row
    obtain ⟨canonical', hot, z, row'', same'⟩ := ih (settles.canonical canonical) row'
    exact ⟨canonical', hot.trans settles.hot, z, row'', same'.trans same⟩

/-- A replication leaves the snapshot only by copying what the local disk holds. -/
theorem Sound.settled_replicated (sound : b.Sound) {entries : List WalEntry}
    (nodup : (entries.map WalEntry.id).Nodup)
    (canonical : ∀ q y, w.store.rowState q = some y → q.Canonical)
    (row : w.store.rowState p = some x) (member : entry ∈ entries) (ours : entry.fileId = x.id)
    (op : entry.op = .replicateNas) (there : (w.store.wal.get? entry.id).isSome)
    (gone : (entries.foldl b.settle w).store.wal.get? entry.id = none) :
    (entries.foldl b.settle w).tiers .nas p = w.tiers .localDisk p := by
  obtain ⟨before, after, rfl⟩ := List.append_of_mem member
  rw [List.map_append, List.map_cons, List.nodup_append, List.nodup_cons] at nodup
  obtain ⟨-, ⟨unique, -⟩, apart⟩ := nodup
  rw [List.foldl_append, List.foldl_cons] at gone ⊢
  obtain ⟨canonical', hot, y, row', same⟩ := sound.settled_row before canonical row
  have reached := sound.settled_others (w := w) (i := entry.id) before fun e earlier same =>
    apart _ (List.mem_map_of_mem earlier) _ List.mem_cons_self same.symm
  have settles := sound.settles (before.foldl b.settle w) entry
  have later := sound.settled_others (w := b.settle (before.foldl b.settle w) entry)
    (i := entry.id) after fun e member same => unique (same ▸ List.mem_map_of_mem member)
  rcases settles.self canonical' row' (ours.trans same.symm) with ⟨⟨found, source⟩, -⟩ | ⟨-, stays⟩
  · have view := settles.view canonical' row'
    rw [if_pos (ours.trans same.symm), source] at view
    rw [op] at source view
    have copied := congrFun (congrArg View.object view) .nas
    have held := source_replicateNas source
    have mirrored : Mirrored (b.settle (before.foldl b.settle w) entry) p := by
      unfold Mirrored
      rw [settles.hot, held]
      exact ⟨copied, rfl⟩
    obtain ⟨z, row'', -⟩ := settles.row canonical' row'
    have mirrored' := sound.settled_mirrored after (settles.canonical canonical') row'' mirrored
    have hot' := (sound.settled_row after (settles.canonical canonical') row'').2.1
    rw [mirrored'.1, hot', settles.hot, hot]
  · rw [gone, stays, reached, there] at later
    contradiction

end Backends

namespace Router

/-- The entry is gone, its bit set, and the tier it names holds the bytes. -/
structure Completed (w : World) (p : FvfsPath) (entry : WalEntry) (data : Bytes) : Prop where
  gone : w.store.wal.get? entry.id = none
  marked : ∃ y, w.store.rowState p = some y ∧ y.tierBitmask.has entry.op.target
  holds : w.tiers entry.op.target p = some data

/-- With backends that answer for what they hold, a replay completes every entry of a file
that it may still try, exactly where no such replication is left whose file the local disk
does not hold. -/
theorem replay_completes_iff {b : Backends} (sound : b.Sound) {w : World}
    (canonical : ∀ p x, w.store.rowState p = some x → p.Canonical) (content : FvfsPath → Bytes)
    (backed : ∀ p x, w.store.rowState p = some x → x.isDir = false → Backed w p x (content p))
    (env : Nat → Int) :
    (∀ entry ∈ w.store.walPending, entry.attempts < maxAttempts → ∀ p x,
      w.store.rowState p = some x → x.isDir = false → entry.fileId = x.id →
        Completed (replayWal.exec b.perform env w).2 p entry (content p)) ↔
      ∀ entry ∈ w.store.walPending, entry.attempts < maxAttempts → entry.op = .replicateNas →
        ∀ p x, w.store.rowState p = some x → x.isDir = false → entry.fileId = x.id →
          w.tiers .localDisk p = some (content p) := by
  have outcome := (replayWal_converges b).exec env w
  obtain ⟨v, eq⟩ : ∃ v, (replayWal.exec b.perform env w).2 = v := ⟨_, rfl⟩
  rw [eq] at outcome ⊢
  have tiers : v.tiers = (b.replayed w.bare).tiers := by
    rw [← World.bare_tiers v, outcome]
  have rows (p : FvfsPath) : v.store.rowState p = (b.replayed w.bare).store.rowState p := by
    rw [← outcome, World.bare_store, Store.bare_rowState]
  have wal : v.store.wal = (b.replayed w.bare).store.wal := by
    rw [← outcome, World.bare_store, Store.bare_wal]
  have rows_bare (p : FvfsPath) : w.bare.store.rowState p = w.store.rowState p :=
    Store.bare_rowState w.store p
  have canonical' : ∀ p x, w.bare.store.rowState p = some x → p.Canonical := fun p x row =>
    canonical p x (rows_bare p ▸ row)
  have tried {entry : WalEntry} : entry ∈ w.bare.store.retriable ↔
      entry ∈ w.store.walPending ∧ entry.attempts < maxAttempts := by
    simp [Store.retriable, Store.walPending]
  constructor
  · intro completed entry member live op p x row plain ours
    have there : (w.bare.store.wal.get? entry.id).isSome := by
      obtain ⟨y, found, -⟩ := mem_walPending.mp member
      rw [World.bare_store, Store.bare_wal, found]
      rfl
    have nodup : (w.bare.store.retriable.map WalEntry.id).Nodup :=
      w.bare.store.walPending_ids_nodup.sublist (List.filter_sublist.map _)
    have done := completed entry member live p x row plain ours
    have gone := done.gone
    have holds := done.holds
    rw [wal] at gone
    rw [tiers, op] at holds
    have copied := sound.settled_replicated nodup canonical' ((rows_bare p).trans row)
      (tried.mpr ⟨member, live⟩) ours op there gone
    exact copied.symm.trans holds
  · intro local_copies entry member live p x row plain ours
    have before := backed p x row plain
    have backed' : Backed w.bare p x (content p) :=
      ⟨(rows_bare p).trans row, plain, before.somewhere, before.holds⟩
    obtain ⟨y, -, after, -, own⟩ := sound.settled_backed w.bare.store.retriable canonical' backed'
      fun e inside same op => by
        obtain ⟨pending, live⟩ := tried.mp inside
        exact local_copies e pending live op p x row plain same
    obtain ⟨gone, bit⟩ := own entry (tried.mpr ⟨member, live⟩) ours
    refine ⟨?_, ⟨y, (rows p).trans after.row, bit⟩, ?_⟩
    · rw [wal]
      exact gone
    · rw [tiers]
      exact after.holds _ bit

end Router

/-- Backends that never refuse anything. -/
def Backends.faultless : Backends := ⟨fun _ _ _ => none, fun _ _ _ _ => none, fun _ _ _ _ _ => rfl⟩

theorem Backends.faultless_sound : Backends.faultless.Sound :=
  ⟨fun _ _ _ _ _ => rfl, fun _ _ _ _ => rfl⟩

theorem backed_of_refines {w : World} {files : FvfsPath → Option Bytes} (refines : Refines w files)
    (p : FvfsPath) (x : Store.RowState) (row : w.store.rowState p = some x)
    (plain : x.isDir = false) : Backed w p x ((files p).getD []) := by
  have rep := refines.represents p
  revert rep
  generalize files p = content
  intro rep
  cases rep with
  | absent there =>
    rw [view_row, row] at there
    cases there
  | directory there dir =>
    obtain rfl := Option.some.inj (row.symm.trans there)
    rw [dir] at plain
    cases plain
  | file there _ copies =>
    obtain rfl := Option.some.inj (row.symm.trans there)
    exact ⟨row, plain, copies.somewhere, copies.holds⟩

namespace Router

open Request (sampleFile written evicted serve_refines empty_refines)

def sampleFiles : FvfsPath → Option Bytes := update (fun _ => none) sampleFile.1 (some [1])

def sampleContent (p : FvfsPath) : Bytes := (sampleFiles p).getD []

theorem written_refines : Refines written sampleFiles :=
  serve_refines sampleSha256 empty_refines _

theorem evicted_refines : Refines evicted sampleFiles :=
  serve_refines sampleSha256 (serve_refines sampleSha256 written_refines _) _

theorem replay_completes_written :
    (∀ entry ∈ written.store.walPending, entry.attempts < maxAttempts → ∀ p x,
      written.store.rowState p = some x → x.isDir = false → entry.fileId = x.id →
        Completed (replayWal.exec Backends.faultless.perform (fun _ => 0) written).2 p entry
          (sampleContent p)) ↔
      ∀ entry ∈ written.store.walPending, entry.attempts < maxAttempts → entry.op = .replicateNas →
        ∀ p x, written.store.rowState p = some x → x.isDir = false → entry.fileId = x.id →
          written.tiers .localDisk p = some (sampleContent p) :=
  replay_completes_iff Backends.faultless_sound written_refines.canonical sampleContent
    (backed_of_refines written_refines) fun _ => 0

/-- The replication of a file that was uploaded and evicted before the restart. -/
theorem evicted_not_replicated :
    ¬∀ (b : Backends) (w : World) (content : FvfsPath → Bytes), b.Sound →
      (∀ p x, w.store.rowState p = some x → p.Canonical) →
      (∀ p x, w.store.rowState p = some x → x.isDir = false → Backed w p x (content p)) →
      ∀ entry ∈ w.store.walPending, entry.attempts < maxAttempts → ∀ p x,
        w.store.rowState p = some x → x.isDir = false → entry.fileId = x.id →
          Completed (replayWal.exec b.perform (fun _ => 0) w).2 p entry (content p) := by
  intro claimed
  have pending : ⟨1, 1, .replicateNas, 0, 0, none⟩ ∈ evicted.store.walPending := by decide
  have done := claimed Backends.faultless evicted sampleContent Backends.faultless_sound
    evicted_refines.canonical (backed_of_refines evicted_refines) _ pending (by decide)
    sampleFile ⟨1, 1, sampleSha256 [1], ⟨4⟩, false⟩ (by decide) rfl rfl
  have left : (((replayWal.exec Backends.faultless.perform (fun _ => 0) evicted).2.store.wal.get?
      1).isSome) = true := by decide
  rw [done.gone] at left
  cases left

end Router

end Fvfs
