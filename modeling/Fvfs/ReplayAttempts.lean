import Fvfs.EvictionTask
import Fvfs.ReusedIds
import Fvfs.Shipping

/-! A replay under any behaviour of the backends: how often it tries an entry, and what
becomes of each. -/
namespace Fvfs

open Lib

/-- What an attempt asks for. -/
def Step.Ships : Step → Prop
  | .put _ _ _ | .setTierBitmask _ _ => True
  | op => op.Reads

theorem Step.Reads.ships {op : Step} (reads : op.Reads) : op.Ships := by
  cases op <;> first | exact reads | trivial

namespace Store

variable {s : Store}

def addBit (t : Tier) (r : FileRow) : FileRow := { r with tierBitmask := r.tierBitmask.set t }

theorem addBit_again (t : Tier) (r : FileRow) : addBit t (addBit t r) = addBit t r := by
  simp only [addBit, TierBitmask.set_again]

/-- A WAL row after one more failure. -/
def failedRow (error : Text) (x : WalRow) : WalRow :=
  { x with attempts := x.attempts + 1, lastError := some error }

theorem get?_walComplete (s : Store) (id i : Nat) :
    (s.walComplete id).wal.get? i = if i = id then none else s.wal.get? i := by
  simp only [walComplete, Table.get?_filter]
  split
  next same => simp [same]
  next other => cases s.wal.get? i <;> simp [other]

theorem get?_walRecordFailure (s : Store) (id i : Nat) (error : Text) :
    (s.walRecordFailure id error).wal.get? i =
      if i = id then (s.wal.get? i).map (failedRow error) else s.wal.get? i := Table.get?_modify ..

/-- Every stored path is one a constructor hands out. -/
def CanonicalPaths (s : Store) : Prop :=
  ∀ i r, s.bare.files.get? i = some r → (⟨r.path⟩ : FvfsPath).Canonical

theorem canonicalPaths_of_rowState (canonical : ∀ p x, s.rowState p = some x → p.Canonical) :
    s.CanonicalPaths := by
  intro i r row
  have found := rowState_of_row (s := s.bare) (x := (i, r)) (Table.mem_rows_iff.mpr row)
  exact canonical _ _ ((bare_rowState s _).symm.trans found)

theorem getById_eq_none_iff {i : Nat} : s.getById i = none ↔ s.bare.files.get? i = none := by
  simp [getById, bare, Table.get?_map]

/-- The row a record was loaded from. -/
theorem row_of_getById {id : Nat} {m : FileMetadata} (found : s.getById id = some m) :
    ∃ r, s.files.get? id = some r ∧ m.id = id ∧ m.tierBitmask = r.tierBitmask ∧
      (s.CanonicalPaths → m.path = ⟨r.path⟩) := by
  obtain ⟨r, row, rfl⟩ := Option.map_eq_some_iff.mp found
  have bare : s.bare.files.get? id = some (unaccessed r) := by simp [bare, Table.get?_map, row]
  refine ⟨r, row, rfl, rfl, fun canonical => ?_⟩
  have canon : (⟨r.path⟩ : FvfsPath).Canonical := canonical id (unaccessed r) bare
  exact rowToMetadata_path canon rfl

/-- The mask a task computes from the row it loaded. -/
theorem bare_setLoaded {id : Nat} {m : FileMetadata} (found : s.getById id = some m) (t : Tier) :
    (s.setTierBitmask m.id (m.tierBitmask.set t)).bare.files =
      s.bare.files.modify id (addBit t) := by
  obtain ⟨r, row, rfl, mask, -⟩ := row_of_getById found
  have bare : s.bare.files.get? m.id = some (unaccessed r) := by simp [bare, Table.get?_map, row]
  rw [bare_setTierBitmask]
  simp only [setTierBitmask, updateFile_files]
  refine Table.modify_congr bare ?_
  simp only [addBit, mask]
  rfl

end Store

namespace Router

/-- A try begins by loading the row. -/
def isTry : Happening Sys World → Bool
  | ⟨_, .metaGetById _, _⟩ => true
  | _ => false

def isFailure : Happening Sys World → Bool
  | ⟨_, .walRecordFailure _ _, _⟩ => true
  | _ => false

def tries (log : Journal Sys World) : Nat := log.countP isTry
def failures (log : Journal Sys World) : Nat := log.countP isFailure

@[simp] theorem tries_append (log later : Journal Sys World) :
    tries (log ++ later) = tries log + tries later := List.countP_append

@[simp] theorem failures_append (log later : Journal Sys World) :
    failures (log ++ later) = failures log + failures later := List.countP_append

section Journals

variable {w : World} {t : Tier} {id : Nat} {found : Outcome (Option FileMetadata)} {error : Text}
  {log : Journal Sys World}

@[simp] theorem fetched_load : fetched (⟨w, .metaGetById id, found⟩ :: log) = fetched log := rfl
@[simp] theorem stored_load : stored t (⟨w, .metaGetById id, found⟩ :: log) = stored t log := rfl
@[simp] theorem stored_complete :
    stored t (⟨w, .walComplete id, .ok ()⟩ :: log) = stored t log := rfl
@[simp] theorem stored_failure :
    stored t (⟨w, .walRecordFailure id error, .ok ()⟩ :: log) = stored t log := rfl
@[simp] theorem stored_nil : stored t [] = none := rfl

@[simp] theorem tries_load : tries (⟨w, .metaGetById id, found⟩ :: log) = tries log + 1 :=
  List.countP_cons_of_pos rfl
@[simp] theorem tries_complete : tries (⟨w, .walComplete id, .ok ()⟩ :: log) = tries log :=
  List.countP_cons_of_neg Bool.false_ne_true
@[simp] theorem tries_failure :
    tries (⟨w, .walRecordFailure id error, .ok ()⟩ :: log) = tries log :=
  List.countP_cons_of_neg Bool.false_ne_true
@[simp] theorem tries_nil : tries [] = 0 := rfl

@[simp] theorem failures_load :
    failures (⟨w, .metaGetById id, found⟩ :: log) = failures log :=
  List.countP_cons_of_neg Bool.false_ne_true
@[simp] theorem failures_failure :
    failures (⟨w, .walRecordFailure id error, .ok ()⟩ :: log) = failures log + 1 :=
  List.countP_cons_of_pos rfl

end Journals

/-- The retry loop as the source writes it. -/
theorem replayEntry_eq (entry : WalEntry) (attempt : Nat) :
    replayEntry entry (maxAttempts - attempt) =
      (if maxAttempts ≤ attempt then pure () else do
        match ← (Async.metaGetById entry.fileId).attempt with
        | .error _ => pure ()
        | .ok none =>
          let _ ← (Async.walComplete entry.id).attempt
        | .ok (some m) =>
          match ← (replayOp entry m).attempt with
          | .ok () => settle entry (.ok ())
          | .error e => do
            settle entry (.error e)
            replayEntry entry (maxAttempts - (attempt + 1))) := by
  by_cases spent : maxAttempts ≤ attempt
  · rw [if_pos spent, Nat.sub_eq_zero_of_le spent]
    rfl
  · obtain ⟨remaining, left⟩ : ∃ n, maxAttempts - attempt = n + 1 :=
      ⟨maxAttempts - attempt - 1, by omega⟩
    have next : maxAttempts - (attempt + 1) = remaining := by omega
    rw [if_neg spent, next, left]
    rfl

variable {entry : WalEntry} {w v w' : World} {log later : Journal Sys World} {n : Nat}

theorem ship_ships {t : Tier} {m : FileMetadata} {source : Async Bytes}
    (reads : source.Only Step.Reads) : (ship t m source).Only Step.Ships := by
  refine (reads.mono fun _ => Step.Reads.ships).bind fun data => ⟨trivial, fun answer => ?_⟩
  cases answer with
  | error e => trivial
  | ok => exact ⟨trivial, fun answer => by cases answer <;> trivial⟩

theorem replayOp_ships (entry : WalEntry) (m : FileMetadata) :
    (replayOp entry m).Only Step.Ships := by
  unfold replayOp
  cases entry.op with
  | replicateNas => exact ship_ships ⟨trivial, fun answer => by cases answer <;> trivial⟩
  | uploadS3 => exact ship_ships (read_reads m.path)

/-- One attempt neither loads the row again nor counts a failure. -/
theorem serves_replayOp (entry : WalEntry) (m : FileMetadata) (w : World) :
    Serves (replayOp entry m) (fun r log v => Shipped entry.op.target m w r log v ∧
      tries log = 0 ∧ failures log = 0) w := by
  have ships : Serves (replayOp entry m) (Shipped entry.op.target m w) w := by
    unfold replayOp
    cases entry.op with
    | replicateNas => exact serves_replicateToNas m
    | uploadS3 => exact serves_uploadToS3 m
  refine Prog.noted_mono (Prog.noted_and ships (Prog.noted_of_only (replayOp_ships entry m) w)) ?_
  rintro r log v ⟨shipped, asked⟩
  have uncounted : ∀ a ∈ log, isTry a = false ∧ isFailure a = false := by
    rintro ⟨before, op, res⟩ member
    have ships := asked _ member
    cases op <;> first | exact ⟨rfl, rfl⟩ | exact ships.elim
  refine ⟨shipped, ?_, ?_⟩
  · exact List.countP_eq_zero.mpr fun a member => by simp [uncounted a member]
  · exact List.countP_eq_zero.mpr fun a member => by simp [uncounted a member]

/-- What two worlds have in common that differ in access statistics only. -/
theorem same_of_bare {x : World} (same : v.bare = x.bare) :
    v.store.wal = x.store.wal ∧ v.store.bare.files = x.store.bare.files ∧ v.tiers = x.tiers := by
  have store : v.store.bare = x.store.bare := congrArg World.store same
  refine ⟨?_, by rw [store], ?_⟩
  · rw [← Store.bare_wal v.store, store, Store.bare_wal]
  · rw [← World.bare_tiers v, same, World.bare_tiers]

theorem mem_walPending {s : Store} {entry : WalEntry} :
    entry ∈ s.walPending ↔
      ∃ x, s.wal.get? entry.id = some x ∧ Store.toEntry (entry.id, x) = entry := by
  simp only [Store.walPending, List.mem_insertionSort, List.mem_map, Prod.exists,
    Table.mem_rows_iff]
  constructor
  · rintro ⟨i, x, found, rfl⟩
    exact ⟨x, found, rfl⟩
  · rintro ⟨x, found, same⟩
    exact ⟨entry.id, x, found, same⟩

/-- What a replay does about one entry with `n` attempts left. -/
structure Retried (entry : WalEntry) (n : Nat) (w : World) (log : Journal Sys World) (v : World) :
    Prop where
  tried : tries log ≤ n
  gone : (stored entry.op.target log).isSome ∨ (0 < n ∧ w.store.getById entry.fileId = none) →
    v.store.wal.get? entry.id = none
  failed : stored entry.op.target log = none → w.store.getById entry.fileId ≠ none →
    failures log = n ∧ ∃ last : Option Text → Option Text,
      v.store.wal.get? entry.id = (w.store.wal.get? entry.id).map fun x =>
        { x with attempts := x.attempts + n, lastError := last x.lastError }
  others : ∀ i, i ≠ entry.id → v.store.wal.get? i = w.store.wal.get? i
  rows : v.store.bare.files = if (stored entry.op.target log).isSome then
    w.store.bare.files.modify entry.fileId (Store.addBit entry.op.target) else w.store.bare.files

theorem retried_none (entry : WalEntry) (w : World) : Retried entry 0 w [] w where
  tried := Nat.le_refl 0
  gone := by simp [stored]
  failed _ _ := ⟨rfl, id, by simp⟩
  others _ _ := rfl
  rows := by simp [stored]

/-- The row is gone, and so is the entry. -/
theorem retried_missing (n : Nat) (missing : w.store.getById entry.fileId = none) :
    Retried entry (n + 1) w [⟨w, .metaGetById entry.fileId, .ok none⟩,
      ⟨w, .walComplete entry.id, .ok ()⟩] (w.withStore (w.store.walComplete entry.id)) where
  tried := Nat.le_add_left 1 n
  gone := by simp [Store.get?_walComplete]
  failed _ present := absurd missing present
  others i other := by simp [Store.get?_walComplete, other]
  rows := rfl

/-- A try that succeeds. -/
theorem retried_done {m : FileMetadata} {data : Bytes}
    (loaded : w.store.getById entry.fileId = some m)
    (took : stored entry.op.target log = some data) (untried : tries log = 0)
    (bare : v.bare = (shipped w entry.op.target m data).bare) :
    Retried entry (n + 1) w ([⟨w, .metaGetById entry.fileId, .ok (some m)⟩] ++
      (log ++ [⟨v, .walComplete entry.id, .ok ()⟩]))
      (v.withStore (v.store.walComplete entry.id)) := by
  obtain ⟨wal, files, -⟩ := same_of_bare bare
  have wal : v.store.wal = w.store.wal := wal
  constructor
  · simp [untried]
  · simp [Store.get?_walComplete]
  · simp [took]
  · intro i other
    simp [Store.get?_walComplete, other, wal]
  · simp only [List.singleton_append, stored_load, stored_append, took, Option.some_or,
      Option.isSome_some, if_true]
    exact files.trans (Store.bare_setLoaded loaded _)

/-- A try that fails, and those after it. -/
theorem Retried.refused {m : FileMetadata} {e : FvfsError}
    (retried : Retried entry n (v.withStore (v.store.walRecordFailure entry.id e.toText)) later w')
    (loaded : w.store.getById entry.fileId = some m)
    (took : stored entry.op.target log = none) (untried : tries log = 0)
    (unfailed : failures log = 0) (store : v.store.bare = w.store.bare) :
    Retried entry (n + 1) w ([⟨w, .metaGetById entry.fileId, .ok (some m)⟩] ++
      (log ++ ([⟨v, .walRecordFailure entry.id e.toText, .ok ()⟩] ++ later))) w' := by
  have wal : v.store.wal = w.store.wal := by rw [← Store.bare_wal, store, Store.bare_wal]
  have again : v.store.getById entry.fileId ≠ none := by
    intro absent
    have same := Store.bare_getById v.store entry.fileId
    rw [store, Store.bare_getById, loaded, absent] at same
    cases same
  constructor
  · have := retried.tried
    simp only [List.singleton_append, tries_load, tries_append, tries_failure, untried]
    omega
  · rintro (stored | ⟨-, absent⟩)
    · exact retried.gone (Or.inl (by simpa [took] using stored))
    · simp [loaded] at absent
  · intro untaken _
    obtain ⟨counted, last, row⟩ := retried.failed (by simpa [took] using untaken) again
    refine ⟨by simp [unfailed, counted], fun _ => last (some e.toText), ?_⟩
    rw [row, World.withStore_store, Store.get?_walRecordFailure, if_pos rfl, wal, Option.map_map]
    congr 1
    funext x
    simp [Store.failedRow, Nat.add_assoc, Nat.add_comm 1]
  · intro i other
    rw [retried.others i other, World.withStore_store, Store.get?_walRecordFailure, if_neg other,
      wal]
  · have rows := retried.rows
    simp only [List.singleton_append, stored_load, stored_append, took, stored_failure,
      Option.none_or]
    rw [rows]
    have files : (v.withStore (v.store.walRecordFailure entry.id e.toText)).store.bare.files =
        v.store.bare.files := rfl
    rw [files, store]

theorem serves_settle_error (entry : WalEntry) (e : FvfsError) (w : World) :
    Serves (settle entry (.error e)) (fun r log v => r = .ok () ∧
      log = [⟨w, .walRecordFailure entry.id e.toText, .ok ()⟩] ∧
      v = w.withStore (w.store.walRecordFailure entry.id e.toText)) w := by
  refine (Prog.noted_bind ..).mpr
    ((Prog.noted_attempt ..).mpr ((serves_walRecordFailure ..).mpr ?_))
  exact ⟨rfl, rfl, rfl⟩

theorem serves_settle_ok (entry : WalEntry) (w : World) :
    Serves (settle entry (.ok ())) (fun r log v => r = .ok () ∧
      log = [⟨w, .walComplete entry.id, .ok ()⟩] ∧
      v = w.withStore (w.store.walComplete entry.id)) w := by
  refine (Prog.noted_bind ..).mpr ((Prog.noted_attempt ..).mpr ((serves_walComplete ..).mpr ?_))
  exact ⟨rfl, rfl, rfl⟩

theorem serves_replayEntry (entry : WalEntry) (n : Nat) (w : World) :
    Serves (replayEntry entry n) (fun r log v => r = .ok () ∧ Retried entry n w log v) w := by
  induction n generalizing w with
  | zero => exact ⟨rfl, retried_none entry w⟩
  | succ n ih =>
    unfold replayEntry
    refine (Prog.noted_bind ..).mpr ((Prog.noted_attempt ..).mpr ((serves_metaGetById ..).mpr ?_))
    cases loaded : w.store.getById entry.fileId with
    | none =>
      refine (Prog.noted_bind ..).mpr ((Prog.noted_attempt ..).mpr ((serves_walComplete ..).mpr ?_))
      exact ⟨rfl, retried_missing n loaded⟩
    | some m =>
      refine Prog.noted_try (serves_replayOp entry m w) ?_
      rintro r log v ⟨shipped, untried, unfailed⟩
      cases shipped with
      | done data took read bare =>
        refine Prog.noted_mono (serves_settle_ok entry v) ?_
        rintro r later v' ⟨done, rfl, rfl⟩
        exact ⟨done, retried_done loaded took untried bare⟩
      | refused e took store tiers =>
        refine Prog.noted_seq (serves_settle_error entry e v) ?_ ?_
        · rintro _ later v' ⟨-, rfl, rfl⟩
          refine Prog.noted_mono (ih _) ?_
          rintro r rest v' ⟨done, retried⟩
          exact ⟨done, retried.refused loaded took untried unfailed store⟩
        · rintro e' later v' ⟨fails, -⟩
          cases fails

/-- The bits a row got from the turns of its entries. -/
def marked : List (WalEntry × Journal Sys World) → Nat → FileRow → FileRow
  | [], _, r => r
  | (entry, log) :: rest, id, r => marked rest id
    (if entry.fileId = id ∧ (stored entry.op.target log).isSome then
      Store.addBit entry.op.target r else r)

theorem has_marked (turns : List (WalEntry × Journal Sys World)) (id : Nat) (r : FileRow)
    (t : Tier) :
    (marked turns id r).tierBitmask.has t = true ↔ r.tierBitmask.has t = true ∨
      ∃ x ∈ turns, x.1.fileId = id ∧ x.1.op.target = t ∧ (stored t x.2).isSome := by
  induction turns generalizing r with
  | nil => simp [marked]
  | cons x rest ih =>
    obtain ⟨entry, log⟩ := x
    rw [marked, ih, List.exists_mem_cons_iff]
    by_cases here : entry.fileId = id ∧ (stored entry.op.target log).isSome
    · rw [if_pos here]
      simp only [Store.addBit, TierBitmask.has_set, Bool.or_eq_true, decide_eq_true_eq]
      constructor
      · rintro ((bit | rfl) | later)
        · exact Or.inl bit
        · exact Or.inr (Or.inl ⟨here.1, rfl, here.2⟩)
        · exact Or.inr (Or.inr later)
      · rintro (bit | ⟨_, rfl, _⟩ | later)
        · exact Or.inl (Or.inl bit)
        · exact Or.inl (Or.inr rfl)
        · exact Or.inr later
    · rw [if_neg here]
      have not_here : ¬(entry.fileId = id ∧ entry.op.target = t ∧ (stored t log).isSome) := by
        rintro ⟨same, rfl, took⟩
        exact here ⟨same, took⟩
      simp only [not_here, false_or]

/-- What the turns leave: each entry settled by its own, and nothing else changed. -/
structure RetryOutcome (n : WalEntry → Nat) (w : World)
    (turns : List (WalEntry × Journal Sys World)) (w' : World) : Prop where
  tried : ∀ x ∈ turns, tries x.2 ≤ n x.1
  gone : ∀ x ∈ turns, (stored x.1.op.target x.2).isSome ∨
    (0 < n x.1 ∧ w.store.bare.files.get? x.1.fileId = none) → w'.store.wal.get? x.1.id = none
  failed : ∀ x ∈ turns, stored x.1.op.target x.2 = none →
    w.store.bare.files.get? x.1.fileId ≠ none → failures x.2 = n x.1 ∧
      ∃ last : Option Text → Option Text,
        w'.store.wal.get? x.1.id = (w.store.wal.get? x.1.id).map fun row =>
          { row with attempts := row.attempts + failures x.2, lastError := last row.lastError }
  others : ∀ i, i ∉ turns.map (·.1.id) → w'.store.wal.get? i = w.store.wal.get? i
  rows : ∀ i, w'.store.bare.files.get? i = (w.store.bare.files.get? i).map (marked turns i)

theorem retryOutcome_nil (n : WalEntry → Nat) (w : World) : RetryOutcome n w [] w where
  tried := by simp
  gone := by simp
  failed := by simp
  others := fun _ _ => rfl
  rows i := by simp [marked]

/-- The first turn, then the others. -/
theorem Retried.cons {n : WalEntry → Nat} {rest : List (WalEntry × Journal Sys World)}
    (turn : Retried entry (n entry) w log v) (outcome : RetryOutcome n v rest w')
    (alone : entry.id ∉ rest.map (·.1.id)) : RetryOutcome n w ((entry, log) :: rest) w' := by
  have present (i : Nat) : v.store.bare.files.get? i = none ↔ w.store.bare.files.get? i = none := by
    rw [turn.rows]
    split
    · rw [Table.get?_modify]
      split <;> simp
    · rfl
  have here := outcome.others entry.id alone
  have apart : ∀ x ∈ rest, x.1.id ≠ entry.id := fun x member same =>
    alone (List.mem_map.mpr ⟨x, member, same⟩)
  constructor
  · rintro x (_ | ⟨_, member⟩)
    · exact turn.tried
    · exact outcome.tried x member
  · rintro x (_ | ⟨_, member⟩) settled
    · refine here.trans (turn.gone (settled.imp_right ?_))
      exact fun missing => ⟨missing.1, Store.getById_eq_none_iff.mpr missing.2⟩
    · exact outcome.gone x member
        (settled.imp_right fun missing => ⟨missing.1, (present _).mpr missing.2⟩)
  · rintro x (_ | ⟨_, member⟩) took some_row
    · obtain ⟨counted, last, row⟩ := turn.failed took (mt Store.getById_eq_none_iff.mp some_row)
      exact ⟨counted, last, by rw [here, row, counted]⟩
    · obtain ⟨counted, last, row⟩ := outcome.failed x member took (mt (present _).mp some_row)
      exact ⟨counted, last, by rw [row, turn.others _ (apart x member)]⟩
  · intro i absent
    simp only [List.map_cons, List.mem_cons, not_or] at absent
    rw [outcome.others i absent.2, turn.others i absent.1]
  · intro i
    rw [outcome.rows, turn.rows]
    by_cases took : (stored entry.op.target log).isSome
    · by_cases same : entry.fileId = i
      · simp only [took, if_true, Table.get?_modify, same, Option.map_map]
        congr 1
        funext r
        simp [marked, same, took]
      · have other : ¬i = entry.fileId := fun eq => same eq.symm
        simp only [took, if_true, Table.get?_modify, other, if_false]
        congr 1
        funext r
        simp [marked, same]
    · simp only [took, Bool.false_eq_true, if_false]
      congr 1
      funext r
      simp [marked, took]

/-- The turns of a loop, one after the other. -/
theorem retryOutcome_of_turns {n : WalEntry → Nat} {body : WalEntry → Async Unit}
    {turns : List (WalEntry × Journal Sys World)} (runs : Turns serve body w turns w')
    (retries : ∀ x ∈ turns, ∀ w, Serves (body x.1) (fun _ log v => Retried x.1 (n x.1) w log v) w)
    (distinct : (turns.map (·.1.id)).Nodup) : RetryOutcome n w turns w' := by
  induction runs with
  | nil w => exact retryOutcome_nil n w
  | @cons entry log rest w v w' turn later ih =>
    obtain ⟨alone, distinct⟩ := List.nodup_cons.mp distinct
    have retried := turn.holds (retries _ List.mem_cons_self w)
    exact retried.cons
      (ih (fun x member => retries x (List.mem_cons_of_mem _ member)) distinct) alone

theorem serves_replayWal (w : World) :
    Serves replayWal (fun _ log w' => ∃ turns, turns.map Prod.fst = w.store.walPending ∧
      log = ⟨w, .walPending, .ok w.store.walPending⟩ :: (turns.map Prod.snd).flatten ∧
      Turns serve (fun entry => replayEntry entry (maxAttempts - entry.attempts)) w turns w') w := by
  unfold replayWal
  refine (Prog.noted_bind ..).mpr ((Prog.noted_attempt ..).mpr ((serves_walPending ..).mpr ?_))
  refine Prog.noted_mono (noted_turns replayEntries rfl (fun _ _ => rfl) ?_ _ _) ?_
  · exact fun entry w => Prog.noted_mono (serves_replayEntry entry _ w) fun _ _ _ done => done.1
  · rintro r log w' ⟨-, turns, items, rfl, runs⟩
    exact ⟨turns, items, rfl, runs⟩

/-- An entry after a replay: gone with its upload or its file, or spent with every failure
counted. -/
inductive Settled (w : World) (x : WalEntry × Journal Sys World) (w' : World) : Prop
  | gone (removed : w'.store.wal.get? x.1.id = none)
      (why : (stored x.1.op.target x.2).isSome ∨ w.store.getById x.1.fileId = none)
  | spent (row : WalRow) (last : Option Text) (before : w.store.wal.get? x.1.id = some row)
      (after : w'.store.wal.get? x.1.id =
        some { row with attempts := row.attempts + failures x.2, lastError := last })
      (enough : maxAttempts ≤ row.attempts + failures x.2)

/-- What a replay with this journal comes to: each entry tried at most as often as it has
attempts left, and settled; bits added, and only to the rows of entries that succeeded. -/
structure ReplayOutcome (w : World) (log : Journal Sys World)
    (turns : List (WalEntry × Journal Sys World)) (w' : World) : Prop where
  items : turns.map Prod.fst = w.store.walPending
  written : log =
    ⟨w, .walPending, .ok w.store.walPending⟩ :: (turns.map Prod.snd).flatten
  runs : Turns serve (fun entry => replayEntry entry (maxAttempts - entry.attempts)) w turns w'
  tried : ∀ x ∈ turns, tries x.2 ≤ maxAttempts - x.1.attempts
  settled : ∀ x ∈ turns, Settled w x w'
  rows : ∀ i, w'.store.bare.files.get? i = (w.store.bare.files.get? i).map (marked turns i)
  bits : ∀ i r t, (marked turns i r).tierBitmask.has t = true ↔ r.tierBitmask.has t = true ∨
    ∃ x ∈ turns, x.1.fileId = i ∧ x.1.op.target = t ∧ (stored t x.2).isSome

/-- A replay accounts for every entry, whatever the backends do. -/
theorem replay_accounts (w : World) (env : Nat → Choice) :
    ∃ turns, ReplayOutcome w (replayWal.journal serve env w) turns
      (replayWal.exec serve env w).2 := by
  obtain ⟨turns, items, log, runs⟩ :=
    Prog.exec_of_noted (serves_replayWal w) env fun _ => trivial
  have ids : turns.map (·.1.id) = w.store.walPending.map WalEntry.id := by
    rw [← items, List.map_map]
    rfl
  have outcome := retryOutcome_of_turns (n := fun entry => maxAttempts - entry.attempts) runs
    (fun x _ w => Prog.noted_mono (serves_replayEntry x.1 _ w) fun _ _ _ done => done.2)
    (ids ▸ w.store.walPending_ids_nodup)
  refine ⟨turns, items, log, runs, outcome.tried, fun x member => ?_, outcome.rows,
    has_marked turns⟩
  have listed : x.1 ∈ w.store.walPending := items ▸ List.mem_map_of_mem member
  obtain ⟨row, found, same⟩ := mem_walPending.mp listed
  cases took : stored x.1.op.target x.2 with
  | some data =>
    exact .gone (outcome.gone x member (by simp [took])) (by simp [took])
  | none =>
    have file : x.1.fileId = row.fileId := by rw [← same]; rfl
    have attempts : x.1.attempts = row.attempts % 2 ^ 32 := by rw [← same]; rfl
    have some_row : w.store.bare.files.get? x.1.fileId ≠ none := by
      have present := w.store.wal_refs x.1.id row found
      intro missing
      rw [← Store.getById_eq_none_iff, Store.getById, Option.map_eq_none_iff, file] at missing
      simp [missing] at present
    obtain ⟨counted, last, after⟩ := outcome.failed x member took some_row
    rw [found, Option.map_some] at after
    exact .spent row (last row.lastError) found after (by omega)

end Router

end Fvfs
