import Fvfs.Lib.Widen
import Fvfs.Orphans
import Fvfs.Serving

/-! The eviction task: one cycle over the files of a tier, what it frees, and what becomes of
a file whose copy was lost before the cycle. -/
namespace Fvfs

open Lib
open Function (update)

/-- The queries only the eviction task makes. -/
inductive Query where
  | bytesOnTier (t : Tier)
  | filesOnTier (t : Tier)

@[reducible] def Query.Res : Query → Type
  | bytesOnTier _ => Outcome Nat
  | filesOnTier _ => Outcome (List FileMetadata)

abbrev Queries : Interface := ⟨Query, Query.Res⟩

/-- `WHERE (tier_bitmask & ?1) != 0 AND is_dir = 0 ORDER BY accessed_at ASC`. -/
def Store.filesOnTier (s : Store) (t : Tier) : List FileMetadata :=
  ((s.files.rows.filter fun x => x.2.tierBitmask.has t && !x.2.isDir).map
    fun x => rowToMetadata x.1 x.2).insertionSort fun a b => a.accessedAt ≤ b.accessedAt

def answer : Handler Queries World Choice
  | .bytesOnTier t, c, w => statement c w (w.store.bytesOnTier t) w.store
  | .filesOnTier t, c, w => statement c w (w.store.filesOnTier t) w.store

structure TierWatermarks where
  highBytes : Nat
  lowBytes : Nat

/-- The order a sort by score leaves the candidates in. -/
def Ranking := { rank : List FileMetadata → List FileMetadata // ∀ files, (rank files).Perm files }

namespace EvictionTask

abbrev Task (α : Type) := Prog (Sys.sum Queries) FvfsError α

def bytesOnTier (t : Tier) : Task Nat := .call (.inr (.bytesOnTier t)) .lift
def filesOnTier (t : Tier) : Task (List FileMetadata) := .call (.inr (.filesOnTier t)) .lift

/-- The loop over the ranked files, with the bytes freed so far. -/
def evictFiles (t : Tier) (targetFree : Nat) : Nat → List FileMetadata → Async Nat
  | freed, [] => pure freed
  | freed, file :: rest =>
    if targetFree ≤ freed then pure freed
    else if !file.tierBitmask.safeToEvictFrom t then evictFiles t targetFree freed rest
    else do
      match ← (Router.evictFromTier file.path t).attempt with
      | .ok () => evictFiles t targetFree (freed + file.sizeBytes) rest
      | .error _ => evictFiles t targetFree freed rest

def runEvictionCycle (ranking : Ranking) (t : Tier) (wm : TierWatermarks) : Task Unit := do
  match ← (bytesOnTier t).attempt with
  | .error _ => pure ()
  | .ok used =>
    if used ≤ wm.highBytes then pure ()
    else
      match ← (filesOnTier t).attempt with
      | .error _ => pure ()
      | .ok files =>
        let _ ← (evictFiles t (used - wm.lowBytes) 0 (ranking.val files)).inl
        pure ()

end EvictionTask

namespace Store

variable {s s' : Store} {t : Tier} {p : FvfsPath}

/-- A store whose rows changed in columns other than the path. -/
theorem fileAt_of_files {f : FileRow → FileRow} (changed : s'.files = s.files.map f)
    (keeps : ∀ r, (f r).path = r.path) (p : FvfsPath) :
    s'.fileAt p = (s.fileAt p).map fun x => (x.1, f x.2) := by
  unfold fileAt
  rw [changed]
  exact Table.findRow_map fun r => by rw [keeps]

theorem files_setTierBitmask {id : Nat} {r : FileRow} (found : s.files.get? id = some r)
    (g : TierBitmask → TierBitmask) :
    (s.setTierBitmask id (g r.tierBitmask)).files =
      s.files.map fun x =>
        if x.path = r.path then { x with tierBitmask := g x.tierBitmask } else x := by
  simp only [setTierBitmask, updateFile_files, Table.modify, Table.map, Table.mk.injEq]
  apply List.map_congr_left
  rintro ⟨j, x⟩ member
  have at_j := Table.mem_rows_iff.mp member
  by_cases same : j = id
  · subst same
    obtain rfl := Option.some.inj (found.symm.trans at_j)
    simp
  · have apart : x.path ≠ r.path := fun paths => same (s.paths_unique j id x r at_j found paths)
    simp [same, apart]

/-- The bytes a row counts for on a tier. -/
def countedBytes (t : Tier) (r : FileRow) : Nat :=
  if r.tierBitmask.has t && !r.isDir then r.sizeBytes else 0

theorem bytesOnTier_eq_sum (s : Store) (t : Tier) :
    s.bytesOnTier t = (s.files.rows.map fun x => countedBytes t x.2).sum :=
  sum_filter_eq _ _ _

/-- A change of one row is the whole change of the tier's byte count. -/
theorem bytesOnTier_setTierBitmask {id : Nat} {r : FileRow} (found : s.files.get? id = some r)
    (b : TierBitmask) :
    (s.setTierBitmask id b).bytesOnTier t + countedBytes t r =
      s.bytesOnTier t + countedBytes t { r with tierBitmask := b } := by
  rw [bytesOnTier_eq_sum, bytesOnTier_eq_sum]
  exact Table.sum_modify found _ _

theorem mem_filesOnTier {m : FileMetadata} :
    m ∈ s.filesOnTier t ↔ ∃ i r, s.files.get? i = some r ∧ r.tierBitmask.has t = true ∧
      r.isDir = false ∧ rowToMetadata i r = m := by
  simp [filesOnTier, List.mem_insertionSort, ← Table.mem_rows_iff, and_assoc]

/-- The record is what its row on the tier still says. -/
def Listed (s : Store) (t : Tier) (m : FileMetadata) : Prop :=
  ∃ r, s.files.get? m.id = some r ∧ r.path = m.path.text ∧ r.tierBitmask.has t = true ∧
    r.isDir = false ∧ rowToMetadata m.id r = m

theorem listed_of_mem (canonical : ∀ p x, s.rowState p = some x → p.Canonical)
    {m : FileMetadata} (member : m ∈ s.filesOnTier t) : s.Listed t m := by
  obtain ⟨i, r, at_i, bit, plain, rfl⟩ := mem_filesOnTier.mp member
  have row : s.rowState ⟨r.path⟩ = some (stateOf (i, r)) :=
    rowState_of_row (x := (i, r)) (Table.mem_rows_iff.mpr at_i)
  unfold Listed
  rw [rowToMetadata_path (canonical _ _ row) rfl]
  exact ⟨r, at_i, rfl, bit, plain, rfl⟩

theorem Listed.get {m : FileMetadata} (listed : s.Listed t m) : s.get m.path = some m := by
  obtain ⟨r, at_id, path, -, -, same⟩ := listed
  simp [Store.get, fileAt_eq_some_iff.mpr ⟨at_id, path⟩, same]

/-- A record stays as it is when another file's bitmask changes. -/
theorem Listed.of_other {m n : FileMetadata} {b : TierBitmask} (listed : s.Listed t m)
    (also : s.Listed t n) (apart : m.path ≠ n.path) : (s.setTierBitmask n.id b).Listed t m := by
  obtain ⟨r, at_id, path, rest⟩ := listed
  obtain ⟨r', at_id', path', -⟩ := also
  have ids : m.id ≠ n.id := by
    intro same
    rw [same] at at_id
    obtain rfl := Option.some.inj (at_id.symm.trans at_id')
    exact apart (FvfsPath.ext (path.symm.trans path'))
  exact ⟨r, by simpa [setTierBitmask, Table.get?_modify, ids] using at_id, path, rest⟩

theorem canonical_of_rows (all : ∀ x ∈ s.files.rows, (rowPath x).Canonical) :
    ∀ p x, s.rowState p = some x → p.Canonical := by
  intro p x row
  obtain ⟨y, member, rfl⟩ := List.mem_map.mp (row_of_rowState row)
  exact all y member

theorem filesOnTier_paths_nodup (canonical : ∀ p x, s.rowState p = some x → p.Canonical) :
    ((s.filesOnTier t).map FileMetadata.path).Nodup := by
  have perm := (List.perm_insertionSort (fun a b : FileMetadata => a.accessedAt ≤ b.accessedAt)
    ((s.files.rows.filter fun x => x.2.tierBitmask.has t && !x.2.isDir).map
      fun x => rowToMetadata x.1 x.2)).map FileMetadata.path
  refine (perm.nodup_iff).mpr ?_
  rw [List.map_map]
  have paths : ((s.files.rows.filter fun x => x.2.tierBitmask.has t && !x.2.isDir).map
      rowPath).Nodup := (rowPaths_nodup s).sublist (List.filter_sublist.map _)
  refine (List.map_congr_left fun x member => ?_).symm ▸ paths
  have row := rowState_of_row (List.mem_of_mem_filter member)
  exact rowToMetadata_path (canonical _ _ row) rfl

end Store

namespace EvictionTask

/-- The tier gave up its copy. -/
def evicts (t : Tier) (p : FvfsPath) : Happening Sys World → Bool
  | ⟨_, .delete u q, .ok _⟩ => decide (u = t ∧ q = p)
  | _ => false

/-- The tier refused to. -/
def refuses (t : Tier) (p : FvfsPath) : Happening Sys World → Bool
  | ⟨_, .delete u q, .error _⟩ => decide (u = t ∧ q = p)
  | _ => false

def evicted (t : Tier) (log : Journal Sys World) (p : FvfsPath) : Bool := log.any (evicts t p)
def refused (t : Tier) (log : Journal Sys World) (p : FvfsPath) : Bool := log.any (refuses t p)

/-- A row after the cycle. -/
def afterCycle (t : Tier) (log : Journal Sys World) (r : FileRow) : FileRow :=
  if evicted t log ⟨r.path⟩ then { r with tierBitmask := r.tierBitmask.clear t } else r

/-- What the loop does to `files`, from one world to another. -/
structure Sweep (t : Tier) (low : Nat) (files : List FileMetadata) (w : World)
    (log : Journal Sys World) (w' : World) : Prop where
  freed : w'.store.bytesOnTier t +
    ((files.filter fun f => evicted t log f.path).map fun f => f.sizeBytes).sum =
      w.store.bytesOnTier t
  backed : ∀ p, evicted t log p = true → ∃ f ∈ files, f.path = p ∧ f.tierBitmask.has .s3 = true
  needed : ∀ a ∈ log, ∀ p, evicts t p a = true → low < a.before.store.bytesOnTier t
  in_order : files.Pairwise fun f g => f.tierBitmask.has .s3 = true →
    evicted t log g.path = true → evicted t log f.path = true ∨ refused t log f.path = true
  enough : w'.store.bytesOnTier t ≤ low ∨ ∀ f ∈ files, f.tierBitmask.has .s3 = true →
    evicted t log f.path = true ∨ refused t log f.path = true
  rows : w'.store.files = w.store.files.map (afterCycle t log)
  wal : w'.store.wal = w.store.wal
  rowid : w'.store.lastInsertRowid = w.store.lastInsertRowid
  objects : ∀ u p, w'.tiers u p = if u = t ∧ evicted t log p = true then none else w.tiers u p
  promotions : w'.promotions = w.promotions

section Journals

variable {t : Tier} {p : FvfsPath} {first later : Journal Sys World}

@[simp] theorem evicted_nil : evicted t [] p = false := rfl
@[simp] theorem refused_nil : refused t [] p = false := rfl
@[simp] theorem evicted_append :
    evicted t (first ++ later) p = (evicted t first p || evicted t later p) := List.any_append
@[simp] theorem refused_append :
    refused t (first ++ later) p = (refused t first p || refused t later p) := List.any_append

theorem afterCycle_path (log : Journal Sys World) (r : FileRow) :
    (afterCycle t log r).path = r.path := by
  unfold afterCycle
  split <;> rfl

end Journals

/-- The journal of a refused eviction. -/
def refusal (w : World) (t : Tier) (f : FileMetadata) (e : FvfsError) : Journal Sys World :=
  [⟨w, .metaGet f.path, .ok (some f)⟩, ⟨w, .delete t f.path, .error e⟩]

/-- The world after an eviction, and its journal. -/
def dropped (w : World) (t : Tier) (f : FileMetadata) : World :=
  (w.setObject t f.path none).withStore (w.store.setTierBitmask f.id (f.tierBitmask.clear t))

def eviction (w : World) (t : Tier) (f : FileMetadata) : Journal Sys World :=
  [⟨w, .metaGet f.path, .ok (some f)⟩, ⟨w, .delete t f.path, .ok ()⟩,
    ⟨w.setObject t f.path none, .setTierBitmask f.id (f.tierBitmask.clear t), .ok ()⟩]

section Steps

variable {w w' : World} {t : Tier} {f : FileMetadata} {low : Nat} {files rest : List FileMetadata}
  {log later : Journal Sys World}

/-- What one call of the router's eviction does to a file as it was listed. -/
theorem serves_evictFromTier (listed : w.store.Listed t f) (warm : t ≠ .s3)
    (safe : f.tierBitmask.has .s3 = true) {post : Outcome Unit → Journal Sys World → World → Prop}
    (answered : post (.ok ()) (eviction w t f) (dropped w t f))
    (failed : ∀ e, post (.error e) (refusal w t f e) w) :
    Serves (Router.evictFromTier f.path t) post w := by
  simp only [Router.evictFromTier, Router.requireMetadata, Prog.noted_bind, serves_metaGet,
    listed.get, Prog.pure_eq, Prog.noted_ret, TierBitmask.safeToEvictFrom_eq _ warm, safe, warm,
    Bool.not_true, Bool.false_eq_true, if_false]
  apply serves_delete
  · exact (serves_setTierBitmask ..).mpr answered
  · exact failed

@[simp] theorem evicted_eviction (p : FvfsPath) :
    evicted t (eviction w t f) p = decide (f.path = p) := by
  simp [evicted, eviction, evicts]

@[simp] theorem evicted_refusal (e : FvfsError) (p : FvfsPath) :
    evicted t (refusal w t f e) p = false := by
  simp [evicted, refusal, evicts]

@[simp] theorem refused_refusal (e : FvfsError) (p : FvfsPath) :
    refused t (refusal w t f e) p = decide (f.path = p) := by
  simp [refused, refusal, refuses]

theorem bytesOnTier_dropped (listed : w.store.Listed t f) :
    (dropped w t f).store.bytesOnTier t + f.sizeBytes = w.store.bytesOnTier t := by
  obtain ⟨r, at_id, -, bit, plain, same⟩ := listed
  have size : f.sizeBytes = r.sizeBytes := by rw [← same]; rfl
  have change := Store.bytesOnTier_setTierBitmask (t := t) at_id (f.tierBitmask.clear t)
  simp only [Store.countedBytes, bit, plain, TierBitmask.has_clear] at change
  simp only [dropped, World.withStore_store]
  simp at change
  omega

/-- What became of a file stays so as the journal goes on before. -/
theorem tried_append (earlier : Journal Sys World) {p : FvfsPath}
    (tried : evicted t later p = true ∨ refused t later p = true) :
    evicted t (earlier ++ later) p = true ∨ refused t (earlier ++ later) p = true := by
  rcases tried with out | kept
  · exact Or.inl (by simp [out])
  · exact Or.inr (by simp [kept])

/-- After an eviction the loop treats the rows as the whole sweep does. -/
theorem afterCycle_dropped (listed : w.store.Listed t f)
    (fresh : evicted t later f.path = false) :
    (dropped w t f).store.files.map (afterCycle t later) =
      w.store.files.map (afterCycle t (eviction w t f ++ later)) := by
  obtain ⟨r, at_id, path, -, -, same⟩ := listed
  have mask : f.tierBitmask = r.tierBitmask := by rw [← same]; rfl
  have files := Store.files_setTierBitmask at_id fun b => b.clear t
  simp only [dropped, World.withStore_store, mask, files, Table.map_map]
  congr 1
  funext x
  have text : f.path = ⟨x.path⟩ ↔ x.path = r.path := by
    rw [FvfsPath.ext_iff, path, eq_comm]
  by_cases here : x.path = r.path
  · have kept : evicted t later ⟨x.path⟩ = false := text.mpr here ▸ fresh
    have gone : evicted t (eviction w t f ++ later) ⟨x.path⟩ = true := by simp [text.mpr here]
    simp only [Function.comp_apply, if_pos here, afterCycle, kept, gone, if_true]
    simp
  · simp [afterCycle, here, text]

/-- Nothing is done: the target is met, or there is no file left. -/
theorem sweep_nothing (stop : w.store.bytesOnTier t ≤ low ∨ files = []) :
    Sweep t low files w [] w where
  freed := by simp
  backed := by simp
  needed := by simp
  in_order := List.pairwise_of_forall fun _ _ _ gone => by simp at gone
  enough := by
    rcases stop with met | rfl
    · exact Or.inl met
    · exact Or.inr (by simp)
  rows := by simp [afterCycle, Table.map]
  wal := rfl
  rowid := rfl
  objects := by simp
  promotions := rfl

/-- Only the files of the loop are evicted. -/
theorem Sweep.spares (sweep : Sweep t low rest w later w') {p : FvfsPath}
    (absent : p ∉ rest.map FileMetadata.path) : evicted t later p = false := by
  by_contra evicted
  obtain ⟨g, member, path, -⟩ := sweep.backed p (by simpa using evicted)
  exact absent (List.mem_map.mpr ⟨g, member, path⟩)

/-- A file that is not on S3 is passed over. -/
theorem Sweep.skip (sweep : Sweep t low rest w later w') (alone : f.tierBitmask.has .s3 = false)
    (fresh : f.path ∉ rest.map FileMetadata.path) : Sweep t low (f :: rest) w later w' where
  freed := by simpa [sweep.spares fresh] using sweep.freed
  backed p gone := by
    obtain ⟨g, member, found⟩ := sweep.backed p gone
    exact ⟨g, List.mem_cons_of_mem f member, found⟩
  needed := sweep.needed
  in_order := List.pairwise_cons.mpr ⟨fun g _ safe => by simp [alone] at safe, sweep.in_order⟩
  enough := by
    refine sweep.enough.imp_right fun all => ?_
    rintro g (_ | ⟨_, member⟩) safe
    · simp [alone] at safe
    · exact all g member safe
  rows := sweep.rows
  wal := sweep.wal
  rowid := sweep.rowid
  objects := sweep.objects
  promotions := sweep.promotions

/-- A refused eviction changes nothing and leaves its mark in the journal. -/
theorem Sweep.refuse (sweep : Sweep t low rest w later w') (e : FvfsError)
    (fresh : f.path ∉ rest.map FileMetadata.path) :
    Sweep t low (f :: rest) w (refusal w t f e ++ later) w' where
  freed := by simpa [sweep.spares fresh] using sweep.freed
  backed p gone := by
    obtain ⟨g, member, found⟩ := sweep.backed p (by simpa using gone)
    exact ⟨g, List.mem_cons_of_mem f member, found⟩
  needed a inside p evicts := by
    rcases List.mem_append.mp inside with here | further
    · simp only [refusal, List.mem_cons, List.not_mem_nil, or_false] at here
      rcases here with rfl | rfl <;> cases evicts
    · exact sweep.needed a further p evicts
  in_order := by
    refine List.pairwise_cons.mpr ⟨fun g _ _ _ => Or.inr (by simp), ?_⟩
    refine sweep.in_order.imp fun {g k} holds safe gone => ?_
    exact tried_append _ (holds safe (by simpa using gone))
  enough := by
    refine sweep.enough.imp_right fun all => ?_
    rintro g (_ | ⟨_, member⟩) safe
    · exact Or.inr (by simp)
    · exact tried_append _ (all g member safe)
  rows := sweep.rows
  wal := sweep.wal
  rowid := sweep.rowid
  objects u p := by simpa using sweep.objects u p
  promotions := sweep.promotions

/-- An eviction takes place while more than the low mark is used. -/
theorem Sweep.evict (sweep : Sweep t low rest (dropped w t f) later w')
    (listed : w.store.Listed t f) (safe : f.tierBitmask.has .s3 = true)
    (above : low < w.store.bytesOnTier t) (fresh : f.path ∉ rest.map FileMetadata.path) :
    Sweep t low (f :: rest) w (eviction w t f ++ later) w' where
  freed := by
    have rest_freed := sweep.freed
    have here := bytesOnTier_dropped listed
    have others : (rest.filter fun g => evicted t (eviction w t f ++ later) g.path) =
        rest.filter fun g => evicted t later g.path := by
      refine List.filter_congr fun g member => ?_
      have apart : f.path ≠ g.path := fun same =>
        fresh (List.mem_map.mpr ⟨g, member, same.symm⟩)
      simp [apart]
    rw [List.filter_cons_of_pos (by simp), others, List.map_cons, List.sum_cons]
    omega
  backed p gone := by
    rw [evicted_append, evicted_eviction, Bool.or_eq_true, decide_eq_true_eq] at gone
    rcases gone with same | gone
    · exact ⟨f, List.mem_cons_self, same, safe⟩
    · obtain ⟨g, member, found⟩ := sweep.backed p gone
      exact ⟨g, List.mem_cons_of_mem f member, found⟩
  needed a inside p evicts := by
    rcases List.mem_append.mp inside with here | further
    · simp only [eviction, List.mem_cons, List.not_mem_nil, or_false] at here
      rcases here with rfl | rfl | rfl
      · cases evicts
      · exact above
      · cases evicts
    · exact sweep.needed a further p evicts
  in_order := by
    refine List.pairwise_cons.mpr ⟨fun g _ _ _ => Or.inl (by simp), ?_⟩
    refine sweep.in_order.imp_of_mem fun {g k} _ member holds safe gone => ?_
    have apart : f.path ≠ k.path := fun same => fresh (List.mem_map.mpr ⟨k, member, same.symm⟩)
    exact tried_append _ (holds safe (by simpa [apart] using gone))
  enough := by
    refine sweep.enough.imp_right fun all => ?_
    rintro g (_ | ⟨_, member⟩) safe
    · exact Or.inl (by simp)
    · exact tried_append _ (all g member safe)
  rows := sweep.rows.trans (afterCycle_dropped listed (sweep.spares fresh))
  wal := sweep.wal
  rowid := sweep.rowid
  objects u p := by
    rw [sweep.objects, dropped, World.withStore_tiers, World.setObject_tiers]
    by_cases same : p = f.path
    · subst same
      by_cases here : u = t <;> simp [here]
    · simp [same, Ne.symm same]
  promotions := sweep.promotions

theorem dropped_listed {g : FileMetadata} (listed : w.store.Listed t f)
    (also : w.store.Listed t g) (apart : g.path ≠ f.path) : (dropped w t f).store.Listed t g :=
  also.of_other listed apart

/-- The loop, with the tier's usage and the bytes freed adding up to what it started from. -/
theorem serves_evictFiles (warm : t ≠ .s3) {used freed : Nat}
    (listed : ∀ f ∈ files, w.store.Listed t f) (apart : (files.map FileMetadata.path).Nodup)
    (counted : freed + w.store.bytesOnTier t = used) :
    Serves (evictFiles t (used - low) freed files) (fun _ => Sweep t low files w) w := by
  induction files generalizing w freed with
  | nil => exact sweep_nothing (Or.inr rfl)
  | cons f rest ih =>
    obtain ⟨fresh, apart⟩ := List.nodup_cons.mp apart
    have here := listed f List.mem_cons_self
    have later : ∀ g ∈ rest, w.store.Listed t g :=
      fun g member => listed g (List.mem_cons_of_mem f member)
    unfold evictFiles
    by_cases reached : used - low ≤ freed
    · rw [if_pos reached]
      exact sweep_nothing (Or.inl (by omega))
    · rw [if_neg reached]
      cases safe : f.tierBitmask.has .s3 with
      | false =>
        rw [if_pos (by simp [TierBitmask.safeToEvictFrom_eq _ warm, safe])]
        exact Prog.noted_mono (ih later apart counted) fun _ _ _ sweep => sweep.skip safe fresh
      | true =>
        rw [if_neg (by simp [TierBitmask.safeToEvictFrom_eq _ warm, safe])]
        apply (Prog.noted_bind ..).mpr
        apply (Prog.noted_attempt ..).mpr
        apply serves_evictFromTier here warm safe
        · have remaining : ∀ g ∈ rest, (dropped w t f).store.Listed t g := fun g member =>
            dropped_listed here (later g member) fun same =>
              fresh (List.mem_map.mpr ⟨g, member, same⟩)
          have bytes := bytesOnTier_dropped here
          refine Prog.noted_mono (ih remaining apart (by omega)) fun _ _ _ sweep => ?_
          exact sweep.evict here safe (by omega) fresh
        · intro e
          exact Prog.noted_mono (ih later apart counted) fun _ _ _ sweep => sweep.refuse e fresh

end Steps

/-- The task's queries do not fail either. -/
def serveTask : Handler (Sys.sum Queries) World Choice :=
  serve.sum fun q c w => answer q { c with fault := none } w

section Cycle

variable {w : World} {t : Tier}

theorem noted_bytesOnTier (post : Outcome Nat → Journal (Sys.sum Queries) World → World → Prop) :
    (bytesOnTier t).noted serveTask (fun _ => True) post w ↔
      post (.ok (w.store.bytesOnTier t))
        [⟨w, .inr (.bytesOnTier t), .ok (w.store.bytesOnTier t)⟩] w :=
  ⟨fun valid => valid (.quiet 0) trivial, fun valid _ _ => valid⟩

theorem noted_filesOnTier
    (post : Outcome (List FileMetadata) → Journal (Sys.sum Queries) World → World → Prop) :
    (filesOnTier t).noted serveTask (fun _ => True) post w ↔
      post (.ok (w.store.filesOnTier t))
        [⟨w, .inr (.filesOnTier t), .ok (w.store.filesOnTier t)⟩] w :=
  ⟨fun valid => valid (.quiet 0) trivial, fun valid _ _ => valid⟩

theorem noted_router (p : Async α)
    (post : Outcome α → Journal (Sys.sum Queries) World → World → Prop) :
    (p.inl : Task α).noted serveTask (fun _ => True) post w ↔
      Serves p (fun r log => post r (log.map .inl)) w := Prog.noted_inl ..

theorem noted_runEvictionCycle (ranking : Ranking) (warm : t ≠ .s3) (wm : TierWatermarks)
    (canonical : ∀ p x, w.store.rowState p = some x → p.Canonical) :
    (runEvictionCycle ranking t wm).noted serveTask (fun _ => True) (fun _ log w' =>
      (w.store.bytesOnTier t ≤ wm.highBytes → w' = w) ∧
      (wm.highBytes < w.store.bytesOnTier t →
        Sweep t wm.lowBytes (ranking.val (w.store.filesOnTier t)) w log.narrow w')) w := by
  simp only [runEvictionCycle, Prog.noted_bind, Prog.noted_attempt, noted_bytesOnTier]
  split
  next idle => exact ⟨fun _ => rfl, fun above => by omega⟩
  next busy =>
    have perm := ranking.property (w.store.filesOnTier t)
    have listed : ∀ f ∈ ranking.val (w.store.filesOnTier t), w.store.Listed t f :=
      fun f member => Store.listed_of_mem canonical (perm.mem_iff.mp member)
    have apart := (perm.map FileMetadata.path).nodup_iff.mpr (Store.filesOnTier_paths_nodup canonical)
    simp only [Prog.noted_bind, Prog.noted_attempt, noted_filesOnTier, noted_router]
    refine Prog.noted_mono (serves_evictFiles warm listed apart (Nat.zero_add _))
      fun r log w' sweep => ?_
    rw [← Journal.narrow_inl (J := Queries) log] at sweep
    cases r with
    | ok freed =>
      refine ⟨fun idle => absurd idle busy, fun _ => ?_⟩
      simp only [List.append_nil]
      exact sweep
    | error e => exact ⟨fun idle => absurd idle busy, fun _ => sweep⟩

/-- What is left on the tier after a cycle that did not get down to the low mark. -/
theorem Sweep.left {low : Nat} {order : List FileMetadata} {log : Journal Sys World} {w' : World}
    (sweep : Sweep t low order w log w') (perm : order.Perm (w.store.filesOnTier t))
    (canonical : ∀ p x, w.store.rowState p = some x → p.Canonical) :
    w'.store.bytesOnTier t ≤ low ∨ ∀ p x, w'.store.rowState p = some x → x.isDir = false →
      x.tierBitmask.has t = true → x.tierBitmask.has .s3 = false ∨ refused t log p = true := by
  refine sweep.enough.imp_right fun all p x row plain bit => ?_
  rw [Store.rowState, Store.fileAt_of_files sweep.rows (afterCycle_path log), Option.map_map] at row
  obtain ⟨⟨i, r⟩, found, rfl⟩ := Option.map_eq_some_iff.mp row
  obtain ⟨at_id, path⟩ := Store.fileAt_eq_some_iff.mp found
  obtain rfl : (⟨r.path⟩ : FvfsPath) = p := FvfsPath.ext path
  have before : w.store.rowState ⟨r.path⟩ = some (Store.stateOf (i, r)) := by
    rw [Store.rowState, found, Option.map_some]
  simp only [Function.comp_apply, Store.stateOf] at plain bit ⊢
  cases gone : evicted t log ⟨r.path⟩ with
  | true => simp [afterCycle, gone] at bit
  | false =>
    simp only [afterCycle, gone, Bool.false_eq_true, if_false] at plain bit ⊢
    cases safe : r.tierBitmask.has .s3 with
    | false => exact Or.inl rfl
    | true =>
      have member : Store.rowToMetadata i r ∈ order :=
        perm.mem_iff.mpr (Store.mem_filesOnTier.mpr ⟨i, r, at_id, bit, plain, rfl⟩)
      have tried := all _ member safe
      rw [Store.rowToMetadata_path (canonical _ _ before) rfl, gone] at tried
      exact Or.inr (tried.resolve_left Bool.false_ne_true)

/-- An eviction cycle, whatever the backends do: nothing changes up to the high mark, and
beyond it files safe on S3 go in order until the usage is down to the low mark. -/
theorem eviction_cycle (ranking : Ranking) (warm : t ≠ .s3) (wm : TierWatermarks)
    (canonical : ∀ p x, w.store.rowState p = some x → p.Canonical) (env : Nat → Choice) :
    let cycle := runEvictionCycle ranking t wm
    let log := (cycle.journal serveTask env w).narrow
    let w' := (cycle.exec serveTask env w).2
    (w.store.bytesOnTier t ≤ wm.highBytes → w' = w) ∧
    (wm.highBytes < w.store.bytesOnTier t →
      Sweep t wm.lowBytes (ranking.val (w.store.filesOnTier t)) w log w' ∧
      (w'.store.bytesOnTier t ≤ wm.lowBytes ∨ ∀ p x, w'.store.rowState p = some x →
        x.isDir = false → x.tierBitmask.has t = true →
        x.tierBitmask.has .s3 = false ∨ refused t log p = true)) := by
  obtain ⟨idle, busy⟩ := Prog.exec_of_noted
    (noted_runEvictionCycle ranking warm wm canonical) env fun _ => trivial
  exact ⟨idle, fun above => ⟨busy above,
    (busy above).left (ranking.property (w.store.filesOnTier t)) canonical⟩⟩

theorem uploaded_canonical :
    ∀ p x, Request.uploaded.store.rowState p = some x → p.Canonical :=
  Store.canonical_of_rows (by decide)

/-- An uploaded file is evicted when nothing may stay on the local disk. -/
theorem eviction_cycle_uploaded :
    let cycle := runEvictionCycle ⟨id, fun files => .refl files⟩ .localDisk ⟨0, 0⟩
    let w := Request.uploaded
    let log := (cycle.journal serveTask (fun _ => .quiet 0) w).narrow
    let w' := (cycle.exec serveTask (fun _ => .quiet 0) w).2
    (w.store.bytesOnTier .localDisk ≤ 0 → w' = w) ∧
    (0 < w.store.bytesOnTier .localDisk →
      Sweep .localDisk 0 (w.store.filesOnTier .localDisk) w log w' ∧
      (w'.store.bytesOnTier .localDisk ≤ 0 ∨ ∀ p x, w'.store.rowState p = some x →
        x.isDir = false → x.tierBitmask.has .localDisk = true →
        x.tierBitmask.has .s3 = false ∨ refused .localDisk log p = true)) :=
  eviction_cycle ⟨id, fun files => .refl files⟩ (by decide) ⟨0, 0⟩ uploaded_canonical _

end Cycle

end EvictionTask

end Fvfs
