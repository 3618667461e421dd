import Fvfs.Lib.History
import Fvfs.Requests
import Fvfs.Steps
import Mathlib.Algebra.BigOperators.Finprod

/-! Copies the metadata does not know of: when every object on a tier belongs to a file row
with that tier's bit, and what the tier's byte count is then worth. -/
namespace Fvfs

open Lib
open Function (update)

/-- `SUM(size_bytes)` of the files with the tier's bit. -/
def Store.bytesOnTier (s : Store) (t : Tier) : Nat :=
  ((s.files.rows.filter fun x => x.2.tierBitmask.has t && !x.2.isDir).map
    fun x => x.2.sizeBytes).sum

/-- Bytes a tier holds at a path. -/
def World.held (w : World) (t : Tier) (p : FvfsPath) : Nat := ((w.tiers t p).map List.length).getD 0

/-- Bytes a tier holds altogether. -/
noncomputable def World.heldBytes (w : World) (t : Tier) : Nat := ∑ᶠ p, w.held t p

/-- Every object is a copy of a file whose row says so. -/
def NoOrphans (w : World) : Prop :=
  ∀ t p data, w.tiers t p = some data →
    ∃ x, w.store.rowState p = some x ∧ x.isDir = false ∧ x.tierBitmask.has t = true

/-- The same of one path, with the size the row records. -/
def Accounted (v : View) : Prop :=
  ∀ t data, v.object t = some data → ∃ x, v.row = some x ∧ x.isDir = false ∧
    x.tierBitmask.has t = true ∧ x.sizeBytes = data.length

theorem Accounted.bare {v : View} (accounted : Accounted v) (none_left : v.row = none) (t : Tier) :
    v.object t = none := by
  cases there : v.object t with
  | none => rfl
  | some data =>
    obtain ⟨x, row, -⟩ := accounted t data there
    simp [none_left] at row

theorem accounted_of_bare {v : View} (nothing : ∀ t, v.object t = none) : Accounted v := by
  intro t data there
  simp [nothing t] at there

theorem Accounted.add {v : View} {x : Store.RowState} {data : Bytes} (accounted : Accounted v)
    (row : v.row = some x) (plain : x.isDir = false) (size : x.sizeBytes = data.length) (t : Tier) :
    Accounted ⟨some { x with tierBitmask := x.tierBitmask.set t },
      update v.object t (some data)⟩ := by
  intro u copy there
  refine ⟨_, rfl, plain, ?_⟩
  by_cases same : u = t
  · subst same
    obtain rfl : data = copy := by simpa using there
    exact ⟨by simp, size⟩
  · obtain ⟨y, row', -, bit, size'⟩ := accounted u copy (by simpa [same] using there)
    obtain rfl := Option.some.inj (row.symm.trans row')
    exact ⟨by simp [bit], size'⟩

theorem Accounted.drop {v : View} {x : Store.RowState} (accounted : Accounted v)
    (row : v.row = some x) (t : Tier) :
    Accounted ⟨some { x with tierBitmask := x.tierBitmask.clear t }, update v.object t none⟩ := by
  intro u copy there
  have apart : u ≠ t := by
    rintro rfl
    simp at there
  obtain ⟨y, row', plain, bit, size⟩ := accounted u copy (by simpa [apart] using there)
  obtain rfl := Option.some.inj (row.symm.trans row')
  exact ⟨_, rfl, plain, by simp [bit, apart], size⟩

/-- What histories maintain while no write covers a replicated file. -/
structure Tidy (w : World) (files : FvfsPath → Option Bytes) : Prop where
  refines : Refines w files
  accounted : ∀ p, Accounted (w.view p)

section Tidy

variable {w w' : World} {files : FvfsPath → Option Bytes}

theorem Tidy.no_orphans (tidy : Tidy w files) : NoOrphans w := by
  intro t p data there
  obtain ⟨x, row, plain, bit, -⟩ := tidy.accounted p t data there
  exact ⟨x, row, plain, bit⟩

/-- A path whose view changed is accounted for on its own. -/
theorem accounted_update {p : FvfsPath} {v : View} (accounted : ∀ q, Accounted (w.view q))
    (changed : w'.view = update w.view p v) (here : Accounted v) : ∀ q, Accounted (w'.view q) := by
  intro q
  rw [changed]
  by_cases same : q = p
  · subst same
    simpa using here
  · simpa [same] using accounted q

theorem Tidy.size {x : Store.RowState} {p : FvfsPath} {data : Bytes} (tidy : Tidy w files)
    (row : w.store.rowState p = some x) (current : files p = some data) :
    x.isDir = false ∧ x.sizeBytes = data.length := by
  have rep := tidy.refines.represents p
  rw [current] at rep
  cases rep with
  | file there plain copies =>
    obtain rfl := Option.some.inj (row.symm.trans there)
    obtain ⟨t, bit⟩ := copies.somewhere
    obtain ⟨y, row', -, -, size⟩ := tidy.accounted p t data (copies.holds t bit)
    obtain rfl := Option.some.inj (row.symm.trans row')
    exact ⟨plain, size⟩

theorem tidy_background : Router.Background files (Tidy · files) where
  refines := fun tidy => tidy.refines
  of_view := by
    intro w w' tidy same
    exact ⟨tidy.refines.of_view same, same ▸ tidy.accounted⟩
  add := by
    intro w p x data tidy row current t
    obtain ⟨plain, size⟩ := tidy.size row current
    refine ⟨Router.refines_addCopy tidy.refines row current t, ?_⟩
    exact accounted_update tidy.accounted (Router.view_setCopy row t _ _)
      ((tidy.accounted p).add row plain size t)
  drop := by
    intro w p x t tidy row backed warmer
    refine ⟨Router.refines_dropCopy tidy.refines row backed warmer, ?_⟩
    exact accounted_update tidy.accounted (Router.view_setCopy row t _ _)
      ((tidy.accounted p).drop row t)

end Tidy

namespace Router

variable {w : World} {files : FvfsPath → Option Bytes} {p : FvfsPath}

theorem quiet_delete_accounted (accounted : ∀ q, Accounted (w.view q)) (order : TaskOrder) :
    Quiet (delete order p) (fun r w' => (∀ q, Accounted (w'.view q)) ∧
      (r = .ok () → ∀ t, w'.tiers t p = none)) w := by
  simp only [delete, Prog.wp_bind, quiet_requireMetadata]
  cases found : w.store.get p with
  | none => exact ⟨accounted, by simp⟩
  | some m =>
    apply Prog.wp_mono (quiet_deleteTiers p m.tierBitmask order.val)
    rintro r w' ⟨rfl, store, view⟩
    have emptied (t : Tier) : (w'.view p).object t = none := by
      rw [view, Function.update_self]
      have asked : t ∈ order.val := order.property.mem_iff.mpr (by cases t <;> simp)
      cases there : (w.view p).object t with
      | none => simp only [there, ite_self]
      | some data =>
        obtain ⟨x, row, -, bit, -⟩ := accounted p t data there
        obtain rfl := Option.some.inj ((Store.rowState_of_get found).symm.trans row)
        have bit' : m.tierBitmask.has t = true := bit
        simp [asked, bit']
    simp only [quiet_metaDelete]
    refine ⟨?_, fun _ => emptied⟩
    apply accounted_update (p := p) (v := ⟨none, (w'.view p).object⟩) (w := w) accounted
    · rw [view_metaDelete, view]
      simp
    · exact accounted_of_bare emptied

/-- The world after a write's upsert. -/
def recorded (sha256 : Bytes → Text) (w : World) (p : FvfsPath) (data : Bytes) (clock : Int) :
    World :=
  (w.setObject .localDisk p (some data)).withStore
    (w.store.upsert (writtenMetadata sha256 p data clock)).2

theorem quiet_write_of {sha256 : Bytes → Text} {data : Bytes} {post : Outcome Unit → World → Prop}
    (rest : ∀ clock fileId, (afterUpsert p fileId).wp perform Choice.Faultless post
      (recorded sha256 w p data clock)) :
    Quiet (write sha256 p data) post w := by
  apply (Prog.wp_bind _ _ _ _).mpr
  apply (quiet_put _ _ _ _).mpr
  apply (Prog.wp_bind _ _ _ _).mpr
  apply (quiet_now _).mpr
  intro clock
  apply (Prog.wp_bind _ _ _ _).mpr
  apply (quiet_upsert _ _).mpr
  exact quiet_of_sure (afterUpsert_sure p _) (rest clock _)

theorem view_recorded (sha256 : Bytes → Text) (data : Bytes) (clock : Int) :
    ∃ id, (recorded sha256 w p data clock).view = update w.view p
      ⟨some (Store.metadataState (writtenMetadata sha256 p data clock) id),
        update (w.view p).object .localDisk (some data)⟩ :=
  ⟨_, view_setUpsert (w := w) .localDisk (some data) (writtenMetadata sha256 p data clock)⟩

/-- A write's own path afterwards: a row with the local bit alone, the other tiers as found. -/
theorem quiet_write_view (sha256 : Bytes → Text) (data : Bytes) :
    Quiet (write sha256 p data) (fun _ w' => ∃ id clock, w'.view p =
      ⟨some (Store.metadataState (writtenMetadata sha256 p data clock) id),
        update (w.view p).object .localDisk (some data)⟩) w := by
  apply quiet_write_of
  intro clock fileId
  have spared : (afterUpsert p fileId).wp perform Choice.Faultless
      (fun _ w' => w'.view p = (recorded sha256 w p data clock).view p)
      (recorded sha256 w p data clock) :=
    Prog.wp_of_only (f := fun w : World => w.view p) (afterUpsert_aside p fileId)
      fun op c w aside => perform_spares (Step.Aside.spares aside) c w
  apply Prog.wp_mono spared
  intro r w' same
  obtain ⟨id, view⟩ := view_recorded (w := w) (p := p) sha256 data clock
  exact ⟨id, clock, by rw [same, view, Function.update_self]⟩

/-- The row has no copy that a write would leave behind. -/
def Uncopied (w : World) (p : FvfsPath) : Prop :=
  ∀ x, w.store.rowState p = some x → x.isDir = false →
    x.tierBitmask.has .nas = false ∧ x.tierBitmask.has .s3 = false

theorem recorded_accounted (accounted : ∀ q, Accounted (w.view q)) (uncopied : Uncopied w p)
    (sha256 : Bytes → Text) (data : Bytes) (clock : Int) :
    ∀ q, Accounted ((recorded sha256 w p data clock).view q) := by
  obtain ⟨id, view⟩ := view_recorded (w := w) (p := p) sha256 data clock
  apply accounted_update accounted view
  intro t copy there
  have hot : t = .localDisk := by
    by_contra cold
    obtain ⟨x, row, plain, bit, -⟩ := accounted p t copy (by simpa [cold] using there)
    obtain ⟨nas, s3⟩ := uncopied x row plain
    cases t <;> simp_all
  subst hot
  obtain rfl : data = copy := by simpa using there
  exact ⟨_, rfl, rfl, by simp [Store.metadataState], rfl⟩

theorem quiet_write_accounted (accounted : ∀ q, Accounted (w.view q)) (uncopied : Uncopied w p)
    (sha256 : Bytes → Text) (data : Bytes) :
    Quiet (write sha256 p data) (fun _ w' => ∀ q, Accounted (w'.view q)) w := by
  apply quiet_write_of
  intro clock fileId
  have adds : ∀ q ∈ p.ancestors, ∀ (w : World) now, (∀ q, Accounted (w.view q)) →
      w.store.fileAt q = none →
      ∀ r, Accounted ((w.withStore (w.store.upsert (.newDir now q)).2).view r) := by
    intro q _ w now accounted absent
    have no_row : (w.view q).row = none := by simp [Store.rowState, absent]
    apply accounted_update accounted (view_upsert _)
    exact accounted_of_bare ((accounted q).bare no_row)
  apply Prog.wp_seq (Prog.wp_of_always (ensureParents_keeps Choice.Faultless
    (fun w => ∀ q, Accounted (w.view q)) adds
    (recorded_accounted accounted uncopied sha256 data clock)))
  · rintro value w' ⟨accounted', -⟩
    apply Prog.wp_mono (wp_enqueueReplication fileId)
    exact fun r w'' same => same ▸ accounted'
  · exact fun e w' kept => kept.1

/-- A write over a replicated file leaves a copy that the new row does not know of. -/
theorem uncopied_of_write (refines : Refines w files) (sha256 : Bytes → Text) (data : Bytes)
    (clock : Nat → Int)
    (clean : NoOrphans ((write sha256 p data).exec perform (fun i => .quiet (clock i)) w).2) :
    Uncopied w p := by
  have outcome := Prog.exec_of_wp (quiet_write_view (w := w) (p := p) sha256 data).faultless
    (fun i => .quiet (clock i)) fun i => Choice.faultless_quiet (clock i)
  obtain ⟨id, now, view⟩ := outcome
  intro x row plain
  have unmarked (t : Tier) (cold : t ≠ .localDisk) : x.tierBitmask.has t = false := by
    by_contra marked
    have rep := refines.represents p
    revert rep
    generalize files p = content
    intro rep
    cases rep with
    | absent there => simp [row] at there
    | directory there dir =>
      obtain rfl := Option.some.inj (row.symm.trans there)
      simp [plain] at dir
    | file there _ copies =>
      obtain rfl := Option.some.inj (row.symm.trans there)
      have held := copies.holds t (by simpa using marked)
      have left := congrArg (fun v : View => v.object t) view
      simp only [Function.update_of_ne cold] at left
      obtain ⟨y, row', -, bit⟩ := clean t p _ (left.trans held)
      have new := congrArg View.row view
      obtain rfl := Option.some.inj (new.symm.trans row')
      simp [Store.metadataState, cold] at bit
  exact ⟨unmarked .nas (by simp), unmarked .s3 (by simp)⟩

end Router

section Bytes

variable {w : World} {files : FvfsPath → Option Bytes}

theorem sum_filter_eq {α : Type} (keep : α → Bool) (size : α → Nat) (xs : List α) :
    ((xs.filter keep).map size).sum = (xs.map fun x => if keep x then size x else 0).sum := by
  induction xs with
  | nil => rfl
  | cons x xs ih =>
    cases kept : keep x <;> simp [kept, ih]

def rowPath (x : Nat × FileRow) : FvfsPath := ⟨x.2.path⟩

theorem rowState_of_row {s : Store} {x : Nat × FileRow} (member : x ∈ s.files.rows) :
    s.rowState (rowPath x) = some (Store.stateOf x) := by
  have found : s.fileAt (rowPath x) = some (x.1, x.2) :=
    Store.fileAt_eq_some_iff.mpr ⟨Table.mem_rows_iff.mp member, rfl⟩
  simp [Store.rowState, found]

theorem row_of_rowState {s : Store} {p : FvfsPath} {x : Store.RowState}
    (row : s.rowState p = some x) : p ∈ s.files.rows.map rowPath := by
  obtain ⟨i, r, at_id, path, -⟩ := Store.rowState_eq_some_iff.mp row
  exact List.mem_map.mpr ⟨(i, r), Table.mem_rows_iff.mpr at_id, FvfsPath.ext path⟩

theorem rowPaths_nodup (s : Store) : (s.files.rows.map rowPath).Nodup := by
  apply List.Nodup.map_on _ (List.Nodup.of_map _ s.files.ids_nodup)
  rintro ⟨i, r⟩ member ⟨j, t⟩ also same
  have at_i := Table.mem_rows_iff.mp member
  have at_j := Table.mem_rows_iff.mp also
  obtain rfl := s.paths_unique i j r t at_i at_j (congrArg FvfsPath.text same)
  rw [Option.some.inj (at_i.symm.trans at_j)]

/-- What a tier holds at a row's path is what the row counts for. -/
theorem held_row (tidy : Tidy w files) (t : Tier) {x : Nat × FileRow}
    (member : x ∈ w.store.files.rows) :
    w.held t (rowPath x) =
      if x.2.tierBitmask.has t && !x.2.isDir then x.2.sizeBytes else 0 := by
  have row := rowState_of_row member
  unfold World.held
  cases there : w.tiers t (rowPath x) with
  | some data =>
    obtain ⟨y, row', plain, bit, size⟩ := tidy.accounted _ t data there
    obtain rfl := Option.some.inj (row.symm.trans row')
    simp only [Store.stateOf] at plain bit size
    simp [plain, bit, size]
  | none =>
    have unmarked : ¬(x.2.tierBitmask.has t = true ∧ x.2.isDir = false) := by
      rintro ⟨bit, plain⟩
      have rep := tidy.refines.represents (rowPath x)
      revert rep
      generalize files (rowPath x) = content
      intro rep
      cases rep with
      | absent none_left => simp [row] at none_left
      | directory same dir =>
        obtain rfl := Option.some.inj (row.symm.trans same)
        simp [Store.stateOf, plain] at dir
      | file same _ copies =>
        obtain rfl := Option.some.inj (row.symm.trans same)
        have held := copies.holds t bit
        simp [there] at held
    simp [unmarked]

/-- While nothing is orphaned the metadata's byte count is the tier's. -/
theorem bytesOnTier_eq (tidy : Tidy w files) (t : Tier) :
    w.store.bytesOnTier t = w.heldBytes t := by
  have support : Function.support (w.held t) ⊆ ↑(w.store.files.rows.map rowPath).toFinset := by
    intro p nonzero
    rw [Finset.mem_coe, List.mem_toFinset]
    cases there : w.tiers t p with
    | none => simp [World.held, there] at nonzero
    | some data =>
      obtain ⟨x, row, -⟩ := tidy.accounted p t data there
      exact row_of_rowState row
  unfold World.heldBytes Store.bytesOnTier
  rw [finsum_eq_sum_of_support_subset _ support, List.sum_toFinset _ (rowPaths_nodup w.store),
    sum_filter_eq, List.map_map]
  congr 1
  apply List.map_congr_left
  intro x member
  exact (held_row tidy t member).symm

end Bytes

namespace Request

variable (sha256 : Bytes → Text)

/-- One request, run to completion at the given clock readings. -/
def step (w : World) (turn : Request × (Nat → Int)) : World :=
  ((turn.1.task sha256).exec perform (fun i => .quiet (turn.2 i)) w).2

/-- No copy on a tier is unknown to the metadata: none at all of a path once its delete
succeeds, and as many bytes as the metadata counts. -/
structure Reclaimable (w : World) : Prop where
  no_orphans : NoOrphans w
  deletes : ∀ (order : Router.TaskOrder) (p : CanonPath) (clock : Nat → Int),
    ((Router.delete order p).exec perform (fun i => .quiet (clock i)) w).1 = .ok () →
    ∀ t, ((Router.delete order p).exec perform (fun i => .quiet (clock i)) w).2.tiers t p = none
  bytes : ∀ t, w.store.bytesOnTier t = w.heldBytes t

/-- A write does not cover a file that was already replicated. -/
def Fresh (w : World) (turn : Request × (Nat → Int)) : Prop :=
  match turn.1 with
  | .write p _ => Router.Uncopied w p
  | _ => True

theorem tidy_reclaimable {w : World} {files : FvfsPath → Option Bytes} (tidy : Tidy w files) :
    Reclaimable w where
  no_orphans := tidy.no_orphans
  deletes := by
    intro order p clock
    exact (Prog.exec_of_wp (Router.quiet_delete_accounted tidy.accounted order).faultless _
      fun i => Choice.faultless_quiet (clock i)).2
  bytes := bytesOnTier_eq tidy

theorem tidy_empty : Tidy .empty fun _ => none :=
  ⟨empty_refines, fun _ => accounted_of_bare fun _ => rfl⟩

theorem quiet_task_tidy {w : World} {files : FvfsPath → Option Bytes} (tidy : Tidy w files)
    (turn : Request × (Nat → Int)) (fresh : Fresh w turn) :
    Quiet (turn.1.task sha256) (fun _ w' => Tidy w' (turn.1.effect files)) w := by
  obtain ⟨request, clock⟩ := turn
  have refined := quiet_task sha256 tidy.refines request
  cases request with
  | write p data =>
    apply Prog.wp_mono (Prog.wp_and refined
      (Router.quiet_write_accounted tidy.accounted fresh sha256 data))
    exact fun r w' both => ⟨both.1, both.2⟩
  | delete order p =>
    apply Prog.wp_mono (Prog.wp_and refined (Router.quiet_delete_accounted tidy.accounted order))
    exact fun r w' both => ⟨both.1, both.2.1⟩
  | read p =>
    apply Prog.wp_seq (Router.quiet_read (tidy.refines.represents p))
    · exact fun _ _ answer => tidy_background.of_view tidy answer.2
    · exact fun _ _ answer => tidy_background.of_view tidy answer.2
  | evict p t => exact Router.quiet_evictFromTier tidy_background tidy p t
  | flushPending => exact Router.quiet_flushPending tidy_background tidy
  | replayWal => exact Router.quiet_replayWal tidy_background tidy
  | promoteNext => exact Router.quiet_promoteNext tidy_background tidy

/-- Over any history nothing is orphaned exactly when no write covers a file with a copy
on the NAS or on S3. -/
theorem reclaimable_iff (history : List (Request × (Nat → Int))) :
    Throughout (step sha256) .empty history Reclaimable ↔
      EachStep (step sha256) .empty history Fresh := by
  apply throughout_iff_eachStep (fun w => ∃ files, Tidy w files) (fun _ _ => True) ⟨_, tidy_empty⟩
  · rintro w turn ⟨files, tidy⟩ _ fresh
    exact ⟨_, Prog.exec_of_wp (quiet_task_tidy sha256 tidy turn fresh).faultless _
      fun i => Choice.faultless_quiet (turn.2 i)⟩
  · rintro w ⟨files, tidy⟩
    exact tidy_reclaimable tidy
  · rintro w ⟨request, clock⟩ ⟨files, tidy⟩ _ clean
    cases request with
    | write p data => exact Router.uncopied_of_write tidy.refines sha256 data clock clean.no_orphans
    | _ => trivial
  · exact fun _ _ _ => trivial

/-- A file written again after its upload leaves its S3 object without a bit. -/
theorem overwrite_orphans_copy :
    ¬∀ history, Throughout (step Router.sampleSha256) .empty history Reclaimable := by
  intro claimed
  have clean := claimed [(.write sampleFile [1], fun _ => 0), (.flushPending, fun _ => 0),
    (.write sampleFile [2], fun _ => 0)] _ (List.prefix_refl _)
  obtain ⟨x, row, -, bit⟩ := clean.no_orphans .s3 sampleFile [1] (by decide)
  have unmarked : (([(.write sampleFile [1], fun _ => 0), (.flushPending, fun _ => 0),
      (.write sampleFile [2], fun _ => 0)].foldl (step Router.sampleSha256)
        .empty).store.rowState sampleFile).all (fun x => !x.tierBitmask.has .s3) = true := by decide
  rw [row] at unmarked
  simp [bit] at unmarked

end Request

end Fvfs
