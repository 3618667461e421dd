import Fvfs.Rules

/-! What the store is for: a map from paths to file contents. A path's view stands for
at most one content, whichever tiers hold it, and every operation run to completion
does to the views what it does to the map. -/
namespace Fvfs

open Lib
open Function (update)

/-- Some tier's bit is set, every tier whose bit is set holds the content, and the local
disk holds nothing else. -/
structure Copies (b : TierBitmask) (object : Tier → Option Bytes) (data : Bytes) : Prop where
  somewhere : ∃ t, b.has t = true
  holds : ∀ t, b.has t = true → object t = some data
  clean : b.has .localDisk = false → object .localDisk = none

inductive Represents (v : View) : Option Bytes → Prop
  | absent (row : v.row = none) (clean : v.object .localDisk = none) : Represents v none
  | directory (row : v.row = some x) (dir : x.isDir = true)
      (clean : v.object .localDisk = none) : Represents v none
  | file (row : v.row = some x) (plain : x.isDir = false)
      (copies : Copies x.tierBitmask v.object data) : Represents v (some data)

structure Refines (w : World) (files : FvfsPath → Option Bytes) : Prop where
  canonical : ∀ p x, w.store.rowState p = some x → p.Canonical
  represents : ∀ p, Represents (w.view p) (files p)

theorem Represents.without_row {v : View} {content : Option Bytes} (rep : Represents v content)
    (no_row : v.row = none) : content = none ∧ v.object .localDisk = none := by
  cases rep with
  | absent row clean => exact ⟨rfl, clean⟩
  | directory row => simp [no_row] at row
  | file row => simp [no_row] at row

theorem Represents.clean {v : View} {content : Option Bytes} {x : Store.RowState}
    (rep : Represents v content) (here : v.row = some x)
    (bit : x.tierBitmask.has .localDisk = false) : v.object .localDisk = none := by
  cases rep with
  | absent row clean => exact clean
  | directory row dir clean => exact clean
  | file row plain copies =>
    obtain rfl := Option.some.inj (here.symm.trans row)
    exact copies.clean bit

/-- The local disk never holds anything but the content. -/
theorem Represents.local_content {v : View} {content : Option Bytes} {data : Bytes}
    (rep : Represents v content) (there : v.object .localDisk = some data) : content = some data := by
  cases rep with
  | absent row clean => simp [clean] at there
  | directory row dir clean => simp [clean] at there
  | @file x current row plain copies =>
    by_cases hot : x.tierBitmask.has .localDisk = true
    · exact (copies.holds _ hot).symm.trans there
    · have clean := copies.clean (by simpa using hot)
      simp [clean] at there

namespace Router

variable {w : World} {p : FvfsPath} {content : Option Bytes}

@[simp] theorem view_promotions (signals : List PromoteSignal) :
    ({ w with promotions := signals } : World).view = w.view := rfl

theorem quiet_readAndPromote {t : Tier} {data : Bytes} (there : w.tiers t p = some data) :
    Quiet (readAndPromote p t) (fun r w' => r = .ok data ∧ w'.view = w.view) w :=
  wp_readAndPromote ((quiet_get_hit there _).mpr fun _ _ => ⟨rfl, rfl⟩)

theorem quiet_readTiers {b : TierBitmask} {data : Bytes} (somewhere : ∃ t, b.has t = true)
    (holds : ∀ t, b.has t = true → w.tiers t p = some data) :
    Quiet (readTiers p b) (fun r w' => r = .ok data ∧ w'.view = w.view) w := by
  refine wp_readTiers (fun v => v = w ∧ b.has .localDisk = false) (fun hot => ?_)
    (fun cold => ⟨rfl, cold⟩) ?_ ?_
  · exact (quiet_get_hit (holds _ hot) _).mpr ⟨rfl, rfl⟩
  · rintro t _ tier ⟨rfl, -⟩
    exact quiet_readAndPromote (holds t (TierBitmask.colder_has tier).1)
  · rintro _ nowhere ⟨rfl, cold⟩
    obtain ⟨t, bit⟩ := somewhere
    by_cases hot : t = .localDisk
    · simp [hot, cold] at bit
    · simp [TierBitmask.colder_eq_none nowhere hot] at bit

theorem quiet_requireMetadata (post) :
    Quiet (requireMetadata p) post w ↔ match w.store.get p with
      | some m => post (.ok m) w
      | none => post (.error (.notFound p.text)) w := by
  simp only [requireMetadata, Prog.wp_bind, quiet_metaGet]
  cases w.store.get p <;> rfl

/-- A file whose marked tiers all hold the same bytes is read as those bytes. -/
theorem quiet_readFile {m : FileMetadata} {data : Bytes} (found : w.store.get p = some m)
    (plain : m.isDir = false) (somewhere : ∃ t, m.tierBitmask.has t = true)
    (holds : ∀ t, m.tierBitmask.has t = true → w.tiers t p = some data) :
    Quiet (read p) (fun r w' => r = .ok data ∧ w'.view = w.view) w := by
  simp only [read, Prog.wp_bind, quiet_requireMetadata, found, plain, Bool.false_eq_true, if_false]
  apply Prog.wp_mono (quiet_readTiers somewhere holds)
  rintro r w' ⟨rfl, same⟩
  simp only [Prog.wp_bind, Prog.wp_attempt, quiet_recordAccess, Prog.pure_eq, Prog.wp_ret]
  intro now
  exact ⟨trivial, (view_withStore fun q => Store.rowState_recordAccess _ _).trans same⟩

/-- A read answers the content the view stands for, and changes no view. -/
theorem quiet_read (rep : Represents (w.view p) content) :
    Quiet (read p) (fun r w' => (∀ data, r = .ok data ↔ content = some data) ∧ w'.view = w.view)
      w := by
  cases found : w.store.get p with
  | none =>
    simp [read, Prog.wp_bind, quiet_requireMetadata, found,
      (rep.without_row (Store.get_eq_none_iff.mp found)).1]
  | some m =>
    have here := Store.rowState_of_get found
    cases rep with
    | absent row => simp [here] at row
    | directory row dir =>
      obtain rfl := Option.some.inj (here.symm.trans row)
      simp [read, Prog.wp_bind, quiet_requireMetadata, found, show m.isDir = true from dir]
    | file row plain copies =>
      obtain rfl := Option.some.inj (here.symm.trans row)
      apply Prog.wp_mono (quiet_readFile found plain copies.somewhere copies.holds)
      rintro r w' ⟨rfl, same⟩
      exact ⟨fun data => by simp, same⟩

end Router

theorem Copies.add {b : TierBitmask} {object : Tier → Option Bytes} {data : Bytes}
    (copies : Copies b object data) (t : Tier) :
    Copies (b.set t) (update object t (some data)) data := by
  refine ⟨⟨t, by simp⟩, fun u bit => ?_, fun bit => ?_⟩
  · by_cases same : u = t
    · simp [same]
    · have old : b.has u = true := by simpa [same] using bit
      simpa [same] using copies.holds u old
  · obtain ⟨old, other⟩ : b.has .localDisk = false ∧ ¬.localDisk = t := by simpa using bit
    simpa [other] using copies.clean old

theorem Copies.drop {b : TierBitmask} {object : Tier → Option Bytes} {data : Bytes}
    (copies : Copies b object data) {t u : Tier} (kept : b.has u = true) (other : u ≠ t) :
    Copies (b.clear t) (update object t none) data := by
  refine ⟨⟨u, by simp [kept, other]⟩, fun v bit => ?_, fun bit => ?_⟩
  · obtain ⟨old, apart⟩ : b.has v = true ∧ v ≠ t := by simpa using bit
    simpa [apart] using copies.holds v old
  · by_cases same : Tier.localDisk = t
    · simp [same]
    · have old : b.has .localDisk = false := by simpa [same] using bit
      simpa [same] using copies.clean old

section Refines

variable {w w' : World} {files : FvfsPath → Option Bytes} {p : FvfsPath} {v : View}
  {content : Option Bytes}

theorem Refines.of_view (refines : Refines w files) (same : w'.view = w.view) : Refines w' files := by
  constructor
  · intro q x row
    have row' : (w'.view q).row = some x := row
    rw [same] at row'
    exact refines.canonical q x row'
  · rw [same]
    exact refines.represents

theorem Refines.of_update (refines : Refines w files) (changed : w'.view = update w.view p v)
    (canonical : v.row.isSome → p.Canonical) (rep : Represents v content) :
    Refines w' (update files p content) := by
  constructor
  · intro q x row
    have row' : (w'.view q).row = some x := row
    rw [changed] at row'
    by_cases here : q = p
    · subst here
      exact canonical (by simpa using congrArg Option.isSome row')
    · rw [Function.update_of_ne here] at row'
      exact refines.canonical q x row'
  · intro q
    rw [changed]
    by_cases here : q = p
    · subst here
      simpa using rep
    · simpa [here] using refines.represents q

theorem Refines.of_update_same (refines : Refines w files) (changed : w'.view = update w.view p v)
    (canonical : v.row.isSome → p.Canonical) (rep : Represents v (files p)) : Refines w' files := by
  have := refines.of_update changed canonical rep
  rwa [Function.update_eq_self] at this

end Refines

namespace Router

variable {w : World} {files : FvfsPath → Option Bytes}

/-- A copy changed on a tier, then the bitmask of the row. -/
theorem view_setCopy {p : FvfsPath} {x : Store.RowState} (row : w.store.rowState p = some x)
    (t : Tier) (copy : Option Bytes) (b : TierBitmask) :
    ((w.setObject t p copy).withStore (w.store.setTierBitmask x.id b)).view =
      update w.view p ⟨some { x with tierBitmask := b }, update (w.view p).object t copy⟩ := by
  have row' : (w.setObject t p copy).store.rowState p = some x := row
  have set := view_setTierBitmask row' b
  rw [World.setObject_store] at set
  rw [set, view_setObject]
  simp

theorem refines_addCopy (refines : Refines w files) {p : FvfsPath} {x : Store.RowState}
    {data : Bytes} (row : w.store.rowState p = some x) (current : files p = some data) (t : Tier) :
    Refines ((w.setObject t p (some data)).withStore
      (w.store.setTierBitmask x.id (x.tierBitmask.set t))) files := by
  apply refines.of_update_same (view_setCopy row t _ _) (fun _ => refines.canonical _ _ row)
  have rep := refines.represents p
  rw [current] at rep ⊢
  cases rep with
  | file there plain copies =>
    obtain rfl := Option.some.inj (row.symm.trans there)
    exact .file rfl plain (copies.add t)

/-- A copy may go while S3 has its own. -/
theorem refines_dropCopy (refines : Refines w files) {p : FvfsPath} {x : Store.RowState} {t : Tier}
    (row : w.store.rowState p = some x) (backed : x.tierBitmask.has .s3 = true) (warmer : t ≠ .s3) :
    Refines ((w.setObject t p none).withStore
      (w.store.setTierBitmask x.id (x.tierBitmask.clear t))) files := by
  apply refines.of_update_same (view_setCopy row t _ _) (fun _ => refines.canonical _ _ row)
  have rep := refines.represents p
  revert rep
  generalize files p = content
  intro rep
  cases rep with
  | absent there =>
    simp [row] at there
  | directory there dir clean =>
    obtain rfl := Option.some.inj (row.symm.trans there)
    refine .directory rfl dir ?_
    by_cases hot : Tier.localDisk = t
    · simp [hot]
    · simpa [hot] using clean
  | file there plain copies =>
    obtain rfl := Option.some.inj (row.symm.trans there)
    exact .file rfl plain (copies.drop backed warmer.symm)

/-- What an invariant needs so that background work keeps it: it makes the store stand for
the map, depends on the views alone, and survives the two changes of a file's copies. -/
structure Background (files : FvfsPath → Option Bytes) (inv : World → Prop) : Prop where
  refines : ∀ {w}, inv w → Refines w files
  of_view : ∀ {w w'}, inv w → w'.view = w.view → inv w'
  add : ∀ {w p x data}, inv w → w.store.rowState p = some x → files p = some data → ∀ t,
    inv ((w.setObject t p (some data)).withStore
      (w.store.setTierBitmask x.id (x.tierBitmask.set t)))
  drop : ∀ {w p x t}, inv w → w.store.rowState p = some x → x.tierBitmask.has .s3 = true →
    t ≠ .s3 → inv ((w.setObject t p none).withStore
      (w.store.setTierBitmask x.id (x.tierBitmask.clear t)))

theorem refines_background : Background files (Refines · files) where
  refines := id
  of_view := Refines.of_view
  add := fun refines row current t => refines_addCopy refines row current t
  drop := fun refines row backed warmer => refines_dropCopy refines row backed warmer

section Background

variable {inv : World → Prop}

theorem quiet_uploadToS3 (keeps : Background files inv) (holds : inv w) {m : FileMetadata}
    (row : w.store.rowState m.path = some (Store.metadataState m m.id)) :
    Quiet (uploadToS3 m) (fun _ w' => inv w') w := by
  apply Prog.wp_seq (quiet_read ((keeps.refines holds).represents m.path))
  · rintro data w' ⟨answer, same⟩
    have row' : w'.store.rowState m.path = some (Store.metadataState m m.id) := by
      rw [← view_row, same]
      exact row
    have current : files m.path = some data := (answer data).mp rfl
    simp only [Prog.wp_bind, quiet_put, quiet_setTierBitmask]
    exact keeps.add (keeps.of_view holds same) row' current .s3
  · rintro e w' ⟨_, same⟩
    exact keeps.of_view holds same

theorem quiet_replicateToNas (keeps : Background files inv) (holds : inv w) {m : FileMetadata}
    (row : w.store.rowState m.path = some (Store.metadataState m m.id)) :
    Quiet (replicateToNas m) (fun _ w' => inv w') w := by
  simp only [replicateToNas, Prog.wp_bind]
  cases there : w.tiers .localDisk m.path with
  | none => exact (quiet_get_miss there _).mpr fun _ => holds
  | some data =>
    have current : files m.path = some data :=
      ((keeps.refines holds).represents m.path).local_content there
    simp only [quiet_get_hit there, Prog.wp_bind, quiet_put, quiet_setTierBitmask]
    exact keeps.add holds row current .nas

theorem quiet_settle (keeps : Background files inv) (holds : inv w) (entry : WalEntry)
    (r : Outcome Unit) : Quiet (settle entry r) (fun _ w' => inv w') w := by
  cases r with
  | ok =>
    have removed : inv (w.withStore (w.store.walComplete entry.id)) :=
      keeps.of_view holds (view_withStore fun _ => rfl)
    simpa [settle, Prog.wp_bind, Prog.wp_attempt] using removed
  | error e =>
    have counted : inv (w.withStore (w.store.walRecordFailure entry.id e.toText)) :=
      keeps.of_view holds (view_withStore fun _ => rfl)
    simpa [settle, Prog.wp_bind, Prog.wp_attempt] using counted

/-- A row found by its id is the row of the path it names. -/
theorem loaded (refines : Refines w files) {id : Nat} {m : FileMetadata}
    (found : w.store.getById id = some m) :
    w.store.rowState m.path = some (Store.metadataState m m.id) := by
  obtain ⟨row, rfl⟩ := Store.rowState_of_getById refines.canonical found
  exact row

theorem quiet_flushEntry (keeps : Background files inv) (holds : inv w) (entry : WalEntry) :
    Quiet (flushEntry entry) (fun _ w' => inv w') w := by
  simp only [flushEntry, Prog.wp_bind, Prog.wp_attempt, quiet_metaGetById]
  cases found : w.store.getById entry.fileId with
  | none => exact quiet_settle keeps holds entry (.ok ())
  | some m =>
    apply Prog.wp_try (quiet_uploadToS3 keeps holds (loaded (keeps.refines holds) found))
    exact fun r w' holds' => quiet_settle keeps holds' entry r

theorem quiet_flushEntries (keeps : Background files inv) (holds : inv w)
    (entries : List WalEntry) : Quiet (flushEntries entries) (fun _ w' => inv w') w := by
  induction entries generalizing w with
  | nil => exact holds
  | cons entry rest ih =>
    exact Prog.wp_seq (quiet_flushEntry keeps holds entry) (fun _ _ holds' => ih holds')
      fun _ _ holds' => holds'

theorem quiet_flushPending (keeps : Background files inv) (holds : inv w) :
    Quiet flushPending (fun _ w' => inv w') w := by
  simp only [flushPending, Prog.wp_bind, Prog.wp_attempt, quiet_walPending]
  exact quiet_flushEntries keeps holds _

theorem quiet_replayOp (keeps : Background files inv) (holds : inv w) (entry : WalEntry)
    {m : FileMetadata} (row : w.store.rowState m.path = some (Store.metadataState m m.id)) :
    Quiet (replayOp entry m) (fun _ w' => inv w') w := by
  unfold replayOp
  cases entry.op with
  | replicateNas => exact quiet_replicateToNas keeps holds row
  | uploadS3 => exact quiet_uploadToS3 keeps holds row

theorem quiet_replayEntry (keeps : Background files inv) (holds : inv w) (entry : WalEntry)
    (remaining : Nat) : Quiet (replayEntry entry remaining) (fun _ w' => inv w') w := by
  induction remaining generalizing w with
  | zero => exact holds
  | succ remaining ih =>
    simp only [replayEntry, Prog.wp_bind, Prog.wp_attempt, quiet_metaGetById]
    cases found : w.store.getById entry.fileId with
    | none => exact quiet_settle keeps holds entry (.ok ())
    | some m =>
      apply Prog.wp_try (quiet_replayOp keeps holds entry (loaded (keeps.refines holds) found))
      intro r w' holds'
      cases r with
      | ok value => exact quiet_settle keeps holds' entry (.ok value)
      | error e =>
        exact Prog.wp_seq (quiet_settle keeps holds' entry (.error e)) (fun _ _ again => ih again)
          fun _ _ again => again

theorem quiet_replayEntries (keeps : Background files inv) (holds : inv w)
    (entries : List WalEntry) : Quiet (replayEntries entries) (fun _ w' => inv w') w := by
  induction entries generalizing w with
  | nil => exact holds
  | cons entry rest ih =>
    exact Prog.wp_seq (quiet_replayEntry keeps holds entry _) (fun _ _ holds' => ih holds')
      fun _ _ holds' => holds'

theorem quiet_replayWal (keeps : Background files inv) (holds : inv w) :
    Quiet replayWal (fun _ w' => inv w') w := by
  simp only [replayWal, Prog.wp_bind, Prog.wp_attempt, quiet_walPending]
  exact quiet_replayEntries keeps holds _

theorem quiet_promote (keeps : Background files inv) (holds : inv w) (p : FvfsPath) :
    Quiet (promote p) (fun _ w' => inv w') w := by
  apply Prog.wp_try (quiet_read ((keeps.refines holds).represents p))
  rintro r w' ⟨answer, same⟩
  have holds' := keeps.of_view holds same
  cases r with
  | error e => exact holds'
  | ok data =>
    have current : files p = some data := (answer data).mp rfl
    simp only [Prog.wp_bind, Prog.wp_attempt, quiet_put, quiet_metaGet]
    cases found : w'.store.get p with
    | none =>
      have rep := (keeps.refines holds').represents p
      have nothing := (rep.without_row (Store.get_eq_none_iff.mp found)).1
      simp [current] at nothing
    | some m =>
      simp only [World.setObject_store, found, Prog.wp_bind, Prog.wp_attempt, quiet_setTierBitmask]
      exact keeps.add holds' (Store.rowState_of_get found) current .localDisk

theorem quiet_promoteNext (keeps : Background files inv) (holds : inv w) :
    Quiet promoteNext (fun _ w' => inv w') w := by
  have taken : inv { w with promotions := w.promotions.tail } := keeps.of_view holds rfl
  simp only [promoteNext, Prog.wp_bind, quiet_recvPromote]
  cases w.promotions.head? with
  | none => exact taken
  | some signal => exact quiet_promote keeps taken signal.path

theorem quiet_evictFromTier (keeps : Background files inv) (holds : inv w) (p : FvfsPath)
    (t : Tier) : Quiet (evictFromTier p t) (fun _ w' => inv w') w := by
  simp only [evictFromTier, Prog.wp_bind, quiet_requireMetadata]
  cases found : w.store.get p with
  | none => exact holds
  | some m =>
    have row := Store.rowState_of_get found
    by_cases safe : m.tierBitmask.safeToEvictFrom t = true
    · by_cases cold : t = .s3
      · subst cold
        simp at safe
      simp only [safe, cold, Bool.not_true, Bool.false_eq_true, if_false, Prog.wp_bind]
      cases there : w.tiers t p with
      | none => exact (quiet_delete_miss there cold _).mpr fun _ => holds
      | some data =>
        refine (quiet_delete_hit (Or.inl (by simp [there])) _).mpr ((quiet_setTierBitmask ..).mpr ?_)
        rw [TierBitmask.safeToEvictFrom_eq _ cold] at safe
        exact keeps.drop holds row safe cold
    · simpa [safe] using holds

end Background

/-- A deletion leaves nothing on the tier, also where there was nothing before. -/
theorem quiet_deleteCopy (p : FvfsPath) (t : Tier) :
    Quiet (Async.delete t p) (fun _ w' => w'.store = w.store ∧
      w'.view = update w.view p ⟨w.store.rowState p, update (w.view p).object t none⟩) w := by
  by_cases there : (w.tiers t p).isSome ∨ t = .s3
  · exact (quiet_delete_hit there _).mpr ⟨rfl, view_setObject t p none⟩
  · obtain ⟨absent, warmer⟩ := not_or.mp there
    have gone : (w.view p).object t = none := by simpa using absent
    refine (quiet_delete_miss gone warmer _).mpr fun _ => ⟨rfl, ?_⟩
    rw [← gone, Function.update_eq_self]
    exact (Function.update_eq_self p w.view).symm

/-- The deletions of a list are those of its head and of its tail. -/
theorem deleted_cons (b : TierBitmask) (object : Tier → Option Bytes) (t : Tier)
    (rest : List Tier) :
    (fun u => if u ∈ rest ∧ b.has u = true then none
      else (if b.has t = true then update object t none else object) u) =
    fun u => if u ∈ t :: rest ∧ b.has u = true then none else object u := by
  funext u
  by_cases same : u = t
  · subst same
    by_cases bit : b.has u = true <;> simp [bit]
  · by_cases bit : b.has t = true <;> simp [same, bit]

theorem quiet_deleteTiers (p : FvfsPath) (b : TierBitmask) (order : List Tier) :
    Quiet (deleteTiers p b order) (fun r w' => r = .ok () ∧ w'.store = w.store ∧
      w'.view = update w.view p ⟨w.store.rowState p,
        fun t => if t ∈ order ∧ b.has t = true then none else (w.view p).object t⟩) w := by
  induction order generalizing w with
  | nil =>
    refine ⟨rfl, rfl, ?_⟩
    simp only [List.not_mem_nil, false_and, if_false]
    exact (Function.update_eq_self p w.view).symm
  | cons t rest ih =>
    unfold deleteTiers
    rw [← deleted_cons]
    by_cases bit : b.has t = true
    · simp only [bit, if_true]
      apply Prog.wp_try (quiet_deleteCopy p t)
      rintro r w' ⟨store, view⟩
      apply Prog.wp_mono ih
      rintro r w'' ⟨done, store', view'⟩
      refine ⟨done, store'.trans store, ?_⟩
      rw [view', view, store, Function.update_idem, Function.update_self]
    · simp only [bit, Bool.false_eq_true, if_false]
      exact ih

theorem quiet_delete_refines (refines : Refines w files) (order : TaskOrder) (p : FvfsPath) :
    Quiet (delete order p) (fun _ w' => Refines w' (update files p none)) w := by
  simp only [delete, Prog.wp_bind, quiet_requireMetadata]
  cases found : w.store.get p with
  | none =>
    have nothing := ((refines.represents p).without_row (Store.get_eq_none_iff.mp found)).1
    simpa [← nothing] using refines
  | some m =>
    apply Prog.wp_mono (quiet_deleteTiers p m.tierBitmask order.val)
    rintro r w' ⟨rfl, store, view⟩
    simp only [quiet_metaDelete]
    refine refines.of_update (v := ⟨none, (w'.view p).object⟩) ?_ (by simp) (.absent rfl ?_)
    · rw [view_metaDelete, view]
      simp
    · rw [view, Function.update_self]
      have everywhere : Tier.localDisk ∈ order.val := order.property.mem_iff.mpr (by simp)
      by_cases hot : m.tierBitmask.has .localDisk = true
      · simp [everywhere, hot]
      · have clean := (refines.represents p).clean (Store.rowState_of_get found)
          (Bool.eq_false_iff.mpr hot)
        simpa [hot] using clean

theorem view_setUpsert (t : Tier) (copy : Option Bytes) (m : FileMetadata) :
    ((w.setObject t m.path copy).withStore (w.store.upsert m).2).view = update w.view m.path
      ⟨some (Store.metadataState m (w.store.upsertedId m.path)),
        update (w.view m.path).object t copy⟩ := by
  have upserted := view_upsert (w := w.setObject t m.path copy) m
  rw [World.setObject_store] at upserted
  rw [upserted, view_setObject]
  simp

theorem wp_ensureParentDirs {ok : Choice → Prop} (refines : Refines w files) {p : FvfsPath}
    (canonical : p.Canonical) :
    (ensureParentDirs p).wp perform ok
      (fun r w' => Refines w' files ∧ ((∀ c, ok c → c.Faultless) → r = .ok ())) w := by
  refine Prog.wp_of_always (ensureParents_keeps ok (fun w => Refines w files) ?_ refines)
  intro q above w now refines absent
  have no_row : w.store.rowState q = none := by simp [Store.rowState, absent]
  obtain ⟨nothing, clean⟩ := (refines.represents q).without_row no_row
  refine refines.of_update_same (view_upsert _)
    (fun _ => FvfsPath.ancestor_canonical canonical above) ?_
  rw [show files (FileMetadata.newDir now q).path = none from nothing]
  exact .directory rfl rfl clean

theorem wp_enqueueReplication {ok : Choice → Prop} (fileId : Nat) :
    (enqueueReplication fileId).wp perform ok (fun _ w' => w'.view = w.view) w := by
  have enqueue : ∀ {w : World}, ∀ op,
      (Async.walEnqueue fileId op).wp perform ok (fun _ w' => w'.view = w.view) w := by
    intro w op
    refine wp_walEnqueue (fun now id s enqueued => ?_) fun e _ => rfl
    exact view_withStore fun _ => Store.rowState_walEnqueue enqueued
  apply Prog.wp_seq (enqueue _)
  · intro id w' same
    apply Prog.wp_seq (enqueue _)
    · exact fun _ _ again => again.trans same
    · exact fun _ _ again => again.trans same
  · exact fun _ _ same => same

/-- The bytes put and the row upserted: the path's content is the new one. -/
theorem refines_written (refines : Refines w files) (sha256 : Bytes → Text) {p : FvfsPath}
    (canonical : p.Canonical) (data : Bytes) (clock : Int) :
    Refines ((w.setObject .localDisk p (some data)).withStore
      (w.store.upsert (writtenMetadata sha256 p data clock)).2) (update files p (some data)) := by
  refine refines.of_update (view_setUpsert _ _ _) (fun _ => canonical) (.file rfl rfl ?_)
  refine ⟨⟨.localDisk, by simp [Store.metadataState]⟩, fun t bit => ?_, ?_⟩
  · obtain rfl : t = .localDisk := by simpa [Store.metadataState] using bit
    simp
  · simp [Store.metadataState]

theorem quiet_write_refines (refines : Refines w files) (sha256 : Bytes → Text) {p : FvfsPath}
    (canonical : p.Canonical) (data : Bytes) :
    Quiet (write sha256 p data) (fun _ w' => Refines w' (update files p (some data))) w := by
  simp only [write, Prog.wp_bind, quiet_put, quiet_now, quiet_upsert]
  intro clock
  have made := quiet_of_sure (ensureParentDirs_sure p)
    (wp_ensureParentDirs (refines_written refines sha256 canonical data clock) canonical)
  refine Prog.wp_mono made ?_
  rintro r w' ⟨refines', returns⟩
  obtain rfl := returns fun _ quiet => quiet
  apply Prog.wp_mono (quiet_of_sure (enqueueReplication_sure _) (wp_enqueueReplication _))
  exact fun _ _ same => refines'.of_view same

end Router

end Fvfs
