import Fvfs.Requests
import Fvfs.Steps

/-! An upload racing any number of writes of the same path. The upload marks the row as on
S3 for the bytes its read happened to get, whatever the row describes by then. -/
namespace Fvfs

open Lib Step Router
open Function (update)

variable {ι : Type} {sha256 : Bytes → Text} {p : FvfsPath} {data : ι → Bytes}
  {w₀ w w' : World} {x₀ : Store.RowState}

/-- If the row of `p` has the S3 bit, S3 holds content of its hash and size. -/
def SoundS3 (sha256 : Bytes → Text) (w : World) (p : FvfsPath) : Prop :=
  ∀ x, w.store.rowState p = some x → x.tierBitmask.has .s3 = true →
    ∃ b, w.tiers .s3 p = some b ∧ x.sha256 = sha256 b ∧ x.sizeBytes = b.length

/-- What a tier held at the end of this trace: the bytes of the last write that stored on
the local disk, and otherwise what was there from the start. -/
def HeldAt (w₀ : World) (p : FvfsPath) (data : ι → Bytes) (b : Bytes) (u : Tier)
    (past : List (Event Sys (Option ι))) : Prop :=
  (u = .localDisk ∧ ∃ i, LastBy (Stored .localDisk p) (some i) past ∧ b = data i) ∨
  (¬(u = .localDisk ∧ Occurs (Stored .localDisk p) past) ∧ w₀.tiers u p = some b)

/-- The upload's read got these bytes: its tier held them when the read reached it. -/
def ReadBytes (w₀ : World) (p : FvfsPath) (data : ι → Bytes) (b : Bytes)
    (trace : List (Event Sys (Option ι))) : Prop :=
  ∃ u, Upon (Fetched u p) (HeldAt w₀ p data b u) trace

/-- The hash and size in the row: those of the last write recorded, or of the first row. -/
def RowDigest (sha256 : Bytes → Text) (p : FvfsPath) (data : ι → Bytes) (x₀ : Store.RowState)
    (hash : Text) (size : Nat) (trace : List (Event Sys (Option ι))) : Prop :=
  (∃ i, LastBy (Recorded p) (some i) trace ∧ hash = sha256 (data i) ∧ size = (data i).length) ∨
  (¬Occurs (Recorded p) trace ∧ hash = x₀.sha256 ∧ size = x₀.sizeBytes)

/-- The S3 bit stands for what the upload stored: the upload set it last, or nothing has
written the row, whose bit was set before. -/
def Vouched (p : FvfsPath) (x₀ : Store.RowState) (trace : List (Event Sys (Option ι))) : Prop :=
  LastBy (Updated p) none trace ∨
  (¬Occurs (Updated p) trace ∧ x₀.tierBitmask.has .s3 = true ∧ Occurs (Stored .s3 p) trace)

/-- The upload has the row of `p` open. -/
def Opened.Of (p : FvfsPath) (id : Nat) (o : Opened) : Prop :=
  ∃ m, o = some m ∧ m.path = p ∧ m.id = id

theorem Opened.Of.path {o : Opened} {id : Nat} (opened : o.Of p id) : o.path p = p := by
  obtain ⟨m, rfl, path, -⟩ := opened
  exact path

/-- The upload has neither read nor stored anything. -/
structure Fresh (p : FvfsPath) (past : List (Event Sys (Option ι))) : Prop where
  unfetched : ∀ u, ¬Occurs (Fetched u p) past
  unstored : ¬Occurs (Stored .s3 p) past

def UploadPhase (w₀ : World) (p : FvfsPath) (data : ι → Bytes) (id : Nat)
    (past : List (Event Sys (Option ι))) : CopyPhase → Prop
  | .opening => Fresh p past
  | .loading o => o.Of p id ∧ Fresh p past
  | .fetching o _ _ => o.Of p id ∧ Fresh p past
  | .fetched o b => o.Of p id ∧ (∀ b', ReadBytes w₀ p data b' past ↔ b' = b) ∧
      ¬Occurs (Stored .s3 p) past
  | .refreshing => False
  | .marking m => m.id = id ∧ Occurs (Stored .s3 p) past
  | .ended => True

structure RowFacts (sha256 : Bytes → Text) (p : FvfsPath) (data : ι → Bytes) (x₀ : Store.RowState)
    (past : List (Event Sys (Option ι))) (x : Store.RowState) : Prop where
  id : x.id = x₀.id
  digest : ∀ hash size, RowDigest sha256 p data x₀ hash size past ↔
    hash = x.sha256 ∧ size = x.sizeBytes
  untouched : ¬Occurs (Updated p) past → x.tierBitmask = x₀.tierBitmask
  written : ∀ i, LastBy (Updated p) (some i) past → x.tierBitmask.has .s3 = false
  marked : LastBy (Updated p) none past → x.tierBitmask.has .s3 = true ∧ Occurs (Stored .s3 p) past

structure UploadInv (sha256 : Bytes → Text) (w₀ : World) (p : FvfsPath) (data : ι → Bytes)
    (x₀ : Store.RowState) (past : List (Event Sys (Option ι))) (w : World) (s : CopyPhase) :
    Prop where
  held : ∀ u, (u = .s3 → ¬Occurs (Stored .s3 p) past) →
    ∀ b, w.tiers u p = some b ↔ HeldAt w₀ p data b u past
  copy : Occurs (Stored .s3 p) past →
    ∃ b, w.tiers .s3 p = some b ∧ ∀ b', ReadBytes w₀ p data b' past ↔ b' = b
  row : ∃ x, w.store.rowState p = some x ∧ RowFacts sha256 p data x₀ past x
  phase : UploadPhase w₀ p data x₀.id past s

variable {past : List (Event Sys (Option ι))} {e : Event Sys (Option ι)} {c : Choice}

theorem heldAt_snoc {u : Tier} {b : Bytes} (unstored : ¬Stored .localDisk p e) :
    HeldAt w₀ p data b u (past ++ [e]) ↔ HeldAt w₀ p data b u past := by
  simp [HeldAt, unstored]

theorem readBytes_snoc {b : Bytes} (unfetched : ∀ u, ¬Fetched u p e) :
    ReadBytes w₀ p data b (past ++ [e]) ↔ ReadBytes w₀ p data b past := by
  simp [ReadBytes, unfetched]

theorem fresh_snoc (unfetched : ∀ u, ¬Fetched u p e) (unstored : ¬Stored .s3 p e) :
    Fresh p (past ++ [e]) ↔ Fresh p past := by
  constructor
  · rintro ⟨fetch, store⟩
    exact ⟨fun u => by simpa [unfetched] using fetch u, by simpa [unstored] using store⟩
  · rintro ⟨fetch, store⟩
    exact ⟨fun u => by simpa [unfetched] using fetch u, by simpa [unstored] using store⟩

theorem RowFacts.snoc {x : Store.RowState} (facts : RowFacts sha256 p data x₀ past x)
    (unupdated : ¬Updated p e) : RowFacts sha256 p data x₀ (past ++ [e]) x := by
  have unrecorded : ¬Recorded p e := fun recorded => unupdated (Or.inl recorded)
  refine ⟨facts.id, ?_, ?_, ?_, fun last => ?_⟩
  · simpa [RowDigest, unrecorded] using facts.digest
  · simpa [unupdated] using facts.untouched
  · simpa [unupdated] using facts.written
  · obtain ⟨set, stored⟩ := facts.marked (by simpa [unupdated] using last)
    exact ⟨set, by simp [stored]⟩

theorem uploadPhase_snoc {id : Nat} {s : CopyPhase} (unfetched : ∀ u, ¬Fetched u p e)
    (unstored : ¬Stored .s3 p e) (phase : UploadPhase w₀ p data id past s) :
    UploadPhase w₀ p data id (past ++ [e]) s := by
  cases s with
  | refreshing => exact phase
  | ended => trivial
  | marking m => exact ⟨phase.1, by simp [phase.2]⟩
  | fetched o b => simpa [UploadPhase, readBytes_snoc unfetched, unstored] using phase
  | _ => simpa [UploadPhase, fresh_snoc unfetched unstored] using phase

theorem UploadInv.row_snoc {s : CopyPhase} (inv : UploadInv sha256 w₀ p data x₀ past w s)
    (unupdated : ¬Updated p e) :
    ∃ x, w.store.rowState p = some x ∧ RowFacts sha256 p data x₀ (past ++ [e]) x := by
  obtain ⟨x, row, facts⟩ := inv.row
  exact ⟨x, row, facts.snoc unupdated⟩

theorem UploadInv.copy_snoc {s : CopyPhase} (inv : UploadInv sha256 w₀ p data x₀ past w s)
    (stored : Occurs (Stored .s3 p) past) (unfetched : ∀ u, ¬Fetched u p e) :
    ∃ b, w.tiers .s3 p = some b ∧ ∀ b', ReadBytes w₀ p data b' (past ++ [e]) ↔ b' = b := by
  obtain ⟨b, there, got⟩ := inv.copy stored
  exact ⟨b, there, fun b' => (readBytes_snoc unfetched).trans (got b')⟩

/-- A step that neither reads, stores nor updates anything here. -/
theorem UploadInv.of_idle {s s' : CopyPhase} (inv : UploadInv sha256 w₀ p data x₀ past w s)
    (unfetched : ∀ u, ¬Fetched u p e) (unstored : ∀ u, ¬Stored u p e) (unupdated : ¬Updated p e)
    (same : w'.view p = w.view p) (phase : UploadPhase w₀ p data x₀.id past s') :
    UploadInv sha256 w₀ p data x₀ (past ++ [e]) w' s' := by
  have tiers (u : Tier) : w'.tiers u p = w.tiers u p := by rw [← view_object, same, view_object]
  refine ⟨fun u cold b => ?_, fun stored => ?_, ?_, ?_⟩
  · rw [tiers, heldAt_snoc (unstored _)]
    exact inv.held u (by simpa [unstored] using cold) b
  · simp only [tiers, readBytes_snoc unfetched]
    exact inv.copy (by simpa [unstored] using stored)
  · rw [← view_row, same, view_row]
    exact inv.row_snoc unupdated
  · exact uploadPhase_snoc unfetched (unstored _) phase

theorem UploadInv.writer_keeps {i : ι} {s : CopyPhase} {ph ph' : WritePhase}
    (inv : UploadInv sha256 w₀ p data x₀ past w s) (clean : c.Clean)
    (step : WriteStep sha256 p (data i) (some i) c w ph e w' ph') :
    UploadInv sha256 w₀ p data x₀ (past ++ [e]) w' s := by
  cases step with
  | store =>
    have unfetched (u : Tier) : ¬Fetched u p
        (⟨some i, .put .localDisk p (data i), .ok ()⟩ : Event Sys (Option ι)) := id
    have unstored : ¬Stored .s3 p
        (⟨some i, .put .localDisk p (data i), .ok ()⟩ : Event Sys (Option ι)) := by simp [Stored]
    have unupdated : ¬Updated p
        (⟨some i, .put .localDisk p (data i), .ok ()⟩ : Event Sys (Option ι)) := by
      simp [Updated, Recorded, Marked]
    refine ⟨fun u cold b => ?_, fun stored => ?_, ?_, ?_⟩
    · by_cases hot : u = .localDisk
      · subst hot
        simp [HeldAt, Stored, eq_comm]
      · rw [World.setObject_tiers, if_neg (by simp [hot]),
          inv.held u (by simpa [unstored] using cold) b]
        simp [HeldAt, hot]
    · simp only [World.setObject_tiers, readBytes_snoc unfetched]
      simpa [unstored] using inv.copy (by simpa [unstored] using stored)
    · exact inv.row_snoc unupdated
    · exact uploadPhase_snoc unfetched unstored inv.phase
  | unstored e faulty =>
    exact inv.of_idle (fun u => id) (fun u => id) (by simp [Updated, Recorded, Marked]) rfl inv.phase
  | tear e n faulty torn => simp [show c.torn = none from clean] at torn
  | time =>
    exact inv.of_idle (fun u => id) (fun u => id) (by simp [Updated, Recorded, Marked]) rfl inv.phase
  | record now =>
    obtain ⟨x, row, facts⟩ := inv.row
    have recorded := Store.rowState_upsert_self (s := w.store) (writtenMetadata sha256 p (data i) now)
    refine ⟨fun u cold b => ?_, fun stored => ?_, ⟨_, recorded, ?_, ?_, ?_, ?_, ?_⟩, ?_⟩
    · rw [heldAt_snoc id]
      exact inv.held u (by simpa [Stored] using cold) b
    · exact inv.copy_snoc (by simpa [Stored] using stored) fun u => id
    · exact (Store.upsertedId_of_rowState row).trans facts.id
    · simp [RowDigest, Recorded, writtenMetadata, Store.metadataState]
    · simp [Updated, Recorded, writtenMetadata]
    · simp [Store.metadataState]
    · simp [Updated, Recorded, writtenMetadata]
    · exact uploadPhase_snoc (fun u => id) id inv.phase
  | unrecorded now e faulty =>
    exact inv.of_idle (fun u => id) (fun u => id) (by simp [Updated, Recorded, Marked]) rfl inv.phase
  | aside elsewhere same =>
    exact inv.of_idle (fun u => elsewhere.not_fetched) (fun u => elsewhere.not_stored)
      (by simp [Updated, elsewhere.not_recorded, elsewhere.not_marked]) same inv.phase

theorem UploadInv.upload_keeps {s s' : CopyPhase}
    (inv : UploadInv sha256 w₀ p data x₀ past w s) (canonical : p.Canonical) (clean : c.Clean)
    (step : CopyStep p x₀.id .s3 none c w s e w' s') :
    UploadInv sha256 w₀ p data x₀ (past ++ [e]) w' s' := by
  have idle := @UploadInv.of_idle _ sha256 p data w₀ w w' x₀ past e s s' inv
  cases step with
  | opened m found =>
    obtain ⟨x, row, facts⟩ := inv.row
    have opened : Opened.Of p x₀.id (some m) := by
      rw [← facts.id] at found ⊢
      obtain ⟨path, id, -⟩ := Store.metadata_of_getById canonical row found
      exact ⟨m, rfl, path, id⟩
    exact idle (fun u => id) (fun u => id) (by simp [Updated, Recorded, Marked]) rfl
      ⟨opened, inv.phase⟩
  | load o m u found plain fastest =>
    exact idle (fun u => id) (fun u => id) (by simp [Updated, Recorded, Marked]) rfl inv.phase
  | fetch o b u x there =>
    obtain ⟨opened, fresh⟩ := inv.phase
    rw [opened.path] at there ⊢
    have unstored (v : Tier) :
        ¬Stored v p (⟨none, .get u p, .ok x⟩ : Event Sys (Option ι)) := id
    have unupdated : ¬Updated p (⟨none, .get u p, .ok x⟩ : Event Sys (Option ι)) := by
      simp [Updated, Recorded, Marked]
    have before (b' : Bytes) : ¬ReadBytes w₀ p data b' past := by
      rintro ⟨v, upon⟩
      exact fresh.unfetched v upon.occurs
    have now (b' : Bytes) : ReadBytes w₀ p data b' (past ++ [⟨none, .get u p, .ok x⟩]) ↔ b' = x := by
      have held := inv.held u (fun _ => fresh.unstored) b'
      rw [there, Option.some.injEq] at held
      have here : ReadBytes w₀ p data b' (past ++ [⟨none, .get u p, .ok x⟩]) ↔
          ReadBytes w₀ p data b' past ∨ HeldAt w₀ p data b' u past := by
        simp [ReadBytes, Fetched, exists_or]
      rw [here, ← held]
      simp [before, eq_comm]
    refine ⟨fun v cold b' => ?_, fun stored => ?_, ?_, opened, now, ?_⟩
    · rw [heldAt_snoc (unstored _)]
      exact inv.held v (by simpa [unstored] using cold) b'
    · exact absurd (by simpa [unstored] using stored) fresh.unstored
    · exact inv.row_snoc unupdated
    · simpa [unstored] using fresh.unstored
  | fallBack o b u e colder =>
    exact idle (fun u => id) (fun u => id) (by simp [Updated, Recorded, Marked]) rfl inv.phase
  | linger o x silent same =>
    exact idle (fun u => silent.not_fetched) (fun u => silent.not_stored)
      (by simp [Updated, silent.not_recorded, silent.not_marked]) (congrFun same p) inv.phase
  | store o x =>
    obtain ⟨opened, got, unstored⟩ := inv.phase
    rw [opened.path]
    have unfetched (u : Tier) :
        ¬Fetched u p (⟨none, .put .s3 p x, .ok ()⟩ : Event Sys (Option ι)) := fun h => h
    have cold : ¬Stored .localDisk p (⟨none, .put .s3 p x, .ok ()⟩ : Event Sys (Option ι)) := by
      simp [Stored]
    have phase : UploadPhase w₀ p data x₀.id (past ++ [⟨none, .put .s3 p x, .ok ()⟩])
        (CopyPhase.stored o) := by
      obtain ⟨m, rfl, -, id⟩ := opened
      exact ⟨id, by simp [Stored]⟩
    refine ⟨fun u colder b' => ?_, fun _ => ⟨x, World.setObject_same, fun b' => ?_⟩, ?_, phase⟩
    · have warm : u ≠ .s3 := by
        rintro rfl
        simp [Stored] at colder
      rw [heldAt_snoc cold, ← inv.held u (fun same => absurd same warm)]
      simp [World.setObject_tiers, warm]
    · rw [readBytes_snoc unfetched]
      exact got b'
    · exact inv.row_snoc (by simp [Updated, Recorded, Marked])
  | tear o x e n torn => simp [show c.torn = none from clean] at torn
  | refresh m found => exact inv.phase.elim
  | mark m =>
    obtain ⟨same, stored⟩ := inv.phase
    obtain ⟨x, row, facts⟩ := inv.row
    have marked := Store.rowState_setTierBitmask (s := w.store) (p := p) m.id (m.tierBitmask.set .s3)
    rw [row, Option.map_some, if_pos (facts.id.trans same.symm)] at marked
    refine ⟨fun u cold b => ?_, fun _ => ?_, ⟨_, marked, facts.id, ?_, ?_, ?_, ?_⟩, trivial⟩
    · rw [heldAt_snoc id]
      exact inv.held u (by simpa [Stored] using cold) b
    · exact inv.copy_snoc stored fun u => id
    · simpa [RowDigest, Recorded] using facts.digest
    · simp [Updated, Recorded, Marked]
    · simp [Updated, Recorded, Marked]
    · simp [stored]
  | stop silent same cause =>
    exact idle (fun u => silent.not_fetched) (fun u => silent.not_stored)
      (by simp [Updated, silent.not_recorded, silent.not_marked]) (congrFun same p) trivial

theorem soundS3_iff {x : Store.RowState} {b : Bytes} (row : w.store.rowState p = some x)
    (set : x.tierBitmask.has .s3 = true) (there : w.tiers .s3 p = some b) :
    SoundS3 sha256 w p ↔ x.sha256 = sha256 b ∧ x.sizeBytes = b.length := by
  simp [SoundS3, row, set, there]

/-- Of the one content the upload read, the row tells whether it has the right digest. -/
theorem readDigest_iff {x : Store.RowState} {b : Bytes}
    (facts : RowFacts sha256 p data x₀ past x) (got : ∀ b', ReadBytes w₀ p data b' past ↔ b' = b) :
    (x.sha256 = sha256 b ∧ x.sizeBytes = b.length) ↔ ∃ b, ReadBytes w₀ p data b past ∧
      RowDigest sha256 p data x₀ (sha256 b) b.length past := by
  simp [got, facts.digest, eq_comm]

/-- Before anything has written the row or the S3 object, both are as they were. -/
theorem UploadInv.sound_iff_start {s : CopyPhase} (inv : UploadInv sha256 w₀ p data x₀ past w s)
    (row₀ : w₀.store.rowState p = some x₀) (untouched : ¬Occurs (Updated p) past)
    (unstored : ¬Occurs (Stored .s3 p) past) : SoundS3 sha256 w p ↔ SoundS3 sha256 w₀ p := by
  obtain ⟨x, row, facts⟩ := inv.row
  have unrecorded : ¬Occurs (Recorded p) past := by
    rintro ⟨e, member, recorded⟩
    exact untouched ⟨e, member, Or.inl recorded⟩
  obtain ⟨hash, size⟩ := (facts.digest x₀.sha256 x₀.sizeBytes).mp (Or.inr ⟨unrecorded, rfl, rfl⟩)
  have held (b : Bytes) : w.tiers .s3 p = some b ↔ w₀.tiers .s3 p = some b :=
    (inv.held .s3 (fun _ => unstored) b).trans (by simp [HeldAt])
  simp [SoundS3, row, row₀, facts.untouched untouched, held, hash, size]

theorem UploadInv.sound_iff {s : CopyPhase} (inv : UploadInv sha256 w₀ p data x₀ past w s)
    (row₀ : w₀.store.rowState p = some x₀) :
    SoundS3 sha256 w p ↔
      (Vouched p x₀ past → ∃ b, ReadBytes w₀ p data b past ∧
        RowDigest sha256 p data x₀ (sha256 b) b.length past) ∧
      (¬Occurs (Updated p) past → ¬Occurs (Stored .s3 p) past → SoundS3 sha256 w₀ p) := by
  obtain ⟨x, row, facts⟩ := inv.row
  by_cases vouched : Vouched p x₀ past
  · have ⟨set, stored⟩ : x.tierBitmask.has .s3 = true ∧ Occurs (Stored .s3 p) past := by
      rcases vouched with last | ⟨untouched, set, stored⟩
      · exact facts.marked last
      · exact ⟨by rw [facts.untouched untouched, set], stored⟩
    obtain ⟨b, there, got⟩ := inv.copy stored
    rw [soundS3_iff row set there, readDigest_iff facts got]
    simp [vouched, stored]
  · simp only [vouched, false_implies, true_and]
    by_cases updated : Occurs (Updated p) past
    · refine iff_of_true (fun y row' set => ?_) fun untouched => absurd updated untouched
      obtain rfl := Option.some.inj (row.symm.trans row')
      obtain ⟨i, last⟩ := exists_lastBy updated
      cases i with
      | none => exact absurd (Or.inl last) vouched
      | some i => simp [facts.written i last] at set
    · by_cases stored : Occurs (Stored .s3 p) past
      · refine iff_of_true (fun y row' set => ?_) fun _ unstored => absurd stored unstored
        obtain rfl := Option.some.inj (row.symm.trans row')
        rw [facts.untouched updated] at set
        exact absurd (Or.inr ⟨updated, set, stored⟩) vouched
      · rw [inv.sound_iff_start row₀ updated stored]
        simp [updated, stored]

section Uploads

variable [DecidableEq ι]

/-- The uploader's work on one entry, and one write for each index. -/
def uploads (sha256 : Bytes → Text) (p : FvfsPath) (data : ι → Bytes) (entry : WalEntry) (w : World) :
    Pool Sys FvfsError Unit World (Option ι) :=
  ⟨w, fun | none => flushEntry entry | some i => write sha256 p (data i)⟩

variable (sha256 data) in
theorem uploads_run {entry : WalEntry} (canonical : p.Canonical)
    (row : w.store.rowState p = some x₀) (names : entry.fileId = x₀.id)
    {schedule : List (Option ι × Choice)} (clean : ∀ e ∈ schedule, e.2.Clean) :
    ∃ s, UploadInv sha256 w p data x₀ (Pool.trace perform schedule (uploads sha256 p data entry w))
      (Pool.run perform schedule (uploads sha256 p data entry w)).world s := by
  let phases : Option ι → Type := fun | none => CopyPhase | some _ => WritePhase
  let protocols : (i : Option ι) → Protocol Sys FvfsError Unit (phases i) :=
    fun | none => copyProtocol p x₀.id .s3 | some i => writeProtocol sha256 p (data i)
  let start : (i : Option ι) → phases i := fun | none => .opening | some _ => .storing
  have follows : ∀ i, (protocols i).Follows (start i) ((uploads sha256 p data entry w).threads i) := by
    intro i
    cases i with
    | none =>
      change (copyProtocol p x₀.id .s3).Follows .opening (flushEntry entry)
      rw [← names]
      exact follows_flushEntry entry
    | some i => exact follows_write sha256 p (data i)
  have initial : UploadInv sha256 w p data x₀ [] w .opening :=
    ⟨by simp [HeldAt], by simp, ⟨x₀, row, rfl, by simp [RowDigest], by simp, by simp, by simp⟩,
      by simp, by simp⟩
  have keeps : ∀ past (pool : Pool Sys FvfsError Unit World (Option ι))
      (phase : (i : Option ι) → phases i) i c op rest,
      UploadInv sha256 w p data x₀ past pool.world (phase none) → Choice.Clean c →
      pool.threads i = .call op rest → (protocols i).permits (phase i) op →
      UploadInv sha256 w p data x₀ (past ++ [⟨i, op, (perform op c pool.world).1⟩])
        (perform op c pool.world).2
        (update phase i ((protocols i).next (phase i) op (perform op c pool.world).1) none) := by
    intro past pool phase i c op rest inv now _ permitted
    cases i with
    | none => simpa using inv.upload_keeps canonical now (copy_step permitted none c pool.world)
    | some i => simpa using inv.writer_keeps now (write_step permitted (some i) c pool.world)
  have inv := Protocol.run_phases protocols
    (fun past w' phase => UploadInv sha256 w p data x₀ past w' (phase none))
    (fun _ _ _ => Choice.Clean) keeps start (Pool.along_of_forall clean _ _) initial follows
  exact ⟨_, inv⟩

/-- While an upload and any writes of `p` run, the S3 bit is sound in the state reached
exactly when, if it stands for the upload, the bytes the upload read have the hash and size
of the last write recorded, and, if nothing has been written yet, it was sound before. -/
theorem upload_sound_iff (sha256 : Bytes → Text) (w : World) (p : CanonPath) (data : ι → Bytes)
    (entry : WalEntry) (x₀ : Store.RowState) (row : w.store.rowState p = some x₀)
    (names : entry.fileId = x₀.id) (schedule : List (Option ι × Choice))
    (clean : ∀ e ∈ schedule, e.2.Clean) :
    let pool := uploads sha256 p data entry w
    let trace := Pool.trace perform schedule pool
    SoundS3 sha256 (Pool.run perform schedule pool).world p ↔
      (Vouched p x₀ trace → ∃ b, ReadBytes w p data b trace ∧
        RowDigest sha256 p data x₀ (sha256 b) b.length trace) ∧
      (¬Occurs (Updated p) trace → ¬Occurs (Stored .s3 p) trace → SoundS3 sha256 w p) := by
  intro pool trace
  obtain ⟨s, inv⟩ := uploads_run sha256 data p.property row names clean
  exact inv.sound_iff row

end Uploads

/-- The upload entry of the sample file and the row it names. -/
def sampleEntry : WalEntry := ⟨2, 1, .uploadS3, 0, 0, none⟩

def sampleRow : Store.RowState := ⟨1, 1, sampleSha256 [1], TierBitmask.none.set .localDisk, false⟩

def staleSchedule : List (Option Unit × Choice) :=
  .replicate 4 (none, .quiet 0) ++ .replicate 8 (some (), .quiet 0) ++ .replicate 4 (none, .quiet 0)

theorem stale_upload_iff :
    let p := Request.sampleFile
    let pool := uploads sampleSha256 p (fun _ => [2]) sampleEntry Request.written
    let trace := Pool.trace perform staleSchedule pool
    SoundS3 sampleSha256 (Pool.run perform staleSchedule pool).world p ↔
      (Vouched p sampleRow trace → ∃ b, ReadBytes Request.written p (fun _ => [2]) b trace ∧
        RowDigest sampleSha256 p (fun _ => [2]) sampleRow (sampleSha256 b) b.length trace) ∧
      (¬Occurs (Updated p) trace → ¬Occurs (Stored .s3 p) trace →
        SoundS3 sampleSha256 Request.written p) :=
  upload_sound_iff sampleSha256 Request.written Request.sampleFile (fun _ => [2]) sampleEntry sampleRow
    (by decide) (by decide) staleSchedule (by decide)

/-- S3 holds the old version under the bit of the new one, whose local copy may now go. -/
theorem stale_upload :
    let p := Request.sampleFile.val
    let pool := Pool.run perform staleSchedule
      (uploads sampleSha256 p (fun _ => [2]) sampleEntry Request.written)
    sampleEntry ∈ Request.written.store.walPending ∧ (∀ i, Pool.Returned (pool.threads i)) ∧
      pool.world.tiers .s3 p = some [1] ∧ ¬SoundS3 sampleSha256 pool.world p := by
  intro p pool
  have bytes : pool.world.tiers .s3 p = some [1] := by decide
  have row : pool.world.store.rowState p =
      some ⟨1, 1, sampleSha256 [2], (TierBitmask.none.set .localDisk).set .s3, false⟩ := by decide
  refine ⟨by decide, fun i => ?_, bytes, ?_⟩
  · cases i with
    | none => decide
    | some only =>
      cases only
      decide
  · rw [soundS3_iff row (by decide) bytes]
    decide

end Fvfs
