import Fvfs.Requests
import Fvfs.Steps

/-! Evictions, promotions and uploads of one file, in any number and any order. Each writes
back a whole bitmask that it read before a slow transfer. -/
namespace Fvfs

open Lib Step Router
open Function (update)

/-- A background task on one file. -/
inductive Job where
  | evict (t : Tier)
  | promote
  | upload (entry : WalEntry)

namespace Job

/-- The tier whose copy the task changes. -/
def tier : Job → Tier
  | evict t => t
  | promote => .localDisk
  | upload _ => .s3

def task (p : FvfsPath) : Job → Async Unit
  | evict t => evictFromTier p t
  | promote => Router.promote p
  | upload entry => flushEntry entry

/-- The uploads are of entries of this row. -/
def Names (id : Nat) : Job → Prop
  | upload entry => entry.fileId = id
  | _ => True

abbrev Phase : Job → Type
  | evict _ => EvictPhase
  | promote => CopyPhase
  | upload _ => CopyPhase

def start : (j : Job) → j.Phase
  | evict _ => EvictPhase.loading
  | promote => CopyPhase.loading none
  | upload _ => CopyPhase.opening

def protocol (p : FvfsPath) (id : Nat) : (j : Job) → Protocol Sys FvfsError Unit j.Phase
  | evict t => evictProtocol p t
  | promote => copyProtocol p id .localDisk
  | upload _ => copyProtocol p id .s3

theorem follows {p : FvfsPath} {id : Nat} {j : Job} (names : j.Names id) :
    (j.protocol p id).Follows j.start (j.task p) := by
  cases j with
  | evict t => exact follows_evict p t
  | promote => exact follows_promote
  | upload entry =>
    obtain rfl : entry.fileId = id := names
    exact follows_flushEntry entry

def Owes : (j : Job) → j.Phase → Prop
  | evict _, s => EvictPhase.Owes s
  | promote, s => CopyPhase.Owes s
  | upload _, s => CopyPhase.Owes s

end Job

section Bits

variable (isFile : Bytes → Prop)

/-- The tier holds the file, whatever contents count as the file. -/
def Holds (w : World) (p : FvfsPath) (t : Tier) : Prop := ∃ b, w.tiers t p = some b ∧ isFile b

/-- The tier holds the file or nothing. -/
def Sane (w : World) (p : FvfsPath) (t : Tier) : Prop := ∀ b, w.tiers t p = some b → isFile b

/-- The bits of the row agree with the tiers. -/
def BitsAgree (w : World) (p : FvfsPath) : Prop :=
  ∃ x, w.store.rowState p = some x ∧ ∀ t, x.tierBitmask.has t = true ↔ Holds isFile w p t

variable {ι : Type}

/-- The task has changed the copy on this tier and not written its bitmask since. -/
def Owing (p : FvfsPath) (i : ι) (t : Tier) (past : List (Event Sys ι)) : Prop :=
  Since (fun e => Changed t p e ∧ e.thread = i) (fun e => (∃ id, Marked id e) ∧ e.thread = i) past

/-- For a task that changed tier `t`, writing this bitmask loses nothing about tier `u`: its
own copy is as it left it, and the other bits are still those of the row. -/
def UpToDate (w : World) (p : FvfsPath) (t : Tier) (b : TierBitmask) (u : Tier) : Prop :=
  if u = t then b.has u = true ↔ Holds isFile w p u
  else ∀ x ∈ w.store.rowState p, b.has u = x.tierBitmask.has u

/-- The bitmask a step writes. -/
def Step.bitmask : Step → Option TierBitmask
  | setTierBitmask _ b => some b
  | _ => none

/-- The steps a run may take: no put leaves a torn object, no step of a task fails between
its changing a copy and its writing the bitmask, and a bitmask is written only while it is
up to date, except on tiers where another task still has to write its own. -/
def Careful (p : FvfsPath) (jobs : ι → Job) (past : List (Event Sys ι))
    (pool : Pool Sys FvfsError Unit World ι) (i : ι) (c : Choice) : Prop :=
  c.Clean ∧ (Owing p i (jobs i).tier past → c.Faultless) ∧
    ∀ op ∈ Pool.nextOp (pool.threads i), ∀ b ∈ op.bitmask, ∀ u,
      (∃ j, j ≠ i ∧ Owing p j u past) ∨ UpToDate isFile pool.world p (jobs i).tier b u

end Bits

section Facts

variable {isFile : Bytes → Prop} {w w' : World} {p : FvfsPath} {id : Nat}

theorem Holds.sane {t : Tier} (holds : Holds isFile w p t) : Sane isFile w p t := by
  obtain ⟨b, there, file⟩ := holds
  intro b' there'
  obtain rfl := Option.some.inj (there.symm.trans there')
  exact file

variable (isFile w p id) in
/-- Metadata of the row, read when every bit it sets was of a tier with nothing else. -/
structure MetadataReady (m : FileMetadata) : Prop where
  row : m.id = id
  sane : ∀ t, m.tierBitmask.has t = true → Sane isFile w p t

variable (isFile w p id) in
def EvictPhase.Ready : EvictPhase → Prop
  | .dropping m | .marking m => MetadataReady isFile w p id m
  | _ => True

variable (isFile w p id) in
def Opened.Ready (o : Opened) : Prop :=
  ∀ m, o = some m → m.path = p ∧ MetadataReady isFile w p id m

variable (isFile w p id) in
def CopyPhase.Ready (t : Tier) : CopyPhase → Prop
  | .loading o => o.Ready isFile w p id
  | .fetching o b u => o.Ready isFile w p id ∧ Sane isFile w p u ∧
      ∀ v, b.colder = some v → Sane isFile w p v
  | .fetched o data => o.Ready isFile w p id ∧ isFile data
  | .refreshing => Sane isFile w p t
  | .marking m => MetadataReady isFile w p id m ∧ Sane isFile w p t
  | _ => True

variable (isFile w p id) in
def Job.Ready : (j : Job) → j.Phase → Prop
  | evict _, s => EvictPhase.Ready isFile w p id s
  | promote, s => CopyPhase.Ready isFile w p id .localDisk s
  | upload _, s => CopyPhase.Ready isFile w p id .s3 s

theorem Opened.Ready.path {o : Opened} (ready : o.Ready isFile w p id) : o.path p = p := by
  cases o with
  | none => rfl
  | some m => exact (ready m rfl).1

section Mono

variable (stays : ∀ t, Sane isFile w p t → Sane isFile w' p t)
include stays

theorem MetadataReady.mono {m : FileMetadata} (snapshot : MetadataReady isFile w p id m) :
    MetadataReady isFile w' p id m :=
  ⟨snapshot.row, fun t set => stays t (snapshot.sane t set)⟩

theorem EvictPhase.Ready.mono {s : EvictPhase} (ready : s.Ready isFile w p id) :
    s.Ready isFile w' p id := by
  cases s with
  | dropping m | marking m => exact MetadataReady.mono stays ready
  | _ => trivial

theorem Opened.Ready.mono {o : Opened} (ready : o.Ready isFile w p id) : o.Ready isFile w' p id :=
  fun m there => ⟨(ready m there).1, (ready m there).2.mono stays⟩

theorem CopyPhase.Ready.mono {t : Tier} {s : CopyPhase} (ready : s.Ready isFile w p id t) :
    s.Ready isFile w' p id t := by
  cases s with
  | loading o => exact Opened.Ready.mono stays ready
  | fetching o b u =>
    exact ⟨ready.1.mono stays, stays u ready.2.1, fun v colder => stays v (ready.2.2 v colder)⟩
  | fetched o data => exact ⟨ready.1.mono stays, ready.2⟩
  | refreshing => exact stays t ready
  | marking m => exact ⟨ready.1.mono stays, stays t ready.2⟩
  | _ => trivial

/-- What other tasks do leaves a task's facts alone. -/
theorem Job.Ready.mono {j : Job} {s : j.Phase} (ready : j.Ready isFile w p id s) :
    j.Ready isFile w' p id s := by
  cases j with
  | evict t => exact EvictPhase.Ready.mono stays ready
  | promote => exact CopyPhase.Ready.mono stays ready
  | upload entry => exact CopyPhase.Ready.mono stays ready

end Mono

theorem sane_setObject {t : Tier} {x : Option Bytes} (file : ∀ b, x = some b → isFile b) (u : Tier)
    (sane : Sane isFile w p u) : Sane isFile (w.setObject t p x) p u := by
  intro b there
  rw [World.setObject_tiers] at there
  split at there
  · exact file b there
  · exact sane b there

theorem sane_of_view (same : w'.view p = w.view p) (t : Tier) (sane : Sane isFile w p t) :
    Sane isFile w' p t := by
  intro b there
  rw [← view_object, same] at there
  exact sane b there

variable (isFile w p id) in
structure RowReady (x : Store.RowState) : Prop where
  here : w.store.rowState p = some x
  row : x.id = id
  sane : ∀ t, x.tierBitmask.has t = true → Sane isFile w p t

theorem RowReady.of_get {x : Store.RowState} {m : FileMetadata} (ready : RowReady isFile w p id x)
    (found : w.store.get p = some m) : MetadataReady isFile w p id m := by
  obtain rfl := Option.some.inj (ready.here.symm.trans (Store.rowState_of_get found))
  exact ⟨ready.row, ready.sane⟩

theorem TierBitmask.has_of_colder {b : TierBitmask} {t : Tier} (colder : b.colder = some t) :
    b.has t = true := by
  unfold TierBitmask.colder at colder
  split at colder
  next set => exact Option.some.inj colder ▸ set
  next =>
    split at colder
    next set => exact Option.some.inj colder ▸ set
    next => nomatch colder

theorem TierBitmask.has_of_fastest {b : TierBitmask} {t : Tier} (fastest : b.fastest = some t) :
    b.has t = true := by
  unfold TierBitmask.fastest at fastest
  split at fastest
  next set => exact Option.some.inj fastest ▸ set
  next => exact has_of_colder fastest

/-- What one step of a task on tier `t` does, as the other tasks see it. -/
inductive JobStep (isFile : Bytes → Prop) (p : FvfsPath) (id : Nat) (t : Tier) (i : ι) (w : World)
    (owes : Prop) : Event Sys ι → World → Prop → Prop
  | idle {e : Event Sys ι} {w' : World} {owes' : Prop} (unchanged : ∀ u, ¬Changed u p e)
      (unmarked : ∀ row, ¬Marked row e) (same : w'.view p = w.view p) (still : owes' ↔ owes) :
      JobStep isFile p id t i w owes e w' owes'
  | move {e : Event Sys ι} {owes' : Prop} (x : Option Bytes) (file : ∀ b, x = some b → isFile b)
      (changed : ∀ u, Changed u p e ↔ u = t) (unmarked : ∀ row, ¬Marked row e) (now : owes') :
      JobStep isFile p id t i w owes e (w.setObject t p x) owes'
  | mark {owes' : Prop} (b : TierBitmask) (sane : ∀ u, b.has u = true → Sane isFile w p u)
      (paid : ¬owes') : JobStep isFile p id t i w owes ⟨i, .setTierBitmask id b, .ok ()⟩
      (w.withStore (w.store.setTierBitmask id b)) owes'

variable {ι : Type} {i : ι} {c : Choice} {e : Event Sys ι} {t : Tier} {x : Store.RowState}

theorem EvictStep.job {s s' : EvictPhase} (step : EvictStep p t i c w s e w' s')
    (ready : s.Ready isFile w p id) (row : RowReady isFile w p id x) (sure : s.Owes → c.Faultless) :
    JobStep isFile p id t i w s.Owes e w' s'.Owes ∧ s'.Ready isFile w' p id := by
  cases step with
  | load m found safe =>
    exact ⟨.idle (by simp [Changed, Stored, Dropped]) (by simp [Marked]) rfl Iff.rfl,
      row.of_get found⟩
  | drop m =>
    have gone : ∀ b, none = some b → isFile b := nofun
    exact ⟨.move none gone (by simp [Changed, Stored, Dropped, eq_comm]) (by simp [Marked]) trivial,
      MetadataReady.mono (sane_setObject gone) ready⟩
  | mark m =>
    obtain ⟨rfl, sane⟩ : MetadataReady isFile w p id m := ready
    refine ⟨.mark _ (fun u set => sane u ?_) id, trivial⟩
    simp only [TierBitmask.has_clear, Bool.and_eq_true] at set
    exact set.1
  | stop silent cause =>
    have calm : ¬s.Owes := fun owes => cause owes (sure owes)
    refine ⟨.idle (fun u => ?_) (fun _ => silent.not_marked) rfl ?_, trivial⟩
    · simp [Changed, silent.not_stored, silent.not_dropped]
    · simpa [EvictPhase.Owes] using calm

theorem CopyStep.job {s s' : CopyPhase} (canonical : p.Canonical)
    (step : CopyStep p id t i c w s e w' s') (ready : s.Ready isFile w p id t)
    (row : RowReady isFile w p id x) (clean : c.Clean) (sure : s.Owes → c.Faultless) :
    JobStep isFile p id t i w s.Owes e w' s'.Owes ∧ s'.Ready isFile w' p id t := by
  cases step with
  | opened m found =>
    refine ⟨.idle (by simp [Changed, Stored, Dropped]) (by simp [Marked]) rfl Iff.rfl, ?_⟩
    rintro m' there
    obtain rfl := Option.some.inj there
    obtain ⟨here, rfl, sane⟩ := row
    obtain ⟨path, row, bits⟩ := Store.metadata_of_getById canonical here found
    exact ⟨path, row, bits ▸ sane⟩
  | load o m u found plain fastest =>
    have opened : o.Ready isFile w p id := ready
    rw [opened.path] at found
    have snapshot := row.of_get found
    refine ⟨.idle (by simp [Changed, Stored, Dropped]) (by simp [Marked]) rfl Iff.rfl, opened, ?_⟩
    exact ⟨snapshot.sane u (TierBitmask.has_of_fastest fastest),
      fun v colder => snapshot.sane v (TierBitmask.has_of_colder colder)⟩
  | fetch o b u data there =>
    obtain ⟨opened, sane, -⟩ := ready
    rw [opened.path] at there ⊢
    exact ⟨.idle (by simp [Changed, Stored, Dropped]) (by simp [Marked]) rfl Iff.rfl, opened,
      sane data there⟩
  | fallBack o b u e colder =>
    obtain ⟨opened, -, sane⟩ := ready
    exact ⟨.idle (by simp [Changed, Stored, Dropped]) (by simp [Marked]) rfl Iff.rfl, opened,
      sane u colder, sane⟩
  | linger o data silent same =>
    have idle : JobStep isFile p id t i w (CopyPhase.fetched o data).Owes e w'
        (CopyPhase.fetched o data).Owes := by
      refine .idle (fun u => ?_) (fun _ => silent.not_marked) (congrFun same p) Iff.rfl
      simp [Changed, silent.not_stored, silent.not_dropped]
    exact ⟨idle, CopyPhase.Ready.mono (sane_of_view (congrFun same p)) ready⟩
  | store o data =>
    obtain ⟨opened, file⟩ := ready
    rw [opened.path]
    have only : ∀ b, some data = some b → isFile b := by
      rintro b there
      exact Option.some.inj there ▸ file
    have stays := sane_setObject (w := w) (p := p) (t := t) only
    have stored : Sane isFile (w.setObject t p (some data)) p t := by
      intro b there
      rw [World.setObject_same] at there
      exact only b there
    cases o with
    | none =>
      exact ⟨.move _ only (by simp [Changed, Stored, Dropped, eq_comm]) (by simp [Marked]) trivial,
        stored⟩
    | some m =>
      exact ⟨.move _ only (by simp [Changed, Stored, Dropped, eq_comm]) (by simp [Marked]) trivial,
        MetadataReady.mono stays (opened m rfl).2, stored⟩
  | tear o data e n torn => simp [show c.torn = none from clean] at torn
  | refresh m found =>
    exact ⟨.idle (by simp [Changed, Stored, Dropped]) (by simp [Marked]) rfl Iff.rfl,
      row.of_get found, ready⟩
  | mark m =>
    obtain ⟨⟨rfl, sane⟩, own⟩ := ready
    refine ⟨.mark _ (fun u set => ?_) id, trivial⟩
    simp only [TierBitmask.has_set, Bool.or_eq_true, decide_eq_true_eq] at set
    rcases set with before | rfl
    · exact sane u before
    · exact own
  | stop silent same cause =>
    have calm : ¬s.Owes := by
      intro owes
      rcases cause owes with faulty | absent
      · exact faulty (sure owes)
      · nomatch (Store.get_eq_none_iff.mp absent).symm.trans row.here
    refine ⟨.idle (fun u => ?_) (fun _ => silent.not_marked) (congrFun same p) ?_, trivial⟩
    · simp [Changed, silent.not_stored, silent.not_dropped]
    · simpa [CopyPhase.Owes] using calm

theorem Job.step {j : Job} {s : j.Phase} {op : Step} (canonical : p.Canonical)
    (permitted : (j.protocol p id).permits s op) (ready : j.Ready isFile w p id s)
    (row : RowReady isFile w p id x) (clean : c.Clean) (sure : j.Owes s → c.Faultless) :
    JobStep isFile p id j.tier i w (j.Owes s) ⟨i, op, (perform op c w).1⟩ (perform op c w).2
      (j.Owes ((j.protocol p id).next s op (perform op c w).1)) ∧
    j.Ready isFile (perform op c w).2 p id ((j.protocol p id).next s op (perform op c w).1) := by
  cases j with
  | evict t => exact (evict_step permitted i c w).job ready row sure
  | promote => exact (copy_step permitted i c w).job canonical ready row clean sure
  | upload entry => exact (copy_step permitted i c w).job canonical ready row clean sure

theorem JobStep.sane {owes owes' : Prop} (step : JobStep isFile p id t i w owes e w' owes') (u : Tier)
    (sane : Sane isFile w p u) : Sane isFile w' p u := by
  cases step with
  | idle unchanged unmarked same still => exact sane_of_view same u sane
  | move x file changed unmarked now => exact sane_setObject file u sane
  | mark b set paid => exact sane

theorem owing_snoc {past : List (Event Sys ι)} {j : ι} {u : Tier} :
    Owing p j u (past ++ [e]) ↔ (Changed u p e ∧ e.thread = j) ∨
      (¬((∃ row, Marked row e) ∧ e.thread = j) ∧ Owing p j u past) := since_snoc

variable (isFile p id) in
structure BitsInv (jobs : ι → Job) (past : List (Event Sys ι)) (w : World)
    (phase : (i : ι) → (jobs i).Phase) : Prop where
  row : ∃ x, RowReady isFile w p id x ∧
    ∀ u, (∀ i, ¬Owing p i u past) → (x.tierBitmask.has u = true ↔ Holds isFile w p u)
  ready : ∀ i, (jobs i).Ready isFile w p id (phase i)
  owing : ∀ i u, Owing p i u past ↔ u = (jobs i).tier ∧ (jobs i).Owes (phase i)

theorem holds_of_view (same : w'.view p = w.view p) (u : Tier) :
    Holds isFile w' p u ↔ Holds isFile w p u := by
  unfold Holds
  rw [← view_object, same, view_object]

variable {jobs : ι → Job} {past : List (Event Sys ι)} {phase : (i : ι) → (jobs i).Phase}

theorem BitsInv.row_keep {owes owes' : Prop} (inv : BitsInv isFile p id jobs past w phase)
    (step : JobStep isFile p id (jobs i).tier i w owes e w' owes') (mine : e.thread = i)
    (upToDate : ∀ b ∈ e.op.bitmask, ∀ u,
      (∃ j, j ≠ i ∧ Owing p j u past) ∨ UpToDate isFile w p (jobs i).tier b u) :
    ∃ x, RowReady isFile w' p id x ∧ ∀ u, (∀ j, ¬Owing p j u (past ++ [e])) →
      (x.tierBitmask.has u = true ↔ Holds isFile w' p u) := by
  obtain ⟨x, ready, agree⟩ := inv.row
  cases step with
  | idle unchanged unmarked same still =>
    have row : w'.store.rowState p = some x := by rw [← view_row, same, view_row, ready.here]
    refine ⟨x, ⟨row, ready.row, fun u set => sane_of_view same u (ready.sane u set)⟩, ?_⟩
    intro u clear
    rw [holds_of_view same]
    exact agree u fun j owing => clear j (owing_snoc.mpr (Or.inr ⟨by simp [unmarked], owing⟩))
  | move y file changed unmarked now =>
    refine ⟨x, ⟨ready.here, ready.row, fun u set => sane_setObject file u (ready.sane u set)⟩, ?_⟩
    intro u clear
    have other : u ≠ (jobs i).tier :=
      fun same => clear i (owing_snoc.mpr (Or.inl ⟨(changed u).mpr same, mine⟩))
    simp only [Holds, World.setObject_tiers, other, false_and, if_false]
    exact agree u fun j owing => clear j (owing_snoc.mpr (Or.inr ⟨by simp [unmarked], owing⟩))
  | mark b sane paid =>
    have row := Store.rowState_setTierBitmask (s := w.store) (p := p) id b
    rw [ready.here, Option.map_some, if_pos ready.row] at row
    refine ⟨_, ⟨row, ready.row, sane⟩, fun u clear => ?_⟩
    have others (j : ι) (other : j ≠ i) : ¬Owing p j u past := fun owing =>
      clear j (owing_snoc.mpr (Or.inr ⟨fun marks => other marks.2.symm, owing⟩))
    rcases upToDate b rfl u with ⟨j, other, owing⟩ | upToDate
    · exact absurd owing (others j other)
    · unfold UpToDate at upToDate
      split at upToDate
      next own => exact upToDate
      next other =>
        rw [show b.has u = x.tierBitmask.has u from upToDate x ready.here]
        refine agree u fun j owing => ?_
        by_cases same : j = i
        · subst same
          exact other ((inv.owing j u).mp owing).1
        · exact others j same owing

theorem BitsInv.owing_keep {owes' : Prop} (inv : BitsInv isFile p id jobs past w phase)
    (step : JobStep isFile p id (jobs i).tier i w ((jobs i).Owes (phase i)) e w' owes')
    (mine : e.thread = i) (u : Tier) :
    Owing p i u (past ++ [e]) ↔ u = (jobs i).tier ∧ owes' := by
  rw [owing_snoc, inv.owing]
  cases step with
  | idle unchanged unmarked same still => simp [unchanged, unmarked, still]
  | move y file changed unmarked now =>
    simpa [changed, unmarked, mine, now] using fun same _ => same
  | mark b sane paid => simp [Changed, Stored, Dropped, Marked, paid]

theorem owing_other {j : ι} {u : Tier} (mine : e.thread = i) (other : j ≠ i) :
    Owing p j u (past ++ [e]) ↔ Owing p j u past := by
  have not_his : ¬e.thread = j := fun his => other (his.symm.trans mine)
  simp [owing_snoc, not_his]

variable [DecidableEq ι]

theorem BitsInv.keep {op : Step} (inv : BitsInv isFile p id jobs past w phase)
    (canonical : p.Canonical) (clean : c.Clean) (sure : Owing p i (jobs i).tier past → c.Faultless)
    (upToDate : ∀ b ∈ op.bitmask, ∀ u,
      (∃ j, j ≠ i ∧ Owing p j u past) ∨ UpToDate isFile w p (jobs i).tier b u)
    (permitted : ((jobs i).protocol p id).permits (phase i) op) :
    BitsInv isFile p id jobs (past ++ [⟨i, op, (perform op c w).1⟩]) (perform op c w).2
      (update phase i (((jobs i).protocol p id).next (phase i) op (perform op c w).1)) := by
  obtain ⟨x, row, -⟩ := inv.row
  have paid : (jobs i).Owes (phase i) → c.Faultless :=
    fun owes => sure ((inv.owing i _).mpr ⟨rfl, owes⟩)
  obtain ⟨step, ready⟩ := Job.step (i := i) canonical permitted (inv.ready i) row clean paid
  refine ⟨inv.row_keep step rfl upToDate, fun j => ?_, fun j u => ?_⟩
  · by_cases mine : j = i
    · subst mine
      simpa using ready
    · rw [Function.update_of_ne mine]
      exact (inv.ready j).mono step.sane
  · by_cases mine : j = i
    · subst mine
      rw [Function.update_self]
      exact inv.owing_keep step rfl u
    · rw [Function.update_of_ne mine, owing_other rfl mine]
      exact inv.owing j u

variable (p jobs) in
/-- The tasks, all about to begin. -/
def background (w : World) : Pool Sys FvfsError Unit World ι := ⟨w, fun i => (jobs i).task p⟩

theorem Job.not_owes_of_final {j : Job} {s : j.Phase} {outcome : Outcome Unit}
    (final : (j.protocol p id).final s outcome) : ¬j.Owes s := by
  cases j with
  | evict t =>
    cases s with
    | ended => exact not_false
    | _ => exact final.elim
  | promote | upload entry =>
    cases s with
    | ended => exact not_false
    | _ => exact final.elim

/-- If the bits agree with the tiers and the background tasks on the file run carefully,
the bits agree again whenever none of the tasks is still at work. -/
theorem tier_bits_agree (isFile : Bytes → Prop) (w : World) (p : CanonPath) (jobs : ι → Job)
    (x₀ : Store.RowState) (row : w.store.rowState p = some x₀) (names : ∀ i, (jobs i).Names x₀.id)
    (agree : BitsAgree isFile w p) (schedule : List (ι × Choice))
    (careful : Pool.Along perform (Careful isFile p jobs) [] schedule (background p jobs w))
    (finished : ∀ i, Pool.Done ((Pool.run perform schedule (background p jobs w)).threads i)) :
    BitsAgree isFile (Pool.run perform schedule (background p jobs w)).world p := by
  have follows (i : ι) : ((jobs i).protocol p x₀.id).Follows (jobs i).start
      ((background p jobs w).threads i) := Job.follows (names i)
  have initial : BitsInv isFile p x₀.id jobs [] w fun i => (jobs i).start := by
    obtain ⟨x, here, agree⟩ := agree
    obtain rfl := Option.some.inj (row.symm.trans here)
    refine ⟨⟨_, ⟨row, rfl, fun u set => ((agree u).mp set).sane⟩, fun u _ => agree u⟩,
      fun i => ?_, fun i u => ?_⟩
    · cases jobs i <;> first | trivial | exact nofun
    · cases jobs i <;> simp [Owing, Job.Owes, Job.start, EvictPhase.Owes, CopyPhase.Owes]
  have inv := Protocol.run_phases (fun i => (jobs i).protocol p x₀.id) (BitsInv isFile p x₀.id jobs)
    (Careful isFile p jobs) (fun past pool phase i c op rest inv now at_op permitted =>
      inv.keep p.property now.1 now.2.1 (now.2.2 op (by simp [at_op, Pool.nextOp])) permitted)
    (fun i => (jobs i).start) careful initial follows
  obtain ⟨x, ready, agree⟩ := inv.row
  refine ⟨x, ready.here, fun u => agree u fun i owing => ?_⟩
  obtain ⟨outcome, final⟩ :=
    (Protocol.run_follows _ (follows i) schedule).final_of_done (finished i)
  exact Job.not_owes_of_final final ((inv.owing i u).mp owing).2

end Facts

/-- A condition a run can be tested for: nothing fails, and no task writes back a bitmask that
another task has overtaken. -/
def Orderly (isFile : Bytes → Prop) (p : FvfsPath) (jobs : ι → Job)
    (pool : Pool Sys FvfsError Unit World ι) (i : ι) (c : Choice) : Prop :=
  c.Clean ∧ c.Faultless ∧ ∀ op ∈ Pool.nextOp (pool.threads i), ∀ b ∈ op.bitmask, ∀ u,
    UpToDate isFile pool.world p (jobs i).tier b u

theorem Orderly.careful {isFile : Bytes → Prop} {p : FvfsPath} {jobs : ι → Job}
    {past : List (Event Sys ι)} {pool : Pool Sys FvfsError Unit World ι} {i : ι} {c : Choice}
    (orderly : Orderly isFile p jobs pool i c) : Careful isFile p jobs past pool i c :=
  ⟨orderly.1, fun _ => orderly.2.1, fun op next b writes u => Or.inr (orderly.2.2 op next b writes u)⟩

section Decide

variable (isFile : Bytes → Prop) [DecidablePred isFile] (w : World) (p : FvfsPath) (t u : Tier)

instance : Decidable (Holds isFile w p t) :=
  decidable_of_iff ((w.tiers t p).any (fun b => decide (isFile b)) = true) (by
    cases there : w.tiers t p <;> simp [Holds, there])

instance (b : TierBitmask) : Decidable (UpToDate isFile w p t b u) :=
  inferInstanceAs (Decidable (if u = t then b.has u = true ↔ Holds isFile w p u
    else ∀ x ∈ w.store.rowState p, b.has u = x.tierBitmask.has u))

instance (jobs : ι → Job) (pool : Pool Sys FvfsError Unit World ι) (i : ι) (c : Choice) :
    Decidable (Orderly isFile p jobs pool i c) :=
  inferInstanceAs (Decidable (c.Clean ∧ c.Faultless ∧ ∀ op ∈ Pool.nextOp (pool.threads i),
    ∀ b ∈ op.bitmask, ∀ u, UpToDate isFile pool.world p (jobs i).tier b u))

end Decide

/-- A file on every tier. -/
def replicated : World := Request.serve sampleSha256 [(.replayWal, fun _ => 0)] Request.written

theorem replicated_agrees : BitsAgree (· = [1]) replicated Request.sampleFile :=
  ⟨⟨1, 1, sampleSha256 [1], .all, false⟩, by decide, by decide⟩

/-- A promotion reads its file, an eviction removes the local copy, and the promotion stores
it again and looks up the row. -/
def orderlySchedule : List (Bool × Choice) :=
  .replicate 3 (false, .quiet 0) ++ .replicate 3 (true, .quiet 0) ++ .replicate 3 (false, .quiet 0)

theorem orderly_bits_agree :
    let jobs (i : Bool) : Job := if i then .evict .localDisk else .promote
    BitsAgree (· = [1]) (Pool.run perform orderlySchedule
      (background Request.sampleFile jobs replicated)).world Request.sampleFile :=
  tier_bits_agree (· = [1]) replicated Request.sampleFile _ ⟨1, 1, sampleSha256 [1], .all, false⟩
    (by decide) (fun i => by cases i <;> trivial) replicated_agrees orderlySchedule
    (Pool.Along.mono (fun _ _ _ _ orderly => Orderly.careful orderly) (by decide)) (by decide)

/-- Two evictions read the same bitmask, and the second brings back the first one's bit. -/
def crossedEvictions : List (Bool × Choice) :=
  [true, false, true, true, false, false].map (·, .quiet 0)

theorem lost_tier_bit :
    let p := Request.sampleFile.val
    let jobs (i : Bool) : Job := .evict (if i then .localDisk else .nas)
    let pool := Pool.run perform crossedEvictions (background p jobs replicated)
    BitsAgree (· = [1]) replicated p ∧ (∀ i, Pool.Returned (pool.threads i)) ∧
      pool.world.tiers .localDisk p = none ∧
      (pool.world.store.rowState p).map (·.tierBitmask.has .localDisk) = some true ∧
      ∀ isFile, ¬BitsAgree isFile pool.world p := by
  intro p jobs pool
  have gone : pool.world.tiers .localDisk p = none := by decide
  have set : (pool.world.store.rowState p).map (·.tierBitmask.has .localDisk) = some true := by
    decide
  refine ⟨replicated_agrees, by decide, gone, set, ?_⟩
  rintro isFile ⟨x, row, agree⟩
  rw [row] at set
  obtain ⟨b, there, -⟩ := (agree .localDisk).mp (Option.some.inj set)
  nomatch gone.symm.trans there

end Fvfs
