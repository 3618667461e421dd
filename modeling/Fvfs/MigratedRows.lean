import Fvfs.LocalDisk
import Fvfs.Migrate

/-! Migrated rows under the daemon that serves them: the tiers it mounts lie under the
configured roots, while the rows' bits come from the source trees. -/
namespace Fvfs

open Lib
open Lib.UnixPath (Component components)
open LocalDiskBackend (fsPath)

/-- The host's files by the components of their paths, and the configuration of the tiers. -/
structure Deployment where
  host : List Component → Option Bytes
  localRoot : Text
  nasRoot : Text
  s3 : FvfsPath → Option Bytes
  store : Store

namespace Deployment

/-- What the backends of `fvfsd serve` find. -/
def world (d : Deployment) : World where
  tiers
    | .localDisk, p => d.host (components (fsPath d.localRoot p))
    | .nas, p => d.host (components (fsPath d.nasRoot p))
    | .s3, p => d.s3 p
  store := d.store
  promotions := []

end Deployment

/-- The crawl of a source root reads the host's files. -/
def Listed (host : List Component → Option Bytes) (root : Text) (t : Tier) (tree : Dir) : Prop :=
  ∀ f ∈ Migrate.crawl t tree, ∃ data, f.source.content = .ok data ∧
    host (components root ++ f.names.map fun name => .normal name.text) = some data

namespace Migrate

section

variable (sha256 : Bytes → Text) (localTree nasTree : Dir) (env : Nat → Choice)

/-- The uploads and rows of a run. -/
def runEffects : List Effect := effects (dedup [] (results sha256 localTree nasTree)).1 env

/-- The file whose row the run leaves at the path. -/
def Recorded (p : FvfsPath) (f : Hashed) : Prop :=
  lastRow (runEffects sha256 localTree nasTree env) p = some f

end

/-- Every tier the row names holds the bytes, and a daemon started afterwards reads them. -/
structure Usable (w : World) (p : FvfsPath) (data : Bytes) : Prop where
  bits : ∃ x, w.store.rowState p = some x ∧ ∀ t, x.tierBitmask.has t = true →
    w.tiers t p = some data
  reads : ∀ clock : Nat → Int,
    ((Router.read p).exec perform (fun i => .quiet (clock i)) w.restart).1 = .ok data

variable {sha256 : Bytes → Text} {localTree nasTree : Dir} {env : Nat → Choice}

theorem recorded_file {p : FvfsPath} {f : Hashed}
    (recorded : Recorded sha256 localTree nasTree env p f) :
    f ∈ results sha256 localTree nasTree ∧ vfsPath f = .ok p ∧ ∃ data,
      f.source.content = .ok data ∧
        .object p data ∈ runEffects sha256 localTree nasTree env := by
  obtain ⟨unique, path, stored⟩ := lastRow_mem recorded
  exact ⟨List.mem_of_find?_eq_some (mem_dedup.mp unique).2, path, stored⟩

theorem tier_of_mem_collect {t : Tier} {tree : Dir} {above : List FileName} {files : List Found}
    (found : collectRecursive t above tree = .ok files) : ∀ f ∈ files, f.tier = t := by
  induction tree generalizing above files with
  | done =>
    obtain rfl : [] = files := Except.ok.inj found
    simp
  | broken error => contradiction
  | file name source rest ih =>
    cases later : collectRecursive t above rest with
    | error e => simp [collectRecursive, later, bind, Except.bind] at found
    | ok others =>
      simp only [collectRecursive, later, bind, Except.bind, Except.ok.injEq] at found
      subst found
      simpa using ih later
  | folder name inner rest ih_inner ih =>
    cases below : collectRecursive t (above ++ [name]) inner with
    | error e => simp [collectRecursive, below, bind, Except.bind] at found
    | ok first =>
      cases later : collectRecursive t above rest with
      | error e => simp [collectRecursive, below, later, bind, Except.bind] at found
      | ok others =>
        simp only [collectRecursive, below, later, bind, Except.bind, Except.ok.injEq] at found
        subst found
        intro f member
        rcases List.mem_append.mp member with inside | inside
        · exact ih_inner below f inside
        · exact ih later f inside
  | other rest ih => exact ih found

/-- A crawled file carries the tier of the root it was found under. -/
theorem tier_of_mem_crawl {t : Tier} {tree : Dir} {f : Found} (member : f ∈ crawl t tree) :
    f.tier = t := by
  unfold crawl at member
  split at member
  next files found => exact tier_of_mem_collect found f member
  next => cases member

theorem mem_results {f : Hashed} (member : f ∈ results sha256 localTree nasTree) :
    f.toFound ∈ crawl .localDisk localTree ∨ f.toFound ∈ crawl .nas nasTree := by
  obtain ⟨g, inside, made⟩ := List.mem_filterMap.mp member
  unfold hashFile at made
  split at made
  next data hashed =>
    obtain rfl := Option.some.inj made
    exact List.mem_append.mp inside
  next => contradiction

theorem tier_ne_s3 {f : Hashed} (member : f ∈ results sha256 localTree nasTree) :
    f.tier ≠ .s3 := by
  rcases mem_results member with found | found
  · simp [tier_of_mem_crawl found]
  · simp [tier_of_mem_crawl found]

/-- Where the final world stands at a path the run left a row at. -/
theorem final_row (w : World) {p : FvfsPath} {f : Hashed}
    (recorded : Recorded sha256 localTree nasTree env p f) :
    ∃ id, (((runMigration sha256 localTree nasTree).exec perform env w).2).store.rowState p =
      some (rowOf f id) := by
  rw [exec_runMigration]
  have rows := rowState_effects (runEffects sha256 localTree nasTree env) w p
  rwa [show lastRow (runEffects sha256 localTree nasTree env) p = some f from recorded] at rows

theorem final_tiers (w : World) (t : Tier) (p : FvfsPath) :
    (((runMigration sha256 localTree nasTree).exec perform env w).2).tiers t p =
      if t = .s3 then (lastObject (runEffects sha256 localTree nasTree env) p).or (w.tiers .s3 p)
      else w.tiers t p := by
  rw [exec_runMigration]
  exact tiers_effects _ w t p

theorem rowOf_has (f : Hashed) (id : Nat) (t : Tier) :
    (rowOf f id).tierBitmask.has t = true ↔ t = f.tier ∨ t = .s3 := by simp [rowOf]

/-- A daemon started on a world whose row for a migrated file tells the truth reads it. -/
theorem reads_of_row {w : World} {p : FvfsPath} {f : Hashed} {id : Nat} {data : Bytes}
    (row : w.store.rowState p = some (rowOf f id))
    (held : ∀ t, (rowOf f id).tierBitmask.has t = true → w.tiers t p = some data)
    (clock : Nat → Int) :
    ((Router.read p).exec perform (fun i => .quiet (clock i)) w.restart).1 = .ok data := by
  have row' : w.restart.store.rowState p = some (rowOf f id) := row
  cases found : w.restart.store.get p with
  | none =>
    rw [Store.get_eq_none_iff.mp found] at row'
    contradiction
  | some m =>
    have here := Option.some.inj ((Store.rowState_of_get found).symm.trans row')
    have bits : m.tierBitmask = (rowOf f id).tierBitmask := congrArg Store.RowState.tierBitmask here
    have plain : m.isDir = false := congrArg Store.RowState.isDir here
    have somewhere : m.tierBitmask.has .s3 = true := by
      rw [bits]
      exact (rowOf_has f id _).mpr (Or.inr rfl)
    have runs := Router.quiet_readFile found plain ⟨_, somewhere⟩ (bits ▸ held)
    exact (Prog.exec_of_wp runs.faultless _ fun i => Choice.faultless_quiet (clock i)).1

/-- The row of a migrated file tells the truth about its tiers: the configured root of the
tier the file was found under holds its bytes, and no later put at the path left others. -/
def Truthful (sha256 : Bytes → Text) (localTree nasTree : Dir) (env : Nat → Choice)
    (d : Deployment) (p : FvfsPath) (f : Hashed) (data : Bytes) : Prop :=
  d.world.tiers f.tier p = some data ∧
    lastObject (runEffects sha256 localTree nasTree env) p = some data

theorem usable_of_truthful {d : Deployment} {p : FvfsPath} {f : Hashed} {data : Bytes}
    (recorded : Recorded sha256 localTree nasTree env p f)
    (truthful : Truthful sha256 localTree nasTree env d p f data) :
    Usable ((runMigration sha256 localTree nasTree).exec perform env d.world).2 p data := by
  obtain ⟨own, cold⟩ := truthful
  obtain ⟨id, row⟩ := final_row d.world recorded
  have held : ∀ t, (rowOf f id).tierBitmask.has t = true →
      ((runMigration sha256 localTree nasTree).exec perform env d.world).2.tiers t p =
        some data := by
    intro t bit
    rw [final_tiers]
    rcases (rowOf_has f id t).mp bit with rfl | rfl
    · simpa [tier_ne_s3 (recorded_file recorded).1] using own
    · simp [cold]
  exact ⟨⟨_, row, held⟩, reads_of_row row held⟩

/-- Every migrated row is usable exactly when every migrated row is truthful. -/
theorem migrated_usable_iff (sha256 : Bytes → Text) (localTree nasTree : Dir)
    (env : Nat → Choice) (d : Deployment) :
    (∀ p f data, Recorded sha256 localTree nasTree env p f → f.source.content = .ok data →
      Usable ((runMigration sha256 localTree nasTree).exec perform env d.world).2 p data) ↔
    ∀ p f data, Recorded sha256 localTree nasTree env p f → f.source.content = .ok data →
      Truthful sha256 localTree nasTree env d p f data := by
  constructor
  · intro usable p f data recorded content
    obtain ⟨x, row, held⟩ := (usable p f data recorded content).bits
    obtain ⟨id, row'⟩ := final_row d.world recorded
    obtain rfl := Option.some.inj (row'.symm.trans row)
    have own := held f.tier ((rowOf_has f id _).mpr (Or.inl rfl))
    have cold := held .s3 ((rowOf_has f id _).mpr (Or.inr rfl))
    rw [final_tiers] at own cold
    obtain ⟨-, -, sent, -, stored⟩ := recorded_file recorded
    obtain ⟨copy, last⟩ := lastObject_of_mem stored
    constructor
    · simpa [tier_ne_s3 (recorded_file recorded).1] using own
    · simpa [last] using cold
  · exact fun truthful p f data recorded content =>
      usable_of_truthful recorded (truthful p f data recorded content)

/-- Names without backslashes stay the components of the path. -/
theorem vfsPath_of_plain {f : Hashed} {p : FvfsPath} (path : vfsPath f = .ok p)
    (plain : '\\' ∉ ['/'].intercalate (f.names.map FileName.text)) :
    p = ⟨FvfsPath.render (f.names.map FileName.text)⟩ := by
  have kept : relative f = ['/'].intercalate (f.names.map FileName.text) := by
    unfold relative
    rw [List.map_congr_left (g := id), List.map_id]
    intro c member
    have other : c ≠ '\\' := fun same => plain (same ▸ member)
    simp [other]
  have valid : ∀ part ∈ f.names.map FileName.text, FvfsPath.Segment part := by
    intro part member
    obtain ⟨name, -, rfl⟩ := List.mem_map.mp member
    exact name.valid
  have rendered : '/' :: relative f = FvfsPath.render (f.names.map FileName.text) := by
    rw [kept]
    unfold FvfsPath.render
    split
    next none_left => simp [none_left]
    next => rfl
  unfold vfsPath at path
  rw [rendered] at path
  have canonical : FvfsPath.Canonical ⟨FvfsPath.render (f.names.map FileName.text)⟩ :=
    ⟨_, valid, rfl⟩
  exact Except.ok.inj (path.symm.trans (FvfsPath.new_of_canonical canonical))

/-- Where the sources are the configured roots, as they are unless the command line says
otherwise, and no step fails, every migrated row is usable. -/
theorem default_sources_usable (d : Deployment)
    (listed : Listed d.host d.localRoot .localDisk localTree)
    (listed' : Listed d.host d.nasRoot .nas nasTree)
    (plain : ∀ f ∈ results sha256 localTree nasTree,
      '\\' ∉ ['/'].intercalate (f.names.map FileName.text))
    (quiet : ∀ i, (env i).Faultless) {p : FvfsPath} {f : Hashed} {data : Bytes}
    (recorded : Recorded sha256 localTree nasTree env p f) (content : f.source.content = .ok data) :
    Usable ((runMigration sha256 localTree nasTree).exec perform env d.world).2 p data := by
  obtain ⟨member, path, -⟩ := recorded_file recorded
  obtain rfl := vfsPath_of_plain path (plain f member)
  have valid : ∀ part ∈ f.names.map FileName.text, FvfsPath.Segment part := by
    intro part inside
    obtain ⟨name, -, rfl⟩ := List.mem_map.mp inside
    exact name.valid
  have place (root : Text) :
      components (fsPath root ⟨FvfsPath.render (f.names.map FileName.text)⟩) =
      components root ++ f.names.map fun name => .normal name.text := by
    rw [LocalDiskBackend.components_fsPath root valid, List.map_map]
    rfl
  refine usable_of_truthful recorded ⟨?_, lastObject_of_lastRow quiet recorded content⟩
  rcases mem_results member with found | found
  · obtain ⟨copy, same, held⟩ := listed _ found
    obtain rfl := Except.ok.inj (same.symm.trans content)
    rw [tier_of_mem_crawl found]
    exact (congrArg d.host (place d.localRoot)).trans held
  · obtain ⟨copy, same, held⟩ := listed' _ found
    obtain rfl := Except.ok.inj (same.symm.trans content)
    rw [tier_of_mem_crawl found]
    exact (congrArg d.host (place d.nasRoot)).trans held

/-- A source directory beside the configured NAS root. -/
def nasSource : Text := "/Volumes/NAS/data".toList

def sampleHost (path : List Component) : Option Bytes :=
  if path = components (nasSource ++ "/a".toList) then some [1] else none

def sampleDeployment : Deployment :=
  ⟨sampleHost, "/srv/fvfs".toList, "/Volumes/NAS/fvfs".toList, fun _ => none, .empty⟩

def nasFile : Dir := .file fileA (plain [1]) .done

/-- The row of a file found on the NAS, but not under the configured root, names a tier
that does not have it. -/
theorem foreign_source_unusable :
    ¬∀ (localSource nasSource : Text) (localTree nasTree : Dir) (env : Nat → Choice)
      (d : Deployment), Listed d.host localSource .localDisk localTree →
      Listed d.host nasSource .nas nasTree → (∀ i, (env i).Faultless) →
      ∀ p f data, Recorded Router.sampleSha256 localTree nasTree env p f →
        f.source.content = .ok data →
        Usable ((runMigration Router.sampleSha256 localTree nasTree).exec perform env d.world).2 p
          data := by
  intro claimed
  have listed : Listed sampleHost nasSource .nas nasFile := by
    intro f member
    obtain rfl : f = ⟨.nas, [fileA], plain [1]⟩ := by
      simpa [crawl, nasFile, collectRecursive, bind, Except.bind] using member
    exact ⟨[1], rfl, by decide⟩
  have usable := claimed "/Users/me".toList nasSource .done nasFile (fun _ => .quiet 0)
    sampleDeployment (by simp [Listed, crawl, collectRecursive]) listed (fun _ => rfl)
    ⟨['/', 'a']⟩ ⟨⟨.nas, [fileA], plain [1]⟩, Router.sampleSha256 [1], 1⟩ [1] rfl rfl
  have answer := usable.reads fun _ => 0
  revert answer
  decide

end Migrate

end Fvfs
