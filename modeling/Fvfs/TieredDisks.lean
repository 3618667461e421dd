import Fvfs.DiskBackend
import Fvfs.PathDiscipline
import Fvfs.PathTree

/-! The daemon over two directories of the host. What the files in them are to the tiers, and
that every step there is a step of the model in which a tier is a map from paths to contents. -/
namespace Fvfs

open Lib
open Lib.UnixPath (Component components)
open Function (update)
open LocalDiskBackend (fsPath)

/-- Where the local disk and the NAS keep their files: two directories, neither in the other. -/
structure DiskRoots where
  localDisk : Text
  nas : Text
  nas_outside : ¬components localDisk <+: components nas
  local_outside : ¬components nas <+: components localDisk

namespace DiskRoots

def of (roots : DiskRoots) : Tier → Option Text
  | .localDisk => some roots.localDisk
  | .nas => some roots.nas
  | .s3 => none

variable {roots : DiskRoots} {t u : Tier} {root other : Text} {p q : FvfsPath}

theorem tier_of_begins (at_t : roots.of t = some root) (at_u : roots.of u = some other)
    (begins : components root <+: components other) : t = u := by
  cases t <;> cases u <;> simp only [of, Option.some.injEq, reduceCtorEq] at at_t at_u <;>
    subst at_t at_u
  · rfl
  · exact absurd begins roots.nas_outside
  · exact absurd begins roots.local_outside
  · rfl

end DiskRoots

namespace LocalDiskBackend

theorem components_fsPath_canonical {p : FvfsPath} (root : Text) (canonical : p.Canonical) :
    components (fsPath root p) = components root ++ p.segments.map .normal := by
  obtain ⟨valid, shape⟩ := canonical.eq_render
  rw [shape, FvfsPath.segments_render valid]
  exact components_fsPath root valid

end LocalDiskBackend

namespace DiskRoots

variable {roots : DiskRoots} {t u : Tier} {root other : Text} {p q : FvfsPath}

/-- One path lies above another where it does in the same tier. -/
theorem prefix_iff (at_t : roots.of t = some root) (at_u : roots.of u = some other)
    (canonical : p.Canonical) (also : q.Canonical) :
    components (fsPath root p) <+: components (fsPath other q) ↔
      t = u ∧ p.segments <+: q.segments := by
  rw [LocalDiskBackend.components_fsPath_canonical root canonical,
    LocalDiskBackend.components_fsPath_canonical other also]
  have injective : Function.Injective Component.normal := fun a b => Component.normal.inj
  constructor
  · intro begins
    have same : t = u := by
      rcases List.prefix_or_prefix_of_prefix ((List.prefix_append ..).trans begins)
        (List.prefix_append (components other) (q.segments.map .normal)) with above | below
      · exact tier_of_begins at_t at_u above
      · exact (tier_of_begins at_u at_t below).symm
    subst same
    obtain rfl := Option.some.inj (at_t.symm.trans at_u)
    rw [List.prefix_append_right_inj] at begins
    exact ⟨rfl, (List.prefix_map_iff_of_injective injective).mp begins⟩
  · rintro ⟨rfl, begins⟩
    obtain rfl := Option.some.inj (at_t.symm.trans at_u)
    exact (List.prefix_append_right_inj _).mpr (begins.map _)

/-- Every path has a place of its own in each tier. -/
theorem place_inj (at_t : roots.of t = some root) (at_u : roots.of u = some other)
    (canonical : p.Canonical) (also : q.Canonical) :
    components (fsPath root p) = components (fsPath other q) ↔ t = u ∧ p = q := by
  constructor
  · intro same
    obtain ⟨tier, below⟩ := (prefix_iff at_t at_u canonical also).mp (same ▸ List.prefix_rfl)
    obtain ⟨-, above⟩ := (prefix_iff at_u at_t also canonical).mp (same ▸ List.prefix_rfl)
    refine ⟨tier, ?_⟩
    rw [canonical.eq_render.2, also.eq_render.2, below.eq_of_length_le above.length_le]
  · rintro ⟨rfl, rfl⟩
    rw [Option.some.inj (at_t.symm.trans at_u)]

end DiskRoots

/-- The host's file system, and all the rest. -/
structure DiskWorld where
  host : Host.Tree
  rest : World

/-- The environment's part in one step, and in each call it makes of the host. -/
structure DiskChoice where
  step : Choice
  host : Nat → HostChance

namespace DiskWorld

def onHost (task : LocalDiskBackend.HostTask α) (c : DiskChoice) (d : DiskWorld) :
    Outcome α × DiskWorld :=
  let (r, host) := task.exec Host.respond c.host d.host
  (r, { d with host })

/-- A step that touches no directory. -/
def elsewhere (op : Step) (c : DiskChoice) (d : DiskWorld) : op.Res × DiskWorld :=
  let (r, rest) := perform op c.step d.rest
  (r, { d with rest })

/-- What the tiers hold. -/
def world (roots : DiskRoots) (d : DiskWorld) : World where
  tiers t p :=
    match roots.of t with
    | some root => if p.Canonical then d.host.content (components (fsPath root p)) else none
    | none => d.rest.tiers t p
  store := d.rest.store
  promotions := d.rest.promotions

def restart (d : DiskWorld) : DiskWorld := { d with rest := d.rest.restart }

end DiskWorld

/-- Each backend call runs as a whole. -/
def performOnDisks (roots : DiskRoots) : Handler Sys DiskWorld DiskChoice
  | .put t p data, c, d =>
    match roots.of t with
    | some root => d.onHost (LocalDiskBackend.put root p data) c
    | none => d.elsewhere (.put t p data) c
  | .get t p, c, d =>
    match roots.of t with
    | some root => d.onHost (LocalDiskBackend.get root p) c
    | none => d.elsewhere (.get t p) c
  | .delete t p, c, d =>
    match roots.of t with
    | some root => d.onHost (LocalDiskBackend.delete root p) c
    | none => d.elsewhere (.delete t p) c
  | op, c, d => d.elsewhere op c

def answerOnDisks : Handler Queries DiskWorld DiskChoice := fun op c d =>
  let (r, rest) := answer op c.step d.rest
  (r, { d with rest })

section World

variable {roots : DiskRoots} {d : DiskWorld} {t : Tier} {root : Text} {p : FvfsPath}

theorem world_tiers (at_t : roots.of t = some root) (canonical : p.Canonical) :
    (d.world roots).tiers t p = d.host.content (components (fsPath root p)) := by
  simp [DiskWorld.world, at_t, canonical]

theorem world_tiers_elsewhere (apart : roots.of t = none) :
    (d.world roots).tiers t p = d.rest.tiers t p := by
  simp [DiskWorld.world, apart]

/-- A file changed in a directory is an object changed in its tier. -/
theorem world_update (at_t : roots.of t = some root) (canonical : p.Canonical) {host : Host.Tree}
    {x : Option Bytes}
    (changed : host.content = update d.host.content (components (fsPath root p)) x) :
    ({ d with host } : DiskWorld).world roots = (d.world roots).setObject t p x := by
  have tiers : (({ d with host } : DiskWorld).world roots).tiers =
      ((d.world roots).setObject t p x).tiers := by
    funext u q
    rw [World.setObject_tiers]
    cases at_u : roots.of u with
    | none =>
      have apart : ¬(u = t ∧ q = p) := by
        rintro ⟨rfl, rfl⟩
        simp [at_t] at at_u
      simp [DiskWorld.world, at_u, apart]
    | some other =>
      by_cases also : q.Canonical
      · rw [world_tiers at_u also, world_tiers at_u also, changed]
        by_cases here : u = t ∧ q = p
        · rw [(DiskRoots.place_inj at_u at_t also canonical).mpr here, Function.update_self,
            if_pos here]
        · rw [Function.update_of_ne, if_neg here]
          exact fun same => here ((DiskRoots.place_inj at_u at_t also canonical).mp same)
      · have apart : ¬(u = t ∧ q = p) := fun here => also (here.2 ▸ canonical)
        simp [DiskWorld.world, at_u, also, apart]
  exact congrArg (fun tiers => (⟨tiers, d.rest.store, d.rest.promotions⟩ : World)) tiers

theorem world_setObject_elsewhere (apart : roots.of t = none) (p : FvfsPath) (x : Option Bytes) :
    ({ d with rest := d.rest.setObject t p x } : DiskWorld).world roots =
      (d.world roots).setObject t p x := by
  have tiers : (({ d with rest := d.rest.setObject t p x } : DiskWorld).world roots).tiers =
      ((d.world roots).setObject t p x).tiers := by
    funext u q
    rw [World.setObject_tiers]
    cases at_u : roots.of u with
    | none =>
      rw [world_tiers_elsewhere at_u, world_tiers_elsewhere at_u]
      exact World.setObject_tiers u q
    | some other =>
      have other_tier : u ≠ t := by
        rintro rfl
        simp [apart] at at_u
      simp [DiskWorld.world, at_u, other_tier]
  exact congrArg (fun tiers => (⟨tiers, d.rest.store, d.rest.promotions⟩ : World)) tiers

theorem world_host {host : Host.Tree} (same : host.content = d.host.content) :
    ({ d with host } : DiskWorld).world roots = d.world roots := by
  simp [DiskWorld.world, same]

/-- The steps that touch no directory. -/
def Step.Elsewhere (roots : DiskRoots) : Step → Prop
  | put t _ _ => roots.of t = none
  | get t _ => roots.of t = none
  | delete t _ => roots.of t = none
  | _ => True

theorem statement_world (c : Choice) (answer : α) (s : Store) :
    statement c (d.world roots) answer s = ((statement c d.rest answer s).1,
      ({ d with rest := (statement c d.rest answer s).2 } : DiskWorld).world roots) := by
  unfold statement
  cases c.fault <;> rfl

/-- Such a step does the same to the world the disks stand for. -/
theorem perform_elsewhere {op : Step} (apart : op.Elsewhere roots) (c : DiskChoice) :
    performOnDisks roots op c d = d.elsewhere op c ∧
    perform op c.step (d.world roots) =
      ((d.elsewhere op c).1, (d.elsewhere op c).2.world roots) := by
  cases op with
  | put t p data =>
    have apart : roots.of t = none := apart
    refine ⟨by simp only [performOnDisks, apart], ?_⟩
    simp only [DiskWorld.elsewhere, perform, putObject]
    cases c.step.fault with
    | none => simp only [world_setObject_elsewhere apart]
    | some e =>
      cases c.step.torn with
      | none => rfl
      | some n => simp only [world_setObject_elsewhere apart]
  | get t p =>
    have apart : roots.of t = none := apart
    refine ⟨by simp only [performOnDisks, apart], ?_⟩
    simp only [DiskWorld.elsewhere, perform, getObject, world_tiers_elsewhere apart]
    cases c.step.fault with
    | some e => rfl
    | none => cases d.rest.tiers t p <;> rfl
  | delete t p =>
    have apart : roots.of t = none := apart
    refine ⟨by simp only [performOnDisks, apart], ?_⟩
    simp only [DiskWorld.elsewhere, perform, deleteObject, world_tiers_elsewhere apart]
    cases c.step.fault with
    | some e => rfl
    | none =>
      by_cases there : (d.rest.tiers t p).isSome ∨ t = .s3
      · simp only [there, if_true, world_setObject_elsewhere apart]
      · simp only [there, if_false]
  | walEnqueue fileId op =>
    refine ⟨rfl, ?_⟩
    have store : (d.world roots).store = d.rest.store := rfl
    simp only [DiskWorld.elsewhere, perform, enqueueEntry, store]
    cases d.rest.store.walEnqueue fileId op c.step.clock with
    | error e => rfl
    | ok answer => exact statement_world c.step answer.1 answer.2
  | now | sendPromote signal | recvPromote => exact ⟨rfl, rfl⟩
  | metaGet | metaGetById | upsert | setTierBitmask | recordAccess | metaDelete | walComplete
  | walRecordFailure | walPending => exact ⟨rfl, statement_world c.step _ _⟩

theorem answer_world (op : Query) (c : DiskChoice) :
    answer op c.step (d.world roots) =
      ((answerOnDisks op c d).1, (answerOnDisks op c d).2.world roots) := by
  cases op <;> exact statement_world c.step _ _

end World

section Simulation

variable {roots : DiskRoots} {files : FvfsPath → Prop} {d : DiskWorld} {t : Tier} {root : Text}
  {p : FvfsPath}

/-- Whatever the host does to a call, the model can do to the step. -/
theorem performOnDisks_flat (canonical : ∀ p, files p → p.Canonical) {op : Step}
    (asks : (disciplined files).pre op ()) (c : DiskChoice) :
    ∃ choice, perform op choice (d.world roots) =
      ((performOnDisks roots op c d).1, (performOnDisks roots op c d).2.world roots) := by
  by_cases apart : op.Elsewhere roots
  · obtain ⟨run, same⟩ := perform_elsewhere (d := d) apart c
    exact ⟨c.step, by rw [run, same]⟩
  cases op with
  | put t p data =>
    obtain ⟨root, at_t⟩ := Option.ne_none_iff_exists'.mp apart
    simp only [performOnDisks, at_t, DiskWorld.onHost]
    have outcome := Prog.exec_of_wp (LocalDiskBackend.wp_put root p data d.host) c.host
      fun _ => trivial
    revert outcome
    generalize (LocalDiskBackend.put root p data).exec Host.respond c.host d.host = run
    obtain ⟨r, host⟩ := run
    rintro (⟨rfl, stored⟩ | ⟨e, rfl, same | ⟨n, torn⟩⟩)
    · refine ⟨.quiet 0, ?_⟩
      rw [world_update at_t (canonical p asks) stored]
      rfl
    · refine ⟨⟨0, some e, none⟩, ?_⟩
      rw [world_host same]
      rfl
    · refine ⟨⟨0, some e, some n⟩, ?_⟩
      rw [world_update at_t (canonical p asks) torn]
      rfl
  | get t p =>
    obtain ⟨root, at_t⟩ := Option.ne_none_iff_exists'.mp apart
    simp only [performOnDisks, at_t, DiskWorld.onHost]
    rcases @LocalDiskBackend.exec_get c.host d.host root p with
      ⟨data, there, run⟩ | ⟨e, -, run⟩
    · rw [run]
      refine ⟨.quiet 0, ?_⟩
      rw [← world_tiers at_t asks] at there
      simp [perform, getObject, there, Choice.quiet]
    · rw [run]
      exact ⟨⟨0, some e, none⟩, rfl⟩
  | delete t p =>
    obtain ⟨root, at_t⟩ := Option.ne_none_iff_exists'.mp apart
    simp only [performOnDisks, at_t, DiskWorld.onHost]
    rcases @LocalDiskBackend.exec_delete c.host d.host root p with
      ⟨there, run⟩ | ⟨e, -, run⟩
    · rw [run]
      refine ⟨.quiet 0, ?_⟩
      rw [world_update at_t asks (DirTree.content_remove there)]
      rw [← world_tiers at_t asks] at there
      simp [perform, deleteObject, there, Choice.quiet]
    · rw [run]
      exact ⟨⟨0, some e, none⟩, rfl⟩
  | _ => exact absurd trivial apart

/-- What the disks stand for, in the model without directories. -/
def Backs (roots : DiskRoots) (files : FvfsPath → Prop) (d : DiskWorld) (w : World) : Prop :=
  w = d.world roots ∧ Tame files w

theorem disks_simulate (canonical : ∀ p, files p → p.Canonical) :
    Simulates (performOnDisks roots) (fun _ => True) perform (fun _ => True) (disciplined files)
      (Backs roots files) := by
  rintro op c d _ - ⟨rfl, tame⟩ asks
  obtain ⟨choice, run⟩ := performOnDisks_flat (d := d) canonical asks c
  have told := tame.told op choice
  rw [run] at told
  exact ⟨choice, trivial, congrArg Prod.fst run, told, congrArg Prod.snd run,
    tame.perform asks choice⟩

theorem answers_simulate :
    Simulates answerOnDisks (fun _ => True) answer (fun _ => True) disciplinedQueries
      (Backs roots files) := by
  rintro op c d _ - ⟨rfl, tame⟩ asks
  obtain ⟨⟨⟩, told, kept⟩ := answer_disciplined op c.step _ () trivial tame asks
  have run := @answer_world roots d op c
  rw [run] at told
  refine ⟨c.step, trivial, ?_, told, ?_, kept⟩
  · rw [run]
  · rw [run]

end Simulation

/-- Names for files: none is the root, and none lies below another. -/
structure FileNames (files : FvfsPath → Prop) : Prop where
  canonical : ∀ p, files p → p.Canonical
  proper : ∀ p, files p → p ≠ .root
  apart : ∀ p q, files p → files q → p.isPrefixOf q = true → p = q

/-- The two directories exist or can be made, and no directory is in the place of a file. -/
structure Laid (roots : DiskRoots) (files : FvfsPath → Prop) (host : Host.Tree) : Prop where
  clear : ∀ t root, roots.of t = some root → ¬host.Blocked (components root)
  plain : ∀ t root p, roots.of t = some root → files p →
    host.entry (components (fsPath root p)) ≠ some .dir

namespace DiskChoice

def Reliable (c : DiskChoice) : Prop := c.step.Faultless ∧ ∀ i, (c.host i).Reliable

def quiet (clock : Int) : DiskChoice := ⟨.quiet clock, fun _ => ⟨none, 0⟩⟩

theorem reliable_quiet (clock : Int) : (quiet clock).Reliable := ⟨rfl, fun _ => rfl⟩

end DiskChoice

section Reliable

variable {roots : DiskRoots} {files : FvfsPath → Prop} {d : DiskWorld} {t : Tier} {root : Text}
  {p : FvfsPath}

theorem FileNames.segments (names : FileNames files) (owned : files p) : p.segments ≠ [] := by
  intro top
  have shape := (names.canonical p owned).eq_render.2
  rw [top] at shape
  exact names.proper p owned shape

/-- Nothing lies where the directories of a file go. -/
theorem Laid.above_clear (laid : Laid roots files d.host) (names : FileNames files)
    (tame : Tame files (d.world roots)) (at_t : roots.of t = some root) (owned : files p) :
    ¬d.host.Blocked (components root ++ p.segments.dropLast.map .normal) := by
  rintro ⟨above, begins, used⟩
  rcases List.prefix_or_prefix_of_prefix begins (List.prefix_append ..) with outside | inside
  · exact laid.clear t root at_t ⟨above, outside, used⟩
  obtain ⟨rest, rfl⟩ := inside
  rw [List.prefix_append_right_inj, List.prefix_map_iff] at begins
  obtain ⟨parts, begins, rfl⟩ := begins
  -- The file above the directories would be one of the clients' own.
  have valid := (names.canonical p owned).eq_render.1
  have within : parts <+: p.segments := begins.trans (List.dropLast_prefix _)
  have valid' : ∀ part ∈ parts, FvfsPath.Segment part := fun part member =>
    valid part (within.subset member)
  have canonical : FvfsPath.Canonical ⟨FvfsPath.render parts⟩ := ⟨parts, valid', rfl⟩
  rw [← LocalDiskBackend.components_fsPath root valid', ← world_tiers at_t canonical] at used
  have other := tame.objects t _ used
  have same := names.apart _ p other owned
    ((FvfsPath.isPrefixOf_iff canonical (names.canonical p owned)).mpr
      (by rwa [FvfsPath.segments_render valid']))
  have segments := congrArg FvfsPath.segments same
  rw [FvfsPath.segments_render valid'] at segments
  have shorter := begins.length_le
  have some_part := List.length_pos_iff.mpr (names.segments owned)
  rw [segments, List.length_dropLast] at shorter
  omega

/-- Making the directories above a file puts none in the place of a file. -/
theorem Laid.mkdirs {host : Host.Tree} (laid : Laid roots files host) (names : FileNames files)
    (at_t : roots.of t = some root) (owned : files p)
    (clear : ¬host.Blocked (components root ++ p.segments.dropLast.map .normal)) :
    Laid roots files (host.mkdirs _ clear) := by
  have above : components root ++ p.segments.dropLast.map .normal <+:
      components (fsPath root p) := by
    rw [LocalDiskBackend.components_fsPath_canonical root (names.canonical p owned),
      List.prefix_append_right_inj]
    exact (List.dropLast_prefix _).map _
  constructor
  · intro u other at_u
    unfold DirTree.Blocked
    rw [DirTree.content_mkdirs]
    exact laid.clear u other at_u
  · intro u other q at_u also made
    by_cases begins : components (fsPath other q) <+:
        components root ++ p.segments.dropLast.map .normal
    · obtain ⟨rfl, segments⟩ := (DiskRoots.prefix_iff at_u at_t (names.canonical q also)
        (names.canonical p owned)).mp (begins.trans above)
      obtain rfl := names.apart q p also owned
        ((FvfsPath.isPrefixOf_iff (names.canonical q also) (names.canonical p owned)).mpr segments)
      obtain rfl := Option.some.inj (at_t.symm.trans at_u)
      rw [LocalDiskBackend.components_fsPath_canonical root (names.canonical q also)] at begins
      have shorter := begins.length_le
      have some_part := List.length_pos_iff.mpr (names.segments owned)
      simp only [List.length_append, List.length_map, List.length_dropLast] at shorter
      omega
    · simp only [DirTree.mkdirs, begins, false_and, if_false] at made
      exact laid.plain u other q at_u also made

/-- A file set or removed is in no directory's way. -/
theorem Laid.update {host host' : Host.Tree} (laid : Laid roots files host) (names : FileNames files)
    (at_t : roots.of t = some root) (owned : files p) {x : Option (Entry Bytes)}
    (changed : host'.entry = update host.entry (components (fsPath root p)) x)
    (not_dir : x ≠ some .dir) : Laid roots files host' := by
  have canonical := names.canonical p owned
  constructor
  · rintro u other at_u ⟨above, begins, used⟩
    refine laid.clear u other at_u ⟨above, begins, ?_⟩
    have apart : above ≠ components (fsPath root p) := by
      rintro rfl
      rw [LocalDiskBackend.components_fsPath_canonical root canonical] at begins
      obtain rfl := DiskRoots.tier_of_begins at_t at_u ((List.prefix_append ..).trans begins)
      obtain rfl := Option.some.inj (at_t.symm.trans at_u)
      have shorter := begins.length_le
      have some_part := List.length_pos_iff.mpr (names.segments owned)
      simp only [List.length_append, List.length_map] at shorter
      omega
    simpa only [DirTree.content, changed, Function.update_of_ne apart] using used
  · intro u other q at_u also
    rw [changed]
    by_cases here : components (fsPath other q) = components (fsPath root p)
    · rwa [here, Function.update_self]
    · rw [Function.update_of_ne here]
      exact laid.plain u other q at_u also

/-- A put that the host does not fail stores the file. -/
theorem put_laid (laid : Laid roots files d.host) (names : FileNames files)
    (tame : Tame files (d.world roots)) (at_t : roots.of t = some root) (owned : files p)
    (data : Bytes) {env : Nat → HostChance} (reliable : ∀ i, (env i).Reliable) :
    ∃ host, (LocalDiskBackend.put root p data).exec Host.respond env d.host = (.ok (), host) ∧
      host.content = update d.host.content (components (fsPath root p)) (some data) ∧
      Laid roots files host := by
  have canonical := names.canonical p owned
  have clear := laid.above_clear names tame at_t owned
  obtain ⟨front, last, split⟩ :=
    (List.eq_nil_or_concat' p.segments).resolve_left (names.segments owned)
  have place : components (fsPath root p) =
      components root ++ p.segments.dropLast.map .normal ++ [.normal last] := by
    rw [LocalDiskBackend.components_fsPath_canonical root canonical, split, List.dropLast_concat,
      List.map_append, List.append_assoc]
    rfl
  have above : LocalDiskBackend.putDirectory root p =
      some (components root ++ p.segments.dropLast.map .normal) := by
    rw [LocalDiskBackend.putDirectory, place, UnixPath.parent_snoc]
  obtain ⟨host, run, entries⟩ := LocalDiskBackend.exec_put reliable data place above clear
    (place ▸ laid.plain t root p at_t owned)
  rw [← place] at entries
  refine ⟨host, run, ?_, (laid.mkdirs names at_t owned clear).update names at_t owned entries nofun⟩
  have outcome := Prog.exec_of_wp (LocalDiskBackend.wp_put root p data d.host) env fun _ => trivial
  rw [run] at outcome
  rcases outcome with ⟨-, stored⟩ | ⟨e, absurd, -⟩
  · exact stored
  · cases absurd

/-- Where the host fails no call, no step fails that can be done. -/
theorem performOnDisks_calm (names : FileNames files) (laid : Laid roots files d.host)
    (tame : Tame files (d.world roots)) {op : Step} (asks : (disciplined files).pre op ())
    {c : DiskChoice} (reliable : c.Reliable) :
    (∃ choice, calm op choice (d.world roots) =
      ((performOnDisks roots op c d).1, (performOnDisks roots op c d).2.world roots)) ∧
    Laid roots files (performOnDisks roots op c d).2.host := by
  by_cases apart : op.Elsewhere roots
  · obtain ⟨run, same⟩ := perform_elsewhere (d := d) apart c
    rw [run]
    exact ⟨⟨c.step, by rw [calm_faultless reliable.1, same]⟩, laid⟩
  cases op with
  | put t p data =>
    obtain ⟨root, at_t⟩ := Option.ne_none_iff_exists'.mp apart
    obtain ⟨host, run, stored, laid'⟩ := put_laid laid names tame at_t asks data reliable.2
    simp only [performOnDisks, at_t, DiskWorld.onHost, run]
    refine ⟨⟨.quiet 0, ?_⟩, laid'⟩
    rw [world_update at_t (names.canonical p asks) stored]
    rfl
  | get t p =>
    obtain ⟨root, at_t⟩ := Option.ne_none_iff_exists'.mp apart
    simp only [performOnDisks, at_t, DiskWorld.onHost]
    rcases @LocalDiskBackend.exec_get c.host d.host root p with
      ⟨data, there, run⟩ | ⟨e, faulty | absent, run⟩
    · rw [run]
      rw [← world_tiers at_t asks] at there
      refine ⟨⟨.quiet 0, ?_⟩, laid⟩
      rw [calm_faultless (Choice.faultless_quiet 0)]
      simp [perform, getObject, there, Choice.quiet]
    · exact absurd (reliable.2 0) faulty
    · rw [run]
      rw [← world_tiers at_t asks] at absent
      exact ⟨⟨⟨0, some e, none⟩, by simp [calm, Step.misses, absent, perform, getObject]⟩, laid⟩
  | delete t p =>
    obtain ⟨root, at_t⟩ := Option.ne_none_iff_exists'.mp apart
    simp only [performOnDisks, at_t, DiskWorld.onHost]
    rcases @LocalDiskBackend.exec_delete c.host d.host root p with
      ⟨there, run⟩ | ⟨e, faulty | absent, run⟩
    · rw [run]
      have used := there
      rw [← world_tiers at_t asks] at used
      refine ⟨⟨.quiet 0, ?_⟩, laid.update names at_t (tame.objects t p used) rfl (by simp)⟩
      rw [world_update at_t asks (DirTree.content_remove there),
        calm_faultless (Choice.faultless_quiet 0)]
      simp [perform, deleteObject, used, Choice.quiet]
    · exact absurd (reliable.2 0) faulty
    · rw [run]
      rw [← world_tiers at_t asks] at absent
      have warmer : t ≠ .s3 := by
        rintro rfl
        cases at_t
      refine ⟨⟨⟨0, some e, none⟩, ?_⟩, laid⟩
      simp [calm, Step.misses, absent, warmer, perform, deleteObject]
  | _ => exact absurd trivial apart

/-- The same where the directories are laid for the files. -/
def Hosts (roots : DiskRoots) (files : FvfsPath → Prop) (d : DiskWorld) (w : World) : Prop :=
  Backs roots files d w ∧ Laid roots files d.host

theorem disks_simulate_calm (names : FileNames files) :
    Simulates (performOnDisks roots) DiskChoice.Reliable calm (fun _ => True) (disciplined files)
      (Hosts roots files) := by
  rintro op c d _ reliable ⟨⟨rfl, tame⟩, laid⟩ asks
  obtain ⟨⟨choice, run⟩, laid'⟩ := performOnDisks_calm names laid tame asks reliable
  have told : (disciplined files).may op () (calm op choice (d.world roots)).1 () := tame.told op _
  have kept : Tame files (calm op choice (d.world roots)).2 := tame.perform asks _
  rw [run] at told
  exact ⟨choice, trivial, congrArg Prod.fst run, told, ⟨congrArg Prod.snd run, kept⟩, laid'⟩

end Reliable

end Fvfs
