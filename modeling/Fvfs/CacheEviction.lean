import Fvfs.Lib.FileTree
import Fvfs.Lib.Journal
import Fvfs.LocalCache

/-! Eviction from the client's cache, over any tree of cache files: what its two walks find,
which files it removes, and what is left. -/
namespace Fvfs

open Lib
open Lib.UnixPath (Component components)

/-- A directory of the cache: each file with its modification time and length. -/
abbrev CacheFolder := Folder Text FileStat

/-- The cache's own directory. -/
structure CacheTree where
  top : CacheFolder
  distinct : top.Distinct

/-- The bytes of all files. -/
def CacheFolder.bytes (t : CacheFolder) : Nat := (t.files.map fun x => x.2.2.toNat).sum

def fileName? : Component → Option Text
  | .normal name => some name
  | _ => none

/-- The path below the root, if the place lies there. -/
def Place.relative (root place : Place) : Option (List Text) :=
  (place.dropPrefix? root).bind fun rest => rest.mapM fileName?

def Place.within (root : Place) (path : List Text) : Place := root ++ path.map .normal

theorem relative_within (root : Place) (path : List Text) :
    Place.relative root (Place.within root path) = some path := by
  have rest : (Place.within root path).dropPrefix? root = some (path.map .normal) :=
    List.dropPrefix?_eq_some_iff.mpr ⟨root, rfl, by simp⟩
  rw [Place.relative, rest, Option.bind_some]
  induction path with
  | nil => rfl
  | cons name path ih =>
    have later : (path.map Component.normal).mapM fileName? = some path :=
      ih (List.dropPrefix?_eq_some_iff.mpr ⟨root, rfl, by simp⟩)
    simp [List.mapM_cons, fileName?, later]

theorem within_injective {root : Place} {path other : List Text}
    (same : Place.within root path = Place.within root other) : path = other := by
  have back := congrArg (Place.relative root) same
  rw [relative_within, relative_within] at back
  exact Option.some.inj back

/-- The file system while nothing but the eviction touches the cache. Directories are listed in
any order, and only a removal fails where nothing is wrong with its path. -/
def respondTree (root : Place) : Handler ClientSys CacheFolder Chance
  | .readDir dir, c, t =>
    (((Place.relative root dir).bind t.folderAt).map fun inner =>
      if c.names.Perm inner.names then c.names else inner.names, t)
  | .isDir path, _, t => (((Place.relative root path).bind t.folderAt).isSome, t)
  | .metadata path, _, t => ((Place.relative root path).bind t.fileAt, t)
  | .removeFile path, c, t =>
    if c.fault then (false, t)
    else match (Place.relative root path).bind t.remove with
      | some t' => (true, t')
      | none => (false, t)
  -- an eviction makes no other calls
  | .createDirAll _, _, t => (false, t)
  | .pathExists _, _, t => (false, t)
  | .create _, _, t => (none, t)
  | .write _ _ _, _, t => (none, t)
  | .openFile _, _, t => (none, t)
  | .read _ _, _, t => (none, t)
  | .stat _, _, t => (none, t)
  | .fetch _, c, t => (c.data, t)

namespace LocalCache

open ClientCall

/-- Where overflow is checked, a result that does not fit panics. -/
def checked (fits : Prop) [Decidable fits] (result : UInt64) : ClientTask UInt64 :=
  if fits then pure result else .fail .panicked

def totalChecked : UInt64 → List Entry → ClientTask UInt64
  | total, [] => pure total
  | total, entry :: entries => do
    let total ← checked (total.toNat + entry.size.toNat < 2 ^ 64) (total + entry.size)
    totalChecked total entries

def removeOldestChecked (used target : UInt64) : UInt64 → List Entry → ClientTask Unit
  | _, [] => pure ()
  | freed, entry :: entries => do
    let left ← checked (freed ≤ used) (used - freed)
    if left ≤ target then pure ()
    else if ← (removeFile entry.path).run then do
      let freed ← checked (freed.toNat + entry.size.toNat < 2 ^ 64) (freed + entry.size)
      removeOldestChecked used target freed entries
    else removeOldestChecked used target freed entries

def evictChecked (turns : Nat) (cache : LocalCache) : ClientTask Unit := do
  let entries ← walk turns [components cache.root] []
  let used ← totalChecked 0 entries
  if used ≤ cache.maxBytes then pure ()
  else
    let entries ← collectCacheFiles turns (components cache.root)
    let tripled ← checked (used.toNat * 3 < 2 ^ 64) (used * 3)
    let target := min (tripled / 4) cache.maxBytes
    removeOldestChecked used target 0 (entries.mergeSort fun a b => a.modified ≤ b.modified)

/-- A file of the tree as the walks see it. -/
def entryOf (root : Place) (x : List Text × FileStat) : Entry :=
  ⟨x.2.1.getD 0, Place.within root x.1, x.2.2⟩

/-- An attempt to remove a file, with the tree it was made in. -/
structure Removal where
  before : CacheFolder
  path : Place
  succeeded : Bool

def removal? : Happening ClientSys CacheFolder → Option Removal
  | ⟨before, .removeFile path, succeeded⟩ => some ⟨before, path, succeeded⟩
  | _ => none

def removals (log : Journal ClientSys CacheFolder) : List Removal := log.filterMap removal?

section Calls

variable {root : Place} {ok : Chance → Prop} {t : CacheFolder} {β : Type}
  {post : Except Halt β → Journal ClientSys CacheFolder → CacheFolder → Prop}

theorem noted_isDir {place : Place} (seen : Bool) {k : Bool → ClientTask β}
    (here : ((Place.relative root place).bind t.folderAt).isSome = seen)
    (rest : (k seen).noted (respondTree root) ok
      (fun r log => post r (⟨t, .isDir place, seen⟩ :: log)) t) :
    ((isDir place).run >>= k).noted (respondTree root) ok post t := by
  subst here
  exact fun _ _ => rest

theorem noted_metadata {place : Place} (stat : Option FileStat)
    {k : Option FileStat → ClientTask β}
    (here : (Place.relative root place).bind t.fileAt = stat)
    (rest : (k stat).noted (respondTree root) ok
      (fun r log => post r (⟨t, .metadata place, stat⟩ :: log)) t) :
    ((metadata place).run >>= k).noted (respondTree root) ok post t := by
  subst here
  exact fun _ _ => rest

theorem noted_readDir {place : Place} (inner : CacheFolder)
    {k : Option (List Text) → ClientTask β}
    (here : (Place.relative root place).bind t.folderAt = some inner)
    (rest : ∀ names : List Text, names.Perm inner.names → (k (some names)).noted (respondTree root) ok
      (fun r log => post r (⟨t, .readDir place, some names⟩ :: log)) t) :
    ((readDir place).run >>= k).noted (respondTree root) ok post t := by
  intro c _
  have listed : (if c.names.Perm inner.names then c.names else inner.names).Perm inner.names := by
    split
    · assumption
    · exact List.Perm.refl _
  have answered : ((Place.relative root place).bind t.folderAt).map (fun inner =>
      if c.names.Perm inner.names then c.names else inner.names) =
      some (if c.names.Perm inner.names then c.names else inner.names) := by
    rw [here, Option.map_some]
  have onward := rest _ listed
  rw [← answered] at onward
  exact onward

theorem noted_removeFile {place : Place} {k : Bool → ClientTask β}
    (fails : (k false).noted (respondTree root) ok
      (fun r log => post r (⟨t, .removeFile place, false⟩ :: log)) t)
    (removes : ∀ t', (Place.relative root place).bind t.remove = some t' →
      (k true).noted (respondTree root) ok (fun r log => post r (⟨t, .removeFile place, true⟩ :: log)) t') :
    ((removeFile place).run >>= k).noted (respondTree root) ok post t := by
  intro c _
  have cases : respondTree root (.removeFile place) c t = (false, t) ∨
      ∃ t', (Place.relative root place).bind t.remove = some t' ∧
        respondTree root (.removeFile place) c t = (true, t') := by
    simp only [respondTree]
    split
    · exact Or.inl rfl
    · split
      next t' removed => exact Or.inr ⟨t', removed, rfl⟩
      next => exact Or.inl rfl
  rcases cases with eq | ⟨t', removed, eq⟩
  · exact eq ▸ fails
  · exact eq ▸ removes t' removed

end Calls

variable {root : Place} {ok : Chance → Prop}

theorem noted_visit {t inner : CacheFolder} {path : List Text} (here : t.folderAt path = some inner)
    (distinct : inner.Distinct) {es : List (Text × Folder.Item Text FileStat)}
    (listed : ∀ x ∈ es, x ∈ inner.entries) (stack : List Place) (out : List Entry) :
    (visit (Place.within root path) (es.map Prod.fst) stack out).noted (respondTree root) ok
      (fun r log t' => r = .ok
          ((es.filterMap (Folder.folderOf path)).reverse.map (fun d => Place.within root d.1) ++ stack,
            out ++ (es.filterMap (Folder.fileOf path)).map (entryOf root)) ∧
        removals log = [] ∧ t' = t) t := by
  induction es generalizing stack out with
  | nil => exact ⟨by simp, rfl, rfl⟩
  | cons x es ih =>
    obtain ⟨name, x⟩ := x
    have later := ih fun y member => listed y (List.mem_cons_of_mem _ member)
    have place : Place.within root path ++ [.normal name] = Place.within root (path ++ [name]) := by
      simp [Place.within]
    have folder_here : t.folderAt (path ++ [name]) = inner.folderAt [name] := by
      rw [Folder.folderAt_append, here, Option.bind_some]
    have lookup := Folder.entry_lookup distinct (listed _ (List.mem_cons_self ..))
    simp only [List.map_cons, visit]
    cases x with
    | inr below =>
      have lookup : inner.folderAt [name] = some below := lookup
      have files : ((name, .inr below) :: es).filterMap (Folder.fileOf path) =
        es.filterMap (Folder.fileOf path) := List.filterMap_cons_none rfl
      have folders : ((name, .inr below) :: es).filterMap (Folder.folderOf path) =
        (path ++ [name], below) :: es.filterMap (Folder.folderOf path) := List.filterMap_cons_some rfl
      rw [files, folders]
      apply noted_isDir true
      · rw [place, relative_within, Option.bind_some, folder_here, lookup]
        rfl
      · apply Prog.noted_mono (later _ _)
        rintro r log t' ⟨rfl, quiet, rfl⟩
        exact ⟨by simp [place], quiet, rfl⟩
    | inl stat =>
      obtain ⟨not_dir, found⟩ : inner.folderAt [name] = none ∧ inner.fileAt [name] = some stat := lookup
      have files : ((name, .inl stat) :: es).filterMap (Folder.fileOf path) =
        (path ++ [name], stat) :: es.filterMap (Folder.fileOf path) := List.filterMap_cons_some rfl
      have folders : ((name, .inl stat) :: es).filterMap (Folder.folderOf path) =
        es.filterMap (Folder.folderOf path) := List.filterMap_cons_none rfl
      rw [files, folders]
      apply noted_isDir false
      · rw [place, relative_within, Option.bind_some, folder_here, not_dir]
        rfl
      · apply noted_metadata (some stat)
        · rw [place, relative_within, Option.bind_some, Folder.fileAt_append here, found]
        · apply Prog.noted_mono (later _ _)
          rintro r log t' ⟨rfl, quiet, rfl⟩
          exact ⟨by simp [entryOf, place], quiet, rfl⟩

/-- A walk finds the files below the directories of its stack, in some order. -/
theorem noted_walk {t : CacheFolder} {turns : Nat} {stack : Folder.Pending Text FileStat}
    (found : ∀ d ∈ stack, t.folderAt d.1 = some d.2 ∧ d.2.Distinct)
    (enough : stack.folders < turns) (out : List Entry) :
    (walk turns (stack.map fun d => Place.within root d.1) out).noted (respondTree root) ok
      (fun r log t' => (∃ entries, r = .ok (out ++ entries) ∧
        entries.Perm (stack.files.map (entryOf root))) ∧ removals log = [] ∧ t' = t) t := by
  induction turns generalizing stack out with
  | zero => cases enough
  | succ turns ih =>
    cases stack with
    | nil => exact ⟨⟨[], by simp, List.Perm.refl _⟩, rfl, rfl⟩
    | cons d stack =>
      obtain ⟨path, inner⟩ := d
      obtain ⟨here, distinct⟩ := found _ (List.mem_cons_self ..)
      simp only [List.map_cons, walk]
      apply noted_readDir inner
      · rw [relative_within, Option.bind_some, here]
      intro names order
      obtain ⟨es, rfl, listed⟩ := Folder.entries_of_names order
      apply Prog.noted_seq (noted_visit here distinct (fun x member => listed.subset member) _ _)
      · rintro ⟨stack', out'⟩ log t' ⟨same, quiet, rfl⟩
        obtain ⟨rfl, rfl⟩ := Prod.mk.inj (Except.ok.inj same)
        have next : ∀ d ∈ (es.filterMap (Folder.folderOf path)).reverse ++ stack,
            Folder.folderAt t' d.1 = some d.2 ∧ d.2.Distinct := by
          intro d member
          rcases List.mem_append.mp member with own | other
          · obtain ⟨x, entry, sub⟩ := List.mem_filterMap.mp (List.mem_reverse.mp own)
            obtain ⟨name, item⟩ := x
            cases item with
            | inl stat => cases sub
            | inr below =>
              obtain rfl := Option.some.inj sub
              have lookup : inner.folderAt [name] = some below :=
                Folder.entry_lookup distinct (listed.subset entry)
              exact ⟨by rw [Folder.folderAt_append, here, Option.bind_some, lookup],
                Folder.distinct_of_entry distinct (listed.subset entry)⟩
          · exact found d (List.mem_cons_of_mem _ other)
        have fewer := Folder.folders_visit listed path stack
        have onward := ih next (by omega) (out ++ (es.filterMap (Folder.fileOf path)).map (entryOf root))
        rw [List.map_append] at onward
        refine Prog.noted_mono onward ?_
        rintro r later t'' ⟨⟨entries, rfl, perm⟩, still, rfl⟩
        refine ⟨⟨(es.filterMap (Folder.fileOf path)).map (entryOf root) ++ entries, by simp, ?_⟩, ?_, rfl⟩
        · have whole := (Folder.files_visit listed path stack).map (entryOf root)
          rw [List.map_append] at whole
          exact (perm.append_left _).trans whole
        · change removals (log ++ later) = []
          rw [removals, List.filterMap_append]
          exact List.append_eq_nil_iff.mpr ⟨quiet, still⟩
      · rintro e log t' ⟨same, -⟩
        cases same

/-- The sum of the entries' lengths, without overflow where it fits. -/
theorem totalChecked_eq {entries : List Entry} {total : UInt64}
    (fits : total.toNat + (entries.map fun e => e.size.toNat).sum < 2 ^ 64) :
    ∃ sum : UInt64, sum.toNat = total.toNat + (entries.map fun e => e.size.toNat).sum ∧
      totalChecked total entries = .ret sum ∧
      entries.foldl (fun total entry => total + entry.size) total = sum := by
  induction entries generalizing total with
  | nil => exact ⟨total, by simp, rfl, rfl⟩
  | cons entry entries ih =>
    simp only [List.map_cons, List.sum_cons] at fits ⊢
    have step : (total + entry.size).toNat = total.toNat + entry.size.toNat := by
      rw [UInt64.toNat_add, Nat.mod_eq_of_lt (by omega)]
    obtain ⟨sum, value, checked_sum, folded⟩ := @ih (total + entry.size) (by omega)
    refine ⟨sum, by omega, ?_, folded⟩
    rw [totalChecked, checked, if_pos (by omega)]
    exact checked_sum

theorem removals_append (log later : Journal ClientSys CacheFolder) :
    removals (log ++ later) = removals log ++ removals later := List.filterMap_append

/-- Removing a file frees its length, and leaves the other files. -/
theorem bytes_remove {t t' : CacheFolder} (unique : (t.files.map Prod.fst).Nodup)
    {x : List Text × FileStat} (member : x ∈ t.files) (removed : t.remove x.1 = some t') :
    t.files.Perm (x :: t'.files) ∧ CacheFolder.bytes t = x.2.2.toNat + CacheFolder.bytes t' := by
  obtain ⟨stat, perm⟩ := Folder.files_remove removed
  have same : x = (x.1, stat) :=
    List.inj_on_of_nodup_map unique member (perm.symm.subset (List.mem_cons_self ..)) rfl
  rw [← same] at perm
  refine ⟨perm, ?_⟩
  have total := (perm.map fun x => x.2.2.toNat).sum_nat
  simpa [CacheFolder.bytes] using total

theorem noted_removeOldestChecked {used target freed : UInt64} {t : CacheFolder}
    {entries : List Entry} (unique : (t.files.map Prod.fst).Nodup)
    (apart : (entries.map Entry.path).Nodup)
    (listed : ∀ e ∈ entries, ∃ x ∈ t.files, e = entryOf root x)
    (left : CacheFolder.bytes t + freed.toNat = used.toNat) :
    (removeOldestChecked used target freed entries).noted (respondTree root) ok (fun r log t' =>
      r = .ok () ∧ (removals log).map Removal.path <+: entries.map Entry.path ∧
      (∀ x ∈ removals log, target.toNat < CacheFolder.bytes x.before) ∧
      ((∀ x ∈ removals log, x.succeeded = true) → CacheFolder.bytes t' ≤ target.toNat ∨
        CacheFolder.bytes t' + (entries.map fun e => e.size.toNat).sum = CacheFolder.bytes t)) t := by
  induction entries generalizing freed t with
  | nil => exact ⟨rfl, List.prefix_rfl, nofun, fun _ => Or.inr rfl⟩
  | cons entry entries ih =>
    obtain ⟨x, member, shape⟩ := listed entry (List.mem_cons_self ..)
    obtain ⟨fresh, apart⟩ := List.nodup_cons.mp apart
    have within : freed ≤ used := by
      rw [UInt64.le_iff_toNat_le]
      omega
    have remaining : (used - freed).toNat = CacheFolder.bytes t := by
      rw [UInt64.toNat_sub_of_le _ _ within]
      omega
    rw [removeOldestChecked, checked, if_pos within]
    change Prog.noted _ _ (if used - freed ≤ target then _ else _) _ _
    split
    next low =>
      rw [UInt64.le_iff_toNat_le, remaining] at low
      exact ⟨rfl, ⟨_, rfl⟩, nofun, fun _ => Or.inl low⟩
    next high =>
      rw [UInt64.le_iff_toNat_le, remaining, Nat.not_le] at high
      have path : (Place.relative root entry.path).bind t.remove = t.remove x.1 := by
        rw [shape]
        exact congrArg (fun path => Option.bind path t.remove) (relative_within root x.1)
      apply noted_removeFile
      · have rest := ih unique apart (fun e later => listed e (List.mem_cons_of_mem _ later)) left
        refine Prog.noted_mono rest ?_
        rintro r log t' ⟨done, tried, above, -⟩
        refine ⟨done, List.cons_prefix_cons.mpr ⟨rfl, tried⟩, ?_, ?_⟩
        · rintro y (_ | ⟨_, later⟩)
          · exact high
          · exact above y later
        · intro succeeded
          exact absurd (succeeded ⟨t, entry.path, false⟩ (List.mem_cons_self ..)) (by simp)
      · intro t' removed
        rw [path] at removed
        obtain ⟨perm, freed_bytes⟩ := bytes_remove unique member removed
        have size : entry.size = x.2.2 := by rw [shape, entryOf]
        have bound : used.toNat < 2 ^ 64 := used.toNat_lt
        have sum : (freed + entry.size).toNat = freed.toNat + entry.size.toNat := by
          rw [UInt64.toNat_add, size, Nat.mod_eq_of_lt (by omega)]
        have unique' : (t'.files.map Prod.fst).Nodup :=
          (List.nodup_cons.mp ((perm.map Prod.fst).nodup_iff.mp unique)).2
        have listed' : ∀ e ∈ entries, ∃ y ∈ t'.files, e = entryOf root y := by
          intro e later
          obtain ⟨y, inside, eq⟩ := listed e (List.mem_cons_of_mem _ later)
          rcases List.mem_cons.mp (perm.subset inside) with rfl | kept
          · exact absurd (List.mem_map_of_mem later) (by rwa [eq, ← shape])
          · exact ⟨y, kept, eq⟩
        have rest := @ih (freed + entry.size) t' unique' apart listed' (by rw [sum, size]; omega)
        change Prog.noted _ _ (checked _ _ >>= _) _ _
        rw [checked, if_pos (by rw [size]; omega)]
        refine Prog.noted_mono rest ?_
        rintro r log t'' ⟨done, tried, above, ends⟩
        refine ⟨done, List.cons_prefix_cons.mpr ⟨rfl, tried⟩, ?_, ?_⟩
        · rintro y (_ | ⟨_, later⟩)
          · exact high
          · exact above y later
        · intro succeeded
          rcases ends fun y later => succeeded y (List.mem_cons_of_mem _ later) with low | all
          · exact Or.inl low
          · right
            rw [List.map_cons, List.sum_cons, size]
            omega

section Builds

variable {W : Type} {h : Handler ClientSys W Chance} {w : W}

theorem noted_of_totalChecked {k : UInt64 → ClientTask Unit} {entries : List Entry} {total : UInt64}
    (post : Except Halt Unit → Journal ClientSys W → W → Prop)
    (valid : (totalChecked total entries >>= k).noted h ok (fun r log w' => r = .ok () ∧ post r log w') w) :
    (k (entries.foldl (fun total entry => total + entry.size) total)).noted h ok
      (fun r log w' => r = .ok () ∧ post r log w') w := by
  induction entries generalizing total with
  | nil => exact valid
  | cons entry entries ih =>
    rw [totalChecked, checked] at valid
    split at valid
    · exact ih valid
    · cases valid.1

theorem noted_of_removeOldestChecked {used target freed : UInt64} {entries : List Entry}
    (post : Except Halt Unit → Journal ClientSys W → W → Prop)
    (valid : (removeOldestChecked used target freed entries).noted h ok
      (fun r log w' => r = .ok () ∧ post r log w') w) :
    (removeOldest used target freed entries).noted h ok
      (fun r log w' => r = .ok () ∧ post r log w') w := by
  induction entries generalizing freed w post with
  | nil => exact valid
  | cons entry entries ih =>
    rw [removeOldestChecked, checked] at valid
    rw [removeOldest]
    split at valid
    · change Prog.noted _ _ (if used - freed ≤ target then _ else _) _ _ at valid
      split at valid
      next low => rwa [if_pos low]
      next high =>
        rw [if_neg high]
        intro c permitted
        have onward := valid c permitted
        revert onward
        generalize (h (.removeFile entry.path) c w).1 = succeeded
        change Bool at succeeded
        intro onward
        cases succeeded with
        | false => exact ih (fun r log w' => post r (_ :: log) w') onward
        | true =>
          change Prog.noted _ _ (checked _ _ >>= _) _ _ at onward
          rw [checked] at onward
          split at onward
          · exact ih (fun r log w' => post r (_ :: log) w') onward
          · cases onward.1
    · cases valid.1

theorem noted_of_evictChecked {turns : Nat} {cache : LocalCache}
    {post : Except Halt Unit → Journal ClientSys W → W → Prop}
    (valid : (evictChecked turns cache).noted h ok (fun r log w' => r = .ok () ∧ post r log w') w) :
    (evictIfNeeded turns cache).noted h ok (fun r log w' => r = .ok () ∧ post r log w') w := by
  rw [evictIfNeeded, totalBytes, Prog.bind_assoc, Prog.noted_bind]
  rw [evictChecked, Prog.noted_bind] at valid
  refine Prog.noted_mono valid fun r log w' holds => ?_
  cases r with
  | error e => exact holds
  | ok entries =>
    have totalled := noted_of_totalChecked (fun r later => post r (log ++ later)) holds
    change Prog.noted _ _ (if _ ≤ _ then _ else _) _ _ at totalled
    change Prog.noted _ _ (if _ ≤ _ then _ else _) _ _
    split at totalled
    next low =>
      rw [if_pos low]
      exact totalled
    next high =>
      rw [if_neg high]
      rw [Prog.noted_bind] at totalled ⊢
      refine Prog.noted_mono totalled fun r later w'' holds => ?_
      cases r with
      | error e => exact holds
      | ok found =>
        change Prog.noted _ _ (checked _ _ >>= _) _ _ at holds
        rw [checked] at holds
        split at holds
        · exact noted_of_removeOldestChecked (fun r last => post r (log ++ (later ++ last))) holds
        · cases holds.1

end Builds

/-- What an eviction does to a tree, and in which order. -/
structure Evicts (cache : LocalCache) (t : CacheFolder) (p : ClientTask Unit) (env : Nat → Chance) :
    Prop where
  finishes : (p.exec (respondTree (components cache.root)) env t).1 = .ok ()
  kept : t.bytes ≤ cache.maxBytes.toNat →
    removals (p.journal (respondTree (components cache.root)) env t) = [] ∧
      (p.exec (respondTree (components cache.root)) env t).2 = t
  oldest_first : ∃ order : List Entry, order.Perm (t.files.map (entryOf (components cache.root))) ∧
    order.Pairwise (fun a b => a.modified ≤ b.modified) ∧
    (removals (p.journal (respondTree (components cache.root)) env t)).map Removal.path <+:
      order.map Entry.path
  only_above : ∀ x ∈ removals (p.journal (respondTree (components cache.root)) env t),
    min (t.bytes * 3 / 4) cache.maxBytes.toNat < x.before.bytes
  within : (∀ x ∈ removals (p.journal (respondTree (components cache.root)) env t), x.succeeded = true) →
    (p.exec (respondTree (components cache.root)) env t).2.bytes ≤ cache.maxBytes.toNat

theorem toNat_min (a b : UInt64) : (min a b).toNat = min a.toNat b.toNat := by
  change (if a ≤ b then a else b).toNat = _
  split
  next low => exact (Nat.min_eq_left (UInt64.le_iff_toNat_le.mp low)).symm
  next high =>
    rw [UInt64.le_iff_toNat_le] at high
    exact (Nat.min_eq_right (by omega)).symm

theorem oldest_first {entries : List Entry} :
    (entries.mergeSort fun a b => a.modified ≤ b.modified).Perm entries ∧
      (entries.mergeSort fun a b => a.modified ≤ b.modified).Pairwise
        (fun a b => a.modified ≤ b.modified) := by
  refine ⟨List.mergeSort_perm _ _, ?_⟩
  have sorted : (entries.mergeSort fun a b => a.modified ≤ b.modified).Pairwise
      (fun a b => decide (a.modified ≤ b.modified)) := List.pairwise_mergeSort
    (fun a b c first second => by simp only [decide_eq_true_eq] at *; omega)
    (fun a b => by simp only [Bool.or_eq_true, decide_eq_true_eq]; omega) entries
  simpa using sorted

theorem noted_evictChecked (cache : LocalCache) (t : CacheTree) {turns : Nat}
    (small : 3 * t.top.bytes < 2 ^ 64) (enough : t.top.folders < turns) :
    (cache.evictChecked turns).noted (respondTree (components cache.root)) ok (fun r log t' =>
      r = .ok () ∧ (t.top.bytes ≤ cache.maxBytes.toNat → removals log = [] ∧ t' = t.top) ∧
      (∃ order : List Entry, order.Perm (t.top.files.map (entryOf (components cache.root))) ∧
        order.Pairwise (fun a b => a.modified ≤ b.modified) ∧
        (removals log).map Removal.path <+: order.map Entry.path) ∧
      (∀ x ∈ removals log, min (t.top.bytes * 3 / 4) cache.maxBytes.toNat < x.before.bytes) ∧
      ((∀ x ∈ removals log, x.succeeded = true) → CacheFolder.bytes t' ≤ cache.maxBytes.toNat)) t.top := by
  have found : ∀ d ∈ [(([] : List Text), t.top)],
      t.top.folderAt d.1 = some d.2 ∧ Folder.Distinct d.2 := by
    simpa using t.distinct
  have count : Folder.Pending.folders [(([] : List Text), t.top)] < turns := by
    simpa [Folder.Pending.folders] using enough
  have all_files : Folder.Pending.files [(([] : List Text), t.top)] = t.top.files := by
    simp [Folder.Pending.files]
  have walked := @noted_walk (components cache.root) ok _ _ _ found count []
  simp only [all_files, List.nil_append] at walked
  have start : [(([] : List Text), t.top)].map (fun d => Place.within (components cache.root) d.1) =
      [components cache.root] := by
    simp [Place.within]
  rw [start] at walked
  unfold evictChecked
  apply Prog.noted_seq walked
  · rintro entries log w ⟨⟨es, same, perm⟩, quiet, rfl⟩
    obtain rfl := Except.ok.inj same
    have sizes : (entries.map fun e => e.size.toNat).sum = t.top.bytes := by
      rw [(perm.map _).sum_nat, List.map_map]
      rfl
    obtain ⟨used, value, total, -⟩ := @totalChecked_eq entries 0 (by
      rw [sizes]
      simp
      omega)
    have used_bytes : used.toNat = t.top.bytes := by
      rw [value, sizes]
      exact Nat.zero_add _
    have ordered {entries : List Entry}
        (perm : entries.Perm (t.top.files.map (entryOf (components cache.root)))) :
        (entries.mergeSort fun a b => a.modified ≤ b.modified).Perm
          (t.top.files.map (entryOf (components cache.root))) := oldest_first.1.trans perm
    rw [total]
    change Prog.noted _ _ (if used ≤ cache.maxBytes then _ else _) _ _
    split
    next low =>
      rw [UInt64.le_iff_toNat_le, used_bytes] at low
      rw [Prog.pure_eq, Prog.noted_ret, List.append_nil, quiet]
      exact ⟨rfl, fun _ => ⟨rfl, rfl⟩, ⟨_, ordered perm, oldest_first.2, ⟨_, rfl⟩⟩,
        List.forall_mem_nil _, fun _ => low⟩
    next high =>
      rw [UInt64.le_iff_toNat_le, used_bytes] at high
      apply Prog.noted_seq walked
      · rintro files walk_log w' ⟨⟨es, same, perm⟩, still, rfl⟩
        obtain rfl := Except.ok.inj same
        have tripled : (used * 3).toNat = t.top.bytes * 3 := by
          rw [UInt64.toNat_mul, used_bytes]
          exact Nat.mod_eq_of_lt (by change t.top.bytes * 3 < _; omega)
        have target : (min (used * 3 / 4) cache.maxBytes).toNat =
            min (t.top.bytes * 3 / 4) cache.maxBytes.toNat := by
          rw [toNat_min, UInt64.toNat_div, tripled]
          rfl
        change Prog.noted _ _ (checked _ _ >>= _) _ _
        rw [checked, if_pos (by rw [used_bytes]; omega)]
        have order := ordered perm
        have unique := Folder.files_nodup t.distinct
        have apart : ((files.mergeSort fun a b => a.modified ≤ b.modified).map Entry.path).Nodup := by
          rw [(order.map Entry.path).nodup_iff, List.map_map]
          have paths := unique.map (f := Place.within (components cache.root))
            fun a b same => within_injective same
          rwa [List.map_map] at paths
        have listed : ∀ e ∈ files.mergeSort fun a b => a.modified ≤ b.modified,
            ∃ x ∈ t.top.files, e = entryOf (components cache.root) x := by
          intro e member
          obtain ⟨x, inside, rfl⟩ := List.mem_map.mp (order.subset member)
          exact ⟨x, inside, rfl⟩
        refine Prog.noted_mono (@noted_removeOldestChecked _ _ _ _ 0 _ _ unique apart listed ?_) ?_
        · rw [used_bytes]
          rfl
        · rintro r later t' ⟨done, tried, above, ends⟩
          have removed : removals (log ++ (walk_log ++ later)) = removals later := by
            rw [removals_append, removals_append, quiet, still]
            rfl
          rw [target] at above ends
          rw [removed]
          refine ⟨done, fun low => absurd low high, ⟨_, order, oldest_first.2, tried⟩, above, ?_⟩
          intro succeeded
          rcases ends succeeded with low | all
          · exact low.trans (Nat.min_le_right _ _)
          · rw [(order.map _).sum_nat, List.map_map] at all
            have nothing : CacheFolder.bytes t' = 0 := by
              have whole : (t.top.files.map ((fun e => e.size.toNat) ∘
                entryOf (components cache.root))).sum = t.top.bytes := rfl
              omega
            omega
      · rintro e walk_log w' ⟨⟨es, same, -⟩, -⟩
        cases same
  · rintro e log w ⟨⟨es, same, -⟩, -⟩
    cases same

/-- An eviction, in a build that checks its arithmetic or one that does not: nothing overflows,
little enough is left alone, and otherwise the oldest files go first, and only as far as needed. -/
theorem evictIfNeeded_evicts (cache : LocalCache) (t : CacheTree) {turns : Nat}
    (small : 3 * t.top.bytes < 2 ^ 64) (enough : t.top.folders < turns) (env : Nat → Chance) :
    cache.Evicts t.top (cache.evictIfNeeded turns) env ∧
      cache.Evicts t.top (cache.evictChecked turns) env := by
  have checked := @noted_evictChecked (fun _ => True) cache t turns small enough
  have plain := noted_of_evictChecked checked
  obtain ⟨done, kept, oldest, above, within⟩ := Prog.exec_of_noted plain env fun _ => trivial
  obtain ⟨done', kept', oldest', above', within'⟩ := Prog.exec_of_noted checked env fun _ => trivial
  exact ⟨⟨done, kept, oldest, above, within⟩, ⟨done', kept', oldest', above', within'⟩⟩

/-- Two files, one of them in a directory of its own. -/
def nested : CacheTree where
  top := .folder "ab".toList (.file "cd".toList (some 5, 70) .empty) (.file "x".toList (none, 30) .empty)
  distinct := by decide

theorem evictIfNeeded_nested : (⟨"/cache".toList, 80⟩ : LocalCache).Evicts nested.top
    ((⟨"/cache".toList, 80⟩ : LocalCache).evictIfNeeded 3) fun _ => .quiet 0 :=
  (evictIfNeeded_evicts _ nested (by decide) (by decide) _).1

end LocalCache

end Fvfs
