import Fvfs.Lib.Journal
import Fvfs.Migrate

/-! What a migration's report says about the source trees: the disks with all they hold and
the accesses to them that fail, and the counters against the files that were kept. -/
namespace Fvfs

open Lib

/-- A source directory in the order it is listed. The listing may break off with entries left,
and entries may be hidden: neither lookup, for a directory or a file, succeeds on them. -/
inductive SourceTree where
  | done
  | file (name : FileName) (data : Bytes) (hashFault readFault : Option Text) (rest : SourceTree)
  | folder (name : FileName) (inner : SourceTree) (rest : SourceTree)
  | other (rest : SourceTree)
  | broken (error : Text) (rest : SourceTree)
  | hidden (entries : SourceTree) (rest : SourceTree)

/-- A source root; a lookup that fails makes it absent to the crawl. -/
structure SourceRoot where
  present : Bool
  tree : SourceTree

/-- A regular file with the bytes it has on the disk. -/
structure Regular extends Found where
  data : Bytes

/-- Reading a file gives its bytes, or the error there is. -/
def reading (data : Bytes) : Option Text → Except Text Bytes
  | none => .ok data
  | some error => .error error

namespace SourceTree

/-- What the crawl, hashing and the uploads find. -/
def seen : SourceTree → Dir
  | done => .done
  | file name data hashFault readFault rest =>
    .file name ⟨reading data hashFault, reading data readFault⟩ rest.seen
  | folder name inner rest => .folder name inner.seen rest.seen
  | other rest => .other rest.seen
  | broken error _ => .broken error
  | hidden _ rest => .other rest.seen

/-- All regular files on the disk. -/
def files (t : Tier) (above : List FileName) : SourceTree → List Regular
  | done => []
  | file name data hashFault readFault rest =>
    ⟨⟨t, above ++ [name], ⟨reading data hashFault, reading data readFault⟩⟩, data⟩ ::
      files t above rest
  | folder name inner rest => files t (above ++ [name]) inner ++ files t above rest
  | other rest => files t above rest
  | broken _ rest => files t above rest
  | hidden entries rest => files t above entries ++ files t above rest

/-- No listing breaks off, and no regular file is hidden. -/
def Whole (t : Tier) (above : List FileName) : SourceTree → Prop
  | done => True
  | file _ _ _ _ rest => rest.Whole t above
  | folder name inner rest => inner.Whole t (above ++ [name]) ∧ rest.Whole t above
  | other rest => rest.Whole t above
  | broken _ _ => False
  | hidden entries rest => entries.files t above = [] ∧ rest.Whole t above

end SourceTree

namespace SourceRoot

def seen (root : SourceRoot) : Dir := if root.present then root.tree.seen else .done

def files (t : Tier) (root : SourceRoot) : List Regular := root.tree.files t []

/-- Nothing under the root is lost to the crawl. -/
def Whole (t : Tier) (root : SourceRoot) : Prop :=
  root.files t = [] ∨ root.present = true ∧ root.tree.Whole t []

end SourceRoot

namespace Migrate

theorem collect_sublist {t : Tier} {above : List FileName} {tree : SourceTree} {found : List Found}
    (collected : collectRecursive t above tree.seen = .ok found) :
    found.Sublist ((tree.files t above).map Regular.toFound) := by
  induction tree generalizing above found with
  | done =>
    obtain rfl := Except.ok.inj collected
    exact List.nil_sublist _
  | file name data hashFault readFault rest ih =>
    cases later : collectRecursive t above rest.seen with
    | error e => simp [SourceTree.seen, collectRecursive, later, bind, Except.bind] at collected
    | ok others =>
      simp only [SourceTree.seen, collectRecursive, later, bind, Except.bind, Except.ok.injEq]
        at collected
      subst collected
      exact (ih later).cons_cons _
  | folder name inner rest ih_inner ih =>
    cases below : collectRecursive t (above ++ [name]) inner.seen with
    | error e => simp [SourceTree.seen, collectRecursive, below, bind, Except.bind] at collected
    | ok first =>
      cases later : collectRecursive t above rest.seen with
      | error e =>
        simp [SourceTree.seen, collectRecursive, below, later, bind, Except.bind] at collected
      | ok others =>
        simp only [SourceTree.seen, collectRecursive, below, later, bind, Except.bind, Except.ok.injEq]
          at collected
        subst collected
        rw [SourceTree.files, List.map_append]
        exact (ih_inner below).append (ih later)
  | other rest ih => exact ih collected
  | broken error rest ih => cases collected
  | hidden entries rest ih_entries ih =>
    rw [SourceTree.files, List.map_append]
    exact (ih collected).trans (List.sublist_append_right _ _)

/-- The crawl finds all regular files exactly where the tree is whole. -/
theorem collect_all_iff {t : Tier} {above : List FileName} {tree : SourceTree} :
    collectRecursive t above tree.seen = .ok ((tree.files t above).map Regular.toFound) ↔
      tree.Whole t above := by
  induction tree generalizing above with
  | done => exact iff_of_true rfl trivial
  | file name data hashFault readFault rest ih =>
    rw [SourceTree.Whole, ← ih]
    cases later : collectRecursive t above rest.seen with
    | error e => simp [SourceTree.seen, collectRecursive, later, bind, Except.bind]
    | ok others => simp [SourceTree.seen, SourceTree.files, collectRecursive, later, bind, Except.bind]
  | folder name inner rest ih_inner ih =>
    rw [SourceTree.Whole, ← ih_inner, ← ih]
    cases below : collectRecursive t (above ++ [name]) inner.seen with
    | error e => simp [SourceTree.seen, collectRecursive, below, bind, Except.bind]
    | ok first =>
      cases later : collectRecursive t above rest.seen with
      | error e => simp [SourceTree.seen, collectRecursive, below, later, bind, Except.bind]
      | ok others =>
        have short := (collect_sublist below).length_le
        have short' := (collect_sublist later).length_le
        simp only [SourceTree.seen, SourceTree.files, collectRecursive, below, later, bind, Except.bind,
          List.map_append, Except.ok.injEq]
        constructor
        · intro all
          have lengths := congrArg List.length all
          rw [List.length_append, List.length_append] at lengths
          exact List.append_inj all (by omega)
        · rintro ⟨rfl, rfl⟩
          rfl
  | other rest ih => exact ih
  | broken error rest ih => exact iff_of_false (fun all => by cases all) id
  | hidden entries rest ih_entries ih =>
    rw [SourceTree.Whole, ← ih, SourceTree.files]
    constructor
    · intro all
      have short := (@collect_sublist t above rest _ all).length_le
      have none_left : entries.files t above = [] := by
        rw [← List.length_eq_zero_iff]
        simp only [List.length_map, List.length_append] at short
        omega
      rw [none_left] at all
      exact ⟨none_left, all⟩
    · rintro ⟨none_left, all⟩
      rw [none_left]
      exact all

theorem crawl_sublist (t : Tier) (root : SourceRoot) :
    (crawl t root.seen).Sublist ((root.files t).map Regular.toFound) := by
  unfold SourceRoot.seen crawl
  cases root.present with
  | false => exact List.nil_sublist _
  | true =>
    simp only [if_true]
    split
    next found collected => exact collect_sublist collected
    next => exact List.nil_sublist _

theorem crawl_all_iff {t : Tier} {root : SourceRoot} :
    crawl t root.seen = (root.files t).map Regular.toFound ↔ root.Whole t := by
  unfold SourceRoot.Whole
  by_cases bare : root.files t = []
  · have nothing := crawl_sublist t root
    rw [bare] at nothing ⊢
    exact iff_of_true (List.sublist_nil.mp nothing) (Or.inl rfl)
  · have some_file : (root.files t).map Regular.toFound ≠ [] := fun empty =>
      bare (List.map_eq_nil_iff.mp empty)
    rw [or_iff_right bare, ← collect_all_iff]
    change _ ↔ _ ∧ _ = Except.ok ((root.files t).map Regular.toFound)
    unfold SourceRoot.seen crawl
    cases root.present with
    | false => exact iff_of_false (fun empty => some_file empty.symm) fun both => nomatch both.1
    | true =>
      simp only [if_true, true_and]
      split
      next found collected => rw [collected, Except.ok.injEq]
      next error collected =>
        rw [collected]
        exact iff_of_false (fun empty => some_file empty.symm) nofun

/-- All regular files under both roots, local ones first. -/
def regularFiles (localRoot nasRoot : SourceRoot) : List Regular :=
  localRoot.files .localDisk ++ nasRoot.files .nas

/-- The file as hashing finds it. -/
def hashed (sha256 : Bytes → Text) (f : Regular) : Hashed :=
  { f.toFound with hash := sha256 f.data, size := f.data.length }

section Counting

variable (sha256 : Bytes → Text) (localRoot nasRoot : SourceRoot)

theorem source_of_mem {t : Tier} {above : List FileName} {tree : SourceTree} {f : Regular}
    (member : f ∈ tree.files t above) :
    ∃ hashFault readFault, f.source = ⟨reading f.data hashFault, reading f.data readFault⟩ := by
  induction tree generalizing above with
  | done => cases member
  | file name data hashFault readFault rest ih =>
    rcases List.mem_cons.mp member with rfl | later
    · exact ⟨hashFault, readFault, rfl⟩
    · exact ih later
  | folder name inner rest ih_inner ih =>
    rcases List.mem_append.mp member with inside | later
    · exact ih_inner inside
    · exact ih later
  | other rest ih => exact ih member
  | broken error rest ih => exact ih member
  | hidden entries rest ih_entries ih =>
    rcases List.mem_append.mp member with inside | later
    · exact ih_entries inside
    · exact ih later

theorem reading_eq_ok {data read : Bytes} {fault : Option Text}
    (answered : reading data fault = .ok read) : read = data := by
  cases fault with
  | none => exact (Except.ok.inj answered).symm
  | some error => cases answered

/-- Whatever is read of a regular file are its bytes. -/
theorem read_of_mem {f : Regular} (member : f ∈ regularFiles localRoot nasRoot) {read : Bytes} :
    (f.source.hashed = .ok read → read = f.data) ∧ (f.source.content = .ok read → read = f.data) := by
  obtain ⟨hashFault, readFault, source⟩ :
      ∃ hashFault readFault, f.source = ⟨reading f.data hashFault, reading f.data readFault⟩ := by
    rcases List.mem_append.mp member with inside | inside
    · exact source_of_mem inside
    · exact source_of_mem inside
  rw [source]
  exact ⟨reading_eq_ok, reading_eq_ok⟩

theorem hashFile_of_mem {f : Regular} (member : f ∈ regularFiles localRoot nasRoot) {g : Hashed}
    (made : hashFile sha256 f.toFound = some g) : g = hashed sha256 f := by
  unfold hashFile at made
  split at made
  next read answered =>
    obtain rfl := Option.some.inj made
    rw [(read_of_mem localRoot nasRoot member).1 answered]
    rfl
  next => cases made

/-- A hashed file is a regular one. -/
theorem regular_of_result {g : Hashed}
    (member : g ∈ results sha256 localRoot.seen nasRoot.seen) :
    ∃ f ∈ regularFiles localRoot nasRoot, g = hashed sha256 f := by
  obtain ⟨found, crawled, made⟩ := List.mem_filterMap.mp member
  have inside : found ∈ (regularFiles localRoot nasRoot).map Regular.toFound := by
    rw [regularFiles, List.map_append, List.mem_append]
    rcases List.mem_append.mp crawled with here | here
    · exact Or.inl ((crawl_sublist .localDisk localRoot).subset here)
    · exact Or.inr ((crawl_sublist .nas nasRoot).subset here)
  obtain ⟨f, regular, rfl⟩ := List.mem_map.mp inside
  exact ⟨f, regular, hashFile_of_mem sha256 localRoot nasRoot regular made⟩

/-- Every regular file is counted exactly where the crawls lose none and hashing reads all. -/
theorem counted_all_iff :
    (results sha256 localRoot.seen nasRoot.seen).length = (regularFiles localRoot nasRoot).length ↔
      (localRoot.Whole .localDisk ∧ nasRoot.Whole .nas) ∧
        ∀ f ∈ regularFiles localRoot nasRoot, ∃ read, f.source.hashed = .ok read := by
  have readable (found : Found) : (hashFile sha256 found).isSome = true ↔
      ∃ read, found.source.hashed = .ok read := by
    unfold hashFile
    split
    next read answered => exact iff_of_true rfl ⟨read, answered⟩
    next error failed =>
      rw [failed]
      exact iff_of_false nofun nofun
  have local_some := crawl_sublist .localDisk localRoot
  have nas_some := crawl_sublist .nas nasRoot
  have short := local_some.length_le
  have short' := nas_some.length_le
  have hashed_some : (results sha256 localRoot.seen nasRoot.seen).length ≤
    (crawl .localDisk localRoot.seen ++ crawl .nas nasRoot.seen).length := List.length_filterMap_le ..
  rw [← crawl_all_iff, ← crawl_all_iff]
  constructor
  · intro all
    simp only [regularFiles, List.length_append, List.length_map] at all short short' hashed_some
    have local_all := local_some.eq_of_length (by rw [List.length_map]; omega)
    have nas_all := nas_some.eq_of_length (by rw [List.length_map]; omega)
    refine ⟨⟨local_all, nas_all⟩, fun f member => (readable f.toFound).mp ?_⟩
    have none_dropped : (results sha256 localRoot.seen nasRoot.seen).length =
        (crawl .localDisk localRoot.seen ++ crawl .nas nasRoot.seen).length := by
      rw [List.length_append]
      omega
    apply List.filterMap_length_eq_length.mp none_dropped
    rw [local_all, nas_all, ← List.map_append]
    exact List.mem_map_of_mem member
  · rintro ⟨⟨local_all, nas_all⟩, all_read⟩
    rw [results, local_all, nas_all, ← List.map_append]
    refine (List.filterMap_length_eq_length.mpr ?_).trans (List.length_map _)
    intro found inside
    obtain ⟨f, member, rfl⟩ := List.mem_map.mp inside
    exact (readable f.toFound).mpr (all_read f member)

/-- Where every regular file is counted, each is among the hashed ones. -/
theorem hashed_mem (all : (results sha256 localRoot.seen nasRoot.seen).length =
    (regularFiles localRoot nasRoot).length) {f : Regular}
    (member : f ∈ regularFiles localRoot nasRoot) :
    hashed sha256 f ∈ results sha256 localRoot.seen nasRoot.seen := by
  obtain ⟨⟨local_all, nas_all⟩, all_read⟩ := (counted_all_iff sha256 localRoot nasRoot).mp all
  obtain ⟨read, answered⟩ := all_read f member
  apply List.mem_filterMap.mpr
  refine ⟨f.toFound, ?_, ?_⟩
  · rw [crawl_all_iff.mpr local_all, crawl_all_iff.mpr nas_all, ← List.map_append]
    exact List.mem_map_of_mem member
  · have made : hashFile sha256 f.toFound = some { f.toFound with
        hash := sha256 read, size := read.length } := by
      rw [hashFile, answered]
    rw [made, (read_of_mem localRoot nasRoot member).1 answered]
    rfl

end Counting

open Async

/-- The second read of the file fails, or its put. -/
def Refused (t : Hashed × (Nat → Choice)) : Prop :=
  (∃ error, t.1.source.content = .error error) ∨ ¬(t.2 0).Faultless

/-- The put succeeds, and the upsert after it fails. -/
def Unindexed (t : Hashed × (Nat → Choice)) : Prop := ¬Refused t ∧ ¬(t.2 4).Faultless

theorem turn_refused {f : Hashed} {env : Nat → Choice} (refused : Refused (f, env)) :
    (turn f env).2.2 = Counts.failed := by
  obtain ⟨p, path⟩ := vfsPath_ok f
  unfold turn
  rw [path]
  rcases refused with ⟨error, failed⟩ | faulty
  · have content : f.source.content = .error error := failed
    rw [content]
  · cases f.source.content with
    | error e => rfl
    | ok data =>
      obtain ⟨e, fault⟩ : ∃ e, (env 0).fault = some e := Option.ne_none_iff_exists'.mp faulty
      rw [fault]
      cases (env 0).torn with
      | none => rfl
      | some n => rfl

/-- A turn that is not refused stores the file, and records it if the upsert succeeds. -/
theorem turn_unrefused {f : Hashed} {env : Nat → Choice} (accepted : ¬Refused (f, env)) :
    ∃ p data, vfsPath f = .ok p ∧ f.source.content = .ok data ∧ (env 0).Faultless ∧
      turn f env = (.object p data :: (if (env 4).Faultless then
        [.row p f (env 1).clock (env 2).clock (env 3).clock] else []), 5, fun c => c.uploaded f) := by
  obtain ⟨p, path⟩ := vfsPath_ok f
  simp only [Refused, not_or, not_exists, not_not] at accepted
  obtain ⟨reads, quiet⟩ := accepted
  cases content : f.source.content with
  | error e => exact absurd content (reads e)
  | ok data => exact ⟨p, data, path, rfl, quiet, turn_stored path content quiet⟩

def storedAt : (op : Step) → Step.Res op → Option FvfsPath
  | .put .s3 p _, .ok () => some p
  | _, _ => none

def recordedAt : (op : Step) → Step.Res op → Option FvfsPath
  | .upsert m, .ok _ => some m.path
  | _, _ => none

def storedIn (log : Journal Sys World) : List FvfsPath :=
  log.filterMap fun a => storedAt a.op a.res

def recordedIn (log : Journal Sys World) : List FvfsPath :=
  log.filterMap fun a => recordedAt a.op a.res

/-- The files a run put to S3 and indexed. -/
def indexed (log : Journal Sys World) : List FvfsPath :=
  (recordedIn log).filter fun p => p ∈ storedIn log

theorem storedIn_append (log later : Journal Sys World) :
    storedIn (log ++ later) = storedIn log ++ storedIn later := List.filterMap_append

theorem recordedIn_append (log later : Journal Sys World) :
    recordedIn (log ++ later) = recordedIn log ++ recordedIn later := List.filterMap_append

theorem journal_record (f : Hashed) (counts : Counts) (p : FvfsPath) (env : Nat → Choice)
    (w : World) :
    recordedIn ((record f counts p).journal perform env w) =
      if (env 3).Faultless then [p] else [] := by
  cases fourth : (env 3).fault with
  | none => simp [record, now, upsert, Prog.journal, perform, statement, fourth, Choice.Faultless,
      recordedIn, recordedAt, metaEntry]
  | some e => simp [record, now, upsert, Prog.journal, perform, statement, fourth,
      Choice.Faultless, recordedIn, recordedAt]

theorem journal_refused {f : Hashed} {env : Nat → Choice} (refused : Refused (f, env))
    (counts : Counts) (w : World) :
    recordedIn ((migrateFile f counts).journal perform env w) = [] := by
  obtain ⟨p, path⟩ := vfsPath_ok f
  unfold migrateFile
  rw [path]
  cases content : f.source.content with
  | error e => rfl
  | ok data =>
    have faulty : ¬(env 0).Faultless := by
      rcases refused with ⟨error, failed⟩ | faulty
      · rw [content] at failed
        cases failed
      · exact faulty
    rcases putObject_cases (c := env 0) (w := w) .s3 p data with
      ⟨quiet, -⟩ | ⟨e, -, put⟩ | ⟨e, n, -, -, put⟩
    · exact absurd quiet faulty
    · simp [Async.put, Prog.journal, perform, put, recordedIn, recordedAt]
    · simp [Async.put, Prog.journal, perform, put, recordedIn, recordedAt]

theorem journal_unrefused {f : Hashed} {env : Nat → Choice} (accepted : ¬Refused (f, env))
    (counts : Counts) (w : World) : ∃ p,
      p ∈ storedIn ((migrateFile f counts).journal perform env w) ∧
      recordedIn ((migrateFile f counts).journal perform env w) =
        if (env 4).Faultless then [p] else [] := by
  obtain ⟨p, data, path, content, quiet, -⟩ := turn_unrefused accepted
  have put : putObject (env 0) w .s3 p data = (.ok (), w.setObject .s3 p (some data)) := by
    simp [putObject, show (env 0).fault = none from quiet]
  have log : (migrateFile f counts).journal perform env w =
      ⟨w, .put .s3 p data, .ok ()⟩ :: (record f counts p).journal perform
        (fun i => env (i + 1)) (w.setObject .s3 p (some data)) := by
    unfold migrateFile
    rw [path, content]
    simp only [Async.put, Prog.attempt_call, Prog.call_bind, Prog.journal, perform, put]
    rfl
  refine ⟨p, ?_, ?_⟩
  · rw [log]
    exact List.mem_filterMap.mpr ⟨_, List.mem_cons_self .., rfl⟩
  · rw [log]
    exact journal_record f counts p (fun i => env (i + 1)) _

/-- What the upload loop's counters and its journal say of its turns. -/
structure Accounts (fs : List Hashed) (env : Nat → Choice) (counts total : Counts)
    (log : Journal Sys World) : Prop where
  stored : ∀ p ∈ recordedIn log, p ∈ storedIn log
  bound : (recordedIn log).length + total.errors ≤ fs.length + counts.errors
  exact : (recordedIn log).length + total.errors = fs.length + counts.errors ↔
    ∀ t ∈ turns fs env, ¬Unindexed t
  grown : counts.errors ≤ total.errors
  clean : total.errors = counts.errors ↔ ∀ t ∈ turns fs env, ¬Refused t

theorem migrateFiles_accounts (fs : List Hashed) (counts : Counts) (env : Nat → Choice) (w : World) :
    Accounts fs env counts (tally fs env counts) ((migrateFiles fs counts).journal perform env w) := by
  induction fs generalizing counts env w with
  | nil => exact ⟨nofun, le_rfl, iff_of_true rfl nofun, le_rfl, iff_of_true rfl nofun⟩
  | cons f rest ih =>
    obtain ⟨exec, steps⟩ := exec_migrateFile f counts env w
    have later := ih ((turn f env).2.2 counts) (fun i => env (i + (turn f env).2.1))
      ((turn f env).1.foldl Effect.apply w)
    simp only [migrateFiles, Prog.journal_bind, exec, steps, tally]
    generalize Prog.journal perform (migrateFiles rest _) _ _ = log at later ⊢
    generalize total_eq : tally rest _ _ = total at later ⊢
    obtain ⟨stored, bound, exact, grown, clean⟩ := later
    have all {P : Hashed × (Nat → Choice) → Prop} : (∀ t ∈ turns (f :: rest) env, P t) ↔
        P (f, env) ∧ ∀ t ∈ turns rest fun i => env (i + (turn f env).2.1), P t :=
      List.forall_mem_cons
    by_cases refused : Refused (f, env)
    · have nothing := journal_refused refused counts w
      have failed : ((turn f env).2.2 counts).errors = counts.errors + 1 := by
        rw [turn_refused refused]
        rfl
      have indexed : ¬Unindexed (f, env) := fun unindexed => unindexed.1 refused
      constructor
      · intro p member
        rw [recordedIn_append, nothing] at member
        rw [storedIn_append]
        exact List.mem_append_right _ (stored p member)
      · rw [recordedIn_append, nothing, List.nil_append, List.length_cons]
        omega
      · rw [recordedIn_append, nothing, List.nil_append, List.length_cons, all, ← exact]
        constructor
        · exact fun sum => ⟨indexed, by omega⟩
        · exact fun both => by omega
      · omega
      · rw [all]
        exact iff_of_false (by omega) fun both => both.1 refused
    · obtain ⟨p, put, recorded⟩ := journal_unrefused refused counts w
      obtain ⟨_, _, -, -, -, turned⟩ := turn_unrefused refused
      have kept : ((turn f env).2.2 counts).errors = counts.errors := by
        rw [turned]
        rfl
      constructor
      · intro q member
        rw [recordedIn_append, recorded] at member
        rw [storedIn_append]
        rcases List.mem_append.mp member with here | after
        · split at here
          · obtain rfl := List.mem_singleton.mp here
            exact List.mem_append_left _ put
          · cases here
        · exact List.mem_append_right _ (stored q after)
      · rw [recordedIn_append, recorded, List.length_append, List.length_cons]
        split
        · rw [List.length_singleton]
          omega
        · rw [List.length_nil]
          omega
      · rw [recordedIn_append, recorded, List.length_append, List.length_cons, all, ← exact]
        split
        next quiet =>
          have indexed : ¬Unindexed (f, env) := fun unindexed => unindexed.2 quiet
          rw [List.length_singleton]
          constructor
          · exact fun sum => ⟨indexed, by omega⟩
          · exact fun both => by omega
        next faulty =>
          rw [List.length_nil]
          exact iff_of_false (by omega) fun both => both.1 ⟨refused, faulty⟩
      · omega
      · rw [all, ← clean, kept]
        exact (and_iff_right refused).symm

/-- Where every turn indexes its file, some file with the path is in place. -/
theorem last_indexed {fs : List Hashed} {env : Nat → Choice} {p : FvfsPath} {f : Hashed}
    (all : ∀ t ∈ turns fs env, ¬Refused t ∧ ¬Unindexed t) (member : f ∈ fs)
    (path : vfsPath f = .ok p) :
    ∃ g ∈ fs, ∃ data, vfsPath g = .ok p ∧ g.source.content = .ok data ∧
      lastObject (effects fs env) p = some data ∧ lastRow (effects fs env) p = some g := by
  have whole {g : Hashed} {e : Nat → Choice} (taken : (g, e) ∈ turns fs env) :
      ∃ q data, vfsPath g = .ok q ∧ g.source.content = .ok data ∧
        (turn g e).1 = [.object q data, .row q g (e 1).clock (e 2).clock (e 3).clock] := by
    obtain ⟨accepted, indexed⟩ := all _ taken
    obtain ⟨q, data, path, content, -, turned⟩ := turn_unrefused accepted
    have quiet : (e 4).Faultless := by
      by_contra faulty
      exact indexed ⟨accepted, faulty⟩
    exact ⟨q, data, path, content, by rw [turned, if_pos quiet]⟩
  refine last_of_placed (fun t taken => ?_) member path fun e taken => ?_
  · obtain ⟨q, data, path, content, left⟩ := whole taken
    exact Or.inr ⟨q, data, _, _, _, path, content, left⟩
  · obtain ⟨q, data, -, -, left⟩ := whole taken
    rw [left]
    exact List.cons_ne_nil _ _

/-- Counted, after another file with its hash. -/
def Duplicate (files : List Hashed) (f : Hashed) : Prop :=
  f ∈ files ∧ first files f.hash ≠ some f

/-- A report without errors is that of a complete migration, and every report accounts for the
files it counts. -/
structure Reported (sha256 : Bytes → Text) (localRoot nasRoot : SourceRoot)
    (report : MigrateReport) (log : Journal Sys World) (w : World) : Prop where
  counted : report.errors = 0 → report.totalFiles = (regularFiles localRoot nasRoot).length
  kept : report.errors = 0 → ∀ f ∈ regularFiles localRoot nasRoot,
    Duplicate (results sha256 localRoot.seen nasRoot.seen) (hashed sha256 f) ∨
      ∃ p, vfsPath (hashed sha256 f) = .ok p ∧ Migrated w p (hashed sha256 f) f.data
  sum : report.totalFiles = (indexed log).length + report.duplicates + report.errors

/-- The files to upload: the first of each hash. -/
def uploads (sha256 : Bytes → Text) (localRoot nasRoot : SourceRoot) : List Hashed :=
  (dedup [] (results sha256 localRoot.seen nasRoot.seen)).1

theorem journal_runMigration (sha256 : Bytes → Text) (localRoot nasRoot : SourceRoot)
    (env : Nat → Choice) (w : World) :
    (runMigration sha256 localRoot.seen nasRoot.seen).journal perform env w =
      (migrateFiles (uploads sha256 localRoot nasRoot) ⟨0, 0⟩).journal perform env w := by
  simp only [runMigration, Prog.journal_bind, exec_migrateFiles]
  exact List.append_nil _

theorem mem_uploads {sha256 : Bytes → Text} {localRoot nasRoot : SourceRoot} {f : Hashed} :
    f ∈ uploads sha256 localRoot nasRoot ↔
      first (results sha256 localRoot.seen nasRoot.seen) f.hash = some f := by
  rw [uploads, mem_dedup]
  exact and_iff_right List.not_mem_nil

section Kept

variable {sha256 : Bytes → Text} {localRoot nasRoot : SourceRoot} {env : Nat → Choice}

/-- A file to upload is a regular one. -/
theorem regular_of_upload {g : Hashed} (member : g ∈ uploads sha256 localRoot nasRoot) :
    ∃ f ∈ regularFiles localRoot nasRoot, g = hashed sha256 f :=
  regular_of_result sha256 localRoot nasRoot (List.mem_of_find?_eq_some (mem_uploads.mp member))

/-- Files to upload with the same bytes are the same. -/
theorem upload_unique {f g : Regular} (first_f : hashed sha256 f ∈ uploads sha256 localRoot nasRoot)
    (first_g : hashed sha256 g ∈ uploads sha256 localRoot nasRoot) (same : f.data = g.data) :
    hashed sha256 f = hashed sha256 g := by
  have at_f := mem_uploads.mp first_f
  have at_g := mem_uploads.mp first_g
  have hash : (hashed sha256 f).hash = (hashed sha256 g).hash := congrArg sha256 same
  rw [hash] at at_f
  exact Option.some.inj (at_f.symm.trans at_g)

/-- Where every turn indexes its file and no two have one path, each is in place. -/
theorem upload_kept
    (all : ∀ t ∈ turns (uploads sha256 localRoot nasRoot) env, ¬Refused t ∧ ¬Unindexed t)
    (apart : ∀ f ∈ uploads sha256 localRoot nasRoot, ∀ g ∈ uploads sha256 localRoot nasRoot,
      vfsPath f = vfsPath g → f = g)
    {f : Regular} (regular : f ∈ regularFiles localRoot nasRoot)
    (upload : hashed sha256 f ∈ uploads sha256 localRoot nasRoot) (w : World) :
    ∃ p, vfsPath (hashed sha256 f) = .ok p ∧
      Migrated ((effects (uploads sha256 localRoot nasRoot) env).foldl Effect.apply w) p
        (hashed sha256 f) f.data := by
  obtain ⟨p, path⟩ := vfsPath_ok (hashed sha256 f)
  obtain ⟨g, member, data, path', content, object, row⟩ := last_indexed all upload path
  obtain rfl := apart g member _ upload (path'.trans path.symm)
  obtain rfl := (read_of_mem localRoot nasRoot regular).2 content
  refine ⟨p, path, ?_, ?_⟩
  · have rows := rowState_effects (effects (uploads sha256 localRoot nasRoot) env) w p
    rw [row] at rows
    obtain ⟨id, recorded⟩ := rows
    exact ⟨_, recorded, rfl, rfl, rfl⟩
  · rw [tiers_effects, if_pos rfl, object]
    exact Option.some_or

end Kept

/-- A report says what it is to say exactly where no upsert fails after its put, and either a
second read or a put fails, which is counted, or nothing is lost: every regular file is crawled
and hashed, and no two files to upload have one path. -/
theorem reported_iff (sha256 : Bytes → Text) (localRoot nasRoot : SourceRoot) (env : Nat → Choice)
    (w : World) :
    (∃ report, ((runMigration sha256 localRoot.seen nasRoot.seen).exec perform env w).1 =
        .ok report ∧
      Reported sha256 localRoot nasRoot report
        ((runMigration sha256 localRoot.seen nasRoot.seen).journal perform env w)
        ((runMigration sha256 localRoot.seen nasRoot.seen).exec perform env w).2) ↔
    (∀ t ∈ turns (uploads sha256 localRoot nasRoot) env, ¬Unindexed t) ∧
      ((∃ t ∈ turns (uploads sha256 localRoot nasRoot) env, Refused t) ∨
        ((localRoot.Whole .localDisk ∧ nasRoot.Whole .nas) ∧
          ∀ f ∈ regularFiles localRoot nasRoot, ∃ read, f.source.hashed = .ok read) ∧
        ∀ f ∈ uploads sha256 localRoot nasRoot, ∀ g ∈ uploads sha256 localRoot nasRoot,
          vfsPath f = vfsPath g → f = g) := by
  have accounts := migrateFiles_accounts (uploads sha256 localRoot nasRoot) ⟨0, 0⟩ env w
  have length := dedup_length [] (results sha256 localRoot.seen nasRoot.seen)
  rw [journal_runMigration, exec_runMigration, ← counted_all_iff sha256]
  rw [← uploads] at length ⊢
  dsimp only
  generalize (migrateFiles _ _).journal perform env w = log at accounts ⊢
  generalize tally (uploads sha256 localRoot nasRoot) env ⟨0, 0⟩ = total at accounts ⊢
  obtain ⟨stored, bound, exact, -, clean⟩ := accounts
  dsimp only at bound exact clean
  have all_stored : indexed log = recordedIn log := List.filter_eq_self.mpr (by simpa using stored)
  rw [← exact]
  constructor
  · rintro ⟨report, answered, reported⟩
    obtain rfl := Except.ok.inj answered
    obtain ⟨counted, kept, sum⟩ := reported
    rw [all_stored] at sum
    dsimp only at counted kept sum
    refine ⟨by omega, ?_⟩
    by_cases errors : total.errors = 0
    · refine Or.inr ⟨counted errors, ?_⟩
      -- two files with one path would both have their bytes there
      intro f upload g upload' same
      obtain ⟨f, regular, rfl⟩ := regular_of_upload upload
      obtain ⟨g, regular', rfl⟩ := regular_of_upload upload'
      have placed {f : Regular} (regular : f ∈ regularFiles localRoot nasRoot)
          (upload : hashed sha256 f ∈ uploads sha256 localRoot nasRoot) :=
        (kept errors f regular).resolve_left fun twice => twice.2 (mem_uploads.mp upload)
      obtain ⟨p, path, migrated⟩ := placed regular upload
      obtain ⟨q, path', migrated'⟩ := placed regular' upload'
      obtain rfl : p = q := Except.ok.inj (path.symm.trans (same.trans path'))
      have data := Option.some.inj (migrated.object.symm.trans migrated'.object)
      exact upload_unique upload upload' data
    · refine Or.inl ?_
      by_contra none_refused
      exact errors (clean.mpr fun t member refused => none_refused ⟨t, member, refused⟩)
  · rintro ⟨sum, rest⟩
    refine ⟨_, rfl, ?_, ?_, ?_⟩
    · intro errors
      obtain ⟨t, member, refused⟩ | ⟨counted, -⟩ := rest
      · exact absurd refused (clean.mp errors t member)
      · exact counted
    · intro errors f regular
      have none_refused := clean.mp errors
      obtain ⟨t, member, refused⟩ | ⟨counted, apart⟩ := rest
      · exact absurd refused (none_refused t member)
      · have inside := hashed_mem sha256 localRoot nasRoot counted regular
        by_cases earliest : hashed sha256 f ∈ uploads sha256 localRoot nasRoot
        · exact Or.inr (upload_kept (fun t member => ⟨none_refused t member, exact.mp sum t member⟩)
            apart regular earliest w)
        · exact Or.inl ⟨inside, fun found => earliest (mem_uploads.mpr found)⟩
    · rw [all_stored]
      dsimp only
      omega

open Router (sampleSha256)

/-- A root with one directory, which cannot be read and holds one file. -/
def lockedFolder : SourceRoot :=
  ⟨true, .folder fileA (.broken "permission denied".toList (.file fileB [1] none none .done)) .done⟩

def emptyRoot : SourceRoot := ⟨true, .done⟩

/-- The crawl gives up on the whole root, and the report shows no error. -/
theorem locked_folder_reported_clean :
    ¬∀ (localRoot nasRoot : SourceRoot) (env : Nat → Choice) (w : World), ∃ report,
      ((runMigration sampleSha256 localRoot.seen nasRoot.seen).exec perform env w).1 = .ok report ∧
      Reported sampleSha256 localRoot nasRoot report
        ((runMigration sampleSha256 localRoot.seen nasRoot.seen).journal perform env w)
        ((runMigration sampleSha256 localRoot.seen nasRoot.seen).exec perform env w).2 := by
  intro claimed
  obtain ⟨report, answered, reported⟩ := claimed lockedFolder emptyRoot (fun _ => .quiet 0) .empty
  obtain rfl : ⟨0, 0, 0, 0, 0⟩ = report := Except.ok.inj answered
  have counted : 0 = 1 := reported.counted rfl
  cases counted

end Migrate

end Fvfs
