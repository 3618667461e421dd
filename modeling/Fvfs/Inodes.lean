import Fvfs.Lib.History
import Fvfs.Lib.Naming
import Fvfs.Path
import Mathlib.Data.UInt

/-! The daemon's inode table: numbers from a counter and numbers derived from row ids in
one pair of maps, and the operations its FUSE handlers issue on it. -/
namespace Fvfs

open Lib
open Function (update)

def rootIno : UInt64 := 1

structure InodeTable where
  inoToPath : UInt64 → Option FvfsPath
  pathToIno : FvfsPath → Option UInt64
  nextIno : UInt64

namespace InodeTable

def new : InodeTable where
  inoToPath := update (fun _ => none) rootIno (some .root)
  pathToIno := update (fun _ => none) .root (some rootIno)
  nextIno := 2

/-- The number an unknown path gets, and the counter after it. -/
def choose (t : InodeTable) : Option UInt64 → UInt64 × UInt64
  | some hint => (hint, t.nextIno)
  | none => (t.nextIno, t.nextIno + 1)

def getOrAlloc (t : InodeTable) (path : FvfsPath) (hint : Option UInt64) : UInt64 × InodeTable :=
  match t.pathToIno path with
  | some ino => (ino, t)
  | none =>
    let (ino, nextIno) := t.choose hint
    (ino, {
      inoToPath := update t.inoToPath ino (some path)
      pathToIno := update t.pathToIno path (some ino)
      nextIno := nextIno })

def path (t : InodeTable) (ino : UInt64) : Option FvfsPath := t.inoToPath ino

def remove (t : InodeTable) (path : FvfsPath) : InodeTable :=
  match t.pathToIno path with
  | some ino =>
    { t with
      pathToIno := update t.pathToIno path none
      inoToPath := update t.inoToPath ino none }
  | none => t

def naming (t : InodeTable) : Naming UInt64 FvfsPath := ⟨t.inoToPath, t.pathToIno⟩

theorem getOrAlloc_known {t : InodeTable} {path : FvfsPath} {ino : UInt64}
    (known : t.pathToIno path = some ino) (hint : Option UInt64) :
    t.getOrAlloc path hint = (ino, t) := by
  simp [getOrAlloc, known]

theorem getOrAlloc_unknown {t : InodeTable} {path : FvfsPath} (unknown : t.pathToIno path = none)
    (hint : Option UInt64) :
    (t.getOrAlloc path hint).1 = (t.choose hint).1 ∧
    (t.getOrAlloc path hint).2.naming = t.naming.bind (t.choose hint).1 path := by
  simp [getOrAlloc, unknown, naming, Naming.bind]

theorem naming_remove (t : InodeTable) (path : FvfsPath) :
    (t.remove path).naming = t.naming.unbind path := by
  unfold remove Naming.unbind
  cases found : t.pathToIno path <;> simp [naming, found]

end InodeTable

inductive TableOp where
  | getOrAlloc (path : FvfsPath) (hint : Option UInt64)
  | remove (path : FvfsPath)

/-- The table and every number it has handed out, each with the path it was for. -/
structure Inodes where
  table : InodeTable
  handed : List (UInt64 × FvfsPath)

namespace Inodes

def new : Inodes := ⟨.new, [(rootIno, .root)]⟩

def apply (s : Inodes) : TableOp → Inodes
  | .getOrAlloc path hint =>
    let (ino, table) := s.table.getOrAlloc path hint
    ⟨table, s.handed ++ [(ino, path)]⟩
  | .remove path => { s with table := s.table.remove path }

end Inodes

/-- A call of the kernel, with what the store or the router answers the handler: the row
id a lookup finds, whether the router succeeded, the entries of a listing and how many
of them still fit into the reply. Removing a directory is `unlink` too. -/
inductive FuseCall where
  | lookup (parent : UInt64) (name : Text) (row : Option Int64)
  | create (parent : UInt64) (name : Text) (written : Bool)
  | mkdir (parent : UInt64) (name : Text) (made : Bool)
  | unlink (parent : UInt64) (name : Text) (deleted : Bool)
  | readdir (ino : UInt64) (offset : Int) (listed : List FvfsPath) (room : Nat)

namespace FuseCall

def childPath (t : InodeTable) (parent : UInt64) (name : Text) : Option FvfsPath :=
  (t.path parent).bind fun p => (p.join name).toOption

/-- The entries `readdir` reaches after `.` and `..`, up to the first one without room. -/
def reached (offset : Int) (listed : List FvfsPath) (room : Nat) : List FvfsPath :=
  let dots := (if offset ≤ 0 then 1 else 0) + (if offset ≤ 1 then 1 else 0)
  if room < dots then [] else (listed.drop (offset - 2).toNat).take (room - dots + 1)

/-- What the handler does to the table it finds. -/
def issues (t : InodeTable) : FuseCall → List TableOp
  | lookup parent name row =>
    match childPath t parent name, row with
    | some child, some id => [.getOrAlloc child (some (id.toUInt64 + 10))]
    | _, _ => []
  | create parent name written =>
    match childPath t parent name, written with
    | some child, true => [.getOrAlloc child none]
    | _, _ => []
  | mkdir parent name made =>
    match childPath t parent name, made with
    | some child, true => [.getOrAlloc child none]
    | _, _ => []
  | unlink parent name deleted =>
    match childPath t parent name, deleted with
    | some child, true => [.remove child]
    | _, _ => []
  | readdir ino offset listed room =>
    match t.path ino with
    | some _ => (reached offset listed room).map fun entry => .getOrAlloc entry none
    | none => []

/-- The table operations of a whole session, in order. -/
def issued : Inodes → List FuseCall → List TableOp
  | _, [] => []
  | s, call :: rest =>
    call.issues s.table ++ issued ((call.issues s.table).foldl Inodes.apply s) rest

end FuseCall

namespace Inodes

open FuseCall (issued)

/-- The identity the kernel relies on. -/
structure Sound (s : Inodes) : Prop where
  inverse : ∀ ino p, s.table.inoToPath ino = some p ↔ s.table.pathToIno p = some ino
  root : ∀ p, s.table.inoToPath rootIno = some p → p = .root
  stable : ∀ ino p q, (ino, p) ∈ s.handed → s.table.path ino = some q → q = p

/-- Where the number of a path that was not in the table comes from: the counter, which starts
at 2 and has given so many before, or the hint of a lookup, a row id plus 10. -/
inductive Source where
  | counted (before : Nat)
  | hinted (hint : UInt64)

/-- Both stand for one 64-bit number. -/
def Source.Clash : Source → Source → Prop
  | counted i, counted j => i % 2 ^ 64 = j % 2 ^ 64
  | counted i, hinted hint => hint = .ofNat (i + 2)
  | hinted hint, counted i => hint = .ofNat (i + 2)
  | hinted hint, hinted hint' => hint = hint'

/-- Which paths are in the table, how often the counter was used, and for which paths a number
was needed, with where it came from. The root has hint 1, so to speak. -/
structure Origins where
  present : List FvfsPath
  counted : Nat
  sources : List (Source × FvfsPath)

namespace Origins

def new : Origins := ⟨[.root], 0, [(.hinted 1, .root)]⟩

def note (r : Origins) : TableOp → Origins
  | .getOrAlloc path hint =>
    if path ∈ r.present then r
    else
      match hint with
      | some hint => ⟨path :: r.present, r.counted, r.sources ++ [(.hinted hint, path)]⟩
      | none => ⟨path :: r.present, r.counted + 1, r.sources ++ [(.counted r.counted, path)]⟩
  | .remove path => { r with present := r.present.filter (· ≠ path) }

end Origins

/-- No two paths of a session have clashing sources: the row ids of its lookups are apart from
each other and from the counter's range, the root's 1 included. -/
def Distinct (ops : List TableOp) : Prop :=
  (ops.foldl Origins.note .new).sources.Pairwise fun a b => a.1.Clash b.1 → a.2 = b.2

/-- The number about to be given to an unknown path was never handed out for another one. -/
def Unspent (s : Inodes) : TableOp → Prop
  | .getOrAlloc path hint => s.table.pathToIno path = none →
    Naming.Fresh s.handed (s.table.choose hint).1 path
  | .remove _ => True

structure Consistent (s : Inodes) : Prop where
  kept : Naming.Kept s.table.naming s.handed
  rooted : (rootIno, .root) ∈ s.handed

theorem Consistent.sound {s : Inodes} (consistent : Consistent s) : Sound s where
  inverse := consistent.kept.inverse
  root := fun p found => consistent.kept.honest _ _ p consistent.rooted found
  stable := consistent.kept.honest

theorem consistent_new : Consistent new := by
  constructor
  · constructor
    · intro ino p
      simp only [new, InodeTable.naming, InodeTable.new]
      by_cases one : ino = rootIno
      · by_cases top : p = .root
        · simp [one, top]
        · simp [one, top, Ne.symm top]
      · by_cases top : p = .root
        · simp [one, top, Ne.symm one]
        · simp [one, top]
    · intro ino p found
      by_cases one : ino = rootIno
      · subst one
        have top : FvfsPath.root = p := by
          simpa [new, InodeTable.naming, InodeTable.new] using found
        simp [new, top]
      · simp [new, InodeTable.naming, InodeTable.new, one] at found
    · intro ino p q handed again
      simp only [new, List.mem_singleton, Prod.mk.injEq] at handed again
      exact again.2.trans handed.2.symm
  · simp [new]

theorem apply_consistent (s : Inodes) (op : TableOp) (consistent : Consistent s)
    (unspent : s.Unspent op) : Consistent (s.apply op) := by
  obtain ⟨kept, rooted⟩ := consistent
  cases op with
  | getOrAlloc path hint =>
    cases known : s.table.pathToIno path with
    | some ino =>
      simp only [apply, InodeTable.getOrAlloc_known known]
      exact ⟨kept.again known, by simp [rooted]⟩
    | none =>
      obtain ⟨number, bound⟩ := InodeTable.getOrAlloc_unknown known hint
      simp only [apply]
      constructor
      · rw [number, bound]
        exact kept.bind known (unspent known)
      · simp [rooted]
  | remove path =>
    constructor
    · simp only [apply, InodeTable.naming_remove]
      exact kept.unbind path
    · exact rooted

/-- A step that leaves the table sound spent no number twice. -/
theorem unspent_of_sound (s : Inodes) (op : TableOp) (sound : Sound (s.apply op)) :
    s.Unspent op := by
  cases op with
  | getOrAlloc path hint =>
    intro unknown
    obtain ⟨number, bound⟩ := InodeTable.getOrAlloc_unknown unknown hint
    have honest : (s.apply (.getOrAlloc path hint)).table.naming.Honest
      (s.apply (.getOrAlloc path hint)).handed := sound.stable
    simp only [apply, number, bound] at honest
    exact Naming.fresh_of_honest honest
  | remove path => trivial

theorem sound_iff_unspent (ops : List TableOp) :
    Throughout apply new ops Sound ↔ EachStep apply new ops Unspent := by
  apply throughout_iff_eachStep Consistent (fun _ _ => True) consistent_new
  · exact fun s op consistent _ unspent => apply_consistent s op consistent unspent
  · exact fun s consistent => consistent.sound
  · exact fun s op _ _ sound => unspent_of_sound s op sound
  · exact fun _ _ _ => trivial

/-- The number a source stands for. -/
def Source.number : Source → UInt64
  | counted before => .ofNat (before + 2)
  | hinted hint => hint

theorem Source.clash_iff (a b : Source) : a.Clash b ↔ a.number = b.number := by
  cases a with
  | hinted hint => cases b <;> exact Iff.rfl
  | counted i =>
    cases b with
    | hinted hint => exact eq_comm
    | counted j =>
      simp only [Clash, number, ← UInt64.toNat_inj, UInt64.toNat_ofNat']
      omega

/-- What the sources tell of the table, sound or not. -/
structure Traced (s : Inodes) (r : Origins) : Prop where
  present : ∀ p, p ∈ r.present ↔ s.table.pathToIno p ≠ none
  counter : s.table.nextIno = .ofNat (r.counted + 2)
  handed : ∀ ino p, (ino, p) ∈ s.handed ↔ ∃ source, (source, p) ∈ r.sources ∧ source.number = ino
  bound : ∀ p ino, s.table.pathToIno p = some ino → (ino, p) ∈ s.handed

theorem traced_new : Traced new .new where
  present p := by
    by_cases top : p = .root <;> simp [new, InodeTable.new, Origins.new, top]
  counter := rfl
  handed ino p := by simp [new, Origins.new, Source.number, rootIno, and_comm, eq_comm]
  bound p ino bound := by
    by_cases top : p = .root
    · subst top
      have number : rootIno = ino := by simpa [new, InodeTable.new] using bound
      simp [new, number]
    · simp [new, InodeTable.new, top] at bound

/-- The source of a number that is needed is the one `choose` takes it from. -/
theorem Traced.choose {s : Inodes} {r : Origins} (traced : Traced s r) {path : FvfsPath}
    (unknown : path ∉ r.present) (hint : Option UInt64) :
    ∃ source, source.number = (s.table.choose hint).1 ∧
      (r.note (.getOrAlloc path hint)).sources = r.sources ++ [(source, path)] ∧
      (r.note (.getOrAlloc path hint)).present = path :: r.present ∧
      (s.table.choose hint).2 = .ofNat ((r.note (.getOrAlloc path hint)).counted + 2) := by
  cases hint with
  | some hint =>
    exact ⟨.hinted hint, rfl, by simp [Origins.note, unknown], by simp [Origins.note, unknown],
      by simpa [Origins.note, unknown, InodeTable.choose] using traced.counter⟩
  | none =>
    refine ⟨.counted r.counted, traced.counter.symm, by simp [Origins.note, unknown],
      by simp [Origins.note, unknown], ?_⟩
    simp only [Origins.note, unknown, if_false, InodeTable.choose, traced.counter,
      ← UInt64.toNat_inj, UInt64.toNat_add, UInt64.toNat_ofNat', UInt64.toNat_one]
    omega

theorem Traced.apply {s : Inodes} {r : Origins} (traced : Traced s r) (op : TableOp) :
    Traced (s.apply op) (r.note op) := by
  cases op with
  | remove path =>
    have gone (p : FvfsPath) : ((s.table.remove path).pathToIno p) =
        if p = path then none else s.table.pathToIno p := by
      unfold InodeTable.remove
      by_cases same : p = path
      · subst same
        cases found : s.table.pathToIno p <;> simp [found]
      · cases found : s.table.pathToIno path <;> simp [same]
    constructor
    · intro p
      by_cases same : p = path <;> simp [Inodes.apply, Origins.note, gone, same, traced.present]
    · have counter := traced.counter
      unfold Inodes.apply InodeTable.remove
      dsimp only
      split <;> exact counter
    · exact traced.handed
    · intro p ino bound
      simp only [Inodes.apply, gone] at bound
      split at bound
      · contradiction
      · exact traced.bound p ino bound
  | getOrAlloc path hint =>
    by_cases present : path ∈ r.present
    · obtain ⟨ino, known⟩ := Option.ne_none_iff_exists'.mp ((traced.present path).mp present)
      have listed := traced.bound path ino known
      have again (x : UInt64 × FvfsPath) : x ∈ s.handed ++ [(ino, path)] ↔ x ∈ s.handed := by
        simp only [List.mem_append, List.mem_singleton, or_iff_left_iff_imp]
        rintro rfl
        exact listed
      simp only [Inodes.apply, InodeTable.getOrAlloc_known known, Origins.note, present, if_true]
      exact ⟨traced.present, traced.counter, fun ino p => (again _).trans (traced.handed ino p),
        fun p ino bound => (again _).mpr (traced.bound p ino bound)⟩
    · have unknown : s.table.pathToIno path = none := by
        simpa [present] using (traced.present path).not
      obtain ⟨source, number, sources, presents, counter⟩ := traced.choose present hint
      simp only [Inodes.apply, InodeTable.getOrAlloc, unknown]
      constructor
      · intro p
        rw [presents]
        by_cases same : p = path <;> simp [same, traced.present]
      · exact counter
      · intro ino p
        rw [sources]
        simp only [List.mem_append, List.mem_singleton, Prod.mk.injEq, traced.handed]
        constructor
        · rintro (⟨old, member, eq⟩ | ⟨rfl, rfl⟩)
          · exact ⟨old, Or.inl member, eq⟩
          · exact ⟨source, Or.inr ⟨rfl, rfl⟩, number⟩
        · rintro ⟨old, member | ⟨rfl, rfl⟩, eq⟩
          · exact Or.inl ⟨old, member, eq⟩
          · exact Or.inr ⟨eq.symm.trans number, rfl⟩
      · intro p ino bound
        by_cases same : p = path
        · subst same
          have chosen : (s.table.choose hint).1 = ino := by simpa using bound
          simp [chosen]
        · exact List.mem_append_left _ (traced.bound p ino (by simpa [same] using bound))

theorem traced_foldl (ops : List TableOp) :
    Traced (ops.foldl apply new) (ops.foldl Origins.note .new) := by
  induction ops using List.reverseRecOn with
  | nil => exact traced_new
  | append_singleton past op ih =>
    rw [List.foldl_append, List.foldl_append]
    exact ih.apply op

/-- One more operation keeps the sources apart exactly where it spends no number twice. -/
theorem distinct_snoc (past : List TableOp) (op : TableOp) :
    Distinct (past ++ [op]) ↔ Distinct past ∧ (past.foldl apply new).Unspent op := by
  have traced := traced_foldl past
  unfold Distinct
  rw [List.foldl_append]
  generalize past.foldl Origins.note .new = r at traced ⊢
  generalize past.foldl apply new = s at traced ⊢
  cases op with
  | remove path => simp [Origins.note, Unspent]
  | getOrAlloc path hint =>
    by_cases present : path ∈ r.present
    · have known := (traced.present path).mp present
      simp [Origins.note, present, Unspent, known]
    · have unknown : s.table.pathToIno path = none := by
        simpa [present] using (traced.present path).not
      obtain ⟨source, number, sources, -, -⟩ := traced.choose present hint
      simp only [List.foldl_cons, List.foldl_nil, sources, List.pairwise_append,
        List.pairwise_singleton, List.mem_singleton, true_and, Unspent]
      refine and_congr_right fun _ => ⟨fun apart _ q handed => ?_, fun fresh a member b last => ?_⟩
      · obtain ⟨old, member, same⟩ := (traced.handed _ q).mp handed
        exact apart (old, q) member _ rfl ((Source.clash_iff _ _).mpr (same.trans number.symm))
      · subst last
        intro clash
        have same := (Source.clash_iff _ _).mp clash
        exact fresh unknown a.2 ((traced.handed _ _).mpr ⟨a.1, member, same.trans number⟩)

theorem distinct_iff_unspent (ops : List TableOp) :
    Distinct ops ↔ EachStep apply new ops Unspent := by
  induction ops using List.reverseRecOn with
  | nil => simp [Distinct, Origins.new]
  | append_singleton past op ih =>
    rw [distinct_snoc, ih, eachStep_snoc]

/-- Inode numbers keep their meaning throughout a session exactly when the sources of its
numbers, row ids and the counter, never clash for different paths. -/
theorem identity_iff (calls : List FuseCall) :
    Throughout apply new (issued new calls) Sound ↔ Distinct (issued new calls) :=
  (sound_iff_unspent _).trans (distinct_iff_unspent _).symm

/-- Eleven listed entries take the numbers 2 to 12; the row of id 2 is then looked up. -/
def crowded : List FuseCall :=
  [.readdir rootIno 0 ("abcdefghijk".toList.map fun c => ⟨['/', c]⟩) 20,
    .lookup rootIno ['x'] (some 2)]

/-- The last entry's number now resolves to the file looked up. -/
theorem hint_takes_counted_number :
    ¬∀ calls, Throughout apply new (issued new calls) Sound := by
  intro claimed
  have sound := claimed crowded _ (List.prefix_refl _)
  have stable := sound.stable 12 ⟨['/', 'k']⟩ ⟨['/', 'x']⟩ (by decide) (by decide)
  revert stable
  decide

end Inodes

end Fvfs
