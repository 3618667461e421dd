import Fvfs.Inodes

/-! The client's inode table: every number comes from one counter, so a number keeps its
meaning until the counter comes round. -/
namespace Fvfs.Fvfsc

open Lib
open Function (update)

structure InodeTable where
  inoToPath : UInt64 → Option FvfsPath
  pathToIno : FvfsPath → Option UInt64
  nextIno : UInt64

namespace InodeTable

def new : InodeTable where
  inoToPath := update (fun _ => none) rootIno (some .root)
  pathToIno := update (fun _ => none) .root (some rootIno)
  nextIno := 2

def getOrAlloc (t : InodeTable) (path : FvfsPath) : UInt64 × InodeTable :=
  match t.pathToIno path with
  | some ino => (ino, t)
  | none =>
    (t.nextIno, {
      inoToPath := update t.inoToPath t.nextIno (some path)
      pathToIno := update t.pathToIno path (some t.nextIno)
      nextIno := t.nextIno + 1 })

def path (t : InodeTable) (ino : UInt64) : Option FvfsPath := t.inoToPath ino

def remove (t : InodeTable) (path : FvfsPath) : InodeTable :=
  match t.pathToIno path with
  | some ino =>
    { t with
      pathToIno := update t.pathToIno path none
      inoToPath := update t.inoToPath ino none }
  | none => t

def naming (t : InodeTable) : Naming UInt64 FvfsPath := ⟨t.inoToPath, t.pathToIno⟩

theorem getOrAlloc_known {t : InodeTable} {path : FvfsPath} {ino : UInt64}
    (known : t.pathToIno path = some ino) : t.getOrAlloc path = (ino, t) := by
  simp [getOrAlloc, known]

theorem naming_remove (t : InodeTable) (path : FvfsPath) :
    (t.remove path).naming = t.naming.unbind path := by
  unfold remove Naming.unbind
  cases found : t.pathToIno path <;> simp [naming, found]

theorem nextIno_remove (t : InodeTable) (path : FvfsPath) :
    (t.remove path).nextIno = t.nextIno := by
  unfold remove
  split <;> rfl

end InodeTable

inductive TableOp where
  | getOrAlloc (path : FvfsPath)
  | remove (path : FvfsPath)

/-- The table, every number it has handed out with the path it was for, and how many of
these calls allocated one. -/
structure Inodes where
  table : InodeTable
  handed : List (UInt64 × FvfsPath)
  allocated : Nat

namespace Inodes

def new : Inodes := ⟨.new, [(rootIno, .root)], 0⟩

def apply (s : Inodes) : TableOp → Inodes
  | .getOrAlloc path =>
    let (ino, table) := s.table.getOrAlloc path
    ⟨table, s.handed ++ [(ino, path)],
      if (s.table.pathToIno path).isNone then s.allocated + 1 else s.allocated⟩
  | .remove path => { s with table := s.table.remove path }

theorem apply_known {s : Inodes} {path : FvfsPath} {ino : UInt64}
    (known : s.table.pathToIno path = some ino) :
    s.apply (.getOrAlloc path) = { s with handed := s.handed ++ [(ino, path)] } := by
  simp [apply, InodeTable.getOrAlloc_known known, known]

theorem apply_unknown {s : Inodes} {path : FvfsPath} (unknown : s.table.pathToIno path = none) :
    (s.apply (.getOrAlloc path)).table.naming = s.table.naming.bind s.table.nextIno path ∧
    (s.apply (.getOrAlloc path)).table.nextIno = s.table.nextIno + 1 ∧
    (s.apply (.getOrAlloc path)).handed = s.handed ++ [(s.table.nextIno, path)] ∧
    (s.apply (.getOrAlloc path)).allocated = s.allocated + 1 := by
  simp [apply, InodeTable.getOrAlloc, unknown, InodeTable.naming, Naming.bind]

/-- The identity the kernel relies on. -/
structure Sound (s : Inodes) : Prop where
  inverse : ∀ ino p, s.table.inoToPath ino = some p ↔ s.table.pathToIno p = some ino
  steady : ∀ p ino, s.table.pathToIno p = some ino → s.table.getOrAlloc p = (ino, s.table)
  stable : ∀ ino p q, (ino, p) ∈ s.handed → s.table.path ino = some q → q = p

/-- Every number in the table is below the counter. -/
def Below (s : Inodes) : Prop := ∀ ino p, s.table.inoToPath ino = some p → ino < s.table.nextIno

/-- The number the counter gives at its `i`-th allocation. -/
def counted (i : Nat) : Nat := (2 + i) % 2 ^ 64

/-- The counter has moved once for each allocation, and gave every number but the root's. -/
structure Consistent (s : Inodes) : Prop where
  kept : Naming.Kept s.table.naming s.handed
  counter : s.table.nextIno.toNat = counted s.allocated
  numbers : ∀ ino p, (ino, p) ∈ s.handed → ino = rootIno ∨ ∃ i < s.allocated, ino.toNat = counted i

theorem Consistent.sound {s : Inodes} (consistent : Consistent s) : Sound s where
  inverse := consistent.kept.inverse
  steady := fun _ _ known => InodeTable.getOrAlloc_known known
  stable := consistent.kept.honest

theorem Consistent.below {s : Inodes} (consistent : Consistent s)
    (room : s.allocated + 2 < 2 ^ 64) : Below s := by
  intro ino p found
  rw [UInt64.lt_iff_toNat_lt, consistent.counter]
  rcases consistent.numbers ino p (consistent.kept.recorded ino p found) with rfl | ⟨i, early, same⟩
  · have one : rootIno.toNat = 1 := rfl
    unfold counted
    omega
  · rw [same]
    unfold counted
    omega

/-- The counter's next number was never handed out before. -/
theorem Consistent.fresh {s : Inodes} (consistent : Consistent s)
    (room : s.allocated + 1 < 2 ^ 64) (path : FvfsPath) :
    Naming.Fresh s.handed s.table.nextIno path := by
  intro p handed
  have counter := consistent.counter
  rcases consistent.numbers _ p handed with root | ⟨i, early, same⟩
  · have one : rootIno.toNat = 1 := rfl
    rw [root, one, counted] at counter
    omega
  · rw [same, counted, counted] at counter
    omega

theorem consistent_new : Consistent new := by
  constructor
  · exact Fvfs.Inodes.consistent_new.kept
  · rfl
  · intro ino p handed
    simp only [new, List.mem_singleton, Prod.mk.injEq] at handed
    exact Or.inl handed.1

theorem apply_consistent (s : Inodes) (op : TableOp) (consistent : Consistent s)
    (room : (s.apply op).allocated < 2 ^ 64) : Consistent (s.apply op) := by
  cases op with
  | getOrAlloc path =>
    cases known : s.table.pathToIno path with
    | some ino =>
      have recorded := consistent.kept.recorded ino path ((consistent.kept.inverse ino path).mpr known)
      rw [apply_known known]
      refine ⟨consistent.kept.again known, consistent.counter, fun n p handed => ?_⟩
      rcases List.mem_append.mp handed with old | new
      · exact consistent.numbers n p old
      · obtain ⟨rfl, rfl⟩ := Prod.mk.inj (List.mem_singleton.mp new)
        exact consistent.numbers n p recorded
    | none =>
      obtain ⟨naming, counter, handed, allocated⟩ := apply_unknown known
      rw [allocated] at room
      constructor
      · rw [naming, handed]
        exact consistent.kept.bind known (consistent.fresh room path)
      · rw [counter, allocated, UInt64.toNat_add, consistent.counter]
        have one : (1 : UInt64).toNat = 1 := rfl
        rw [one, counted, counted]
        omega
      · intro n p member
        rw [handed] at member
        rw [allocated]
        rcases List.mem_append.mp member with old | new
        · rcases consistent.numbers n p old with root | ⟨i, early, same⟩
          · exact Or.inl root
          · exact Or.inr ⟨i, by omega, same⟩
        · obtain ⟨rfl, rfl⟩ := Prod.mk.inj (List.mem_singleton.mp new)
          exact Or.inr ⟨s.allocated, by omega, consistent.counter⟩
  | remove path =>
    constructor
    · simp only [apply, InodeTable.naming_remove]
      exact consistent.kept.unbind path
    · simp only [apply, InodeTable.nextIno_remove]
      exact consistent.counter
    · exact consistent.numbers

/-- Allocations are never taken back. -/
theorem allocated_mono (s : Inodes) (history : List TableOp) :
    s.allocated ≤ (history.foldl apply s).allocated := by
  induction history generalizing s with
  | nil => exact Nat.le_refl _
  | cons op history ih =>
    apply Nat.le_trans _ (ih (s.apply op))
    cases op with
    | getOrAlloc path =>
      simp only [apply]
      split <;> omega
    | remove path => exact Nat.le_refl _

/-- Throughout a session with fewer than 2^64 allocations inode numbers keep their meaning,
and they are below the counter until it comes round at the last but one of them. -/
theorem client_identity (history : List TableOp)
    (room : (history.foldl apply new).allocated < 2 ^ 64) :
    Throughout apply new history fun s => Sound s ∧ (s.allocated + 2 < 2 ^ 64 → Below s) := by
  have steps : EachStep apply new history fun s op => (s.apply op).allocated < 2 ^ 64 := by
    rintro past op ⟨rest, rfl⟩
    have later := allocated_mono ((past ++ [op]).foldl apply new) rest
    rw [← List.foldl_append] at later
    rw [List.foldl_append] at later
    exact Nat.lt_of_le_of_lt (by simpa using later) room
  have consistent := throughout_of_eachStep consistent_new
    (fun s op holds room => apply_consistent s op holds room) steps
  exact consistent.mono fun s holds => ⟨holds.sound, holds.below⟩

/-- A file that is removed and created again gets the next number. -/
theorem client_identity_recreated :
    Throughout apply new [.getOrAlloc ⟨['/', 'a']⟩, .remove ⟨['/', 'a']⟩, .getOrAlloc ⟨['/', 'a']⟩]
      fun s => Sound s ∧ (s.allocated + 2 < 2 ^ 64 → Below s) :=
  client_identity _ (by decide)

/-- One path, created and removed so many times. -/
def recreated (times : Nat) : List TableOp :=
  (List.replicate times [.getOrAlloc ⟨['/', 'a']⟩, .remove ⟨['/', 'a']⟩]).flatten

theorem fold_recreated (times : Nat) {s : Inodes}
    (absent : s.table.pathToIno ⟨['/', 'a']⟩ = none) :
    let after := (recreated times).foldl apply s
    after.table.pathToIno ⟨['/', 'a']⟩ = none ∧
      after.table.nextIno = s.table.nextIno + UInt64.ofNat times ∧
      after.allocated = s.allocated + times := by
  induction times generalizing s with
  | zero => simpa [recreated] using absent
  | succ times ih =>
    have gone : ((s.apply (.getOrAlloc ⟨['/', 'a']⟩)).apply (.remove ⟨['/', 'a']⟩)).table.pathToIno
        ⟨['/', 'a']⟩ = none := by
      simp [apply, InodeTable.getOrAlloc, InodeTable.remove, absent]
    obtain ⟨unknown, counter, allocated⟩ := ih gone
    have first := apply_unknown absent
    refine ⟨unknown, counter.trans ?_, allocated.trans ?_⟩
    · simp only [apply, InodeTable.nextIno_remove]
      rw [UInt64.ofNat_add]
      simp [InodeTable.getOrAlloc, absent, UInt64.add_assoc, UInt64.add_comm]
    · simp only [apply, absent, Option.isNone_none, if_true]
      omega

/-- After the last number below 2^64 the counter is zero. -/
theorem not_below_of_full {times : Nat} (full : times + 3 = 2 ^ 64) :
    let s := (recreated times ++ [TableOp.getOrAlloc ⟨['/', 'a']⟩]).foldl apply new
    s.allocated < 2 ^ 64 ∧ ¬Below s := by
  obtain ⟨absent, counter, allocated⟩ := fold_recreated times (s := new) (by decide)
  obtain ⟨naming, next, -, total⟩ := apply_unknown absent
  simp only [List.foldl_append, List.foldl_cons, List.foldl_nil]
  have start : new.allocated = 0 := rfl
  refine ⟨by omega, fun below => ?_⟩
  have found := congrFun (congrArg Naming.object naming)
    ((recreated times).foldl apply new).table.nextIno
  have last := below _ ⟨['/', 'a']⟩ (found.trans (Function.update_self ..))
  have second : new.table.nextIno = 2 := rfl
  have small : (UInt64.ofNat times).toNat = times := by
    rw [UInt64.toNat_ofNat', Nat.mod_eq_of_lt (by omega)]
  rw [next, counter, second, UInt64.lt_iff_toNat_lt] at last
  simp only [UInt64.toNat_add, UInt64.toNat_ofNat, small] at last
  omega

/-- The counter has come round when the last number below 2^64 is in the table. -/
theorem counter_comes_round :
    ¬∀ history, (history.foldl apply new).allocated < 2 ^ 64 →
      Throughout apply new history fun s => Sound s ∧ Below s := by
  intro claimed
  have full : (2 ^ 64 - 3) + 3 = 2 ^ 64 := by decide
  obtain ⟨room, wrapped⟩ := not_below_of_full full
  exact wrapped (claimed _ room _ (List.prefix_refl _)).2

end Inodes

end Fvfs.Fvfsc
