import Fvfs.Lib.Sorting
import Fvfs.Types
import Mathlib.Algebra.Order.Field.Rat
import Mathlib.Data.Int.ConditionallyCompleteOrder
import Mathlib.Tactic.GCongr
import Mathlib.Tactic.NormNum

/-! The order in which files are evicted: a sort whose comparisons read the clock, twice each. -/
namespace Fvfs

open Lib Lib.Sorting

/-- Scores are computed exactly. -/
structure ArcInspiredPolicy where
  recencyWeight : Rat
  frequencyWeight : Rat

namespace ArcInspiredPolicy

/-- `EvictionPolicy::score`, at this reading of the clock. -/
def score (policy : ArcInspiredPolicy) (now : Int) (entry : FileMetadata) : Rat :=
  policy.recencyWeight / (max (now - entry.accessedAt) 1 : Int) +
    policy.frequencyWeight * entry.accessCount30d

/-- A score does not rise with time. -/
theorem score_antitone {policy : ArcInspiredPolicy} (weight : 0 ≤ policy.recencyWeight)
    (entry : FileMetadata) {now later : Int} (passes : now ≤ later) :
    policy.score later entry ≤ policy.score now entry := by
  have shorter : (max (now - entry.accessedAt) 1 : Int) ≤ max (later - entry.accessedAt) 1 := by
    omega
  have positive : (0 : Rat) < (max (now - entry.accessedAt) 1 : Int) := by
    exact_mod_cast (by omega : 0 < max (now - entry.accessedAt) 1)
  have recency : policy.recencyWeight / (max (later - entry.accessedAt) 1 : Int) ≤
      policy.recencyWeight / (max (now - entry.accessedAt) 1 : Int) :=
    div_le_div_of_nonneg_left weight positive (by exact_mod_cast shorter)
  unfold score
  gcongr

/-- The comparator of `rank_for_eviction` and of the eviction cycle, in its `k`-th call: each
of the two scores reads the clock once. -/
def comparator (policy : ArcInspiredPolicy) (files : List FileMetadata) (clock : Nat → Int) :
    Answers files.length := fun k i j =>
  compare (policy.score (clock (2 * k)) files[i]) (policy.score (clock (2 * k + 1)) files[j])

/-- The comparator kept to one order, and the files are ranked by their scores at one of the
readings. -/
structure Ordered (policy : ArcInspiredPolicy) (files : List FileMetadata) (clock : Nat → Int)
    (s : Procedure files.length) : Prop where
  consistent : ∃ r, Consistent (policy.comparator files clock) s r
  ascending : ∃ k order, result (policy.comparator files clock) s = .ok order ∧
    order.Perm (List.finRange files.length) ∧ order.Pairwise fun i j =>
      policy.score (clock k) files[i] ≤ policy.score (clock k) files[j]

section Ordered

variable {policy : ArcInspiredPolicy} {files : List FileMetadata} {clock : Nat → Int}

/-- Every sort of at most so many comparisons finds the files in one order, that of their scores
at one reading, exactly where any two files compare throughout these comparisons as at the first
reading. -/
theorem eviction_order_iff (weight : 0 ≤ policy.recencyWeight) (ticks : Monotone clock) {N : Nat}
    (two : 2 ≤ N) :
    (∀ s, Sorts s → comparisons (policy.comparator files clock) s ≤ N →
      policy.Ordered files clock s) ↔
      ∀ k < N, ∀ i j, i ≠ j → policy.comparator files clock k i j =
        compare (policy.score (clock 0) files[i]) (policy.score (clock 0) files[j]) := by
  constructor
  · intro always k early i j other
    have consistent := fun s sorts few => (always s sorts few).consistent
    have falls (i : Fin files.length) := score_antitone weight files[i] (ticks (Nat.zero_le 1))
    rw [answer_steady consistent other early]
    exact compare_of_swap (falls i) (falls j) (answer_swap consistent two other)
  · intro steady s sorts few
    let key (i : Fin files.length) : Rat := policy.score (clock 0) files[i]
    have consistent : Consistent (policy.comparator files clock) s (.ofKey key) :=
      consistent_of_steady (fun k early i j other =>
        (steady k early i j other).trans (TotalPreorder.compare_ofKey key i j).symm) sorts few
    obtain ⟨order, sorted, perm, ascending⟩ := consistent.sorted sorts
    refine ⟨⟨_, consistent⟩, 0, order, sorted, perm, ascending.imp fun before => ?_⟩
    simpa [TotalPreorder.ofKey, key] using before.1

end Ordered

def samplePolicy : ArcInspiredPolicy := ⟨1, 0⟩

def sampleEntry (id : Nat) (name : Char) (accessedAt : Int) : FileMetadata :=
  ⟨id, ⟨['/', name]⟩, .file, 1, [], .all, 0, 0, accessedAt, 0, none⟩

/-- The file accessed last stands first. -/
def sampleEntries : List FileMetadata := [sampleEntry 2 'b' 1, sampleEntry 1 'a' 0]

def newer : Fin sampleEntries.length := ⟨0, by decide⟩
def older : Fin sampleEntries.length := ⟨1, by decide⟩

theorem still_clock_iff :
    (∀ s, Sorts s → comparisons (samplePolicy.comparator sampleEntries fun _ => 100) s ≤ 2 →
      samplePolicy.Ordered sampleEntries (fun _ => 100) s) ↔
      ∀ k < 2, ∀ i j, i ≠ j → samplePolicy.comparator sampleEntries (fun _ => 100) k i j =
        compare (samplePolicy.score 100 sampleEntries[i])
          (samplePolicy.score 100 sampleEntries[j]) :=
  eviction_order_iff (by decide) monotone_const (Nat.le_refl 2)

/-- The clock ticks between the two readings of the only comparison. -/
def tickingClock (k : Nat) : Int := if k = 0 then 100 else 200

theorem tickingClock_monotone : Monotone tickingClock := by
  intro k l before
  unfold tickingClock
  split <;> split <;> omega

/-- Compared with the file before it, the file accessed first keeps its place behind it, though
its score is lower at either reading. -/
theorem tick_reverses_order :
    ¬∀ (policy : ArcInspiredPolicy) (files : List FileMetadata) (clock : Nat → Int)
      (s : Procedure files.length), 0 ≤ policy.recencyWeight → 0 ≤ policy.frequencyWeight →
        Monotone clock → Sorts s → policy.Ordered files clock s := by
  intro claimed
  obtain ⟨-, k, order, ranked, -, ascending⟩ := claimed samplePolicy sampleEntries tickingClock
    insertionSort (by decide) (by decide) tickingClock_monotone sorts_insertionSort
  have kept : (result (samplePolicy.comparator sampleEntries tickingClock)
      insertionSort).toOption = some [newer, older] := by
    decide +kernel
  rw [ranked] at kept
  obtain rfl := Option.some.inj kept
  have lower := (List.pairwise_cons.mp ascending).1 older List.mem_cons_self
  have higher : ∀ now ∈ [100, 200], samplePolicy.score now sampleEntries[older] <
      samplePolicy.score now sampleEntries[newer] := by decide +kernel
  have reading : tickingClock k ∈ [100, 200] := by
    unfold tickingClock
    split <;> simp
  exact absurd lower (not_le.mpr (higher _ reading))

end ArcInspiredPolicy

end Fvfs
