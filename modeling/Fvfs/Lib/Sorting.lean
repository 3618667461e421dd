import Fvfs.Lib.Journal
import Mathlib.Data.List.FinRange
import Mathlib.Data.List.Sort

/-! Sorts as programs that ask how two positions compare, judged by answers that may drift
from one question to the next. -/
namespace Lib.Sorting

/-- A question names two positions. -/
abbrev Comparing (n : Nat) : Interface := ⟨Fin n × Fin n, fun _ => Ordering⟩

abbrev Procedure (n : Nat) := Prog (Comparing n) Empty (List (Fin n))

structure TotalPreorder (α : Type) where
  le : α → α → Bool
  total : ∀ a b, le a b = true ∨ le b a = true
  trans : ∀ a b c, le a b = true → le b c = true → le a c = true

def TotalPreorder.compare (r : TotalPreorder α) (a b : α) : Ordering :=
  if r.le a b then if r.le b a then .eq else .lt else .gt

variable {n : Nat}

/-- What the `k`-th question is answered. -/
abbrev Answers (n : Nat) := Nat → Fin n → Fin n → Ordering

def answering (answer : Answers n) : Handler (Comparing n) Nat Unit :=
  fun p _ k => (answer k p.1 p.2, k + 1)

def result (answer : Answers n) (s : Procedure n) : Except Empty (List (Fin n)) :=
  (s.exec (answering answer) (fun _ => ()) 0).1

/-- The questions with their answers, in order. -/
def asked (answer : Answers n) (s : Procedure n) : Journal (Comparing n) Nat :=
  s.journal (answering answer) (fun _ => ()) 0

/-- How many comparisons a sort makes under these answers. -/
def comparisons (answer : Answers n) (s : Procedure n) : Nat :=
  s.steps (answering answer) (fun _ => ()) 0

/-- Before what, and among equals what stands first. -/
def StandsBefore (r : TotalPreorder (Fin n)) (i j : Fin n) : Prop :=
  r.le i j = true ∧ (r.le j i = true → i < j)

/-- A stable sort compares different positions, and sorts by any order it is answered by. -/
structure Sorts (s : Procedure n) : Prop where
  distinct : s.Only fun p : Fin n × Fin n => p.1 ≠ p.2
  sorts : ∀ r : TotalPreorder (Fin n), ∃ order, result (fun _ => r.compare) s = .ok order ∧
    order.Perm (List.finRange n) ∧ order.Pairwise (StandsBefore r)

section TotalPreorder

variable {α : Type} {r : TotalPreorder α} {a b : α}

theorem TotalPreorder.compare_eq_lt : r.compare a b = .lt ↔ r.le b a = false := by
  have := r.total a b
  unfold TotalPreorder.compare
  cases ab : r.le a b <;> cases ba : r.le b a <;> simp_all

theorem TotalPreorder.le_of_compare_ne_lt (answer : r.compare a b ≠ .lt) : r.le b a = true := by
  by_contra behind
  exact answer (TotalPreorder.compare_eq_lt.mpr (by simpa using behind))

theorem TotalPreorder.compare_swap : r.compare b a = (r.compare a b).swap := by
  have := r.total a b
  unfold TotalPreorder.compare
  cases ab : r.le a b <;> cases ba : r.le b a <;> simp_all

/-- The order of a key. -/
def TotalPreorder.ofKey [LinearOrder κ] (key : α → κ) : TotalPreorder α where
  le a b := decide (key a ≤ key b)
  total a b := by simpa using le_total (key a) (key b)
  trans a b c := by simpa using le_trans

theorem TotalPreorder.compare_ofKey [LinearOrder κ] (key : α → κ) (a b : α) :
    (TotalPreorder.ofKey key).compare a b = Ord.compare (key a) (key b) := by
  unfold TotalPreorder.compare TotalPreorder.ofKey
  rcases lt_trichotomy (key a) (key b) with below | same | above
  · rw [compare_lt_iff_lt.mpr below]
    simp [below, below.le]
  · rw [compare_eq_iff_eq.mpr same]
    simp [same]
  · rw [compare_gt_iff_gt.mpr above]
    simp [above]

/-- Comparisons that are opposite both ways round compare as at their first reading. -/
theorem compare_of_swap {κ : Type} [LinearOrder κ] {early_i early_j late_i late_j : κ}
    (falls_i : late_i ≤ early_i) (falls_j : late_j ≤ early_j)
    (swap : compare early_j late_i = (compare early_i late_j).swap) :
    compare early_i late_j = compare early_i early_j := by
  cases answer : compare early_i late_j with
  | lt =>
    have below := (compare_lt_iff_lt.mp answer).trans_le falls_j
    exact (compare_lt_iff_lt.mpr below).symm
  | gt =>
    rw [answer] at swap
    have below := (compare_lt_iff_lt.mp swap).trans_le falls_i
    exact (compare_gt_iff_gt.mpr below).symm
  | eq =>
    rw [answer] at swap
    have first := compare_eq_iff_eq.mp answer
    have second := compare_eq_iff_eq.mp swap
    have same : early_i = early_j :=
      le_antisymm (first ▸ falls_j) (second ▸ falls_i)
    exact (compare_eq_iff_eq.mpr same).symm

end TotalPreorder

theorem exec_congr {answer other : Answers n} {allowed : Fin n × Fin n → Prop} {s : Procedure n}
    (only : s.Only allowed) {k l : Nat}
    (same : ∀ p m, allowed p → answer (k + m) p.1 p.2 = other (l + m) p.1 p.2) :
    (s.exec (answering answer) (fun _ => ()) k).1 = (s.exec (answering other) (fun _ => ()) l).1 := by
  induction s generalizing k l with
  | ret value => rfl
  | fail error => rfl
  | call p next ih =>
    have here : answer k p.1 p.2 = other l p.1 p.2 := same p 0 only.1
    simp only [Prog.exec, answering]
    rw [here]
    refine ih _ (only.2 _) fun q m permitted => ?_
    rw [Nat.add_assoc, Nat.add_assoc, Nat.add_comm 1 m]
    exact same q (m + 1) permitted

theorem mem_journal {answer : Answers n} {allowed : Fin n × Fin n → Prop} {s : Procedure n}
    (only : s.Only allowed) {k : Nat} {a : Happening (Comparing n) Nat}
    (member : a ∈ s.journal (answering answer) (fun _ => ()) k) :
    allowed a.op ∧ a.before < k + s.steps (answering answer) (fun _ => ()) k ∧
      a.res = answer a.before a.op.1 a.op.2 := by
  induction s generalizing k with
  | ret value => cases member
  | fail error => cases member
  | call p next ih =>
    rcases List.mem_cons.mp member with rfl | later
    · exact ⟨only.1, Nat.lt_add_of_pos_right (Nat.succ_pos _), rfl⟩
    · obtain ⟨permitted, early, given⟩ := ih _ (only.2 _) later
      simp only [Prog.steps, answering] at early ⊢
      exact ⟨permitted, by omega, given⟩

/-- Place an element in a sorted list, given last one first: it moves past those it is less than. -/
def insert (a : Fin n) : List (Fin n) → Procedure n
  | [] => pure [a]
  | b :: before =>
    if a = b then pure (a :: b :: before)
    else .call (a, b) fun
      | .lt => do
        let inserted ← insert a before
        pure (b :: inserted)
      | _ => pure (a :: b :: before)

/-- The positions, and what they are sorted to, are given last one first. -/
def insertAll : List (Fin n) → Procedure n
  | [] => pure []
  | a :: before => do
    let sorted ← insertAll before
    insert a sorted

/-- How `sort_by` sorts a short slice: each element in turn is compared with those before it,
from the right, until it is not less. -/
def insertionSort : Procedure n := do
  let sorted ← insertAll (List.finRange n).reverse
  pure sorted.reverse

theorem insert_distinct (a : Fin n) (xs : List (Fin n)) :
    (insert a xs).Only fun p : Fin n × Fin n => p.1 ≠ p.2 := by
  induction xs with
  | nil => trivial
  | cons b before ih =>
    unfold insert
    split
    · trivial
    next other =>
      refine ⟨other, fun answer => ?_⟩
      cases answer with
      | lt => exact ih.bind fun _ => trivial
      | gt => trivial
      | eq => trivial

theorem insertAll_distinct (xs : List (Fin n)) :
    (insertAll xs).Only fun p : Fin n × Fin n => p.1 ≠ p.2 := by
  induction xs with
  | nil => trivial
  | cons a before ih => exact ih.bind fun sorted => insert_distinct a sorted

section Run

variable (r : TotalPreorder (Fin n))

/-- Answered by one order, the procedure inserts as the list operation does. -/
theorem wp_insert (a : Fin n) (xs : List (Fin n)) (k : Nat) :
    (insert a xs).wp (answering fun _ => r.compare) (fun _ => True)
      (fun o _ => o = .ok (xs.orderedInsert (fun i j => r.le j i = true) a)) k := by
  induction xs generalizing k with
  | nil => rfl
  | cons b before ih =>
    have first (behind : r.le b a = true) :
        (b :: before).orderedInsert (fun i j => r.le j i = true) a = a :: b :: before :=
      List.orderedInsert_cons_of_le (fun i j => r.le j i = true) before behind
    unfold insert
    split
    next same =>
      have own : r.le b a = true := same ▸ (r.total a a).elim id id
      rw [first own]
      exact (rfl : Except.ok (a :: b :: before) = .ok (a :: b :: before))
    next other =>
      intro c _
      cases answer : r.compare a b with
      | lt =>
        have less := TotalPreorder.compare_eq_lt.mp answer
        have last : (b :: before).orderedInsert (fun i j => r.le j i = true) a =
            b :: before.orderedInsert (fun i j => r.le j i = true) a :=
          List.orderedInsert_of_not_le (fun i j => r.le j i = true) before (by simp [less])
        simp only [answering, answer]
        refine Prog.wp_seq (ih (k + 1)) ?_ ?_
        · rintro inserted _ ⟨⟩
          rw [last]
          exact (rfl : Except.ok (b :: _) = .ok (b :: _))
        · rintro e _ ⟨⟩
      | gt =>
        simp only [answering, answer]
        rw [first (TotalPreorder.le_of_compare_ne_lt (by simp [answer]))]
        exact (rfl : Except.ok (a :: b :: before) = .ok (a :: b :: before))
      | eq =>
        simp only [answering, answer]
        rw [first (TotalPreorder.le_of_compare_ne_lt (by simp [answer]))]
        exact (rfl : Except.ok (a :: b :: before) = .ok (a :: b :: before))

theorem wp_insertAll (xs : List (Fin n)) (k : Nat) :
    (insertAll xs).wp (answering fun _ => r.compare) (fun _ => True)
      (fun o _ => o = .ok (xs.insertionSort fun i j => r.le j i = true)) k := by
  induction xs generalizing k with
  | nil => rfl
  | cons a before ih =>
    refine Prog.wp_seq (ih k) ?_ ?_
    · rintro sorted k' ⟨⟩
      exact wp_insert r a _ k'
    · rintro e _ ⟨⟩

/-- An element that stood after all others stays after its equals. -/
theorem pairwise_orderedInsert {a : Fin n} {xs : List (Fin n)} (last : ∀ x ∈ xs, x < a)
    (sorted : xs.Pairwise fun i j => StandsBefore r j i) :
    (xs.orderedInsert (fun i j => r.le j i = true) a).Pairwise fun i j => StandsBefore r j i := by
  induction xs with
  | nil => simp
  | cons b before ih =>
    obtain ⟨below, sorted⟩ := List.pairwise_cons.mp sorted
    by_cases behind : r.le b a = true
    · rw [List.orderedInsert_cons_of_le (fun i j => r.le j i = true) before behind]
      refine List.pairwise_cons.mpr ⟨fun x member => ⟨?_, fun _ => last x member⟩,
        List.pairwise_cons.mpr ⟨below, sorted⟩⟩
      rcases List.mem_cons.mp member with rfl | inside
      · exact behind
      · exact r.trans x b a (below x inside).1 behind
    · rw [List.orderedInsert_of_not_le (fun i j => r.le j i = true) before behind]
      refine List.pairwise_cons.mpr ⟨fun x member => ?_,
        ih (fun x inside => last x (List.mem_cons_of_mem _ inside)) sorted⟩
      rcases (List.mem_orderedInsert _).mp member with rfl | inside
      · exact ⟨(r.total x b).resolve_right behind, fun back => absurd back behind⟩
      · exact below x inside

theorem pairwise_insertAll {xs : List (Fin n)} (descending : xs.Pairwise (· > ·)) :
    (xs.insertionSort fun i j => r.le j i = true).Pairwise fun i j => StandsBefore r j i := by
  induction xs with
  | nil => exact .nil
  | cons a before ih =>
    obtain ⟨last, descending⟩ := List.pairwise_cons.mp descending
    rw [List.insertionSort_cons]
    exact pairwise_orderedInsert r (fun x member => last x ((List.mem_insertionSort _).mp member))
      (ih descending)

end Run

theorem sorts_insertionSort : Sorts (insertionSort (n := n)) := by
  refine ⟨(insertAll_distinct _).bind fun _ => trivial, fun r => ?_⟩
  have run : (insertionSort (n := n)).wp (answering fun _ => r.compare) (fun _ => True)
      (fun o _ => o = .ok ((List.finRange n).reverse.insertionSort
        fun i j => r.le j i = true).reverse) 0 := by
    refine Prog.wp_seq (wp_insertAll r _ 0) ?_ ?_
    · rintro sorted _ ⟨⟩
      exact (rfl : Except.ok (List.reverse _) = .ok (List.reverse _))
    · rintro e _ ⟨⟩
  refine ⟨_, Prog.exec_of_wp run _ fun _ => trivial, ?_, ?_⟩
  · exact (List.reverse_perm _).trans ((List.perm_insertionSort _ _).trans (List.reverse_perm _))
  · rw [List.pairwise_reverse]
    exact pairwise_insertAll r (List.pairwise_reverse.mpr (List.pairwise_lt_finRange n))

/-- The answers to these questions, from the `k`-th on. -/
def replies (answer : Answers n) : Nat → List (Fin n × Fin n) → List Ordering
  | _, [] => []
  | k, p :: rest => answer k p.1 p.2 :: replies answer (k + 1) rest

def ordered (r : TotalPreorder (Fin n)) (ps : List (Fin n × Fin n)) : List Ordering :=
  ps.map fun p => r.compare p.1 p.2

theorem replies_ordered (r : TotalPreorder (Fin n)) (k : Nat) (ps : List (Fin n × Fin n)) :
    replies (fun _ => r.compare) k ps = ordered r ps := by
  induction ps generalizing k with
  | nil => rfl
  | cons p rest ih => exact congrArg _ (ih (k + 1))

open Classical in
/-- Sort if some order gives these answers, give up otherwise. -/
noncomputable def sortIf (ps : List (Fin n × Fin n)) (seen : List Ordering) : Procedure n :=
  if ∃ r, seen = ordered r ps then insertionSort else pure []

/-- Ask these questions before sorting. -/
noncomputable def probe (ps : List (Fin n × Fin n)) (seen : List Ordering) :
    List (Fin n × Fin n) → Procedure n
  | [] => sortIf ps seen
  | p :: rest => .call p fun a => probe ps (seen ++ [a]) rest

section Probe

variable (answer : Answers n) (ps : List (Fin n × Fin n))

theorem exec_probe (seen : List Ordering) (rest : List (Fin n × Fin n)) (k : Nat) :
    (probe ps seen rest).exec (answering answer) (fun _ => ()) k =
      (sortIf ps (seen ++ replies answer k rest)).exec (answering answer) (fun _ => ())
        (k + rest.length) := by
  induction rest generalizing seen k with
  | nil =>
    rw [replies, List.append_nil]
    rfl
  | cons p rest ih =>
    have later := ih (seen ++ [answer k p.1 p.2]) (k + 1)
    rw [List.append_assoc, Nat.add_assoc, Nat.add_comm 1] at later
    exact later

theorem steps_probe (seen : List Ordering) (rest : List (Fin n × Fin n)) (k : Nat) :
    (probe ps seen rest).steps (answering answer) (fun _ => ()) k =
      (sortIf ps (seen ++ replies answer k rest)).steps (answering answer) (fun _ => ())
        (k + rest.length) + rest.length := by
  induction rest generalizing seen k with
  | nil =>
    rw [replies, List.append_nil]
    rfl
  | cons p rest ih =>
    have later := ih (seen ++ [answer k p.1 p.2]) (k + 1)
    rw [List.append_assoc, Nat.add_assoc, Nat.add_comm 1] at later
    exact congrArg (· + 1) later

variable {answer} in
theorem mem_journal_probe (seen : List Ordering) {rest : List (Fin n × Fin n)} {m : Nat}
    {p : Fin n × Fin n} (there : rest[m]? = some p) (k : Nat) :
    (⟨k + m, p, answer (k + m) p.1 p.2⟩ : Happening (Comparing n) Nat) ∈
      (probe ps seen rest).journal (answering answer) (fun _ => ()) k := by
  induction rest generalizing seen k m with
  | nil => simp at there
  | cons q rest ih =>
    cases m with
    | zero =>
      obtain rfl := Option.some.inj there
      exact List.mem_cons_self
    | succ m =>
      have later := ih (seen ++ [answer k q.1 q.2]) (m := m) (by simpa using there) (k + 1)
      rw [Nat.add_assoc, Nat.add_comm 1] at later
      exact List.mem_cons_of_mem _ later

end Probe

theorem sorts_probe {ps : List (Fin n × Fin n)} (distinct : ∀ p ∈ ps, p.1 ≠ p.2) :
    Sorts (probe ps [] ps) where
  distinct := by
    suffices asks : ∀ (rest : List (Fin n × Fin n)) (seen : List Ordering),
        (∀ p ∈ rest, p.1 ≠ p.2) → (probe ps seen rest).Only fun p : Fin n × Fin n => p.1 ≠ p.2 from
      asks ps [] distinct
    intro rest
    induction rest with
    | nil =>
      intro seen _
      simp only [probe, sortIf]
      split
      · exact sorts_insertionSort.distinct
      · trivial
    | cons p rest ih =>
      exact fun seen distinct => ⟨distinct p List.mem_cons_self, fun a =>
        ih (seen ++ [a]) fun q later => distinct q (List.mem_cons_of_mem _ later)⟩
  sorts r := by
    obtain ⟨order, sorted, rest⟩ := sorts_insertionSort.sorts r
    refine ⟨order, ?_, rest⟩
    have possible : ∃ r' : TotalPreorder (Fin n), ordered r ps = ordered r' ps := ⟨r, rfl⟩
    rw [← sorted, result, exec_probe, replies_ordered, List.nil_append, sortIf, if_pos possible]
    exact exec_congr sorts_insertionSort.distinct fun _ _ _ => rfl

/-- All answers given are those of this order. -/
def Consistent (answer : Answers n) (s : Procedure n) (r : TotalPreorder (Fin n)) : Prop :=
  ∀ a ∈ asked answer s, a.res = r.compare a.op.1 a.op.2

/-- Answers of one order lead to what that order sorts to. -/
theorem Consistent.sorted {answer : Answers n} {s : Procedure n} {r : TotalPreorder (Fin n)}
    (consistent : Consistent answer s r) (sorts : Sorts s) :
    ∃ order, result answer s = .ok order ∧ order.Perm (List.finRange n) ∧
      order.Pairwise (StandsBefore r) := by
  have run (s : Procedure n) (k l : Nat)
      (given : ∀ a ∈ s.journal (answering answer) (fun _ => ()) k, a.res = r.compare a.op.1 a.op.2) :
      (s.exec (answering answer) (fun _ => ()) k).1 =
        (s.exec (answering fun _ => r.compare) (fun _ => ()) l).1 := by
    induction s generalizing k l with
    | ret value => rfl
    | fail error => rfl
    | call p next ih =>
      have here : answer k p.1 p.2 = r.compare p.1 p.2 := given _ List.mem_cons_self
      have later := fun a member => given a (List.mem_cons_of_mem _ member)
      simp only [Prog.exec, answering] at here later ⊢
      rw [here] at later ⊢
      exact ih _ (k + 1) (l + 1) later
  obtain ⟨order, sorted, rest⟩ := sorts.sorts r
  exact ⟨order, (run s 0 0 consistent).trans sorted, rest⟩

section Drift

variable {answer : Answers n}

/-- Only the comparisons made matter. -/
theorem consistent_of_steady {r : TotalPreorder (Fin n)} {N : Nat}
    (steady : ∀ k < N, ∀ i j, i ≠ j → answer k i j = r.compare i j) {s : Procedure n}
    (sorts : Sorts s) (few : comparisons answer s ≤ N) : Consistent answer s r := by
  intro a member
  obtain ⟨other, early, given⟩ := mem_journal sorts.distinct member
  rw [Nat.zero_add] at early
  rw [given, steady _ (early.trans_le few) _ _ other]

/-- Whatever is asked within the bound, in whatever order, is answered by one order: a sort that
found otherwise would give up there. -/
theorem questions_consistent {N : Nat}
    (always : ∀ s, Sorts s → comparisons answer s ≤ N → ∃ r, Consistent answer s r)
    (ps : List (Fin n × Fin n)) (distinct : ∀ p ∈ ps, p.1 ≠ p.2) (few : ps.length ≤ N) :
    ∃ r, replies answer 0 ps = ordered r ps := by
  by_contra implausible
  have gives_up : comparisons answer (probe ps [] ps) ≤ N := by
    rw [comparisons, steps_probe, List.nil_append, sortIf, if_neg implausible]
    exact (Nat.zero_add _).le.trans few
  obtain ⟨r, consistent⟩ := always _ (sorts_probe distinct) gives_up
  refine implausible ⟨r, ?_⟩
  suffices given : ∀ (k : Nat) (rest : List (Fin n × Fin n)),
      (∀ m p, rest[m]? = some p → answer (k + m) p.1 p.2 = r.compare p.1 p.2) →
        replies answer k rest = ordered r rest from
    given 0 ps fun m p there => consistent _ (mem_journal_probe ps [] there 0)
  intro k rest each
  induction rest generalizing k with
  | nil => rfl
  | cons p rest ih =>
    have later : ∀ m q, rest[m]? = some q → answer (k + 1 + m) q.1 q.2 = r.compare q.1 q.2 := by
      intro m q there
      rw [Nat.add_assoc, Nat.add_comm 1]
      exact each (m + 1) q (by simpa using there)
    exact List.cons_eq_cons.mpr ⟨each 0 p rfl, ih (k + 1) later⟩

section Bounded

variable {N : Nat}
  (always : ∀ s, Sorts s → comparisons answer s ≤ N → ∃ r, Consistent answer s r)

include always

/-- A question has the same answer every time. -/
theorem answer_steady {i j : Fin n} (other : i ≠ j) {k : Nat} (early : k < N) :
    answer k i j = answer 0 i j := by
  obtain ⟨r, given⟩ := questions_consistent always (.replicate (k + 1) (i, j))
    (fun p member => List.eq_of_mem_replicate member ▸ other)
    (by simpa [Nat.succ_le_iff] using early)
  have each : ∀ (m l : Nat), replies answer l (.replicate m (i, j)) =
      ordered r (.replicate m (i, j)) → ∀ d < m, answer (l + d) i j = r.compare i j := by
    intro m
    induction m with
    | zero => exact fun _ _ d late => absurd late (Nat.not_lt_zero d)
    | succ m ih =>
      intro l same d within
      obtain ⟨here, later⟩ := List.cons.inj same
      cases d with
      | zero => exact here
      | succ d =>
        have := ih (l + 1) later d (Nat.lt_of_succ_lt_succ within)
        rwa [Nat.add_assoc, Nat.add_comm 1] at this
  have now := each _ 0 given k (Nat.lt_succ_self k)
  have first := each _ 0 given 0 (Nat.succ_pos k)
  rw [Nat.zero_add] at now
  exact now.trans first.symm

/-- Asked the other way round, it has the opposite one. -/
theorem answer_swap (two : 2 ≤ N) {i j : Fin n} (other : i ≠ j) :
    answer 0 j i = (answer 0 i j).swap := by
  obtain ⟨r, given⟩ := questions_consistent always [(i, j), (j, i)]
    (by simp [other, other.symm]) two
  obtain ⟨first, rest⟩ := List.cons.inj given
  obtain ⟨second, -⟩ := List.cons.inj rest
  rw [answer_steady always other.symm (by omega : 0 + 1 < N)] at second
  exact second.trans (TotalPreorder.compare_swap.trans (congrArg Ordering.swap first.symm))

end Bounded

end Drift

end Lib.Sorting
