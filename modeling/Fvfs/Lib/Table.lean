import Mathlib.Algebra.GroupWithZero.Nat
import Mathlib.Data.List.Pairwise
import Mathlib.Data.List.Nodup
import Mathlib.Data.List.Sort

/-! Row tables with an integer key. A new row gets the highest key in use plus one,
so the key of a deleted last row is handed out again; scans go in key order. -/
namespace Lib

/-- Keys ascend along the rows, so a key names at most one row. -/
structure Table (ρ : Type) where
  rows : List (Nat × ρ)
  ascending : rows.Pairwise (fun a b => a.1 < b.1)

namespace Table

variable {ρ : Type}

def empty : Table ρ := ⟨[], .nil⟩

def get? (t : Table ρ) (i : Nat) : Option ρ := (t.rows.find? (fun x => x.1 == i)).map Prod.snd

def ids (t : Table ρ) : List Nat := t.rows.map Prod.fst

/-- The key the next inserted row gets. -/
def nextId (t : Table ρ) : Nat := t.ids.foldr max 0 + 1

theorem le_foldr_max {xs : List Nat} {i : Nat} (member : i ∈ xs) : i ≤ xs.foldr max 0 := by
  induction xs with
  | nil => cases member
  | cons x xs ih =>
    simp only [List.foldr_cons]
    rcases List.mem_cons.mp member with rfl | inside
    · exact Nat.le_max_left _ _
    · exact Nat.le_trans (ih inside) (Nat.le_max_right _ _)

theorem lt_nextId {t : Table ρ} {x : Nat × ρ} (member : x ∈ t.rows) : x.1 < t.nextId :=
  Nat.lt_succ_of_le (le_foldr_max (List.mem_map_of_mem member))

def insert (t : Table ρ) (r : ρ) : Table ρ :=
  ⟨t.rows ++ [(t.nextId, r)], by
    rw [List.pairwise_append]
    refine ⟨t.ascending, List.pairwise_singleton _ _, ?_⟩
    intro a ha b hb
    obtain rfl := List.mem_singleton.mp hb
    exact lt_nextId ha⟩

def modify (t : Table ρ) (i : Nat) (f : ρ → ρ) : Table ρ :=
  ⟨t.rows.map (fun x => (x.1, if x.1 = i then f x.2 else x.2)), by
    simpa [List.pairwise_map] using t.ascending⟩

/-- Keep the rows the test accepts. -/
def filter (t : Table ρ) (keep : Nat → ρ → Bool) : Table ρ :=
  ⟨t.rows.filter (fun x => keep x.1 x.2), t.ascending.filter _⟩

/-- Every row's contents through `f`. -/
def map (t : Table ρ) (f : ρ → σ) : Table σ :=
  ⟨t.rows.map (fun x => (x.1, f x.2)), by simpa [List.pairwise_map] using t.ascending⟩

/-- The first row, in key order, whose contents the test accepts. -/
def findRow (t : Table ρ) (p : ρ → Bool) : Option (Nat × ρ) := t.rows.find? (fun x => p x.2)

theorem ids_nodup (t : Table ρ) : t.ids.Nodup :=
  List.pairwise_map.mpr (t.ascending.imp (fun lt => Nat.ne_of_lt lt))

theorem mem_rows_inj {t : Table ρ} {i : Nat} {r s : ρ} (hr : (i, r) ∈ t.rows)
    (hs : (i, s) ∈ t.rows) : r = s :=
  congrArg Prod.snd (List.inj_on_of_nodup_map t.ids_nodup hr hs rfl)

theorem mem_rows_iff {t : Table ρ} {i : Nat} {r : ρ} :
    (i, r) ∈ t.rows ↔ t.get? i = some r := by
  unfold get?
  constructor
  · intro member
    cases found : t.rows.find? (fun x => x.1 == i) with
    | none =>
      have missing := List.find?_eq_none.mp found (i, r) member
      simp at missing
    | some x =>
      obtain ⟨j, s⟩ := x
      have key : j = i := by simpa using List.find?_some found
      subst key
      simp [mem_rows_inj (List.mem_of_find?_eq_some found) member]
  · intro found
    obtain ⟨⟨j, s⟩, at_key, rfl⟩ := Option.map_eq_some_iff.mp found
    have key : j = i := by simpa using List.find?_some at_key
    exact key ▸ List.mem_of_find?_eq_some at_key

theorem get?_eq_none_iff {t : Table ρ} {i : Nat} : t.get? i = none ↔ ∀ r, (i, r) ∉ t.rows := by
  simp only [mem_rows_iff]
  exact Option.eq_none_iff_forall_ne_some

theorem get?_congr {t u : Table ρ} {i j : Nat} (same : ∀ r, (i, r) ∈ t.rows ↔ (j, r) ∈ u.rows) :
    t.get? i = u.get? j := by
  ext r
  rw [← mem_rows_iff, ← mem_rows_iff]
  exact same r

@[simp] theorem get?_empty (i : Nat) : (empty : Table ρ).get? i = none := rfl

theorem get?_of_nextId_le {t : Table ρ} {i : Nat} (unused : t.nextId ≤ i) : t.get? i = none :=
  get?_eq_none_iff.mpr fun _ member => Nat.not_lt_of_le unused (lt_nextId member)

@[simp] theorem get?_nextId (t : Table ρ) : t.get? t.nextId = none :=
  get?_of_nextId_le (Nat.le_refl _)

theorem ne_nextId_of_get? {t : Table ρ} {i : Nat} {r : ρ} (found : t.get? i = some r) :
    i ≠ t.nextId := Nat.ne_of_lt (lt_nextId (mem_rows_iff.mpr found))

theorem get?_insert (t : Table ρ) (r : ρ) (i : Nat) :
    (t.insert r).get? i = if i = t.nextId then some r else t.get? i := by
  split
  next fresh =>
    rw [← mem_rows_iff]
    simp [insert, fresh]
  next other => exact get?_congr fun s => by simp [insert, other]

@[simp] theorem get?_insert_self (t : Table ρ) (r : ρ) : (t.insert r).get? t.nextId = some r := by
  simp [get?_insert]

theorem get?_modify (t : Table ρ) (i j : Nat) (f : ρ → ρ) :
    (t.modify i f).get? j = if j = i then (t.get? j).map f else t.get? j := by
  unfold get? modify
  rw [List.find?_map]
  simp only [Function.comp_def]
  cases found : t.rows.find? (fun x => x.1 == j) with
  | none => simp
  | some x =>
    have key : x.1 = j := by simpa using List.find?_some found
    simp only [Option.map_some, key]
    split <;> rfl

theorem get?_filter (t : Table ρ) (keep : Nat → ρ → Bool) (i : Nat) :
    (t.filter keep).get? i = (t.get? i).filter (keep i) := by
  ext r
  simp only [← mem_rows_iff, filter, List.mem_filter, Option.filter_eq_some_iff]

theorem get?_map (t : Table ρ) (f : ρ → σ) (i : Nat) : (t.map f).get? i = (t.get? i).map f := by
  simp only [get?, map, List.find?_map, Function.comp_def, Option.map_map]

theorem map_map (t : Table ρ) (f : ρ → σ) (g : σ → τ) : (t.map f).map g = t.map (g ∘ f) := by
  simp [map, Function.comp_def]

/-- A change of one row the map cannot see. -/
theorem map_modify_of_same {t : Table ρ} {i : Nat} {g : ρ → ρ} {f : ρ → σ}
    (same : ∀ r, f (g r) = f r) : (t.modify i g).map f = t.map f := by
  simp only [map, modify, List.map_map, mk.injEq]
  refine List.map_congr_left fun x _ => ?_
  simp only [Function.comp_apply]
  split <;> simp [same]

theorem map_modify {t : Table ρ} {i : Nat} {g : ρ → ρ} {f : ρ → σ} {k : σ → σ}
    (commutes : ∀ r, f (g r) = k (f r)) : (t.modify i g).map f = (t.map f).modify i k := by
  simp only [map, modify, List.map_map, mk.injEq]
  refine List.map_congr_left fun x _ => ?_
  simp only [Function.comp_apply]
  split <;> simp [commutes]

/-- Only what is done to the row itself counts. -/
theorem modify_congr {t : Table ρ} {i : Nat} {r : ρ} {f g : ρ → ρ} (found : t.get? i = some r)
    (same : f r = g r) : t.modify i f = t.modify i g := by
  simp only [modify, mk.injEq]
  refine List.map_congr_left fun x member => ?_
  split
  next here =>
    have there := mem_rows_iff.mp member
    rw [here, found] at there
    rw [← Option.some.inj there, same]
  next => rfl

/-- A key is in use exactly when a row has it. -/
theorem isSome_get?_iff {t : Table ρ} {i : Nat} : (t.get? i).isSome ↔ i ∈ t.ids := by
  simp only [Option.isSome_iff_exists, ← mem_rows_iff, ids, List.mem_map, Prod.exists,
    exists_and_right, exists_eq_right]

@[simp] theorem ids_modify (t : Table ρ) (i : Nat) (f : ρ → ρ) : (t.modify i f).ids = t.ids := by
  simp [ids, modify, Function.comp_def]

@[simp] theorem nextId_modify (t : Table ρ) (i : Nat) (f : ρ → ρ) :
    (t.modify i f).nextId = t.nextId := by simp [nextId]

theorem foldr_max_append (xs : List Nat) (n : Nat) :
    (xs ++ [n]).foldr max 0 = max (xs.foldr max 0) n := by
  induction xs with
  | nil => simp
  | cons x xs ih => simp only [List.cons_append, List.foldr_cons, ih, Nat.max_assoc]

/-- Keys are handed out consecutively while nothing is deleted. -/
@[simp] theorem nextId_insert (t : Table ρ) (r : ρ) : (t.insert r).nextId = t.nextId + 1 := by
  simp only [nextId, ids, insert, List.map_append, List.map_cons, List.map_nil, foldr_max_append]
  omega

/-- A sum over the rows changes by what one modified row contributes. -/
theorem sum_modify {t : Table ρ} {i : Nat} {r : ρ} (found : t.get? i = some r) (f : ρ → ρ)
    (g : ρ → Nat) :
    ((t.modify i f).rows.map fun x => g x.2).sum + g r =
      (t.rows.map fun x => g x.2).sum + g (f r) := by
  obtain ⟨rows, ascending⟩ := t
  have member := mem_rows_iff.mpr found
  clear found
  simp only [modify, List.map_map, Function.comp_def] at member ⊢
  induction rows with
  | nil => cases member
  | cons x rows ih =>
    obtain ⟨first, rest⟩ := List.pairwise_cons.mp ascending
    simp only [List.map_cons, List.sum_cons]
    rcases List.mem_cons.mp member with rfl | inside
    · have others : (rows.map fun y => g (if y.1 = i then f y.2 else y.2)) =
          rows.map fun y => g y.2 :=
        List.map_congr_left fun y later => by rw [if_neg (Nat.ne_of_gt (first y later))]
      rw [others, if_pos rfl]
      change g (f r) + _ + g r = g r + _ + g (f r)
      omega
    · have apart : x.1 ≠ i := Nat.ne_of_lt (first _ inside)
      have below := ih rest inside
      rw [if_neg apart]
      omega

theorem findRow_eq_none_iff {t : Table ρ} {p : ρ → Bool} :
    t.findRow p = none ↔ ∀ i r, t.get? i = some r → p r = false := by
  simp only [findRow, List.find?_eq_none, ← mem_rows_iff, Prod.forall, Bool.not_eq_true]

theorem findRow_some {t : Table ρ} {p : ρ → Bool} {i : Nat} {r : ρ}
    (found : t.findRow p = some (i, r)) : t.get? i = some r ∧ p r = true :=
  ⟨mem_rows_iff.mp (List.mem_of_find?_eq_some found), by simpa using List.find?_some found⟩

theorem findRow_map {t : Table ρ} {f : ρ → σ} {p : σ → Bool} {q : ρ → Bool}
    (same : ∀ r, p (f r) = q r) :
    (t.map f).findRow p = (t.findRow q).map fun x => (x.1, f x.2) := by
  simp only [findRow, map, List.find?_map, Function.comp_def, same]

/-- Where the test singles out one row, the scan finds it. -/
theorem findRow_eq_some_iff {t : Table ρ} {p : ρ → Bool}
    (unique : ∀ i j r s, t.get? i = some r → t.get? j = some s → p r → p s → i = j)
    {i : Nat} {r : ρ} : t.findRow p = some (i, r) ↔ t.get? i = some r ∧ p r = true := by
  refine ⟨findRow_some, fun ⟨found, accepted⟩ => ?_⟩
  cases scan : t.findRow p with
  | none =>
    have rejected := findRow_eq_none_iff.mp scan i r found
    rw [accepted] at rejected
    contradiction
  | some x =>
    obtain ⟨at_key, holds⟩ := findRow_some scan
    obtain same := unique x.1 i x.2 r at_key found holds accepted
    rw [same] at at_key
    have contents := Option.some.inj (at_key.symm.trans found)
    exact congrArg some (Prod.ext same contents)

end Table

section Sorting

variable {α : Type} {r : α → α → Prop} [DecidableRel r] {keep : α → Bool}

theorem orderedInsert_of_forall {a : α} {xs : List α} (below : ∀ x ∈ xs, r a x) :
    xs.orderedInsert r a = a :: xs := by
  cases xs with
  | nil => rfl
  | cons x xs => exact List.orderedInsert_cons_of_le r xs (below x List.mem_cons_self)

theorem filter_orderedInsert [IsTrans α r] {a : α} {xs : List α} (sorted : xs.Pairwise r) :
    (xs.orderedInsert r a).filter keep =
      if keep a then (xs.filter keep).orderedInsert r a else xs.filter keep := by
  induction xs with
  | nil => simp [List.filter_cons]
  | cons x xs ih =>
    obtain ⟨first, rest⟩ := List.pairwise_cons.mp sorted
    by_cases before : r a x
    · have below : ∀ y ∈ (x :: xs).filter keep, r a y := by
        intro y kept
        rcases List.mem_cons.mp (List.mem_of_mem_filter kept) with rfl | inside
        · exact before
        · exact IsTrans.trans a x y before (first y inside)
      rw [List.orderedInsert_cons_of_le r xs before, List.filter_cons, orderedInsert_of_forall below]
    · rw [List.orderedInsert_of_not_le r xs before, List.filter_cons, ih rest]
      cases x_kept : keep x <;> cases a_kept : keep a <;> simp [x_kept, before]

/-- A stable sort keeps what a test accepts in the order it sorts that alone. -/
theorem filter_insertionSort [Std.Total r] [IsTrans α r] (xs : List α) :
    (xs.insertionSort r).filter keep = (xs.filter keep).insertionSort r := by
  induction xs with
  | nil => rfl
  | cons x xs ih =>
    rw [List.insertionSort_cons, filter_orderedInsert (List.pairwise_insertionSort r xs), ih]
    cases accepted : keep x with
    | true => simp [accepted]
    | false => simp [accepted]

end Sorting

end Lib
