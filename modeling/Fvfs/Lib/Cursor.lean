import Mathlib.Data.List.Nodup

/-! Positional cursors. A list is read page by page, and each page resumes at a position while
the list may change before the next. How often an item is returned is a matter of how often
the changes carry it across the position. -/
namespace Lib.Cursor

variable {α : Type}

/-- One page's turn: the list as it is then, and how many items fit. -/
structure Visit (α : Type) where
  listing : List α
  room : Nat

namespace Visit

def page (v : Visit α) (o : Nat) : List α := (v.listing.drop o).take v.room

/-- The position after the last item of the page. -/
def next (v : Visit α) (o : Nat) : Nat := o + (v.page o).length

end Visit

def returned : Nat → List (Visit α) → List α
  | _, [] => []
  | o, v :: rest => v.page o ++ returned (v.next o) rest

/-- The scan is over at the first empty page. -/
def Ends : Nat → List (Visit α) → Prop
  | _, [] => False
  | o, [v] => v.page o = []
  | o, v :: v' :: rest => v.page o ≠ [] ∧ Ends (v.next o) (v' :: rest)

theorem mem_of_returned {x : α} {visits : List (Visit α)} {o : Nat}
    (member : x ∈ returned o visits) : ∃ v ∈ visits, x ∈ v.listing := by
  induction visits generalizing o with
  | nil => cases member
  | cons v visits ih =>
    rcases List.mem_append.mp member with here | later
    · exact ⟨v, List.mem_cons_self .., List.drop_subset _ _ (List.take_subset _ _ here)⟩
    · obtain ⟨u, inside, listed⟩ := ih later
      exact ⟨u, List.mem_cons_of_mem _ inside, listed⟩

variable [DecidableEq α]

def Visit.Behind (v : Visit α) (x : α) (o : Nat) : Prop := v.listing.idxOf x < o

instance (v : Visit α) (x : α) (o : Nat) : Decidable (v.Behind x o) :=
  inferInstanceAs (Decidable (v.listing.idxOf x < o))

/-- How often a change moves the item from ahead of the position to behind it. -/
def skips (x : α) : Nat → List (Visit α) → Nat
  | o, v :: v' :: rest =>
    (if ¬v.Behind x (v.next o) ∧ v'.Behind x (v.next o) then 1 else 0) +
      skips x (v.next o) (v' :: rest)
  | _, _ => 0

/-- How often a change moves the item from behind the position to ahead of it. -/
def repeats (x : α) : Nat → List (Visit α) → Nat
  | o, v :: v' :: rest =>
    (if v.Behind x (v.next o) ∧ ¬v'.Behind x (v.next o) then 1 else 0) +
      repeats x (v.next o) (v' :: rest)
  | _, _ => 0

theorem getElem?_eq_some_iff_idxOf {l : List α} {x : α} (nodup : l.Nodup) (member : x ∈ l) {i : Nat} :
    l[i]? = some x ↔ i = l.idxOf x := by
  have here : l.idxOf x < l.length := List.idxOf_lt_length_of_mem member
  constructor
  · intro found
    obtain ⟨bound, value⟩ := List.getElem?_eq_some_iff.mp found
    rw [← value, nodup.idxOf_getElem]
  · rintro rfl
    rw [List.getElem?_eq_getElem here, List.getElem_idxOf]

theorem mem_page {v : Visit α} {x : α} {o : Nat} (nodup : v.listing.Nodup)
    (member : x ∈ v.listing) : x ∈ v.page o ↔ ¬v.Behind x o ∧ v.Behind x (v.next o) := by
  have bound : v.listing.idxOf x < v.listing.length := List.idxOf_lt_length_of_mem member
  simp only [Visit.Behind, Visit.next, Visit.page, List.length_take, List.length_drop,
    List.mem_iff_getElem?, List.getElem?_take, List.getElem?_drop]
  constructor
  · rintro ⟨i, found⟩
    split at found
    next inside =>
      have position := (getElem?_eq_some_iff_idxOf nodup member).mp found
      omega
    next => cases found
  · rintro ⟨ahead, within⟩
    refine ⟨v.listing.idxOf x - o, ?_⟩
    rw [if_pos (by omega)]
    exact (getElem?_eq_some_iff_idxOf nodup member).mpr (by omega)

theorem count_page {v : Visit α} {x : α} {o : Nat} (nodup : v.listing.Nodup)
    (member : x ∈ v.listing) :
    (v.page o).count x = if ¬v.Behind x o ∧ v.Behind x (v.next o) then 1 else 0 := by
  have once : (v.page o).Nodup := (nodup.sublist (List.drop_sublist _ _)).sublist (List.take_sublist _ _)
  rw [once.count]
  simp only [mem_page nodup member]

/-- Behind the position of an empty page is everything. -/
theorem behind_of_page_nil {v : Visit α} {x : α} {o : Nat} (roomy : 0 < v.room)
    (member : x ∈ v.listing) (empty : v.page o = []) : v.Behind x o := by
  have bound : v.listing.idxOf x < v.listing.length := List.idxOf_lt_length_of_mem member
  have short := congrArg List.length empty
  simp only [Visit.page, List.length_take, List.length_drop, List.length_nil] at short
  unfold Visit.Behind
  omega

/-- An item that stays is returned once, less for each skip and more for each repeat. -/
theorem count_returned {x : α} {visits : List (Visit α)} {v : Visit α} {o : Nat}
    (roomy : ∀ u ∈ v :: visits, 0 < u.room)
    (listed : ∀ u ∈ v :: visits, u.listing.Nodup ∧ x ∈ u.listing) (ends : Ends o (v :: visits)) :
    (returned o (v :: visits)).count x + skips x o (v :: visits) + (if v.Behind x o then 1 else 0) =
      1 + repeats x o (v :: visits) := by
  obtain ⟨nodup, member⟩ := listed v (List.mem_cons_self ..)
  induction visits generalizing v o with
  | nil =>
    have behind := behind_of_page_nil (roomy v (by simp)) member ends
    simp [returned, skips, repeats, show v.page o = [] from ends, behind]
  | cons v' visits ih =>
    have later := listed v' (by simp)
    have rest := ih (fun u inside => roomy u (List.mem_cons_of_mem _ inside))
      (fun u inside => listed u (List.mem_cons_of_mem _ inside)) ends.2 later.1 later.2
    have grows : v.Behind x o → v.Behind x (v.next o) := fun behind => by
      unfold Visit.Behind Visit.next at *
      omega
    rw [returned, List.count_append, count_page nodup member, skips, repeats]
    by_cases start : v.Behind x o
    · have stop := grows start
      by_cases shift : v'.Behind x (v.next o) <;> simp [start, stop, shift] at rest ⊢ <;> omega
    · by_cases stop : v.Behind x (v.next o) <;> by_cases shift : v'.Behind x (v.next o) <;>
        simp [start, stop, shift] at rest ⊢ <;> omega

/-- From the beginning, an item that stays is returned exactly once where it is skipped as
often as it is repeated. -/
theorem count_eq_one_iff {x : α} {visits : List (Visit α)} (roomy : ∀ u ∈ visits, 0 < u.room)
    (listed : ∀ u ∈ visits, u.listing.Nodup ∧ x ∈ u.listing) (ends : Ends 0 visits) :
    (returned 0 visits).count x = 1 ↔ skips x 0 visits = repeats x 0 visits := by
  cases visits with
  | nil => cases ends
  | cons v visits =>
    have total := count_returned roomy listed ends
    have ahead : ¬v.Behind x 0 := Nat.not_lt_zero _
    rw [if_neg ahead] at total
    omega

/-- An item at a place of its own is never carried across a position. -/
theorem crossings_eq_zero {x : α} {i : Nat} {visits : List (Visit α)} {o : Nat}
    (fixed : ∀ u ∈ visits, u.listing.idxOf x = i) :
    skips x o visits = 0 ∧ repeats x o visits = 0 := by
  induction visits generalizing o with
  | nil => exact ⟨rfl, rfl⟩
  | cons v visits ih =>
    cases visits with
    | nil => exact ⟨rfl, rfl⟩
    | cons v' visits =>
      obtain ⟨skipped, repeated⟩ := ih (o := v.next o) fun u inside =>
        fixed u (List.mem_cons_of_mem _ inside)
      have here := fixed v (by simp)
      have there := fixed v' (by simp)
      rw [skips, repeats, skipped, repeated]
      simp only [Visit.Behind, here, there]
      constructor <;> split <;> omega

end Lib.Cursor
