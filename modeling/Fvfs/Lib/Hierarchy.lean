import Mathlib.Logic.Function.Basic
import Mathlib.Data.List.Basic
import Mathlib.Logic.Relation

/-! Hierarchies over any set of names with a parent function: which names are in use, as
a leaf or as an inner node, and when adding or removing one leaves every node below an
inner one. -/
namespace Lib

open Function (update)

inductive Node where
  | leaf | inner
  deriving DecidableEq

namespace Hierarchy

variable {α : Type} {parent : α → Option α} {nodes : α → Option Node}

/-- Every node's parent is an inner node. -/
def WellFormed (parent : α → Option α) (nodes : α → Option Node) : Prop :=
  ∀ p n q, nodes p = some n → parent p = some q → nodes q = some .inner

/-- Successive parents, up to a name that has none. -/
def Chain (parent : α → Option α) : α → List α → Prop
  | p, [] => parent p = none
  | p, q :: above => parent p = some q ∧ Chain parent q above

/-- Reached from the root by going from inner nodes to their children. -/
inductive Reachable (parent : α → Option α) (nodes : α → Option Node) (root : α) : α → Prop
  | root : Reachable parent nodes root root
  | child (used : nodes p = some n) (up : parent p = some q) (inner : nodes q = some .inner)
      (above : Reachable parent nodes root q) : Reachable parent nodes root p

/-- The parent of a name in a chain is the next one of it. -/
theorem Chain.parent_mem {p q r : α} {above : List α} (chain : Chain parent p above)
    (member : q ∈ above) (up : parent q = some r) : r ∈ above := by
  induction above generalizing p with
  | nil => cases member
  | cons next above ih =>
    rcases List.mem_cons.mp member with rfl | further
    · cases above with
      | nil =>
        have top : parent q = none := chain.2
        simp [top] at up
      | cons second above =>
        have step : parent q = some second := chain.2.1
        simp [Option.some.inj (up.symm.trans step)]
    · exact List.mem_cons_of_mem _ (ih chain.2 further)

theorem Chain.first_mem {p q : α} {above : List α} (chain : Chain parent p above)
    (up : parent p = some q) : q ∈ above := by
  cases above with
  | nil =>
    have top : parent p = none := chain
    simp [top] at up
  | cons next above =>
    have step := chain.1
    simp [Option.some.inj (up.symm.trans step)]

/-- The names of a chain are those reached by going up once or more. -/
theorem Chain.mem_iff {p q : α} {above : List α} (chain : Chain parent p above) :
    q ∈ above ↔ Relation.TransGen (fun a b => parent a = some b) p q := by
  constructor
  · intro member
    induction above generalizing p with
    | nil => cases member
    | cons next above ih =>
      rcases List.mem_cons.mp member with rfl | further
      · exact .single chain.1
      · exact .head chain.1 (ih chain.2 further)
  · intro reached
    induction reached with
    | single up => exact chain.first_mem up
    | tail _ up ih => exact chain.parent_mem ih up

/-- A leaf on the chain would have the next name below it as its child. -/
theorem Chain.leaf_below {p q : α} {above : List α} (chain : Chain parent p above)
    (member : q ∈ above) : parent p = some q ∨ ∃ r ∈ above, parent r = some q := by
  induction above generalizing p with
  | nil => cases member
  | cons next above ih =>
    rcases List.mem_cons.mp member with rfl | further
    · exact Or.inl chain.1
    · rcases ih chain.2 further with up | ⟨r, inside, up⟩
      · exact Or.inr ⟨next, by simp, up⟩
      · exact Or.inr ⟨r, by simp [inside], up⟩

/-- In a well-formed hierarchy every node is reached from the root. -/
theorem WellFormed.reachable {root : α} (tree : WellFormed parent nodes)
    (single : ∀ p n, nodes p = some n → parent p = none → p = root) {p : α} {above : List α}
    {n : Node} (chain : Chain parent p above) (used : nodes p = some n) :
    Reachable parent nodes root p := by
  induction above generalizing p n with
  | nil =>
    obtain rfl := single p n used chain
    exact .root
  | cons q above ih =>
    have inner := tree p n q used chain.1
    exact .child used chain.1 inner (ih chain.2 inner)

section Update

variable [DecidableEq α]

/-- Make every unused name of the list an inner node. -/
def fill (nodes : α → Option Node) (names : List α) : α → Option Node :=
  fun q => if q ∈ names ∧ nodes q = none then some .inner else nodes q

theorem fill_nil : fill nodes [] = nodes := by
  funext q
  simp [fill]

theorem fill_cons (q : α) (names : List α) :
    fill nodes (q :: names) =
      fill (if nodes q = none then update nodes q (some .inner) else nodes) names := by
  funext r
  by_cases unused : nodes q = none
  · by_cases same : r = q
    · subst same
      simp [fill, unused]
    · simp [fill, unused, same]
  · by_cases same : r = q
    · subst same
      simp [fill, unused]
    · simp [fill, unused, same]

/-- A used name keeps its kind. -/
theorem fill_of_used {q : α} {n : Node} (used : nodes q = some n) (names : List α) :
    fill nodes names q = some n := by
  simp [fill, used]

theorem fill_used {q : α} {names : List α} (member : q ∈ names) :
    ∃ n, fill nodes names q = some n := by
  cases used : nodes q with
  | none => exact ⟨.inner, by simp [fill, member, used]⟩
  | some n => exact ⟨n, fill_of_used used names⟩

theorem fill_of_mem {q : α} {names : List α} (member : q ∈ names) (inner : nodes q ≠ some .leaf) :
    fill nodes names q = some .inner := by
  cases used : nodes q with
  | none => simp [fill, member, used]
  | some n =>
    cases n with
    | leaf => contradiction
    | inner => simp [fill, used]

/-- Placing a node and filling in its ancestors is sound exactly when no ancestor is a
leaf and, for a leaf, when nothing lies below the name. -/
theorem place_wellFormed_iff {p : α} {n : Node} {above : List α} (tree : WellFormed parent nodes)
    (chain : Chain parent p above) (acyclic : p ∉ above) :
    WellFormed parent (fill (update nodes p (some n)) above) ↔
      (∀ q ∈ above, nodes q ≠ some .leaf) ∧
        (n = .leaf → ∀ r m, nodes r = some m → parent r ≠ some p) := by
  have here (names : List α) : fill (update nodes p (some n)) names p = some n :=
    fill_of_used (by simp) names
  have old {q : α} {m : Node} (apart : q ≠ p) (used : nodes q = some m) :
      fill (update nodes p (some n)) above q = some m :=
    fill_of_used (by simp [apart, used]) above
  have filled {q : α} (member : q ∈ above) (used : nodes q ≠ some .leaf) :
      fill (update nodes p (some n)) above q = some .inner := by
    have apart : q ≠ p := fun same => acyclic (same ▸ member)
    exact fill_of_mem member (by simpa [apart] using used)
  have above_ne {r : α} (up : parent p = some r) : r ≠ p := fun same =>
    acyclic (same ▸ chain.first_mem up)
  constructor
  · intro placed
    constructor
    · intro q member leaf
      have apart : q ≠ p := fun same => acyclic (same ▸ member)
      have kept := old apart leaf
      have inner : fill (update nodes p (some n)) above q = some .inner := by
        rcases chain.leaf_below member with up | ⟨r, inside, up⟩
        · exact placed p n q (here above) up
        · obtain ⟨m, used⟩ : ∃ m, fill (update nodes p (some n)) above r = some m :=
            fill_used inside
          exact placed r m q used up
      rw [kept] at inner
      contradiction
    · rintro rfl r m used up
      have apart : r ≠ p := fun same => above_ne (same ▸ up) rfl
      have inner := placed r m p (old apart used) up
      rw [here] at inner
      contradiction
  · rintro ⟨plain, childless⟩ r m q used up
    by_cases self : r = p
    · subst self
      exact filled (chain.first_mem up) (plain q (chain.first_mem up))
    · by_cases inside : r ∈ above
      · have member := chain.parent_mem inside up
        exact filled member (plain q member)
      · have before : nodes r = some m := by simpa [fill, inside, self] using used
        have inner := tree r m q before up
        by_cases target : q = p
        · subst target
          cases n with
          | leaf => exact absurd up (childless rfl r m before)
          | inner => exact here above
        · exact old target inner

/-- Removing a node is sound exactly when nothing lies below it. -/
theorem remove_wellFormed_iff {p : α} (tree : WellFormed parent nodes)
    (acyclic : parent p ≠ some p) :
    WellFormed parent (update nodes p none) ↔ ∀ r m, nodes r = some m → parent r ≠ some p := by
  constructor
  · intro removed r m used up
    have apart : r ≠ p := fun same => acyclic (same ▸ up)
    have inner := removed r m p (by simpa [apart] using used) up
    simp at inner
  · intro childless r m q used up
    by_cases self : r = p
    · simp [self] at used
    · have before : nodes r = some m := by simpa [self] using used
      have apart : q ≠ p := fun same => childless r m before (same ▸ up)
      simpa [apart] using tree r m q before up

end Update

end Hierarchy

end Lib
