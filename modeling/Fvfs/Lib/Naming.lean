import Mathlib.Logic.Function.Basic
import Mathlib.Data.List.Basic

/-! Names for objects, kept as two dictionaries that are updated one after the other, and
the ledger of the names handed out. The dictionaries stay inverse to each other, and no
name ever changes its meaning, as long as only fresh names are bound. -/
namespace Lib

open Function (update)

structure Naming (ν α : Type) where
  object : ν → Option α
  name : α → Option ν

namespace Naming

variable {ν α : Type}

def Inverse (t : Naming ν α) : Prop := ∀ n a, t.object n = some a ↔ t.name a = some n

/-- No entry of the ledger names another object today. -/
def Honest (t : Naming ν α) (ledger : List (ν × α)) : Prop :=
  ∀ n a b, (n, a) ∈ ledger → t.object n = some b → b = a

/-- The name was never handed out for another object. -/
def Fresh (ledger : List (ν × α)) (n : ν) (a : α) : Prop := ∀ b, (n, b) ∈ ledger → b = a

/-- What binding only fresh names maintains. -/
structure Kept (t : Naming ν α) (ledger : List (ν × α)) : Prop where
  inverse : t.Inverse
  recorded : ∀ n a, t.object n = some a → (n, a) ∈ ledger
  functional : ∀ n a b, (n, a) ∈ ledger → (n, b) ∈ ledger → b = a

variable {t : Naming ν α} {ledger : List (ν × α)} {n : ν} {a : α}

theorem Kept.honest (kept : Kept t ledger) : t.Honest ledger := by
  intro n a b handed found
  exact kept.functional n a b handed (kept.recorded n b found)

/-- Handing out a name that is bound adds nothing to the ledger. -/
theorem Kept.again (kept : Kept t ledger) (bound : t.name a = some n) :
    Kept t (ledger ++ [(n, a)]) := by
  have known : (n, a) ∈ ledger := kept.recorded n a ((kept.inverse n a).mpr bound)
  have same (x : ν × α) : x ∈ ledger ++ [(n, a)] ↔ x ∈ ledger := by
    simp only [List.mem_append, List.mem_singleton, or_iff_left_iff_imp]
    rintro rfl
    exact known
  constructor
  · exact kept.inverse
  · simpa only [same] using kept.recorded
  · simpa only [same] using kept.functional

variable [DecidableEq ν] [DecidableEq α]

/-- Insert into both dictionaries. -/
def bind (t : Naming ν α) (n : ν) (a : α) : Naming ν α :=
  ⟨update t.object n (some a), update t.name a (some n)⟩

/-- Remove an object, and the name it is found under. -/
def unbind (t : Naming ν α) (a : α) : Naming ν α :=
  match t.name a with
  | some n => ⟨update t.object n none, update t.name a none⟩
  | none => t

theorem Kept.bind (kept : Kept t ledger) (unnamed : t.name a = none) (fresh : Fresh ledger n a) :
    Kept (t.bind n a) (ledger ++ [(n, a)]) := by
  have unused : t.object n = none := by
    cases used : t.object n with
    | none => rfl
    | some b =>
      obtain rfl := fresh b (kept.recorded n b used)
      have named := (kept.inverse n b).mp used
      simp [unnamed] at named
  constructor
  · intro m b
    simp only [Naming.bind]
    by_cases name : m = n
    · subst name
      by_cases object : b = a
      · simp [object]
      · have other : t.name b ≠ some m := fun named => by
          simpa [unused] using (kept.inverse m b).mpr named
        simp [object, Ne.symm object, other]
    · by_cases object : b = a
      · subst object
        have other : t.object m ≠ some b := fun found => by
          simpa [unnamed] using (kept.inverse m b).mp found
        simp [name, Ne.symm name, other]
      · simp [name, object, kept.inverse m b]
  · intro m b found
    by_cases name : m = n
    · subst name
      have object : a = b := by simpa [Naming.bind] using found
      simp [object]
    · have old : t.object m = some b := by simpa [Naming.bind, name] using found
      simp [kept.recorded m b old]
  · intro m b c handed again
    simp only [List.mem_append, List.mem_singleton, Prod.mk.injEq] at handed again
    rcases handed with old | ⟨rfl, rfl⟩
    · rcases again with old' | ⟨rfl, rfl⟩
      · exact kept.functional m b c old old'
      · exact (fresh b old).symm
    · rcases again with old' | ⟨-, rfl⟩
      · exact fresh c old'
      · rfl

theorem Kept.unbind (kept : Kept t ledger) (a : α) : Kept (t.unbind a) ledger := by
  unfold Naming.unbind
  cases named : t.name a with
  | none => exact kept
  | some n =>
    constructor
    · intro m b
      by_cases name : m = n
      · subst name
        by_cases object : b = a
        · simp [object]
        · have other : t.name b ≠ some m := fun also => by
            have first := (kept.inverse m a).mpr named
            have second := (kept.inverse m b).mpr also
            exact object (Option.some.inj (second.symm.trans first))
          simp [object, other]
      · by_cases object : b = a
        · subst object
          have other : t.object m ≠ some b := fun found => by
            have also := (kept.inverse m b).mp found
            exact name (Option.some.inj (also.symm.trans named))
          simp [name, other]
        · simp [name, object, kept.inverse m b]
    · intro m b found
      by_cases name : m = n
      · subst name
        simp at found
      · exact kept.recorded m b (by simpa [name] using found)
    · exact kept.functional

/-- A name bound although the ledger has it for another object gives that entry the lie. -/
theorem fresh_of_honest (honest : (t.bind n a).Honest (ledger ++ [(n, a)])) : Fresh ledger n a := by
  intro b handed
  exact (honest n b a (by simp [handed]) (by simp [Naming.bind])).symm

end Naming

end Lib
