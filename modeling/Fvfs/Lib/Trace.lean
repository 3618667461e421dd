import Fvfs.Lib.Prog
import Mathlib.Data.List.Induction
import Mathlib.Tactic.Tauto

/-! Traces of several threads, and the order of their events. Each relation comes with the
rule for a trace that grows at its end. -/
namespace Lib

/-- One operation of one thread, with the answer it got. -/
structure Event (I : Interface) (ι : Type) where
  thread : ι
  op : I.Op
  res : I.Res op

/-- Some event of the trace satisfies `a`. -/
def Occurs (a : Event I ι → Prop) (trace : List (Event I ι)) : Prop := ∃ e ∈ trace, a e

instance (a : Event I ι → Prop) [DecidablePred a] (trace : List (Event I ι)) :
    Decidable (Occurs a trace) := inferInstanceAs (Decidable (∃ e ∈ trace, a e))

/-- Some event satisfying `a` happened, and `Q` held of the trace up to it. -/
def Upon (a : Event I ι → Prop) (Q : List (Event I ι) → Prop) (trace : List (Event I ι)) : Prop :=
  ∃ earlier e later, trace = earlier ++ e :: later ∧ a e ∧ Q earlier

/-- Some event satisfying `a` comes before some event satisfying `b`. -/
def Precedes (a b : Event I ι → Prop) (trace : List (Event I ι)) : Prop := Upon b (Occurs a) trace

/-- Some event satisfied `a`, and none has satisfied `b` since. -/
def Since (a b : Event I ι → Prop) : List (Event I ι) → Prop
  | [] => False
  | e :: later => (a e ∧ ¬Occurs b later) ∨ Since a b later

instance decidableSince (a b : Event I ι → Prop) [DecidablePred a] [DecidablePred b] :
    (trace : List (Event I ι)) → Decidable (Since a b trace)
  | [] => .isFalse id
  | e :: later =>
    have : Decidable (Since a b later) := decidableSince a b later
    inferInstanceAs (Decidable ((a e ∧ ¬Occurs b later) ∨ Since a b later))

/-- The last event satisfying `a` is thread `i`'s. -/
def LastBy (a : Event I ι → Prop) (i : ι) (trace : List (Event I ι)) : Prop :=
  Since (fun e => a e ∧ e.thread = i) a trace

instance (a : Event I ι → Prop) [DecidablePred a] [DecidableEq ι] (i : ι)
    (trace : List (Event I ι)) : Decidable (LastBy a i trace) :=
  inferInstanceAs (Decidable (Since (fun e => a e ∧ e.thread = i) a trace))

section Trace

variable {I : Interface} {ι : Type} {a b : Event I ι → Prop} {past : List (Event I ι)}
  {e : Event I ι}

@[simp] theorem occurs_nil : ¬Occurs a ([] : List (Event I ι)) := by simp [Occurs]

@[simp] theorem occurs_append {later : List (Event I ι)} :
    Occurs a (past ++ later) ↔ Occurs a past ∨ Occurs a later := by
  simp only [Occurs, List.mem_append]
  constructor
  · rintro ⟨x, early | late, holds⟩
    · exact Or.inl ⟨x, early, holds⟩
    · exact Or.inr ⟨x, late, holds⟩
  · rintro (⟨x, early, holds⟩ | ⟨x, late, holds⟩)
    · exact ⟨x, Or.inl early, holds⟩
    · exact ⟨x, Or.inr late, holds⟩

@[simp] theorem occurs_singleton : Occurs a [e] ↔ a e := by simp [Occurs]

@[simp] theorem upon_nil {Q : List (Event I ι) → Prop} : ¬Upon a Q [] := by
  rintro ⟨earlier, x, later, split, _⟩
  exact List.append_ne_nil_of_right_ne_nil earlier (List.cons_ne_nil x later) split.symm

/-- A trace grows at its end: only the new event can be a new occasion. -/
@[simp] theorem upon_snoc {Q : List (Event I ι) → Prop} :
    Upon a Q (past ++ [e]) ↔ Upon a Q past ∨ (a e ∧ Q past) := by
  constructor
  · rintro ⟨earlier, x, later, split, here, before⟩
    rcases List.eq_nil_or_concat later with rfl | ⟨front, last, rfl⟩
    · obtain ⟨rfl, same⟩ := List.append_inj' split rfl
      obtain rfl : e = x := by simpa using same
      exact Or.inr ⟨here, before⟩
    · rw [List.concat_eq_append, ← List.cons_append, ← List.append_assoc] at split
      obtain ⟨rfl, -⟩ := List.append_inj' split rfl
      exact Or.inl ⟨earlier, x, front, rfl, here, before⟩
  · rintro (⟨earlier, x, later, rfl, here, before⟩ | ⟨here, before⟩)
    · exact ⟨earlier, x, later ++ [e], by simp, here, before⟩
    · exact ⟨past, e, [], rfl, here, before⟩

theorem Upon.occurs {Q : List (Event I ι) → Prop} (upon : Upon a Q past) : Occurs a past := by
  obtain ⟨earlier, x, later, rfl, here, -⟩ := upon
  exact ⟨x, by simp, here⟩

@[simp] theorem precedes_nil : ¬Precedes a b ([] : List (Event I ι)) := upon_nil

@[simp] theorem precedes_snoc :
    Precedes a b (past ++ [e]) ↔ Precedes a b past ∨ (b e ∧ Occurs a past) := upon_snoc

@[simp] theorem since_nil : ¬Since a b ([] : List (Event I ι)) := id

@[simp] theorem since_snoc : Since a b (past ++ [e]) ↔ a e ∨ (¬b e ∧ Since a b past) := by
  induction past with
  | nil => simp [Since]
  | cons x past ih =>
    simp only [List.cons_append, Since, ih, occurs_append, occurs_singleton]
    tauto

@[simp] theorem lastBy_nil {i : ι} : ¬LastBy a i ([] : List (Event I ι)) := id

@[simp] theorem lastBy_snoc {i : ι} :
    LastBy a i (past ++ [e]) ↔ (a e ∧ e.thread = i) ∨ (¬a e ∧ LastBy a i past) := since_snoc

theorem LastBy.occurs {i : ι} (last : LastBy a i past) :
    Occurs (fun e => a e ∧ e.thread = i) past := by
  induction past using List.reverseRecOn with
  | nil => exact absurd last lastBy_nil
  | append_singleton past e ih =>
    rcases lastBy_snoc.mp last with now | ⟨_, before⟩
    · exact occurs_append.mpr (Or.inr (occurs_singleton.mpr now))
    · exact occurs_append.mpr (Or.inl (ih before))

theorem exists_lastBy (occurs : Occurs a past) : ∃ i, LastBy a i past := by
  induction past using List.reverseRecOn with
  | nil => exact absurd occurs occurs_nil
  | append_singleton past e ih =>
    by_cases here : a e
    · exact ⟨e.thread, lastBy_snoc.mpr (Or.inl ⟨here, rfl⟩)⟩
    · rcases occurs_append.mp occurs with before | now
      · obtain ⟨i, last⟩ := ih before
        exact ⟨i, lastBy_snoc.mpr (Or.inr ⟨here, last⟩)⟩
      · exact absurd (occurs_singleton.mp now) here

theorem LastBy.unique {i j : ι} (last : LastBy a i past) (also : LastBy a j past) : i = j := by
  induction past using List.reverseRecOn with
  | nil => exact absurd last lastBy_nil
  | append_singleton past e ih =>
    rcases lastBy_snoc.mp last with ⟨here, thread⟩ | ⟨other, before⟩
    · rcases lastBy_snoc.mp also with ⟨_, thread'⟩ | ⟨absent, _⟩
      · exact thread.symm.trans thread'
      · exact absurd here absent
    · rcases lastBy_snoc.mp also with ⟨here, _⟩ | ⟨_, before'⟩
      · exact absurd here other
      · exact ih before before'

end Trace

end Lib
