import Mathlib.Data.List.Induction

/-! Histories of a deterministic system: what holds in every state of a run, and what
every step of it meets. -/
namespace Lib

variable {S O : Type} (step : S → O → S) (init : S)

/-- Every state the run goes through satisfies `Good`. -/
def Throughout (history : List O) (Good : S → Prop) : Prop :=
  ∀ past, past <+: history → Good (past.foldl step init)

/-- Every step of the run satisfies `Meets` in the state it is taken in. -/
def EachStep (history : List O) (Meets : S → O → Prop) : Prop :=
  ∀ past o, past ++ [o] <+: history → Meets (past.foldl step init) o

variable {step init} {history : List O}

theorem Throughout.mono {Good Weaker : S → Prop} (all : Throughout step init history Good)
    (weaken : ∀ s, Good s → Weaker s) : Throughout step init history Weaker :=
  fun past early => weaken _ (all past early)

@[simp] theorem eachStep_nil {Meets : S → O → Prop} : EachStep step init [] Meets := by
  intro past o early
  have length := early.length_le
  simp at length

@[simp] theorem eachStep_cons {Meets : S → O → Prop} {o : O} {rest : List O} :
    EachStep step init (o :: rest) Meets ↔
      Meets init o ∧ EachStep step (step init o) rest Meets := by
  constructor
  · intro all
    constructor
    · exact all [] o (by simp)
    · intro past next early
      exact all (o :: past) next (by simpa using early)
  · rintro ⟨first, later⟩ past next early
    cases past with
    | nil =>
      obtain rfl : next = o := by simpa using early
      exact first
    | cons head past =>
      obtain ⟨rfl, inside⟩ : head = o ∧ past ++ [next] <+: rest := by simpa using early
      exact later past next inside

@[simp] theorem eachStep_snoc {Meets : S → O → Prop} {o : O} :
    EachStep step init (history ++ [o]) Meets ↔
      EachStep step init history Meets ∧ Meets (history.foldl step init) o := by
  constructor
  · intro all
    refine ⟨fun past next early => ?_, all history o (List.prefix_refl _)⟩
    exact all past next (early.trans (List.prefix_append _ _))
  · rintro ⟨before, last⟩ past next early
    rcases List.prefix_concat_iff.mp early with whole | inside
    · obtain ⟨rfl, same⟩ := List.append_inj' whole rfl
      obtain rfl := List.singleton_inj.mp same
      exact last
    · exact before past next inside

/-- What every permitted step that meets the condition keeps holds throughout. -/
theorem throughout_of_eachStep {Inv : S → Prop} {Meets : S → O → Prop} (start : Inv init)
    (keeps : ∀ s o, Inv s → Meets s o → Inv (step s o)) (meets : EachStep step init history Meets) :
    Throughout step init history Inv := by
  intro past early
  induction past using List.reverseRecOn with
  | nil => exact start
  | append_singleton past o ih =>
    have before := ih ((List.prefix_append past [o]).trans early)
    rw [List.foldl_append]
    exact keeps _ o before (meets past o early)

/-- A property is kept exactly by the steps that meet the condition: it holds throughout
a run exactly when each of its steps does. -/
theorem throughout_iff_eachStep {Good : S → Prop} {Meets : S → O → Prop} (Inv : S → Prop)
    (Permitted : S → O → Prop) (start : Inv init)
    (keeps : ∀ s o, Inv s → Permitted s o → Meets s o → Inv (step s o))
    (good : ∀ s, Inv s → Good s)
    (needed : ∀ s o, Inv s → Permitted s o → Good (step s o) → Meets s o)
    (permitted : EachStep step init history Permitted) :
    Throughout step init history Good ↔ EachStep step init history Meets := by
  constructor
  · intro all
    have inv : Throughout step init history Inv := by
      intro past early
      induction past using List.reverseRecOn with
      | nil => exact start
      | append_singleton past o ih =>
        have before := ih ((List.prefix_append past [o]).trans early)
        have after := all _ early
        rw [List.foldl_append] at after ⊢
        exact keeps _ o before (permitted past o early)
          (needed _ o before (permitted past o early) after)
    intro past o early
    have before := inv past ((List.prefix_append past [o]).trans early)
    have after := all _ early
    rw [List.foldl_append] at after
    exact needed _ o before (permitted past o early) after
  · intro meets
    have both : EachStep step init history fun s o => Permitted s o ∧ Meets s o :=
      fun past o early => ⟨permitted past o early, meets past o early⟩
    have inv := throughout_of_eachStep start (fun s o holds b => keeps s o holds b.1 b.2) both
    exact inv.mono good

end Lib
