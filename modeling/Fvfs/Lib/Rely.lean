import Fvfs.Lib.Pool
import Fvfs.Lib.Service

/-! Rely and guarantee for resumption programs. The threads of a pool agree on an invariant
and on how the world may grow; a program is judged amid all growth between its steps. -/
namespace Lib

/-- What every thread keeps, and in what way it may change the world. -/
structure Rely (W : Type) where
  inv : W → Prop
  grows : W → W → Prop
  refl : ∀ w, grows w w
  trans : ∀ {u v w}, grows u v → grows v w → grows u w

variable {I : Interface} {ε ε' α β W C : Type}

namespace Prog

/-- Each step, in any world the others have led to by then, keeps to the agreement, and the
outcome satisfies `post` from then on. -/
def amid (h : Handler I W C) (ok : C → Prop) (R : Rely W) :
    Prog I ε α → (Except ε α → W → Prop) → W → Prop
  | ret value, post, w => ∀ v, R.grows w v → R.inv v → post (.ok value) v
  | fail error, post, w => ∀ v, R.grows w v → R.inv v → post (.error error) v
  | call op next, post, w => ∀ v, R.grows w v → R.inv v → ∀ c, ok c →
    R.inv (h op c v).2 ∧ R.grows v (h op c v).2 ∧
      amid h ok R (next (h op c v).1) post (h op c v).2

section Amid

variable {h : Handler I W C} {ok : C → Prop} {R : Rely W} {w v : W}

theorem amid_later {p : Prog I ε α} {post : Except ε α → W → Prop}
    (valid : p.amid h ok R post w) (later : R.grows w v) : p.amid h ok R post v := by
  cases p with
  | ret value => exact fun u after inv => valid u (R.trans later after) inv
  | fail error => exact fun u after inv => valid u (R.trans later after) inv
  | call op next => exact fun u after inv => valid u (R.trans later after) inv

/-- It is enough to judge a program in the worlds it may start its first step in. -/
theorem amid_of_later {p : Prog I ε α} {post : Except ε α → W → Prop}
    (valid : ∀ v, R.grows w v → R.inv v → p.amid h ok R post v) : p.amid h ok R post w := by
  cases p with
  | ret value => exact fun v later inv => valid v later inv v (R.refl v) inv
  | fail error => exact fun v later inv => valid v later inv v (R.refl v) inv
  | call op next => exact fun v later inv => valid v later inv v (R.refl v) inv

@[simp] theorem amid_ret (value : α) (post : Except ε α → W → Prop) :
    (ret value : Prog I ε α).amid h ok R post w ↔
      ∀ v, R.grows w v → R.inv v → post (.ok value) v := Iff.rfl
@[simp] theorem amid_fail (error : ε) (post : Except ε α → W → Prop) :
    (fail error : Prog I ε α).amid h ok R post w ↔
      ∀ v, R.grows w v → R.inv v → post (.error error) v := Iff.rfl

theorem amid_mono {p : Prog I ε α} {post weaker : Except ε α → W → Prop}
    (valid : p.amid h ok R post w) (weaken : ∀ r w, R.inv w → post r w → weaker r w) :
    p.amid h ok R weaker w := by
  induction p generalizing w with
  | ret value => exact fun v later inv => weaken _ v inv (valid v later inv)
  | fail error => exact fun v later inv => weaken _ v inv (valid v later inv)
  | call op next ih =>
    intro v later inv c permitted
    obtain ⟨kept, grown, rest⟩ := valid v later inv c permitted
    exact ⟨kept, grown, ih _ rest⟩

/-- The outcome comes after any earlier world. -/
theorem amid_since {p : Prog I ε α} {post : Except ε α → W → Prop} (early : R.grows w v)
    (valid : p.amid h ok R post v) :
    p.amid h ok R (fun r u => R.grows w u ∧ post r u) v := by
  induction p generalizing v with
  | ret value => exact fun u later inv => ⟨R.trans early later, valid u later inv⟩
  | fail error => exact fun u later inv => ⟨R.trans early later, valid u later inv⟩
  | call op next ih =>
    intro u later inv c permitted
    obtain ⟨kept, grown, onward⟩ := valid u later inv c permitted
    exact ⟨kept, grown, ih _ (R.trans (R.trans early later) grown) onward⟩

/-- What the others do belongs to the next step. -/
def amidst (h : Handler I W C) (ok : C → Prop) (R : Rely W) : Service I W where
  pre op w := ∀ v, R.grows w v → R.inv v → ∀ c, ok c → R.inv (h op c v).2 ∧ R.grows v (h op c v).2
  may op w answer w' := ∃ v c, R.grows w v ∧ R.inv v ∧ ok c ∧ h op c v = (answer, w')

theorem amid_iff_meets (p : Prog I ε α) (post : Except ε α → W → Prop) :
    p.amid h ok R post w ↔
      p.meets (amidst h ok R) (fun r w => ∀ v, R.grows w v → R.inv v → post r v) w := by
  induction p generalizing w with
  | ret value => rfl
  | fail error => rfl
  | call op next ih =>
    constructor
    · intro valid
      refine ⟨fun v later inv c permitted => ?_, ?_⟩
      · obtain ⟨kept, grown, -⟩ := valid v later inv c permitted
        exact ⟨kept, grown⟩
      · rintro answer w' ⟨v, c, later, inv, permitted, run⟩
        obtain ⟨-, -, rest⟩ := valid v later inv c permitted
        rw [run] at rest
        exact (ih answer).mp rest
    · intro valid v later inv c permitted
      obtain ⟨kept, grown⟩ := valid.1 v later inv c permitted
      exact ⟨kept, grown, (ih _).mpr (valid.2 _ _ ⟨v, c, later, inv, permitted, rfl⟩)⟩

/-- Sequencing through an intermediate condition. -/
theorem amid_seq {p : Prog I ε α} {k : α → Prog I ε β} {mid : Except ε α → W → Prop}
    {post : Except ε β → W → Prop} (first : p.amid h ok R mid w)
    (rest : ∀ value v, R.grows w v → R.inv v → mid (.ok value) v → (k value).amid h ok R post v)
    (fails : ∀ error v, R.inv v → mid (.error error) v → post (.error error) v) :
    (p >>= k).amid h ok R post w := by
  induction p generalizing w with
  | ret value =>
    exact amid_of_later fun v later inv => rest value v later inv (first v later inv)
  | fail error => exact fun v later inv => fails error v inv (first v later inv)
  | call op next ih =>
    intro v later inv c permitted
    obtain ⟨kept, grown, onward⟩ := first v later inv c permitted
    exact ⟨kept, grown, ih _ onward fun value u after =>
      rest value u (R.trans (R.trans later grown) after)⟩

/-- The same where the caller inspects the outcome. -/
theorem amid_try {p : Prog I ε α} {k : Except ε α → Prog I ε' β} {mid : Except ε α → W → Prop}
    {post : Except ε' β → W → Prop} (first : p.amid h ok R mid w)
    (rest : ∀ r v, R.grows w v → R.inv v → mid r v → (k r).amid h ok R post v) :
    (p.attempt >>= k).amid h ok R post w := by
  induction p generalizing w with
  | ret value => exact amid_of_later fun v later inv => rest _ v later inv (first v later inv)
  | fail error => exact amid_of_later fun v later inv => rest _ v later inv (first v later inv)
  | call op next ih =>
    intro v later inv c permitted
    obtain ⟨kept, grown, onward⟩ := first v later inv c permitted
    exact ⟨kept, grown, ih _ onward fun r u after =>
      rest r u (R.trans (R.trans later grown) after)⟩

/-- Operations that always keep to the agreement. -/
theorem amid_of_only {allowed : I.Op → Prop} {p : Prog I ε α} (only : p.Only allowed)
    (keeps : ∀ op c w, ok c → allowed op → R.inv w →
      R.inv (h op c w).2 ∧ R.grows w (h op c w).2) :
    p.amid h ok R (fun _ _ => True) w := by
  induction p generalizing w with
  | ret value => exact fun _ _ _ => trivial
  | fail error => exact fun _ _ _ => trivial
  | call op next ih =>
    intro v later inv c permitted
    obtain ⟨kept, grown⟩ := keeps op c v permitted only.1 inv
    exact ⟨kept, grown, ih _ (only.2 _)⟩

end Amid

end Prog

namespace Pool

variable {ι : Type} [DecidableEq ι] {h : Handler I W C} {ok : C → Prop} {R : Rely W}

/-- One step of any thread: the agreement is kept, and every thread may go on. -/
theorem step_amid {pool : Pool I ε α W ι} {post : ι → Except ε α → W → Prop}
    (start : R.inv pool.world) (each : ∀ i, (pool.threads i).amid h ok R (post i) pool.world)
    (i : ι) {c : C} (permitted : ok c) :
    R.inv (step h i c pool).world ∧ R.grows pool.world (step h i c pool).world ∧
      ∀ j, ((step h i c pool).threads j).amid h ok R (post j) (step h i c pool).world := by
  cases at_op : pool.threads i with
  | call op next =>
    have own := each i
    rw [at_op] at own
    obtain ⟨kept, grown, onward⟩ := own pool.world (R.refl _) start c permitted
    rw [step_call at_op]
    refine ⟨kept, grown, fun j => ?_⟩
    by_cases mine : j = i
    · subst mine
      simpa using onward
    · simpa [mine] using Prog.amid_later (each j) grown
  | ret value =>
    rw [(step_done (h := h) (by simp [at_op]) c).1]
    exact ⟨start, R.refl _, each⟩
  | fail error =>
    rw [(step_done (h := h) (by simp [at_op]) c).1]
    exact ⟨start, R.refl _, each⟩

/-- Threads that each keep to the agreement amid the others keep it together. -/
theorem run_amid (pool : Pool I ε α W ι) (schedule : List (ι × C))
    {post : ι → Except ε α → W → Prop} (start : R.inv pool.world)
    (each : ∀ i, (pool.threads i).amid h ok R (post i) pool.world)
    (permitted : ∀ e ∈ schedule, ok e.2) :
    R.inv (run h schedule pool).world ∧ R.grows pool.world (run h schedule pool).world ∧
      ∀ i, ((run h schedule pool).threads i).amid h ok R (post i) (run h schedule pool).world := by
  induction schedule generalizing pool with
  | nil => exact ⟨start, R.refl _, each⟩
  | cons e schedule ih =>
    obtain ⟨i, c⟩ := e
    obtain ⟨kept, grown, onward⟩ := step_amid start each i (permitted (i, c) (by simp))
    obtain ⟨inv, more, rest⟩ := ih _ kept onward fun e later => permitted e (by simp [later])
    exact ⟨inv, R.trans grown more, rest⟩

end Pool

end Lib
