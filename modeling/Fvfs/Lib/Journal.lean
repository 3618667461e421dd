import Fvfs.Lib.Service

/-! Journals: what a run to completion asked for, in which world, and what it was answered.
The rules of the weakest precondition, for postconditions that also see the journal. -/
namespace Lib

/-- One operation of a run. -/
structure Happening (I : Interface) (W : Type) where
  before : W
  op : I.Op
  res : I.Res op

abbrev Journal (I : Interface) (W : Type) := List (Happening I W)

namespace Prog

variable {I : Interface} {W C : Type}

/-- The operations of the run to completion, in order. -/
def journal (h : Handler I W C) : Prog I ε α → (Nat → C) → W → Journal I W
  | ret _, _, _ => []
  | fail _, _, _ => []
  | call op next, env, w =>
    ⟨w, op, (h op (env 0) w).1⟩ ::
      (next (h op (env 0) w).1).journal h (fun i => env (i + 1)) (h op (env 0) w).2

/-- Whatever permitted choices the environment makes, the outcome, the journal and the
final world satisfy `post`. -/
def noted (h : Handler I W C) (ok : C → Prop) :
    Prog I ε α → (Except ε α → Journal I W → W → Prop) → W → Prop
  | ret value, post, w => post (.ok value) [] w
  | fail error, post, w => post (.error error) [] w
  | call op next, post, w => ∀ c, ok c →
    noted h ok (next (h op c w).1) (fun r later => post r (⟨w, op, (h op c w).1⟩ :: later)) (h op c w).2

variable {h : Handler I W C} {ok : C → Prop}

@[simp] theorem noted_ret (value : α) (post : Except ε α → Journal I W → W → Prop) (w : W) :
    (ret value : Prog I ε α).noted h ok post w ↔ post (.ok value) [] w := Iff.rfl
@[simp] theorem noted_fail (error : ε) (post : Except ε α → Journal I W → W → Prop) (w : W) :
    (fail error : Prog I ε α).noted h ok post w ↔ post (.error error) [] w := Iff.rfl

theorem noted_mono {p : Prog I ε α} {post weaker : Except ε α → Journal I W → W → Prop} {w : W}
    (valid : p.noted h ok post w) (weaken : ∀ r log w, post r log w → weaker r log w) :
    p.noted h ok weaker w := by
  induction p generalizing w post weaker with
  | ret value => exact weaken _ _ _ valid
  | fail error => exact weaken _ _ _ valid
  | call op next ih =>
    exact fun c permitted => ih _ (valid c permitted) fun r log w => weaken r _ w

/-- Sequencing: the journal of the first part is followed by that of the second. -/
theorem noted_bind (p : Prog I ε α) (k : α → Prog I ε β)
    (post : Except ε β → Journal I W → W → Prop) (w : W) :
    (p >>= k).noted h ok post w ↔ p.noted h ok (fun
      | .ok value, log, w' => (k value).noted h ok (fun r later => post r (log ++ later)) w'
      | .error error, log, w' => post (.error error) log w') w := by
  induction p generalizing w post with
  | ret value => rfl
  | fail error => rfl
  | call op next ih =>
    refine forall_congr' fun c => imp_congr_right fun _ => (ih _ _ _).trans ?_
    refine iff_of_eq (congrArg (fun q => noted h ok (next _) q _) (funext fun r => ?_))
    cases r <;> rfl

theorem noted_attempt (p : Prog I ε α) (post : Except ε' (Except ε α) → Journal I W → W → Prop)
    (w : W) :
    (p.attempt : Prog I ε' _).noted h ok post w ↔ p.noted h ok (fun r => post (.ok r)) w := by
  induction p generalizing w post with
  | ret value => rfl
  | fail error => rfl
  | call op next ih => exact forall_congr' fun c => imp_congr_right fun _ => ih _ _ _

/-- Sequencing through an intermediate condition. -/
theorem noted_seq {p : Prog I ε α} {k : α → Prog I ε β} {mid : Except ε α → Journal I W → W → Prop}
    {post : Except ε β → Journal I W → W → Prop} {w : W} (first : p.noted h ok mid w)
    (rest : ∀ value log w', mid (.ok value) log w' →
      (k value).noted h ok (fun r later => post r (log ++ later)) w')
    (fails : ∀ error log w', mid (.error error) log w' → post (.error error) log w') :
    (p >>= k).noted h ok post w := by
  rw [noted_bind]
  refine noted_mono first fun r log w' holds => ?_
  cases r with
  | ok value => exact rest value log w' holds
  | error error => exact fails error log w' holds

/-- The same where the caller inspects the outcome. -/
theorem noted_try {p : Prog I ε α} {k : Except ε α → Prog I ε' β}
    {mid : Except ε α → Journal I W → W → Prop} {post : Except ε' β → Journal I W → W → Prop} {w : W}
    (first : p.noted h ok mid w)
    (rest : ∀ r log w', mid r log w' →
      (k r).noted h ok (fun r later => post r (log ++ later)) w') :
    (p.attempt >>= k).noted h ok post w := by
  rw [noted_bind, noted_attempt]
  exact noted_mono first rest

/-- The journal as a part of the state. -/
def noting (h : Handler I W C) (ok : C → Prop) : Service I (Journal I W × W) where
  pre _ _ := True
  may op s answer s' := ∃ c, ok c ∧ h op c s.2 = (answer, s'.2) ∧ s'.1 = s.1 ++ [⟨s.2, op, answer⟩]

theorem noted_iff_meets (p : Prog I ε α) (post : Except ε α → Journal I W → W → Prop)
    (log : Journal I W) (w : W) :
    p.noted h ok (fun r later => post r (log ++ later)) w ↔
      p.meets (noting h ok) (fun r s => post r s.1 s.2) (log, w) := by
  induction p generalizing log w with
  | ret value => simp
  | fail error => simp
  | call op next ih =>
    constructor
    · rintro valid
      refine ⟨trivial, ?_⟩
      rintro answer ⟨_, w'⟩ ⟨c, permitted, run, rfl⟩
      have rest := valid c permitted
      rw [run] at rest
      refine (ih answer _ _).mp (noted_mono rest fun r later w'' holds => ?_)
      rwa [List.append_assoc]
    · intro valid c permitted
      have rest := (ih _ _ _).mpr (valid.2 _ (_, _) ⟨c, permitted, rfl, rfl⟩)
      refine noted_mono rest fun r later w'' holds => ?_
      rwa [List.append_assoc] at holds

/-- The condition is about the actual run and its journal. -/
theorem exec_of_noted {p : Prog I ε α} {post : Except ε α → Journal I W → W → Prop} {w : W}
    (valid : p.noted h ok post w) (env : Nat → C) (permitted : ∀ i, ok (env i)) :
    post (p.exec h env w).1 (p.journal h env w) (p.exec h env w).2 := by
  induction p generalizing env w post with
  | ret value => exact valid
  | fail error => exact valid
  | call op next ih =>
    exact ih _ (valid (env 0) (permitted 0)) (fun i => env (i + 1)) (fun i => permitted (i + 1))

/-- The journal of a sequence: that of its first part, then that of the rest. -/
theorem journal_bind (p : Prog I ε α) (k : α → Prog I ε β) (env : Nat → C) (w : W) :
    (p >>= k).journal h env w = p.journal h env w ++ match p.exec h env w with
      | (.ok value, w') => (k value).journal h (fun i => env (i + p.steps h env w)) w'
      | (.error _, _) => [] := by
  induction p generalizing env w with
  | ret value => rfl
  | fail error => rfl
  | call op next ih => exact congrArg (List.cons _) (ih _ _ _)

/-- One run of the program: its outcome, its journal and what it leaves. -/
def ran (h : Handler I W C) (p : Prog I ε α) (w : W) (r : Except ε α) (log : Journal I W) (w' : W) :
    Prop := ∃ env, p.exec h env w = (r, w') ∧ p.journal h env w = log

theorem noted_ran [Inhabited C] (p : Prog I ε α) (w : W) :
    p.noted h (fun _ => True) (p.ran h w) w := by
  induction p generalizing w with
  | ret value => exact ⟨fun _ => default, rfl, rfl⟩
  | fail error => exact ⟨fun _ => default, rfl, rfl⟩
  | call op next ih =>
    intro c _
    refine noted_mono (ih _ _) ?_
    rintro r log w' ⟨env, run, written⟩
    refine ⟨fun | 0 => c | i + 1 => env i, run, ?_⟩
    exact congrArg (List.cons _) written

/-- What is true of all runs is true of this one. -/
theorem ran.holds {p : Prog I ε α} {w w' : W} {r : Except ε α} {log : Journal I W}
    (run : p.ran h w r log w') {post : Except ε α → Journal I W → W → Prop}
    (valid : p.noted h (fun _ => True) post w) : post r log w' := by
  obtain ⟨env, run, rfl⟩ := run
  have holds := exec_of_noted valid env fun _ => trivial
  rwa [run] at holds

theorem noted_and {p : Prog I ε α} {post also : Except ε α → Journal I W → W → Prop} {w : W}
    (first : p.noted h ok post w) (second : p.noted h ok also w) :
    p.noted h ok (fun r log w' => post r log w' ∧ also r log w') w := by
  induction p generalizing w post also with
  | ret value => exact ⟨first, second⟩
  | fail error => exact ⟨first, second⟩
  | call op next ih => exact fun c permitted => ih _ (first c permitted) (second c permitted)

/-- A program asks only for what it can ask for. -/
theorem noted_of_only {allowed : I.Op → Prop} {p : Prog I ε α} (only : p.Only allowed) (w : W) :
    p.noted h ok (fun _ log _ => ∀ a ∈ log, allowed a.op) w := by
  induction p generalizing w with
  | ret value => exact nofun
  | fail error => exact nofun
  | call op next ih =>
    intro c _
    refine noted_mono (ih _ (only.2 _) _) fun _ log _ inside a member => ?_
    rcases List.mem_cons.mp member with rfl | later
    · exact only.1
    · exact inside a later

end Prog

section Turns

variable {I : Interface} {W C : Type} {h : Handler I W C}

/-- The turns of a loop that goes on whatever becomes of an item: each item with the journal of
its own run of the body. -/
inductive Turns (h : Handler I W C) (body : β → Prog I ε Unit) :
    W → List (β × Journal I W) → W → Prop
  | nil (w : W) : Turns h body w [] w
  | cons {x : β} {log : Journal I W} {rest : List (β × Journal I W)} {w v w' : W}
      (turn : (body x).ran h w (.ok ()) log v) (later : Turns h body v rest w') :
      Turns h body w ((x, log) :: rest) w'

theorem noted_turns [Inhabited C] {body : β → Prog I ε Unit} (loop : List β → Prog I ε Unit)
    (stop : loop [] = pure ()) (onward : ∀ x rest, loop (x :: rest) = body x >>= fun _ => loop rest)
    (goes_on : ∀ x w, (body x).noted h (fun _ => True) (fun r _ _ => r = .ok ()) w)
    (items : List β) (w : W) :
    (loop items).noted h (fun _ => True) (fun r log w' => r = .ok () ∧
      ∃ turns, turns.map Prod.fst = items ∧ (turns.map Prod.snd).flatten = log ∧
        Turns h body w turns w') w := by
  induction items generalizing w with
  | nil =>
    rw [stop]
    exact ⟨rfl, [], rfl, rfl, .nil w⟩
  | cons x rest ih =>
    rw [onward]
    refine Prog.noted_seq (Prog.noted_and (Prog.noted_ran _ _) (goes_on x w)) ?_ ?_
    · rintro value log v ⟨turn, -⟩
      refine Prog.noted_mono (ih v) ?_
      rintro r later w' ⟨done, turns, rfl, rfl, runs⟩
      exact ⟨done, (x, log) :: turns, rfl, rfl, .cons turn runs⟩
    · rintro error log v ⟨-, fails⟩
      cases fails

end Turns

end Lib
