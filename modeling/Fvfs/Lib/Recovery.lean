import Fvfs.Lib.Prog

/-! Crash recovery. A recovery procedure that always leads to one outcome, from every
state its own operations pass through, can be interrupted any number of times. -/
namespace Lib

namespace Prog

variable {I : Interface} {ε α W C β : Type} {h : Handler I W C}

/-- What runs of `p` leave that are each cut after so many operations, under choices of
their own, and followed by a restart. -/
def interrupted (h : Handler I W C) (p : Prog I ε α) (restart : W → W) :
    List (Nat × (Nat → C)) → W → W
  | [], w => w
  | (n, env) :: later, w => interrupted h p restart later (restart (p.cut h n env w))

/-- The outcome is settled from the start: no operation changes it, no restart does, and
a run to completion reaches it. -/
structure Converges (h : Handler I W C) (p : Prog I ε α) (restart : W → W) (outcome reached : W → β) :
    Prop where
  restarts : ∀ w, outcome (restart w) = outcome w
  runs : ∀ w, p.always h (fun _ => True) (fun w' => outcome w' = outcome w)
    (fun _ w' => outcome w' = outcome w ∧ reached w' = outcome w) w

variable {p : Prog I ε α} {restart : W → W} {outcome reached : W → β}

/-- A run cut anywhere leads to the same outcome as the state it began in. -/
theorem Converges.cut (converges : p.Converges h restart outcome reached) (n : Nat)
    (env : Nat → C) (w : W) : outcome (p.cut h n env w) = outcome w := by
  have found := cut_of_always (converges.runs w) env (fun _ => trivial) n
  by_cases early : n < p.steps h env w
  · exact found.1 early
  · exact (found.2 (Nat.le_of_not_lt early)).1

theorem Converges.interrupted (converges : p.Converges h restart outcome reached)
    (crashes : List (Nat × (Nat → C))) (w : W) :
    outcome (p.interrupted h restart crashes w) = outcome w := by
  induction crashes generalizing w with
  | nil => rfl
  | cons crash later ih =>
    obtain ⟨n, env⟩ := crash
    calc outcome (p.interrupted h restart later (restart (p.cut h n env w)))
        = outcome (restart (p.cut h n env w)) := ih _
      _ = outcome (p.cut h n env w) := converges.restarts _
      _ = outcome w := converges.cut n env w

theorem Converges.exec (converges : p.Converges h restart outcome reached) (env : Nat → C) (w : W) :
    reached (p.exec h env w).2 = outcome w :=
  (exec_of_wp (wp_of_always (converges.runs w)) env fun _ => trivial).2

/-- A full run after any interruptions ends as one run that was never interrupted. -/
theorem Converges.recovers (converges : p.Converges h restart outcome reached)
    (crashes : List (Nat × (Nat → C))) (env env' : Nat → C) (w : W) :
    reached (p.exec h env (p.interrupted h restart crashes w)).2 =
      reached (p.exec h env' w).2 := by
  rw [converges.exec, converges.interrupted, converges.exec]

end Prog

end Lib
