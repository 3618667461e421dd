import Fvfs.Lib.Trace
import Mathlib.Logic.Function.Basic

/-! Interleavings of resumption programs over one shared world. A schedule names,
step by step, the thread that performs its next operation and the environment's
choice there; the trace records the operations in the order they took effect. -/
namespace Lib

structure Pool (I : Interface) (ε α W ι : Type) where
  world : W
  threads : ι → Prog I ε α

namespace Pool

variable {I : Interface} {ε α W C ι : Type} [DecidableEq ι] (h : Handler I W C)

/-- The chosen thread performs one operation. Finished threads stutter. -/
def step (i : ι) (c : C) (s : Pool I ε α W ι) : Pool I ε α W ι :=
  match s.threads i with
  | .call op next => ⟨(h op c s.world).2, Function.update s.threads i (next (h op c s.world).1)⟩
  | _ => s

def emitted (i : ι) (c : C) (s : Pool I ε α W ι) : List (Event I ι) :=
  match s.threads i with
  | .call op _ => [⟨i, op, (h op c s.world).1⟩]
  | _ => []

def run : List (ι × C) → Pool I ε α W ι → Pool I ε α W ι
  | [], s => s
  | (i, c) :: schedule, s => run schedule (step h i c s)

def trace : List (ι × C) → Pool I ε α W ι → List (Event I ι)
  | [], _ => []
  | (i, c) :: schedule, s => emitted h i c s ++ trace schedule (step h i c s)

/-- Every step of the schedule is taken after a trace and in a state that permit it. -/
def Along (guard : List (Event I ι) → Pool I ε α W ι → ι → C → Prop) :
    List (Event I ι) → List (ι × C) → Pool I ε α W ι → Prop
  | _, [], _ => True
  | past, (i, c) :: schedule, s =>
    guard past s i c ∧ Along guard (past ++ emitted h i c s) schedule (step h i c s)

instance decidableAlong (guard : List (Event I ι) → Pool I ε α W ι → ι → C → Prop)
    [∀ past s i c, Decidable (guard past s i c)] : (past : List (Event I ι)) →
    (schedule : List (ι × C)) → (s : Pool I ε α W ι) → Decidable (Along h guard past schedule s)
  | _, [], _ => .isTrue trivial
  | past, (i, c) :: schedule, s =>
    have : Decidable (Along h guard (past ++ emitted h i c s) schedule (step h i c s)) :=
      decidableAlong guard _ schedule _
    inferInstanceAs (Decidable (guard past s i c ∧ _))

/-- The property holds in every state the run passes through, the last one included. -/
def Throughout (P : Pool I ε α W ι → Prop) : List (ι × C) → Pool I ε α W ι → Prop
  | [], s => P s
  | (i, c) :: σ, s => P s ∧ Throughout P σ (step h i c s)

/-- `Q` held in some state of the run, and `P` has held ever since. -/
def EverSince (Q P : Pool I ε α W ι → Prop) (σ : List (ι × C)) (s : Pool I ε α W ι) : Prop :=
  ∃ before after, σ = before ++ after ∧ Q (run h before s) ∧ Throughout h P after (run h before s)

/-- A thread is done when it has no operation left. -/
def Done (p : Prog I ε α) : Prop := ∀ op next, p ≠ .call op next

@[simp] theorem done_ret (value : α) : Done (.ret value : Prog I ε α) := nofun
@[simp] theorem done_fail (error : ε) : Done (.fail error : Prog I ε α) := nofun
@[simp] theorem done_call (op : I.Op) (next : I.Res op → Prog I ε α) :
    ¬Done (.call op next) := fun done => done op next rfl

instance (p : Prog I ε α) : Decidable (Done p) :=
  match p with
  | .ret value => .isTrue (done_ret value)
  | .fail error => .isTrue (done_fail error)
  | .call op next => .isFalse (done_call op next)

/-- The operation a thread performs next. -/
def nextOp : Prog I ε α → Option I.Op
  | .call op _ => some op
  | _ => none

/-- A thread that ended without a failure. -/
def Returned (p : Prog I ε α) : Prop := ∃ value, p = .ret value

instance (p : Prog I ε α) : Decidable (Returned p) :=
  match p with
  | .ret value => .isTrue ⟨value, rfl⟩
  | .fail _ => .isFalse nofun
  | .call _ _ => .isFalse nofun

variable {h}

theorem step_call {s : Pool I ε α W ι} {i : ι} {op : I.Op} {next : I.Res op → Prog I ε α}
    (at_op : s.threads i = .call op next) (c : C) :
    step h i c s =
      ⟨(h op c s.world).2, Function.update s.threads i (next (h op c s.world).1)⟩ := by
  simp only [step, at_op]

omit [DecidableEq ι] in
theorem emitted_call {s : Pool I ε α W ι} {i : ι} {op : I.Op} {next : I.Res op → Prog I ε α}
    (at_op : s.threads i = .call op next) (c : C) :
    emitted h i c s = [⟨i, op, (h op c s.world).1⟩] := by
  simp only [emitted, at_op]

theorem step_done {s : Pool I ε α W ι} {i : ι} (done : Done (s.threads i)) (c : C) :
    step h i c s = s ∧ emitted h i c s = [] := by
  unfold step emitted
  split
  next op next at_op => exact absurd at_op (done op next)
  next => exact ⟨rfl, rfl⟩

@[simp] theorem run_nil (s : Pool I ε α W ι) : run h [] s = s := rfl
@[simp] theorem trace_nil (s : Pool I ε α W ι) : trace h [] s = [] := rfl

theorem run_append (σ τ : List (ι × C)) (s : Pool I ε α W ι) :
    run h (σ ++ τ) s = run h τ (run h σ s) := by
  induction σ generalizing s with
  | nil => rfl
  | cons e σ ih => exact ih _

theorem trace_append (σ τ : List (ι × C)) (s : Pool I ε α W ι) :
    trace h (σ ++ τ) s = trace h σ s ++ trace h τ (run h σ s) := by
  induction σ generalizing s with
  | nil => rfl
  | cons e σ ih => simp only [List.cons_append, trace, run, ih, List.append_assoc]

theorem step_eq_run (i : ι) (c : C) (s : Pool I ε α W ι) : step h i c s = run h [(i, c)] s := rfl

theorem emitted_eq_trace (i : ι) (c : C) (s : Pool I ε α W ι) :
    emitted h i c s = trace h [(i, c)] s := by simp [trace]

theorem along_append {guard : List (Event I ι) → Pool I ε α W ι → ι → C → Prop}
    {past : List (Event I ι)} {σ τ : List (ι × C)} {s : Pool I ε α W ι} :
    Along h guard past (σ ++ τ) s ↔
      Along h guard past σ s ∧ Along h guard (past ++ trace h σ s) τ (run h σ s) := by
  induction σ generalizing past s with
  | nil => simp [Along]
  | cons e σ ih =>
    simp only [List.cons_append, Along, run, trace, ih, and_assoc, List.append_assoc]

theorem Along.mono {guard guard' : List (Event I ι) → Pool I ε α W ι → ι → C → Prop}
    (weaker : ∀ past s i c, guard past s i c → guard' past s i c) {past : List (Event I ι)}
    {σ : List (ι × C)} {s : Pool I ε α W ι} (along : Along h guard past σ s) :
    Along h guard' past σ s := by
  induction σ generalizing past s with
  | nil => trivial
  | cons e σ ih => exact ⟨weaker _ _ _ _ along.1, ih along.2⟩

/-- A guard that looks only at the environment's choices is one fact about the schedule. -/
theorem along_of_forall {ok : C → Prop} {σ : List (ι × C)} (permitted : ∀ e ∈ σ, ok e.2)
    (past : List (Event I ι)) (s : Pool I ε α W ι) : Along h (fun _ _ _ c => ok c) past σ s := by
  induction σ generalizing past s with
  | nil => trivial
  | cons e σ ih =>
    exact ⟨permitted e (by simp), ih (fun e member => permitted e (by simp [member])) _ _⟩

/-- The invariant rule, on the schedule so far: what one more permitted step keeps holds
at the end of every permitted run. -/
theorem run_invariant {s : Pool I ε α W ι} (inv : List (ι × C) → Prop)
    (guard : List (Event I ι) → Pool I ε α W ι → ι → C → Prop)
    (keeps : ∀ σ i c, inv σ → guard (trace h σ s) (run h σ s) i c → inv (σ ++ [(i, c)]))
    {σ : List (ι × C)} (permitted : Along h guard [] σ s) (start : inv []) : inv σ := by
  induction σ using List.reverseRecOn with
  | nil => exact start
  | append_singleton σ e ih =>
    obtain ⟨i, c⟩ := e
    obtain ⟨before, now, -⟩ := along_append.mp permitted
    exact keeps σ i c (ih before) (by simpa using now)

/-- One more step of the run, if the thread has one: what happens and what it leaves. -/
theorem run_snoc_cases (σ : List (ι × C)) (i : ι) (c : C) (s : Pool I ε α W ι) :
    (Done ((run h σ s).threads i) ∧ run h (σ ++ [(i, c)]) s = run h σ s ∧
      trace h (σ ++ [(i, c)]) s = trace h σ s) ∨
    ∃ op next, (run h σ s).threads i = .call op next ∧
      run h (σ ++ [(i, c)]) s = ⟨(h op c (run h σ s).world).2,
        Function.update (run h σ s).threads i (next (h op c (run h σ s).world).1)⟩ ∧
      trace h (σ ++ [(i, c)]) s = trace h σ s ++ [⟨i, op, (h op c (run h σ s).world).1⟩] := by
  rw [run_append, trace_append, ← step_eq_run, ← emitted_eq_trace]
  cases at_op : (run h σ s).threads i with
  | call op next => exact Or.inr ⟨op, next, rfl, step_call at_op c, by rw [emitted_call at_op]⟩
  | ret value =>
    obtain ⟨same, silent⟩ := step_done (h := h) (s := run h σ s) (i := i) (by simp [at_op]) c
    exact Or.inl ⟨by simp, same, by simp [silent]⟩
  | fail error =>
    obtain ⟨same, silent⟩ := step_done (h := h) (s := run h σ s) (i := i) (by simp [at_op]) c
    exact Or.inl ⟨by simp, same, by simp [silent]⟩

section EverSince

variable {Q P : Pool I ε α W ι → Prop} {σ : List (ι × C)} {s : Pool I ε α W ι} {e : ι × C}

theorem throughout_snoc :
    Throughout h P (σ ++ [e]) s ↔ Throughout h P σ s ∧ P (run h (σ ++ [e]) s) := by
  induction σ generalizing s with
  | nil => rfl
  | cons x σ ih => simp only [List.cons_append, Throughout, run, ih, and_assoc]

theorem EverSince.snoc (since : EverSince h Q P σ s) (now : P (run h (σ ++ [e]) s)) :
    EverSince h Q P (σ ++ [e]) s := by
  obtain ⟨before, after, rfl, start, always⟩ := since
  refine ⟨before, after ++ [e], by simp, start, throughout_snoc.mpr ⟨always, ?_⟩⟩
  rw [← run_append, ← List.append_assoc]
  exact now

/-- From the state before the last step. -/
theorem everSince_last (start : Q (run h σ s)) (before : P (run h σ s))
    (now : P (run h (σ ++ [e]) s)) : EverSince h Q P (σ ++ [e]) s := by
  refine ⟨σ, [e], rfl, start, before, ?_⟩
  rw [run_append] at now
  exact now

end EverSince

end Pool

end Lib
