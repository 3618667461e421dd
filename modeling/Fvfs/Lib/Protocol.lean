import Fvfs.Lib.Pool
import Fvfs.Lib.Service

/-! Phase machines as abstractions of resumption programs. A protocol says which
operations a phase permits and where each answer leads; a program follows it when
every operation it can reach is permitted. Interleavings are then reasoned about
on phases, never on the residual programs. -/
namespace Lib

structure Protocol (I : Interface) (ε α σ : Type) where
  permits : σ → I.Op → Prop
  next : σ → (op : I.Op) → I.Res op → σ
  final : σ → Except ε α → Prop

namespace Protocol

variable {I : Interface} {ε α β σ W C ι : Type}

/-- The program, started in this phase, stays within the protocol. -/
def Follows (P : Protocol I ε α σ) : σ → Prog I ε α → Prop
  | s, .ret value => P.final s (.ok value)
  | s, .fail error => P.final s (.error error)
  | s, .call op next => P.permits s op ∧ ∀ answer, Follows P (P.next s op answer) (next answer)

variable {P : Protocol I ε α σ} {s : σ}

@[simp] theorem follows_ret (value : α) : P.Follows s (.ret value) ↔ P.final s (.ok value) :=
  Iff.rfl
@[simp] theorem follows_fail (error : ε) : P.Follows s (.fail error) ↔ P.final s (.error error) :=
  Iff.rfl
@[simp] theorem follows_call (op : I.Op) (next : I.Res op → Prog I ε α) :
    P.Follows s (.call op next) ↔
      P.permits s op ∧ ∀ answer, P.Follows (P.next s op answer) (next answer) := Iff.rfl

/-- The phase as a state: it is what the last answer led to. -/
def service (P : Protocol I ε α σ) : Service I σ where
  pre op s := P.permits s op
  may op s answer s' := s' = P.next s op answer

/-- A stretch is judged by the phases it ends in. -/
theorem follows_iff_meets (p : Prog I ε' β) (k : Except ε' β → Prog I ε α) :
    P.Follows s (p.attempt >>= k) ↔ p.meets P.service (fun r s => P.Follows s (k r)) s := by
  induction p generalizing s with
  | ret value => rfl
  | fail error => rfl
  | call op next ih =>
    refine and_congr_right fun _ => forall_congr' fun answer => (ih answer).trans ?_
    exact ⟨fun valid s' same => same ▸ valid, fun valid => valid _ rfl⟩

/-- A stretch of operations that all keep the phase, then the rest with its outcome. -/
theorem follows_attempt_of_only {allowed : I.Op → Prop} {p : Prog I ε β}
    {k : Except ε β → Prog I ε α} (only : p.Only allowed)
    (permitted : ∀ op, allowed op → P.permits s op)
    (stays : ∀ op answer, allowed op → P.next s op answer = s)
    (rest : ∀ outcome, P.Follows s (k outcome)) : P.Follows s (p.attempt >>= k) := by
  induction p with
  | ret value => exact rest _
  | fail error => exact rest _
  | call op next ih =>
    refine ⟨permitted op only.1, fun answer => ?_⟩
    rw [stays op answer only.1]
    exact ih answer (only.2 answer)

/-- The same where a failure of the stretch is the outcome of the whole. -/
theorem follows_bind_of_only {allowed : I.Op → Prop} {p : Prog I ε β} {k : β → Prog I ε α}
    (only : p.Only allowed) (permitted : ∀ op, allowed op → P.permits s op)
    (stays : ∀ op answer, allowed op → P.next s op answer = s)
    (fails : ∀ error, P.final s (.error error)) (rest : ∀ value, P.Follows s (k value)) :
    P.Follows s (p >>= k) := by
  induction p with
  | ret value => exact rest value
  | fail error => exact fails error
  | call op next ih =>
    refine ⟨permitted op only.1, fun answer => ?_⟩
    rw [stays op answer only.1]
    exact ih answer (only.2 answer)

theorem follows_of_only {allowed : I.Op → Prop} {p : Prog I ε α} (only : p.Only allowed)
    (permitted : ∀ op, allowed op → P.permits s op)
    (stays : ∀ op answer, allowed op → P.next s op answer = s)
    (ends : ∀ outcome, P.final s outcome) : P.Follows s p := by
  rw [← Prog.bind_ret p]
  apply follows_bind_of_only only permitted stays
  · exact fun error => ends (.error error)
  · exact fun value => ends (.ok value)

/-- A thread that is done stands in a final phase. -/
theorem Follows.final_of_ret {value : α} {p : Prog I ε α} (valid : P.Follows s p)
    (done : p = .ret value) : P.final s (.ok value) := by
  subst done
  exact valid

theorem Follows.final_of_done {p : Prog I ε α} (valid : P.Follows s p) (done : Pool.Done p) :
    ∃ outcome, P.final s outcome := by
  cases p with
  | ret value => exact ⟨_, valid⟩
  | fail error => exact ⟨_, valid⟩
  | call op next => exact absurd done (Pool.done_call op next)

/-- The operation a thread performs next is one its phase permits. -/
theorem Follows.permits_nextOp {op : I.Op} {p : Prog I ε α} (valid : P.Follows s p)
    (next : Pool.nextOp p = some op) : P.permits s op := by
  cases p with
  | call op' rest =>
    obtain rfl : op' = op := Option.some.inj next
    exact valid.1
  | ret value => nomatch next
  | fail error => nomatch next

variable [DecidableEq ι] {h : Handler I W C} {τ : ι → Type}

/-- The phase thread `i` has reached, read off the trace. -/
def after (P : Protocol I ε α σ) (i : ι) (s : σ) : List (Event I ι) → σ
  | [] => s
  | e :: trace => P.after i (if e.thread = i then P.next s e.op e.res else s) trace

@[simp] theorem after_nil (P : Protocol I ε α σ) (i : ι) (s : σ) : P.after i s [] = s := rfl

@[simp] theorem after_snoc (P : Protocol I ε α σ) (i : ι) (s : σ) (past : List (Event I ι))
    (e : Event I ι) : P.after i s (past ++ [e]) =
      if e.thread = i then P.next (P.after i s past) e.op e.res else P.after i s past := by
  induction past generalizing s with
  | nil => rfl
  | cons x past ih => exact ih _

/-- Whatever the other threads do, a thread stays within its protocol, in the phase that its
own events have led it to. -/
theorem run_follows (P : Protocol I ε α σ) {pool : Pool I ε α W ι} {i : ι}
    (follows : P.Follows s (pool.threads i)) (schedule : List (ι × C)) :
    P.Follows (P.after i s (Pool.trace h schedule pool)) ((Pool.run h schedule pool).threads i) := by
  induction schedule using List.reverseRecOn with
  | nil => exact follows
  | append_singleton schedule e ih =>
    obtain ⟨j, c⟩ := e
    rcases Pool.run_snoc_cases (h := h) schedule j c pool with
      ⟨_, same, still⟩ | ⟨op, next, at_op, new, grown⟩
    · rw [same, still]
      exact ih
    · rw [new, grown, after_snoc]
      by_cases mine : j = i
      · subst mine
        rw [at_op] at ih
        simpa using ih.2 _
      · have others : i ≠ j := fun same => mine same.symm
        simpa [mine, others] using ih

/-- The invariant rule on phases: one case per operation a phase permits. Threads may
follow different protocols. -/
theorem run_phases (P : (i : ι) → Protocol I ε α (τ i))
    (inv : List (Event I ι) → W → ((i : ι) → τ i) → Prop)
    (guard : List (Event I ι) → Pool I ε α W ι → ι → C → Prop)
    (keeps : ∀ past (pool : Pool I ε α W ι) phase i c op rest, inv past pool.world phase →
      guard past pool i c → pool.threads i = .call op rest → (P i).permits (phase i) op →
      inv (past ++ [⟨i, op, (h op c pool.world).1⟩]) (h op c pool.world).2
        (Function.update phase i ((P i).next (phase i) op (h op c pool.world).1)))
    {schedule : List (ι × C)} {pool : Pool I ε α W ι} (start : (i : ι) → τ i)
    (permitted : Pool.Along h guard [] schedule pool) (initial : inv [] pool.world start)
    (follows : ∀ i, (P i).Follows (start i) (pool.threads i)) :
    inv (Pool.trace h schedule pool) (Pool.run h schedule pool).world
      fun i => (P i).after i (start i) (Pool.trace h schedule pool) := by
  refine Pool.run_invariant (s := pool)
    (fun σ => inv (Pool.trace h σ pool) (Pool.run h σ pool).world
      fun i => (P i).after i (start i) (Pool.trace h σ pool)) guard ?_ permitted initial
  intro σ i c holds now
  rcases Pool.run_snoc_cases (h := h) σ i c pool with ⟨_, same, still⟩ | ⟨op, next, at_op, new, grown⟩
  · rw [same, still]
    exact holds
  · have here := run_follows (h := h) (P i) (follows i) σ
    rw [at_op] at here
    have step := keeps _ _ _ i c op next holds now at_op here.1
    rw [new, grown]
    convert step using 1
    funext j
    by_cases mine : i = j
    · subst mine
      simp
    · have others : j ≠ i := fun same => mine same.symm
      simp [mine, others]

end Protocol

/-- Races of two threads: a background task against one client request. -/
inductive Party where
  | task | client
  deriving DecidableEq

namespace Party

variable {I : Interface} {ε α W C σ τ : Type}

/-- The pool in which a task and a client request start together. -/
def race (task client : Prog I ε α) (w : W) : Pool I ε α W Party :=
  ⟨w, fun | .task => task | .client => client⟩

/-- The invariant rule for a race: one case per side. -/
theorem run_race (h : Handler I W C) (ok : C → Prop) (P : Protocol I ε α σ) (Q : Protocol I ε α τ)
    (inv : List (Event I Party) → W → σ → τ → Prop)
    (task_keeps : ∀ past w s t c op, inv past w s t → ok c → P.permits s op →
      inv (past ++ [⟨.task, op, (h op c w).1⟩]) (h op c w).2 (P.next s op (h op c w).1) t)
    (client_keeps : ∀ past w s t c op, inv past w s t → ok c → Q.permits t op →
      inv (past ++ [⟨.client, op, (h op c w).1⟩]) (h op c w).2 s (Q.next t op (h op c w).1))
    {schedule : List (Party × C)} (permitted : ∀ e ∈ schedule, ok e.2) {s : σ} {t : τ}
    {task client : Prog I ε α} {w : W} (start : inv [] w s t)
    (first : P.Follows s task) (second : Q.Follows t client) :
    ∃ s' t', inv (Pool.trace h schedule (race task client w))
        (Pool.run h schedule (race task client w)).world s' t' ∧
      P.Follows s' ((Pool.run h schedule (race task client w)).threads .task) ∧
      Q.Follows t' ((Pool.run h schedule (race task client w)).threads .client) := by
  let phases : Party → Type := fun | .task => σ | .client => τ
  let both : (i : Party) → Protocol I ε α (phases i) := fun | .task => P | .client => Q
  let phase : (i : Party) → phases i := fun | .task => s | .client => t
  have follows : ∀ i, (both i).Follows (phase i) ((race task client w).threads i) := by
    intro i
    cases i with
    | task => exact first
    | client => exact second
  have keeps : ∀ (past : List (Event I Party)) (pool : Pool I ε α W Party)
      (phase : (i : Party) → phases i) i c op rest,
      inv past pool.world (phase .task) (phase .client) → ok c → pool.threads i = .call op rest →
      (both i).permits (phase i) op →
      let phase' := Function.update phase i ((both i).next (phase i) op (h op c pool.world).1)
      inv (past ++ [⟨i, op, (h op c pool.world).1⟩]) (h op c pool.world).2 (phase' .task)
        (phase' .client) := by
    intro past pool phase i c op rest now valid _ allowed
    cases i with
    | task => simpa [both] using task_keeps past pool.world _ _ c op now valid allowed
    | client => simpa [both] using client_keeps past pool.world _ _ c op now valid allowed
  have holds := Protocol.run_phases both
    (fun past w phase => inv past w (phase .task) (phase .client)) (fun _ _ _ c => ok c) keeps phase
    (Pool.along_of_forall permitted _ _) start follows
  exact ⟨_, _, holds, P.run_follows first schedule, Q.run_follows second schedule⟩

end Party

end Lib
