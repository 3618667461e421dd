import Mathlib.Logic.Function.Basic
import Mathlib.Data.List.Basic

/-! Resumption programs over an interface of atomic operations. A program either
returns, fails, or calls one operation and resumes with its answer, so the same
term can be run to completion, cut after any number of operations, or interleaved
with other programs. The handler alone decides what an operation does. -/
namespace Lib

/-- The atomic operations a program may call, and what each one answers. -/
structure Interface where
  Op : Type
  Res : Op → Type

inductive Prog (I : Interface) (ε α : Type) where
  | ret (value : α)
  | fail (error : ε)
  | call (op : I.Op) (next : I.Res op → Prog I ε α)

namespace Prog

protected def bind : Prog I ε α → (α → Prog I ε β) → Prog I ε β
  | ret value, k => k value
  | fail error, _ => fail error
  | call op next, k => call op fun answer => (next answer).bind k

instance : Monad (Prog I ε) where
  pure := ret
  bind := Prog.bind

@[simp] theorem pure_eq (value : α) : (pure value : Prog I ε α) = ret value := rfl

@[simp] theorem ret_bind (value : α) (k : α → Prog I ε β) : ret value >>= k = k value := rfl

@[simp] theorem fail_bind (error : ε) (k : α → Prog I ε β) :
    (fail error : Prog I ε α) >>= k = fail error := rfl

@[simp] theorem call_bind (op : I.Op) (next : I.Res op → Prog I ε α) (k : α → Prog I ε β) :
    call op next >>= k = call op fun answer => next answer >>= k := rfl

theorem bind_ret (p : Prog I ε α) : p >>= ret = p := by
  induction p with
  | ret value => rfl
  | fail error => rfl
  | call op next ih => exact congrArg (call op) (funext ih)

protected theorem bind_assoc (p : Prog I ε α) (k : α → Prog I ε β) (l : β → Prog I ε γ) :
    p >>= k >>= l = p >>= fun value => k value >>= l := by
  induction p with
  | ret value => rfl
  | fail error => rfl
  | call op next ih => exact congrArg (call op) (funext ih)

instance : LawfulMonad (Prog I ε) :=
  LawfulMonad.mk' (Prog I ε) bind_ret (fun _ _ => rfl) Prog.bind_assoc

/-- Call one operation and return its answer. -/
def perform (op : I.Op) : Prog I ε (I.Res op) := call op ret

@[simp] theorem perform_bind (op : I.Op) (k : I.Res op → Prog I ε β) :
    perform op >>= k = call op k := rfl

/-- An answer that may be an error, passed on as the program's own failure. -/
def lift : Except ε α → Prog I ε α
  | .ok value => ret value
  | .error error => fail error

@[simp] theorem lift_ok (value : α) : (lift (.ok value) : Prog I ε α) = ret value := rfl
@[simp] theorem lift_error (error : ε) : (lift (.error error) : Prog I ε α) = fail error := rfl

/-- Run a program for its outcome: the failure becomes a value the caller inspects. -/
def attempt : Prog I ε α → Prog I ε' (Except ε α)
  | ret value => ret (.ok value)
  | fail error => ret (.error error)
  | call op next => call op fun answer => (next answer).attempt

@[simp] theorem attempt_ret (value : α) :
    (attempt (ret value : Prog I ε α) : Prog I ε' _) = ret (.ok value) := rfl
@[simp] theorem attempt_fail (error : ε) :
    (attempt (fail error : Prog I ε α) : Prog I ε' _) = ret (.error error) := rfl
@[simp] theorem attempt_call (op : I.Op) (next : I.Res op → Prog I ε α) :
    (attempt (call op next) : Prog I ε' _) = call op fun answer => (next answer).attempt := rfl

theorem attempt_bind (p : Prog I ε α) (k : α → Prog I ε β) :
    (attempt (p >>= k) : Prog I ε' _) = attempt p >>= fun
      | .ok value => attempt (k value)
      | .error error => ret (.error error) := by
  induction p with
  | ret value => rfl
  | fail error => rfl
  | call op next ih => exact congrArg (call op) (funext ih)

/-- Every operation the program can still call, whatever it is answered, is in `allowed`. -/
def Only (allowed : I.Op → Prop) : Prog I ε α → Prop
  | ret _ => True
  | fail _ => True
  | call op next => allowed op ∧ ∀ answer, (next answer).Only allowed

section Only

variable {I : Interface} {allowed : I.Op → Prop}

@[simp] theorem only_ret (value : α) : (ret value : Prog I ε α).Only allowed := trivial
@[simp] theorem only_fail (error : ε) : (fail error : Prog I ε α).Only allowed := trivial
@[simp] theorem only_call (op : I.Op) (next : I.Res op → Prog I ε α) :
    (call op next).Only allowed ↔ allowed op ∧ ∀ answer, (next answer).Only allowed := Iff.rfl

theorem Only.bind {p : Prog I ε α} {k : α → Prog I ε β} (first : p.Only allowed)
    (rest : ∀ value, (k value).Only allowed) : (p >>= k).Only allowed := by
  induction p with
  | ret value => exact rest value
  | fail error => trivial
  | call op next ih => exact ⟨first.1, fun answer => ih answer (first.2 answer)⟩

theorem Only.mono {p : Prog I ε α} {wider : I.Op → Prop} (only : p.Only allowed)
    (weaken : ∀ op, allowed op → wider op) : p.Only wider := by
  induction p with
  | ret value => trivial
  | fail error => trivial
  | call op next ih => exact ⟨weaken op only.1, fun answer => ih answer (only.2 answer)⟩

theorem Only.attempt {p : Prog I ε α} (only : p.Only allowed) :
    (p.attempt : Prog I ε' (Except ε α)).Only allowed := by
  induction p with
  | ret value => trivial
  | fail error => trivial
  | call op next ih => exact ⟨only.1, fun answer => ih answer (only.2 answer)⟩

theorem unreturned_fail (error : ε) : ¬∃ value : α, (fail error : Prog I ε α) = ret value := by
  rintro ⟨value, same⟩
  cases same

/-- Every operation is an inner one, or a last one after which the program returns; it does not
return without a last one. -/
def Closes (inner last : I.Op → Prop) : Prog I ε α → Prop
  | ret _ => False
  | fail _ => True
  | call op next => (inner op ∧ ∀ answer, (next answer).Closes inner last) ∨
      (last op ∧ ∀ answer, ∃ value, next answer = ret value)

theorem Only.closes_bind {last : I.Op → Prop} {p : Prog I ε α} {k : α → Prog I ε β}
    (first : p.Only allowed) (rest : ∀ value, (k value).Closes allowed last) :
    (p >>= k).Closes allowed last := by
  induction p with
  | ret value => exact rest value
  | fail error => trivial
  | call op next ih => exact Or.inl ⟨first.1, fun answer => ih answer (first.2 answer)⟩

theorem Closes.unreturned {inner last : I.Op → Prop} {p : Prog I ε α}
    (closes : p.Closes inner last) : ¬∃ value, p = ret value := by
  rintro ⟨value, rfl⟩
  exact closes

/-- What is done with the value in the end takes no operation. -/
theorem Closes.map {inner last : I.Op → Prop} {p : Prog I ε α} (closes : p.Closes inner last)
    (f : α → β) : (p >>= fun value => ret (f value)).Closes inner last := by
  induction p with
  | ret value => exact closes
  | fail error => trivial
  | call op next ih =>
    rcases closes with ⟨here, onward⟩ | ⟨here, returns⟩
    · exact Or.inl ⟨here, fun answer => ih answer (onward answer)⟩
    · refine Or.inr ⟨here, fun answer => ?_⟩
      obtain ⟨value, eq⟩ := returns answer
      exact ⟨f value, congrArg (fun q => q >>= fun value => ret (f value)) eq⟩

end Only

end Prog

/-- What an operation answers and does to the world; `C` is what the environment
chooses at that moment (a clock reading, a fault). -/
abbrev Handler (I : Interface) (W C : Type) := (op : I.Op) → C → W → I.Res op × W

namespace Prog

section Exec

variable (h : Handler I W C)

/-- A run to completion. The environment's choices are taken in order from `env`. -/
def exec : Prog I ε α → (Nat → C) → W → Except ε α × W
  | ret value, _, w => (.ok value, w)
  | fail error, _, w => (.error error, w)
  | call op next, env, w =>
    exec (next (h op (env 0) w).1) (fun i => env (i + 1)) (h op (env 0) w).2

/-- How many operations the run to completion performs. -/
def steps : Prog I ε α → (Nat → C) → W → Nat
  | ret _, _, _ => 0
  | fail _, _, _ => 0
  | call op next, env, w =>
    steps (next (h op (env 0) w).1) (fun i => env (i + 1)) (h op (env 0) w).2 + 1

/-- The world found when the run is cut after `n` operations. -/
def cut : Prog I ε α → Nat → (Nat → C) → W → W
  | ret _, _, _, w => w
  | fail _, _, _, w => w
  | call _ _, 0, _, w => w
  | call op next, n + 1, env, w =>
    cut (next (h op (env 0) w).1) n (fun i => env (i + 1)) (h op (env 0) w).2

@[simp] theorem cut_call_zero (op : I.Op) (next : I.Res op → Prog I ε α) (env : Nat → C) (w : W) :
    (call op next).cut h 0 env w = w := rfl
@[simp] theorem cut_call_succ (op : I.Op) (next : I.Res op → Prog I ε α) (n : Nat)
    (env : Nat → C) (w : W) :
    (call op next).cut h (n + 1) env w =
      (next (h op (env 0) w).1).cut h n (fun i => env (i + 1)) (h op (env 0) w).2 := rfl
@[simp] theorem steps_call (op : I.Op) (next : I.Res op → Prog I ε α) (env : Nat → C) (w : W) :
    (call op next).steps h env w =
      (next (h op (env 0) w).1).steps h (fun i => env (i + 1)) (h op (env 0) w).2 + 1 := rfl

/-- A run of a sequence is the run of its first part, then of the rest in what is left. -/
theorem exec_bind (p : Prog I ε α) (k : α → Prog I ε β) (env : Nat → C) (w : W) :
    (p >>= k).exec h env w = match p.exec h env w with
      | (.ok value, w') => (k value).exec h (fun i => env (i + p.steps h env w)) w'
      | (.error error, w') => (.error error, w') := by
  induction p generalizing env w with
  | ret value => rfl
  | fail error => rfl
  | call op next ih => exact ih _ _ _

/-- Where the outcome is inspected the rest runs on either. -/
theorem exec_try (p : Prog I ε α) (k : Except ε α → Prog I ε' β) (env : Nat → C) (w : W) :
    (p.attempt >>= k).exec h env w = (k (p.exec h env w).1).exec h
      (fun i => env (i + p.steps h env w)) (p.exec h env w).2 := by
  induction p generalizing env w with
  | ret value => rfl
  | fail error => rfl
  | call op next ih => exact ih _ _ _

/-- Two worlds no allowed operation can tell apart stay so, and give the same outcome. -/
theorem exec_related {R : W → W → Prop} {allowed : I.Op → Prop} {p : Prog I ε α}
    (only : p.Only allowed)
    (keeps : ∀ op c w v, allowed op → R w v → (h op c w).1 = (h op c v).1 ∧
      R (h op c w).2 (h op c v).2)
    (env : Nat → C) {w v : W} (related : R w v) :
    (p.exec h env w).1 = (p.exec h env v).1 ∧ R (p.exec h env w).2 (p.exec h env v).2 := by
  induction p generalizing env w v with
  | ret value => exact ⟨rfl, related⟩
  | fail error => exact ⟨rfl, related⟩
  | call op next ih =>
    obtain ⟨same, after⟩ := keeps op (env 0) w v only.1 related
    simp only [exec]
    rw [same]
    exact ih _ (only.2 _) _ after

end Exec

section Wp

variable (h : Handler I W C) (ok : C → Prop)

/-- Weakest precondition of a run to completion: whatever permitted choices the
environment makes, the outcome and the final world satisfy `post`. -/
def wp : Prog I ε α → (Except ε α → W → Prop) → W → Prop
  | ret value, post, w => post (.ok value) w
  | fail error, post, w => post (.error error) w
  | call op next, post, w => ∀ c, ok c → wp (next (h op c w).1) post (h op c w).2

@[simp] theorem wp_ret (value : α) (post : Except ε α → W → Prop) (w : W) :
    (ret value : Prog I ε α).wp h ok post w ↔ post (.ok value) w := Iff.rfl
@[simp] theorem wp_fail (error : ε) (post : Except ε α → W → Prop) (w : W) :
    (fail error : Prog I ε α).wp h ok post w ↔ post (.error error) w := Iff.rfl
@[simp] theorem wp_call (op : I.Op) (next : I.Res op → Prog I ε α)
    (post : Except ε α → W → Prop) (w : W) :
    (call op next).wp h ok post w ↔
      ∀ c, ok c → (next (h op c w).1).wp h ok post (h op c w).2 := Iff.rfl

variable {h ok}

theorem wp_mono {p : Prog I ε α} {post weaker : Except ε α → W → Prop} {w : W}
    (valid : p.wp h ok post w) (weaken : ∀ r w, post r w → weaker r w) :
    p.wp h ok weaker w := by
  induction p generalizing w with
  | ret value => exact weaken _ _ valid
  | fail error => exact weaken _ _ valid
  | call op next ih => exact fun c permitted => ih _ (valid c permitted)

theorem wp_and {p : Prog I ε α} {post also : Except ε α → W → Prop} {w : W}
    (first : p.wp h ok post w) (second : p.wp h ok also w) :
    p.wp h ok (fun r w' => post r w' ∧ also r w') w := by
  induction p generalizing w with
  | ret value => exact ⟨first, second⟩
  | fail error => exact ⟨first, second⟩
  | call op next ih => exact fun c permitted => ih _ (first c permitted) (second c permitted)

/-- Fewer choices, and a handler that does the same under each of them. -/
theorem wp_narrow {g : Handler I W C} {fewer : C → Prop} (among : ∀ c, fewer c → ok c)
    (same : ∀ op c w, fewer c → h op c w = g op c w) {p : Prog I ε α} {post : Except ε α → W → Prop}
    {w : W} (valid : p.wp h ok post w) : p.wp g fewer post w := by
  induction p generalizing w with
  | ret value => exact valid
  | fail error => exact valid
  | call op next ih =>
    intro c permitted
    have here := valid c (among c permitted)
    rw [same op c w permitted] at here
    exact ih _ here

/-- What none of the allowed operations changes is as it was in the end. -/
theorem wp_of_only {allowed : I.Op → Prop} {p : Prog I ε α} {f : W → β} (only : p.Only allowed)
    (keeps : ∀ op c w, allowed op → f (h op c w).2 = f w) {w : W} :
    p.wp h ok (fun _ w' => f w' = f w) w := by
  induction p generalizing w with
  | ret value => rfl
  | fail error => rfl
  | call op next ih =>
    intro c _
    have here := keeps op c w only.1
    exact wp_mono (ih _ (only.2 _)) fun _ _ same => same.trans here

/-- Sequencing: a failure of the first program is the outcome of the whole. -/
theorem wp_bind (p : Prog I ε α) (k : α → Prog I ε β) (post : Except ε β → W → Prop) (w : W) :
    (p >>= k).wp h ok post w ↔ p.wp h ok (fun
      | .ok value => (k value).wp h ok post
      | .error error => post (.error error)) w := by
  induction p generalizing w with
  | ret value => rfl
  | fail error => rfl
  | call op next ih => exact forall_congr' fun c => imp_congr_right fun _ => ih _ _

theorem wp_attempt (p : Prog I ε α) (post : Except ε' (Except ε α) → W → Prop) (w : W) :
    (p.attempt : Prog I ε' _).wp h ok post w ↔ p.wp h ok (fun r => post (.ok r)) w := by
  induction p generalizing w with
  | ret value => rfl
  | fail error => rfl
  | call op next ih => exact forall_congr' fun c => imp_congr_right fun _ => ih _ _

/-- Sequencing through an intermediate condition. -/
theorem wp_seq {p : Prog I ε α} {k : α → Prog I ε β} {mid : Except ε α → W → Prop}
    {post : Except ε β → W → Prop} {w : W} (first : p.wp h ok mid w)
    (rest : ∀ value w', mid (.ok value) w' → (k value).wp h ok post w')
    (fails : ∀ error w', mid (.error error) w' → post (.error error) w') :
    (p >>= k).wp h ok post w := by
  rw [wp_bind]
  refine wp_mono first fun r w' holds => ?_
  cases r with
  | ok value => exact rest value w' holds
  | error error => exact fails error w' holds

/-- The same where the caller inspects the outcome instead of passing the failure on. -/
theorem wp_try {p : Prog I ε α} {k : Except ε α → Prog I ε' β} {mid : Except ε α → W → Prop}
    {post : Except ε' β → W → Prop} {w : W} (first : p.wp h ok mid w)
    (rest : ∀ r w', mid r w' → (k r).wp h ok post w') :
    (p.attempt >>= k).wp h ok post w := by
  rw [wp_bind, wp_attempt]
  exact wp_mono first rest

/-- The weakest precondition is about the actual run. -/
theorem exec_of_wp {p : Prog I ε α} {post : Except ε α → W → Prop} {w : W}
    (valid : p.wp h ok post w) (env : Nat → C) (permitted : ∀ i, ok (env i)) :
    post (p.exec h env w).1 (p.exec h env w).2 := by
  induction p generalizing env w with
  | ret value => exact valid
  | fail error => exact valid
  | call op next ih =>
    exact ih _ (valid (env 0) (permitted 0)) (fun i => env (i + 1)) (fun i => permitted (i + 1))

end Wp

section Always

variable (h : Handler I W C) (ok : C → Prop)

/-- `inv` at every point where the program still has an operation to perform, and
`post` once it has none: what a crash at any point can find. -/
def always (inv : W → Prop) : Prog I ε α → (Except ε α → W → Prop) → W → Prop
  | ret value, post, w => post (.ok value) w
  | fail error, post, w => post (.error error) w
  | call op next, post, w =>
    inv w ∧ ∀ c, ok c → always inv (next (h op c w).1) post (h op c w).2

variable {h ok} {inv : W → Prop}

@[simp] theorem always_ret (value : α) (post : Except ε α → W → Prop) (w : W) :
    (ret value : Prog I ε α).always h ok inv post w ↔ post (.ok value) w := Iff.rfl
@[simp] theorem always_fail (error : ε) (post : Except ε α → W → Prop) (w : W) :
    (fail error : Prog I ε α).always h ok inv post w ↔ post (.error error) w := Iff.rfl
@[simp] theorem always_call (op : I.Op) (next : I.Res op → Prog I ε α)
    (post : Except ε α → W → Prop) (w : W) :
    (call op next).always h ok inv post w ↔
      inv w ∧ ∀ c, ok c → (next (h op c w).1).always h ok inv post (h op c w).2 := Iff.rfl

theorem always_weaken {weaker_inv : W → Prop} {p : Prog I ε α}
    {post weaker : Except ε α → W → Prop} {w : W} (valid : p.always h ok inv post w)
    (here : ∀ w, inv w → weaker_inv w) (weaken : ∀ r w, post r w → weaker r w) :
    p.always h ok weaker_inv weaker w := by
  induction p generalizing w with
  | ret value => exact weaken _ _ valid
  | fail error => exact weaken _ _ valid
  | call op next ih => exact ⟨here _ valid.1, fun c permitted => ih _ (valid.2 c permitted)⟩

theorem always_mono {p : Prog I ε α} {post weaker : Except ε α → W → Prop} {w : W}
    (valid : p.always h ok inv post w) (weaken : ∀ r w, post r w → weaker r w) :
    p.always h ok inv weaker w := always_weaken valid (fun _ here => here) weaken

theorem always_bind {p : Prog I ε α} {k : α → Prog I ε β} {post : Except ε β → W → Prop} {w : W}
    (valid : p.always h ok inv (fun
      | .ok value => (k value).always h ok inv post
      | .error error => post (.error error)) w) :
    (p >>= k).always h ok inv post w := by
  induction p generalizing w with
  | ret value => exact valid
  | fail error => exact valid
  | call op next ih => exact ⟨valid.1, fun c permitted => ih _ (valid.2 c permitted)⟩

/-- A program whose outcome the caller inspects. -/
theorem always_try {p : Prog I ε α} {k : Except ε α → Prog I ε' β}
    {post : Except ε' β → W → Prop} {w : W}
    (valid : p.always h ok inv (fun r => (k r).always h ok inv post) w) :
    (p.attempt >>= k).always h ok inv post w := by
  induction p generalizing w with
  | ret value => exact valid
  | fail error => exact valid
  | call op next ih => exact ⟨valid.1, fun c permitted => ih _ (valid.2 c permitted)⟩

theorem wp_of_always {p : Prog I ε α} {post : Except ε α → W → Prop} {w : W}
    (valid : p.always h ok inv post w) : p.wp h ok post w := by
  induction p generalizing w with
  | ret value => exact valid
  | fail error => exact valid
  | call op next ih => exact fun c permitted => ih _ (valid.2 c permitted)

theorem cut_of_always {p : Prog I ε α} {post : Except ε α → W → Prop} {w : W}
    (valid : p.always h ok inv post w) (env : Nat → C) (permitted : ∀ i, ok (env i)) (n : Nat) :
    (n < p.steps h env w → inv (p.cut h n env w)) ∧
    (p.steps h env w ≤ n → post (p.exec h env w).1 (p.cut h n env w)) := by
  induction p generalizing env w n with
  | ret value => exact ⟨fun early => absurd early (Nat.not_lt_zero _), fun _ => valid⟩
  | fail error => exact ⟨fun early => absurd early (Nat.not_lt_zero _), fun _ => valid⟩
  | call op next ih =>
    cases n with
    | zero => exact ⟨fun _ => valid.1, fun late => absurd late (by simp)⟩
    | succ n =>
      have rest := ih _ (valid.2 (env 0) (permitted 0)) (fun i => env (i + 1))
        (fun i => permitted (i + 1)) n
      exact ⟨fun early => rest.1 (Nat.lt_of_succ_lt_succ early),
        fun late => rest.2 (Nat.le_of_succ_le_succ late)⟩

end Always

end Prog

end Lib
