import Fvfs.Lib.Prog

/-! Services: what an interface promises over an abstract state, where an operation may have
several answers and may ask something of its caller. A program is judged against the promise
alone, and what holds of it there holds of its runs on whatever implements the service. The
other ways to judge a program are judgements against a service of their own. -/
namespace Lib

structure Service (I : Interface) (V : Type) where
  pre : I.Op → V → Prop
  may : (op : I.Op) → V → I.Res op → V → Prop

namespace Prog

section Meets

variable {I : Interface} {V ε α β : Type} (S : Service I V)

/-- The program asks for what it may, and whatever it is answered its outcome and the state it
leaves satisfy `post`. -/
def meets : Prog I ε α → (Except ε α → V → Prop) → V → Prop
  | ret value, post, v => post (.ok value) v
  | fail error, post, v => post (.error error) v
  | call op next, post, v =>
    S.pre op v ∧ ∀ answer v', S.may op v answer v' → (next answer).meets post v'

variable {S}

@[simp] theorem meets_ret (value : α) (post : Except ε α → V → Prop) (v : V) :
    (ret value : Prog I ε α).meets S post v ↔ post (.ok value) v := Iff.rfl
@[simp] theorem meets_fail (error : ε) (post : Except ε α → V → Prop) (v : V) :
    (fail error : Prog I ε α).meets S post v ↔ post (.error error) v := Iff.rfl
@[simp] theorem meets_call (op : I.Op) (next : I.Res op → Prog I ε α)
    (post : Except ε α → V → Prop) (v : V) :
    (call op next).meets S post v ↔
      S.pre op v ∧ ∀ answer v', S.may op v answer v' → (next answer).meets S post v' := Iff.rfl

@[simp] theorem meets_lift (r : Except ε α) (post : Except ε α → V → Prop) (v : V) :
    (lift r : Prog I ε α).meets S post v ↔ post r v := by
  cases r <;> rfl

theorem meets_mono {p : Prog I ε α} {post weaker : Except ε α → V → Prop} {v : V}
    (valid : p.meets S post v) (weaken : ∀ r v, post r v → weaker r v) : p.meets S weaker v := by
  induction p generalizing v with
  | ret value => exact weaken _ _ valid
  | fail error => exact weaken _ _ valid
  | call op next ih => exact ⟨valid.1, fun answer v' may => ih _ (valid.2 answer v' may)⟩

theorem meets_bind (p : Prog I ε α) (k : α → Prog I ε β) (post : Except ε β → V → Prop) (v : V) :
    (p >>= k).meets S post v ↔ p.meets S (fun
      | .ok value => (k value).meets S post
      | .error error => post (.error error)) v := by
  induction p generalizing v with
  | ret value => rfl
  | fail error => rfl
  | call op next ih =>
    exact and_congr_right fun _ => forall_congr' fun _ => forall_congr' fun _ =>
      imp_congr_right fun _ => ih _ _

theorem meets_attempt (p : Prog I ε α) (post : Except ε' (Except ε α) → V → Prop) (v : V) :
    (p.attempt : Prog I ε' _).meets S post v ↔ p.meets S (fun r => post (.ok r)) v := by
  induction p generalizing v with
  | ret value => rfl
  | fail error => rfl
  | call op next ih =>
    exact and_congr_right fun _ => forall_congr' fun _ => forall_congr' fun _ =>
      imp_congr_right fun _ => ih _ _

/-- Sequencing through an intermediate condition. -/
theorem meets_seq {p : Prog I ε α} {k : α → Prog I ε β} {mid : Except ε α → V → Prop}
    {post : Except ε β → V → Prop} {v : V} (first : p.meets S mid v)
    (rest : ∀ value v', mid (.ok value) v' → (k value).meets S post v')
    (fails : ∀ error v', mid (.error error) v' → post (.error error) v') :
    (p >>= k).meets S post v := by
  rw [meets_bind]
  refine meets_mono first fun r v' holds => ?_
  cases r with
  | ok value => exact rest value v' holds
  | error error => exact fails error v' holds

/-- The same where the caller inspects the outcome. -/
theorem meets_try {p : Prog I ε α} {k : Except ε α → Prog I ε' β} {mid : Except ε α → V → Prop}
    {post : Except ε' β → V → Prop} {v : V} (first : p.meets S mid v)
    (rest : ∀ r v', mid r v' → (k r).meets S post v') : (p.attempt >>= k).meets S post v := by
  rw [meets_bind, meets_attempt]
  exact meets_mono first rest

/-- The value of a program that cannot fail. -/
def sure : Except Empty α → α
  | .ok value => value

variable (S) in
/-- `meets` for a program that cannot fail. -/
def answers (p : Prog I Empty α) (post : α → V → Prop) : V → Prop :=
  p.meets S fun r => post (sure r)

end Meets

end Prog

/-- What a handler promises. -/
def Service.of (h : Handler I W C) (ok : C → Prop) : Service I W where
  pre _ _ := True
  may op w answer w' := ∃ c, ok c ∧ h op c w = (answer, w')

theorem Prog.wp_iff_meets {h : Handler I W C} {ok : C → Prop} (p : Prog I ε α)
    (post : Except ε α → W → Prop) (w : W) :
    p.wp h ok post w ↔ p.meets (.of h ok) post w := by
  induction p generalizing w with
  | ret value => rfl
  | fail error => rfl
  | call op next ih =>
    constructor
    · rintro valid
      refine ⟨trivial, ?_⟩
      rintro answer w' ⟨c, permitted, run⟩
      have rest := valid c permitted
      rw [run] at rest
      exact (ih _ _).mp rest
    · exact fun valid c permitted => (ih _ _).mpr (valid.2 _ _ ⟨c, permitted, rfl⟩)

/-- Some operations may be asked for, whatever they answer. -/
def Service.only {I : Interface} (allowed : I.Op → Prop) : Service I Unit where
  pre op _ := allowed op
  may _ _ _ _ := True

theorem Prog.only_iff_meets {I : Interface} {allowed : I.Op → Prop} (p : Prog I ε α) :
    p.Only allowed ↔ p.meets (.only allowed) (fun _ _ => True) () := by
  induction p with
  | ret value => rfl
  | fail error => rfl
  | call op next ih =>
    constructor
    · exact fun only => ⟨only.1, fun answer _ _ => (ih answer).mp (only.2 answer)⟩
    · exact fun valid => ⟨valid.1, fun answer => (ih answer).mpr (valid.2 answer () trivial)⟩

/-- Every answer is one the service may give, in a state the world reached stands for. -/
def Implements (h : Handler I W C) (ok : C → Prop) (S : Service I V) (R : W → V → Prop) : Prop :=
  ∀ op c w v, ok c → R w v → S.pre op v → ∃ v', S.may op v (h op c w).1 v' ∧ R (h op c w).2 v'

section Implements

variable {I : Interface} {W V C ε α : Type} {h : Handler I W C} {ok : C → Prop} {S : Service I V}
  {R : W → V → Prop}

/-- What a program meets against the service it meets on the implementation. -/
theorem Implements.wp (implements : Implements h ok S R) {p : Prog I ε α}
    {post : Except ε α → V → Prop} {w : W} {v : V} (related : R w v) (valid : p.meets S post v) :
    p.wp h ok (fun r w' => ∃ v', R w' v' ∧ post r v') w := by
  induction p generalizing w v with
  | ret value => exact ⟨v, related, valid⟩
  | fail error => exact ⟨v, related, valid⟩
  | call op next ih =>
    intro c permitted
    obtain ⟨v', may, related'⟩ := implements op c w v permitted related valid.1
    exact ih _ related' (valid.2 _ v' may)

theorem Implements.exec (implements : Implements h ok S R) {p : Prog I ε α}
    {post : Except ε α → V → Prop} {w : W} {v : V} (related : R w v) (valid : p.meets S post v)
    (env : Nat → C) (permitted : ∀ i, ok (env i)) :
    ∃ v', R (p.exec h env w).2 v' ∧ post (p.exec h env w).1 v' :=
  Prog.exec_of_wp (implements.wp related valid) env permitted

end Implements

/-- Whatever the first handler does for a caller that keeps to the service, the second may do. -/
def Simulates (h : Handler I W C) (ok : C → Prop) (g : Handler I V D) (allowed : D → Prop)
    (S : Service I Unit) (R : W → V → Prop) : Prop :=
  ∀ op c w v, ok c → R w v → S.pre op () → ∃ d, allowed d ∧ (g op d v).1 = (h op c w).1 ∧
    S.may op () (h op c w).1 () ∧ R (h op c w).2 (g op d v).2

section Simulates

variable {I : Interface} {W V C D ε α : Type} {h : Handler I W C} {ok : C → Prop}
  {g : Handler I V D} {allowed : D → Prop} {S : Service I Unit} {R : W → V → Prop}

theorem Simulates.wp (simulates : Simulates h ok g allowed S R) {p : Prog I ε α}
    {post : Except ε α → V → Prop} {w : W} {v : V} (related : R w v)
    (asks : p.meets S (fun _ _ => True) ()) (valid : p.wp g allowed post v) :
    p.wp h ok (fun r w' => ∃ v', R w' v' ∧ post r v') w := by
  induction p generalizing w v with
  | ret value => exact ⟨v, related, valid⟩
  | fail error => exact ⟨v, related, valid⟩
  | call op next ih =>
    intro c permitted
    obtain ⟨d, may, same, told, related'⟩ := simulates op c w v permitted related asks.1
    have here := valid d may
    rw [same] at here
    exact ih _ related' (asks.2 _ () told) here

/-- Every run of the first is a run of the second. -/
theorem Simulates.exec (simulates : Simulates h ok g allowed S R) (some_choice : ∃ d, allowed d)
    {p : Prog I ε α} {w : W} {v : V} (related : R w v) (asks : p.meets S (fun _ _ => True) ())
    (env : Nat → C) (permitted : ∀ i, ok (env i)) :
    ∃ env', (∀ i, allowed (env' i)) ∧ (p.exec g env' v).1 = (p.exec h env w).1 ∧
      R (p.exec h env w).2 (p.exec g env' v).2 := by
  obtain ⟨rest, harmless⟩ := some_choice
  induction p generalizing w v env with
  | ret value => exact ⟨fun _ => rest, fun _ => harmless, rfl, related⟩
  | fail error => exact ⟨fun _ => rest, fun _ => harmless, rfl, related⟩
  | call op next ih =>
    obtain ⟨d, may, same, told, related'⟩ := simulates op (env 0) w v (permitted 0) related asks.1
    obtain ⟨env', may', answer, after⟩ := ih _ related' (asks.2 _ () told)
      (fun i => env (i + 1)) fun i => permitted (i + 1)
    refine ⟨fun | 0 => d | i + 1 => env' i, ?_, ?_⟩
    · rintro (_ | i)
      · exact may
      · exact may' i
    · simp only [Prog.exec, same]
      exact ⟨answer, after⟩

end Simulates

/-- A program asks for what it may wherever each of its calls does. -/
theorem Prog.meets_of_only {I : Interface} {V ε α : Type} {S : Service I V} {p : Prog I ε α}
    (only : p.Only fun op => ∀ v, S.pre op v) (v : V) : p.meets S (fun _ _ => True) v := by
  induction p generalizing v with
  | ret value => trivial
  | fail error => trivial
  | call op next ih => exact ⟨only.1 v, fun answer v' _ => ih answer (only.2 answer) v'⟩

section Lossy

variable {I : Interface} {W V C E : Type}

end Lossy

end Lib
