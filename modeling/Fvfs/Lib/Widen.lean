import Fvfs.Lib.Journal

/-! Programs over a wider interface: one that also offers other operations, answered by
another handler of the same world. -/
namespace Lib

/-- The operations of both. -/
@[reducible] def Interface.sum (I J : Interface) : Interface := ⟨I.Op ⊕ J.Op, Sum.elim I.Res J.Res⟩

def Handler.sum (h : Handler I W C) (g : Handler J W C) : Handler (I.sum J) W C
  | .inl op, c, w => h op c w
  | .inr op, c, w => g op c w

/-- The happening as the wider program sees it. -/
def Happening.inl (a : Happening I W) : Happening (I.sum J) W := ⟨a.before, .inl a.op, a.res⟩

variable {I J : Interface} {W C : Type}

/-- The happenings of the narrow interface. -/
def Journal.narrow (log : Journal (I.sum J) W) : Journal I W :=
  log.filterMap fun
    | ⟨w, .inl op, res⟩ => some ⟨w, op, res⟩
    | ⟨_, .inr _, _⟩ => none

@[simp] theorem Journal.narrow_cons_inr (w : W) (op : J.Op) (res : J.Res op)
    (log : Journal (I.sum J) W) :
    Journal.narrow (⟨w, .inr op, res⟩ :: log) = Journal.narrow log := rfl

@[simp] theorem Journal.narrow_inl (log : Journal I W) :
    Journal.narrow (log.map (Happening.inl (J := J))) = log := by
  unfold Journal.narrow
  rw [List.filterMap_map]
  exact List.filterMap_some

namespace Prog

variable {h : Handler I W C} {g : Handler J W C} {ok : C → Prop}

/-- The same program; it does not use the other operations. -/
def inl : Prog I ε α → Prog (I.sum J) ε α
  | ret value => ret value
  | fail error => fail error
  | call op next => call (.inl op) fun answer => (next answer).inl

theorem wp_inl (p : Prog I ε α) (post : Except ε α → W → Prop) (w : W) :
    (p.inl : Prog (I.sum J) ε α).wp (h.sum g) ok post w ↔ p.wp h ok post w := by
  induction p generalizing w with
  | ret value => rfl
  | fail error => rfl
  | call op next ih => exact forall_congr' fun c => imp_congr_right fun _ => ih _ _

theorem noted_inl (p : Prog I ε α) (post : Except ε α → Journal (I.sum J) W → W → Prop) (w : W) :
    (p.inl : Prog (I.sum J) ε α).noted (h.sum g) ok post w ↔
      p.noted h ok (fun r log => post r (log.map Happening.inl)) w := by
  induction p generalizing w post with
  | ret value => rfl
  | fail error => rfl
  | call op next ih => exact forall_congr' fun c => imp_congr_right fun _ => ih _ _ _

end Prog

section Sum

variable {V D : Type}

def Service.sum (S : Service I V) (T : Service J V) : Service (I.sum J) V where
  pre
    | .inl op, v => S.pre op v
    | .inr op, v => T.pre op v
  may
    | .inl op, v, answer, v' => S.may op v answer v'
    | .inr op, v, answer, v' => T.may op v answer v'

theorem Prog.meets_inl {S : Service I V} {T : Service J V} (p : Prog I ε α)
    (post : Except ε α → V → Prop) (v : V) :
    (p.inl : Prog (I.sum J) ε α).meets (S.sum T) post v ↔ p.meets S post v := by
  induction p generalizing v with
  | ret value => rfl
  | fail error => rfl
  | call op next ih =>
    exact and_congr_right fun _ => forall_congr' fun _ => forall_congr' fun _ =>
      imp_congr_right fun _ => ih _ _

theorem Simulates.sum {h : Handler I W C} {h' : Handler J W C} {ok : C → Prop}
    {g : Handler I V D} {g' : Handler J V D} {allowed : D → Prop} {S : Service I Unit}
    {T : Service J Unit} {R : W → V → Prop} (first : Simulates h ok g allowed S R)
    (second : Simulates h' ok g' allowed T R) :
    Simulates (h.sum h') ok (g.sum g') allowed (S.sum T) R := by
  rintro (op | op) c w v permitted related asks
  · exact first op c w v permitted related asks
  · exact second op c w v permitted related asks

end Sum

end Lib
