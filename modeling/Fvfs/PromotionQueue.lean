import Fvfs.Requests
import Mathlib.Algebra.Order.BigOperators.Group.List
import Mathlib.Algebra.Order.Group.Nat

/-! The promotion task left to itself: reads it makes from a colder tier queue the path again,
so the queue drains exactly where only finitely many turns bring nothing home. -/
namespace Fvfs

open Lib Router
open Function (update)

/-- What the backends do in one turn of the promotion task, which asks each tier for the file
at most once and stores it at most once. -/
structure Behaviour where
  clock : Int
  getFault : Tier → Option FvfsError
  putFault : Option FvfsError
  torn : Option Nat

namespace Behaviour

def choice (b : Behaviour) : Step → Choice
  | .get t _ => ⟨b.clock, b.getFault t, none⟩
  | .put _ _ _ => ⟨b.clock, b.putFault, b.torn⟩
  | _ => .quiet b.clock

def perform (b : Behaviour) : Handler Sys World Unit := fun op _ w => Fvfs.perform op (b.choice op) w

/-- The tier hands the file out. -/
def serves (b : Behaviour) (w : World) (t : Tier) (p : FvfsPath) : Bool :=
  (b.getFault t).isNone && (w.tiers t p).isSome

/-- The colder tier a read of a file with these bits is served from, if it is. -/
def colderTier (b : Behaviour) (w : World) (p : FvfsPath) (bits : TierBitmask) : Option Tier :=
  if bits.has .nas then if b.serves w .nas p then some .nas else none
  else if bits.has .s3 then if b.serves w .s3 p then some .s3 else none
  else none

def fastestTier (b : Behaviour) (w : World) (p : FvfsPath) (bits : TierBitmask) : Option Tier :=
  if bits.has .localDisk && b.serves w .localDisk p then some .localDisk
  else b.colderTier w p bits

/-- The tier a read of the path is served from, if it is. -/
def servingTier (b : Behaviour) (w : World) (p : FvfsPath) : Option Tier :=
  match w.store.get p with
  | none => none
  | some m => if m.isDir then none else b.fastestTier w p m.tierBitmask

end Behaviour

/-- The local bit is set and the local disk holds a copy. -/
def World.home (w : World) (p : FvfsPath) : Bool :=
  (w.store.rowState p).any (fun x => x.tierBitmask.has .localDisk) &&
    (w.tiers .localDisk p).isSome

abbrev Meets (b : Behaviour) (task : Async α) (post : Outcome α → World → Prop) (w : World) : Prop :=
  task.wp b.perform (fun _ => True) post w

section Calls

variable {b : Behaviour} {w : World} {p : FvfsPath}

/-- A turn's behaviour leaves nothing open. -/
theorem meets_once {task : Async α} {post : Outcome α → World → Prop} {result : Prop}
    (runs : Meets b task post w ↔ Unit → True → result) : Meets b task post w ↔ result :=
  runs.trans ⟨fun valid => valid () trivial, fun valid _ _ => valid⟩

@[simp] theorem meets_metaGet (post) :
    Meets b (Async.metaGet p) post w ↔ post (.ok (w.store.get p)) w := meets_once Iff.rfl

@[simp] theorem meets_setTierBitmask (id : Nat) (mask : TierBitmask) (post) :
    Meets b (Async.setTierBitmask id mask) post w ↔
      post (.ok ()) (w.withStore (w.store.setTierBitmask id mask)) := meets_once Iff.rfl

@[simp] theorem meets_recordAccess (id : Nat) (post) :
    Meets b (Async.recordAccess id) post w ↔
      post (.ok ()) (w.withStore (w.store.recordAccess id b.clock)) := meets_once Iff.rfl

@[simp] theorem meets_sendPromote (signal : PromoteSignal) (post) :
    Meets b (Async.sendPromote signal) post w ↔
      post (.ok ()) { w with promotions := w.promotions ++ [signal] } := meets_once Iff.rfl

@[simp] theorem meets_recvPromote (post) :
    Meets b Async.recvPromote post w ↔
      post (.ok w.promotions.head?) { w with promotions := w.promotions.tail } :=
  meets_once Iff.rfl

theorem meets_get {t : Tier} {post : Outcome Bytes → World → Prop}
    (answered : b.serves w t p = true → ∀ data, w.tiers t p = some data → post (.ok data) w)
    (failed : b.serves w t p = false → ∀ e, post (.error e) w) :
    Meets b (Async.get t p) post w := by
  intro c _
  simp only [Behaviour.perform, Fvfs.perform, Behaviour.choice, getObject, Behaviour.serves]
    at answered failed ⊢
  cases fault : b.getFault t with
  | some e => exact failed (by simp [fault]) e
  | none =>
    cases held : w.tiers t p with
    | some data => exact answered (by simp [fault, held]) data held
    | none => exact failed (by simp [held]) _

theorem meets_put {data : Bytes} {post : Outcome Unit → World → Prop}
    (answered : b.putFault = none → post (.ok ()) (w.setObject .localDisk p (some data)))
    (failed : ∀ e, b.putFault = some e → b.torn = none → post (.error e) w)
    (torn : ∀ e n, b.putFault = some e → b.torn = some n →
      post (.error e) (w.setObject .localDisk p (some (data.take n)))) :
    Meets b (Async.put .localDisk p data) post w := by
  intro c _
  simp only [Behaviour.perform, Fvfs.perform, Behaviour.choice, putObject]
  cases fault : b.putFault with
  | none => exact answered fault
  | some e =>
    cases cut : b.torn with
    | none => exact failed e fault cut
    | some n => exact torn e n fault cut

end Calls

/-- The signal a read served from this tier sends. -/
def sent (p : FvfsPath) : Option Tier → List PromoteSignal
  | some .nas => [⟨p, .nas⟩]
  | some .s3 => [⟨p, .s3⟩]
  | _ => []

/-- The outcome of loading a file that is served from this tier, if it is. -/
structure Loaded (p : FvfsPath) (source : Option Tier) (w : World) (r : Outcome Bytes)
    (w' : World) : Prop where
  answers : source.isSome = true ↔ ∃ data, r = .ok data
  leaves : w' = { w with promotions := w.promotions ++ sent p source }

section Reads

variable {b : Behaviour} {w : World} {p : FvfsPath}

theorem loaded_nothing (e : FvfsError) (w : World) : Loaded p none w (.error e) w :=
  ⟨by simp, by simp [sent]⟩

theorem loads_readAndPromote {t : Tier} (cold : t ≠ .localDisk) :
    Meets b (readAndPromote p t) (Loaded p (if b.serves w t p then some t else none) w) w := by
  have signal : sent p (some t) = [⟨p, t⟩] := by
    cases t
    · contradiction
    · rfl
    · rfl
  refine wp_readAndPromote (meets_get (fun serves data held => ?_) fun refuses e => ?_)
  · rw [if_pos serves]
    exact fun _ _ => ⟨by simp, by rw [signal]; rfl⟩
  · rw [if_neg (by simp [refuses])]
    exact loaded_nothing e w

theorem colderTier_eq (bits : TierBitmask) :
    b.colderTier w p bits = bits.colder.bind fun t => if b.serves w t p then some t else none := by
  unfold Behaviour.colderTier TierBitmask.colder
  split
  · rfl
  · split <;> rfl

theorem loads_readTiers (bits : TierBitmask) :
    Meets b (readTiers p bits) (Loaded p (b.fastestTier w p bits) w) w := by
  refine wp_readTiers (fun v => v = w ∧ b.fastestTier w p bits = b.colderTier w p bits)
    (fun hot => ?_) (fun cold => ⟨rfl, by simp [Behaviour.fastestTier, cold]⟩) ?_ ?_
  · refine meets_get (fun serves data held => ?_) fun refuses e => ?_
    · rw [Behaviour.fastestTier, if_pos (by simp [hot, serves])]
      exact ⟨by simp, by simp [sent]⟩
    · exact ⟨rfl, by simp [Behaviour.fastestTier, refuses]⟩
  · rintro t _ tier ⟨rfl, fallback⟩
    rw [fallback, colderTier_eq, tier]
    exact loads_readAndPromote (TierBitmask.colder_has tier).2
  · rintro _ nowhere ⟨rfl, fallback⟩
    rw [fallback, colderTier_eq, nowhere]
    exact loaded_nothing _ _

/-- A read changes no file and no row, and queues the path if a colder tier served it. -/
theorem meets_read : Meets b (Router.read p) (fun r w' =>
    ((b.servingTier w p).isSome = true ↔ ∃ data, r = .ok data) ∧ w'.tiers = w.tiers ∧
      (∀ q, w'.store.rowState q = w.store.rowState q) ∧
      w'.promotions = w.promotions ++ sent p (b.servingTier w p)) w := by
  unfold Router.read requireMetadata Behaviour.servingTier
  simp only [Prog.wp_bind, meets_metaGet]
  cases found : w.store.get p with
  | none => exact ⟨by simp, rfl, fun _ => rfl, by simp [sent]⟩
  | some m =>
    simp only [Prog.pure_eq, Prog.wp_ret]
    split
    next => exact ⟨by simp, rfl, fun _ => rfl, by simp [sent]⟩
    next =>
      refine (Prog.wp_bind ..).mpr ?_
      refine Prog.wp_mono (loads_readTiers m.tierBitmask) ?_
      rintro r w' ⟨answers, rfl⟩
      cases r with
      | error e => exact ⟨answers, rfl, fun _ => rfl, rfl⟩
      | ok data =>
        refine (Prog.wp_bind ..).mpr ((Prog.wp_attempt ..).mpr ((meets_recordAccess _ _).mpr ?_))
        exact ⟨answers, rfl, fun _ => Store.rowState_recordAccess _ _, rfl⟩

end Reads

section Turns

variable {b : Behaviour} {w w' : World} {p q : FvfsPath}

theorem home_congr (tiers : w'.tiers = w.tiers)
    (rows : ∀ q, w'.store.rowState q = w.store.rowState q) : w'.home q = w.home q := by
  simp only [World.home, tiers, rows]

theorem home_put (data : Bytes) (home : w.home q = true) :
    (w.setObject .localDisk p (some data)).home q = true := by
  simp only [World.home, World.setObject_store, World.setObject_tiers, Bool.and_eq_true,
    true_and] at home ⊢
  refine ⟨home.1, ?_⟩
  split
  · rfl
  · exact home.2

/-- The row marked local; other rows keep their bits. -/
theorem home_mark {id : Nat} {bits : TierBitmask} (home : w.home q = true) :
    (w.withStore (w.store.setTierBitmask id (bits.set .localDisk))).home q = true := by
  simp only [World.home, World.withStore_store, World.withStore_tiers, Bool.and_eq_true,
    Store.rowState_setTierBitmask] at home ⊢
  refine ⟨?_, home.2⟩
  cases row : w.store.rowState q with
  | none => simp [row] at home
  | some x =>
    have bit := home.1
    rw [row] at bit
    by_cases same : x.id = id
    · simp [same]
    · simpa [same] using bit

theorem home_marked {m : FileMetadata} (found : w.store.get p = some m)
    (there : (w.tiers .localDisk p).isSome) :
    (w.withStore (w.store.setTierBitmask m.id (m.tierBitmask.set .localDisk))).home p = true := by
  have row := Store.rowState_of_get found
  simp [World.home, Store.rowState_setTierBitmask, row, Store.metadataState, there]

theorem get_of_serving (serving : (b.servingTier w p).isSome = true)
    (rows : w'.store.rowState p = w.store.rowState p) : ∃ m, w'.store.get p = some m := by
  refine Option.ne_none_iff_exists'.mp fun missing => ?_
  have gone := Store.get_eq_none_iff.mp missing
  rw [rows] at gone
  have nothing := Store.get_eq_none_iff.mpr gone
  simp [Behaviour.servingTier, nothing] at serving

/-- What a turn for a path leaves, once its signal is taken. -/
structure Promoted (b : Behaviour) (p : FvfsPath) (w w' : World) : Prop where
  signals : w'.promotions = w.promotions ++ sent p (b.servingTier w p)
  keeps : ∀ q, w.home q = true → w'.home q = true
  brings : (b.servingTier w p).isSome = true → b.putFault = none → w'.home p = true
  refused : b.putFault ≠ none → b.torn = none →
    w'.tiers = w.tiers ∧ ∀ q, w'.store.rowState q = w.store.rowState q

theorem meets_promote : Meets b (promote p) (fun _ w' => Promoted b p w w') w := by
  refine Prog.wp_try meets_read ?_
  rintro r v ⟨answers, tiers, rows, signals⟩
  have same (q : FvfsPath) : v.home q = w.home q := home_congr tiers rows
  cases r with
  | error e =>
    have unserved : ¬(b.servingTier w p).isSome = true := fun serving => by
      obtain ⟨data, ⟨⟩⟩ := answers.mp serving
    exact ⟨signals, fun q home => (same q).trans home, fun serving => absurd serving unserved,
      fun _ _ => ⟨tiers, rows⟩⟩
  | ok data =>
    have serving := answers.mpr ⟨data, rfl⟩
    refine (Prog.wp_bind ..).mpr ((Prog.wp_attempt ..).mpr ?_)
    refine meets_put (fun accepted => ?_) (fun e fault whole => ?_) fun e n fault cut => ?_
    · obtain ⟨m, found⟩ := get_of_serving serving (rows p)
      have found' : (v.setObject .localDisk p (some data)).store.get p = some m := found
      refine (Prog.wp_bind ..).mpr ((Prog.wp_attempt ..).mpr ((meets_metaGet _).mpr ?_))
      rw [found']
      refine (Prog.wp_bind ..).mpr ((Prog.wp_attempt ..).mpr ((meets_setTierBitmask _ _ _).mpr ?_))
      refine ⟨signals, fun q home => home_mark (home_put data ((same q).trans home)),
        fun _ _ => home_marked found' (by simp), fun fault => absurd accepted fault⟩
    · exact ⟨signals, fun q home => (same q).trans home, fun _ accepted => by simp [fault] at accepted,
        fun _ _ => ⟨tiers, rows⟩⟩
    · exact ⟨signals, fun q home => home_put _ ((same q).trans home),
        fun _ accepted => by simp [fault] at accepted, fun _ whole => by simp [cut] at whole⟩

/-- The task takes the next signal and works on it. -/
def turn (b : Behaviour) (w : World) : World := (promoteNext.exec b.perform (fun _ => ()) w).2

theorem turn_idle (empty : w.promotions = []) : turn b w = w := by
  have idle : Meets b promoteNext (fun _ w' => w' = w) w := by
    refine (Prog.wp_bind ..).mpr ((meets_recvPromote _).mpr ?_)
    obtain ⟨tiers, store, promotions⟩ := w
    simp only at empty
    subst empty
    rfl
  exact Prog.exec_of_wp idle _ fun _ => trivial

theorem turn_promoted {signal : PromoteSignal} {rest : List PromoteSignal}
    (next : w.promotions = signal :: rest) :
    Promoted b signal.path { w with promotions := rest } (turn b w) := by
  have works : Meets b promoteNext
      (fun _ w' => Promoted b signal.path { w with promotions := rest } w') w := by
    refine (Prog.wp_bind ..).mpr ((meets_recvPromote _).mpr ?_)
    rw [next]
    exact meets_promote
  exact Prog.exec_of_wp works _ fun _ => trivial

end Turns

/-- The turn reads the file from a colder tier, and either the local disk refuses it or the
row and the disk had it already. -/
def Fruitless (b : Behaviour) (w : World) : Prop :=
  ∃ signal rest t, w.promotions = signal :: rest ∧
    b.servingTier w signal.path = some t ∧ t ≠ .localDisk ∧
    (b.putFault ≠ none ∨ w.home signal.path = true)

/-- A signal whose file is not home yet may be followed by one more for it. -/
def weight (w : World) (signal : PromoteSignal) : Nat := if w.home signal.path then 1 else 2

def load (w : World) : Nat := (w.promotions.map (weight w)).sum

section Load

variable {b : Behaviour} {w w' : World}

theorem weight_pos (w : World) (signal : PromoteSignal) : 0 < weight w signal := by
  unfold weight
  split <;> omega

theorem weight_le (keeps : ∀ q, w.home q = true → w'.home q = true) (signal : PromoteSignal) :
    weight w' signal ≤ weight w signal := by
  unfold weight
  by_cases home : w.home signal.path = true
  · rw [if_pos home, if_pos (keeps _ home)]
  · rw [if_neg home]
    split <;> omega

theorem load_eq_zero : load w = 0 ↔ w.promotions = [] := by
  cases queue : w.promotions with
  | nil => simp [load, queue]
  | cons signal rest =>
    have := weight_pos w signal
    simp only [load, queue, List.map_cons, List.sum_cons, reduceCtorEq, iff_false]
    omega

/-- A signal a read sends is for the path it read. -/
theorem sent_cases (p : FvfsPath) (source : Option Tier) :
    sent p source = [] ∨ ∃ t, source = some t ∧ t ≠ .localDisk ∧ sent p source = [⟨p, t⟩] := by
  match source with
  | none => exact Or.inl rfl
  | some .localDisk => exact Or.inl rfl
  | some .nas => exact Or.inr ⟨.nas, rfl, by decide, rfl⟩
  | some .s3 => exact Or.inr ⟨.s3, rfl, by decide, rfl⟩

/-- A turn lightens the queue unless it is fruitless. -/
theorem load_turn (fruitful : ¬Fruitless b w) (queued : load w ≠ 0) : load (turn b w) < load w := by
  cases next : w.promotions with
  | nil => exact absurd (load_eq_zero.mpr next) queued
  | cons signal rest =>
    have promoted := turn_promoted (b := b) next
    have lighter : (rest.map (weight (turn b w))).sum ≤ (rest.map (weight w)).sum :=
      List.sum_le_sum fun s _ => weight_le promoted.keeps s
    have before : load w = weight w signal + (rest.map (weight w)).sum := by simp [load, next]
    have := weight_pos w signal
    rcases sent_cases signal.path (b.servingTier w signal.path) with
      quiet | ⟨t, serving, cold, again⟩
    · have after : load (turn b w) = (rest.map (weight (turn b w))).sum := by
        have signals := promoted.signals.trans (congrArg (rest ++ ·) quiet)
        simp [load, signals]
      omega
    · have away : ¬w.home signal.path = true := fun home =>
        fruitful ⟨signal, rest, t, next, serving, cold, Or.inr home⟩
      have accepted : b.putFault = none := by
        by_contra fault
        exact fruitful ⟨signal, rest, t, next, serving, cold, Or.inl fault⟩
      have home : (turn b w).home signal.path = true :=
        promoted.brings (Option.isSome_iff_exists.mpr ⟨t, serving⟩) accepted
      have after : load (turn b w) = (rest.map (weight (turn b w))).sum + 1 := by
        have signals := promoted.signals.trans (congrArg (rest ++ ·) again)
        simp [load, signals, weight, home]
      have heavy : weight w signal = 2 := if_neg away
      omega

/-- What falls whenever it is not zero is zero in the end. -/
theorem exists_zero_of_falls {f : Nat → Nat} {n : Nat}
    (falls : ∀ k, n ≤ k → f k ≠ 0 → f (k + 1) < f k) : ∃ m, f m = 0 := by
  obtain ⟨value, start⟩ : ∃ value, f n = value := ⟨_, rfl⟩
  induction value using Nat.strong_induction_on generalizing n with
  | _ value ih =>
    by_cases zero : f n = 0
    · exact ⟨n, zero⟩
    · have next := falls n (Nat.le_refl n) zero
      exact ih (f (n + 1)) (start ▸ next) (fun k later => falls k (by omega)) rfl

end Load

/-- The world after so many turns, each under a behaviour of its own. -/
def afterTurns (behaviour : Nat → Behaviour) : Nat → World → World
  | 0, w => w
  | n + 1, w => turn (behaviour n) (afterTurns behaviour n w)

theorem afterTurns_empty {behaviour : Nat → Behaviour} {w : World} {n : Nat}
    (empty : (afterTurns behaviour n w).promotions = []) {k : Nat} (later : n ≤ k) :
    (afterTurns behaviour k w).promotions = [] := by
  induction k, later using Nat.le_induction with
  | base => exact empty
  | succ k _ ih => exact (congrArg World.promotions (turn_idle ih)).trans ih

/-- Left to itself the task empties its queue exactly where only finitely many of its turns
are fruitless. -/
theorem queue_drains_iff (behaviour : Nat → Behaviour) (w : World) :
    (∃ n, (afterTurns behaviour n w).promotions = []) ↔
      ∃ n, ∀ k, n ≤ k → ¬Fruitless (behaviour k) (afterTurns behaviour k w) := by
  constructor
  · rintro ⟨n, empty⟩
    refine ⟨n, fun k later => ?_⟩
    rintro ⟨signal, rest, t, next, -⟩
    rw [afterTurns_empty empty later] at next
    cases next
  · rintro ⟨n, fruitful⟩
    obtain ⟨m, zero⟩ := exists_zero_of_falls (f := fun k => load (afterTurns behaviour k w))
      fun k later queued => load_turn (fruitful k later) queued
    exact ⟨m, load_eq_zero.mp zero⟩

def fullDisk : Behaviour := ⟨0, fun _ => none, some (.io "no space left".toList), none⟩

theorem servingTier_congr {b : Behaviour} {w w' : World} {p : FvfsPath} (tiers : w'.tiers = w.tiers)
    (row : w'.store.rowState p = w.store.rowState p) : b.servingTier w' p = b.servingTier w p := by
  have serves (t : Tier) : b.serves w' t p = b.serves w t p := by
    simp only [Behaviour.serves, tiers]
  unfold Behaviour.servingTier Behaviour.fastestTier Behaviour.colderTier
  simp only [serves]
  cases found : w.store.get p with
  | none =>
    rw [Store.get_eq_none_iff, ← row, ← Store.get_eq_none_iff] at found
    rw [found]
  | some m =>
    have loaded := Store.rowState_of_get found
    cases found' : w'.store.get p with
    | none =>
      rw [Store.get_eq_none_iff, row, loaded] at found'
      cases found'
    | some m' =>
      have loaded' := Store.rowState_of_get found'
      rw [row, loaded] at loaded'
      obtain ⟨-, -, -, bits, dir⟩ := Store.RowState.mk.inj (Option.some.inj loaded')
      simp only [bits, dir]

/-- Every turn downloads the file and queues it again. -/
theorem queue_feeds_itself :
    ¬∀ (behaviour : Nat → Behaviour) (w : World),
      ∃ n, (afterTurns behaviour n w).promotions = [] := by
  intro claimed
  let start : World := { Request.evicted with promotions := [⟨Request.sampleFile, .s3⟩] }
  have stuck (n : Nat) : (afterTurns (fun _ => fullDisk) n start).promotions =
        [⟨Request.sampleFile, .s3⟩] ∧ (afterTurns (fun _ => fullDisk) n start).tiers = start.tiers ∧
      ∀ q, (afterTurns (fun _ => fullDisk) n start).store.rowState q = start.store.rowState q := by
    induction n with
    | zero => exact ⟨rfl, rfl, fun _ => rfl⟩
    | succ n ih =>
      obtain ⟨queue, tiers, rows⟩ := ih
      have promoted := turn_promoted (b := fullDisk) queue
      obtain ⟨tiers', rows'⟩ := promoted.refused (by decide) rfl
      have serving : fullDisk.servingTier start Request.sampleFile = some .s3 := by decide
      have again := servingTier_congr (b := fullDisk) tiers (rows Request.sampleFile)
      refine ⟨promoted.signals.trans ?_, tiers'.trans tiers, fun q => (rows' q).trans (rows q)⟩
      rw [serving] at again
      exact congrArg (sent Request.sampleFile.1) again
  obtain ⟨n, empty⟩ := claimed (fun _ => fullDisk) start
  rw [(stuck n).1] at empty
  cases empty

end Fvfs
