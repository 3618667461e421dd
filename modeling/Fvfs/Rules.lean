import Fvfs.Stretches

/-! Rules for runs to completion in which no step fails that can be done: one for each call, and
from them one for each stretch of the router that several operations share. -/
namespace Fvfs

open Lib

/-- An object is asked for that is not there. -/
def Step.misses (w : World) : Step → Bool
  | get t p => (w.tiers t p).isNone
  | delete t p => (w.tiers t p).isNone && t != .s3
  | _ => false

/-- Only what is not there is refused, with whatever error. -/
def calm : Handler Sys World Choice :=
  fun op c w => perform op (if op.misses w then c else { c with fault := none }) w

/-- The precondition of a run in which no step fails that can be done, whatever the clock reads. -/
abbrev Quiet (task : Async α) (post : Outcome α → World → Prop) (w : World) : Prop :=
  task.wp calm (fun _ => True) post w

theorem calm_faultless {c : Choice} (faultless : c.Faultless) (op : Step) (w : World) :
    calm op c w = perform op c w := by
  obtain ⟨clock, fault, torn⟩ := c
  obtain rfl : fault = none := faultless
  simp [calm]

theorem calm_hit {op : Step} {w : World} (hits : op.misses w = false) (c : Choice) :
    calm op c w = perform op { c with fault := none } w := by simp [calm, hits]

/-- In particular where no step fails at all. -/
theorem Quiet.faultless {task : Async α} {post : Outcome α → World → Prop} {w : World}
    (valid : Quiet task post w) : task.wp perform Choice.Faultless post w :=
  Prog.wp_narrow (fun _ _ => trivial) (fun op _ w faultless => calm_faultless faultless op w) valid

/-- Operations on the store, the channel and the clock, and puts: none of them can miss. -/
def Step.Sure : Step → Prop
  | get _ _ | delete _ _ => False
  | _ => True

theorem quiet_of_sure {task : Async α} {post : Outcome α → World → Prop} {w : World}
    (sure : task.Only Step.Sure) (valid : task.wp perform Choice.Faultless post w) :
    Quiet task post w := by
  induction task generalizing w with
  | ret value => exact valid
  | fail error => exact valid
  | call op next ih =>
    intro c _
    have hits : op.misses w = false := by
      cases op <;> first | rfl | exact sure.1.elim
    rw [calm_hit hits]
    exact ih _ (sure.2 _) (valid _ rfl)

section Calls

variable {w : World}

theorem quiet_call {op : Step} {next : Sys.Res op → Async α} {post : Outcome α → World → Prop}
    (hits : op.misses w = false) :
    Quiet (.call op next) post w ↔ ∀ clock torn,
      Quiet (next (perform op ⟨clock, none, torn⟩ w).1) post
        (perform op ⟨clock, none, torn⟩ w).2 := by
  constructor
  · intro valid clock torn
    have here := valid ⟨clock, none, torn⟩ trivial
    rwa [calm_hit hits] at here
  · rintro valid ⟨clock, fault, torn⟩ _
    rw [calm_hit hits]
    exact valid clock torn

/-- A step that does not depend on what the environment may still choose. -/
theorem quiet_steady {task : Async α} {post : Outcome α → World → Prop} {result : Prop}
    (runs : Quiet task post w ↔ Int → Option Nat → result) : Quiet task post w ↔ result :=
  runs.trans ⟨fun valid => valid 0 none, fun valid _ _ => valid⟩

/-- A step that depends on the clock. -/
theorem quiet_timed {task : Async α} {post : Outcome α → World → Prop} {result : Int → Prop}
    (runs : Quiet task post w ↔ ∀ clock, Option Nat → result clock) :
    Quiet task post w ↔ ∀ clock, result clock :=
  runs.trans ⟨fun valid clock => valid clock none, fun valid clock _ => valid clock⟩

@[simp] theorem quiet_put (t : Tier) (p : FvfsPath) (data : Bytes) (post) :
    Quiet (Async.put t p data) post w ↔ post (.ok ()) (w.setObject t p (some data)) :=
  quiet_steady (quiet_call rfl)

theorem quiet_get_hit {t : Tier} {p : FvfsPath} {data : Bytes}
    (there : w.tiers t p = some data) (post) :
    Quiet (Async.get t p) post w ↔ post (.ok data) w := by
  refine quiet_steady ((quiet_call (by simp [Step.misses, there])).trans ?_)
  simp only [perform, getObject, there]
  rfl

theorem quiet_get_miss {t : Tier} {p : FvfsPath} (absent : w.tiers t p = none) (post) :
    Quiet (Async.get t p) post w ↔ ∀ e, post (.error e) w := by
  constructor
  · intro valid e
    have here := valid ⟨0, some e, none⟩ trivial
    simpa [calm, Step.misses, absent, perform, getObject] using here
  · rintro refused ⟨clock, fault, torn⟩ _
    cases fault with
    | none => simpa [calm, Step.misses, absent, perform, getObject] using refused _
    | some e => simpa [calm, Step.misses, absent, perform, getObject] using refused e

theorem quiet_delete_hit {t : Tier} {p : FvfsPath} (there : (w.tiers t p).isSome ∨ t = .s3) (post) :
    Quiet (Async.delete t p) post w ↔ post (.ok ()) (w.setObject t p none) := by
  have hits : (Step.delete t p).misses w = false := by
    rcases there with there | rfl
    · simp [Step.misses, Option.isNone_eq_false_iff.mpr there]
    · simp [Step.misses]
  refine quiet_steady ((quiet_call hits).trans ?_)
  simp only [perform, deleteObject, there, if_true]
  rfl

theorem quiet_delete_miss {t : Tier} {p : FvfsPath} (absent : w.tiers t p = none) (warmer : t ≠ .s3)
    (post) : Quiet (Async.delete t p) post w ↔ ∀ e, post (.error e) w := by
  have misses : (Step.delete t p).misses w = true := by simp [Step.misses, absent, warmer]
  constructor
  · intro valid e
    have here := valid ⟨0, some e, none⟩ trivial
    simpa [calm, misses, perform, deleteObject] using here
  · rintro refused ⟨clock, fault, torn⟩ _
    cases fault with
    | none => simpa [calm, misses, perform, deleteObject, absent, warmer] using refused _
    | some e => simpa [calm, misses, perform, deleteObject] using refused e

@[simp] theorem quiet_now (post) : Quiet Async.now post w ↔ ∀ clock, post (.ok clock) w :=
  quiet_timed (quiet_call rfl)

@[simp] theorem quiet_metaGet (p : FvfsPath) (post) :
    Quiet (Async.metaGet p) post w ↔ post (.ok (w.store.get p)) w :=
  quiet_steady (quiet_call rfl)

@[simp] theorem quiet_metaGetById (id : Nat) (post) :
    Quiet (Async.metaGetById id) post w ↔ post (.ok (w.store.getById id)) w :=
  quiet_steady (quiet_call rfl)

@[simp] theorem quiet_upsert (m : FileMetadata) (post) :
    Quiet (Async.upsert m) post w ↔
      post (.ok (w.store.upsert m).1) (w.withStore (w.store.upsert m).2) :=
  quiet_steady (quiet_call rfl)

@[simp] theorem quiet_setTierBitmask (id : Nat) (b : TierBitmask) (post) :
    Quiet (Async.setTierBitmask id b) post w ↔
      post (.ok ()) (w.withStore (w.store.setTierBitmask id b)) :=
  quiet_steady (quiet_call rfl)

@[simp] theorem quiet_recordAccess (id : Nat) (post) :
    Quiet (Async.recordAccess id) post w ↔
      ∀ now, post (.ok ()) (w.withStore (w.store.recordAccess id now)) :=
  quiet_timed (quiet_call rfl)

@[simp] theorem quiet_metaDelete (p : FvfsPath) (post) :
    Quiet (Async.metaDelete p) post w ↔ post (.ok ()) (w.withStore (w.store.delete p)) :=
  quiet_steady (quiet_call rfl)

@[simp] theorem quiet_walComplete (id : Nat) (post) :
    Quiet (Async.walComplete id) post w ↔ post (.ok ()) (w.withStore (w.store.walComplete id)) :=
  quiet_steady (quiet_call rfl)

@[simp] theorem quiet_walRecordFailure (id : Nat) (error : Text) (post) :
    Quiet (Async.walRecordFailure id error) post w ↔
      post (.ok ()) (w.withStore (w.store.walRecordFailure id error)) :=
  quiet_steady (quiet_call rfl)

@[simp] theorem quiet_walPending (post) :
    Quiet Async.walPending post w ↔ post (.ok w.store.walPending) w :=
  quiet_steady (quiet_call rfl)

@[simp] theorem quiet_sendPromote (signal : PromoteSignal) (post) :
    Quiet (Async.sendPromote signal) post w ↔
      post (.ok ()) { w with promotions := w.promotions ++ [signal] } :=
  quiet_steady (quiet_call rfl)

@[simp] theorem quiet_recvPromote (post) :
    Quiet Async.recvPromote post w ↔
      post (.ok w.promotions.head?) { w with promotions := w.promotions.tail } :=
  quiet_steady (quiet_call rfl)

end Calls

section Any

variable {ok : Choice → Prop} {w : World}

/-- One call cannot be cut in the middle. -/
theorem always_once {op : Step} {into : Sys.Res op → Outcome α} {inv : World → Prop}
    {post : Outcome α → World → Prop} (here : inv w)
    (valid : (.call op fun r => .lift (into r) : Async α).wp perform ok post w) :
    (.call op fun r => .lift (into r) : Async α).always perform ok inv post w := by
  refine ⟨here, fun c permitted => ?_⟩
  have after := valid c permitted
  cases answer : into (perform op c w).1 with
  | ok value => simpa [answer] using after
  | error e => simpa [answer] using after

theorem wp_put {t : Tier} {p : FvfsPath} {data : Bytes} {post : Outcome Unit → World → Prop}
    (answered : post (.ok ()) (w.setObject t p (some data)))
    (failed : ∀ e c, ok c → ¬c.Faultless → post (.error e) w)
    (torn : ∀ e n c, ok c → ¬c.Faultless → c.torn = some n →
      post (.error e) (w.setObject t p (some (data.take n)))) :
    (Async.put t p data).wp perform ok post w := by
  intro c permitted
  simp only [perform]
  rcases putObject_cases (c := c) (w := w) t p data with
    ⟨_, eq⟩ | ⟨e, faulty, eq⟩ | ⟨e, n, faulty, cut, eq⟩
  · simpa [eq] using answered
  · simpa [eq] using failed e c permitted faulty
  · simpa [eq] using torn e n c permitted faulty cut

theorem wp_get {t : Tier} {p : FvfsPath} {post : Outcome Bytes → World → Prop}
    (answered : ∀ data, w.tiers t p = some data → post (.ok data) w)
    (failed : ∀ e, post (.error e) w) : (Async.get t p).wp perform ok post w := by
  intro c _
  simp only [perform]
  rcases getObject_cases (c := c) (w := w) t p with ⟨data, there, eq⟩ | ⟨e, eq⟩
  · simpa [eq] using answered data there
  · simpa [eq] using failed e

theorem wp_now {post : Outcome Int → World → Prop} (answered : ∀ clock, post (.ok clock) w) :
    Async.now.wp perform ok post w := fun c _ => answered c.clock

theorem wp_metaGet {p : FvfsPath} {post : Outcome (Option FileMetadata) → World → Prop}
    (answered : post (.ok (w.store.get p)) w)
    (failed : ∀ e c, ok c → ¬c.Faultless → post (.error e) w) :
    (Async.metaGet p).wp perform ok post w := by
  intro c permitted
  simp only [perform]
  rcases statement_cases (c := c) (w := w) (w.store.get p) w.store with eq | ⟨e, faulty, eq⟩
  · simpa [eq] using answered
  · simpa [eq] using failed e c permitted faulty

theorem wp_upsert {m : FileMetadata} {post : Outcome Nat → World → Prop}
    (answered : post (.ok (w.store.upsert m).1) (w.withStore (w.store.upsert m).2))
    (failed : ∀ e c, ok c → ¬c.Faultless → post (.error e) w) :
    (Async.upsert m).wp perform ok post w := by
  intro c permitted
  simp only [perform]
  rcases statement_cases (c := c) (w := w) (w.store.upsert m).1 (w.store.upsert m).2 with
    eq | ⟨e, faulty, eq⟩
  · simpa [eq] using answered
  · simpa [eq] using failed e c permitted faulty

theorem wp_setTierBitmask {id : Nat} {b : TierBitmask} {post : Outcome Unit → World → Prop}
    (answered : post (.ok ()) (w.withStore (w.store.setTierBitmask id b)))
    (failed : ∀ e, post (.error e) w) :
    (Async.setTierBitmask id b).wp perform ok post w := by
  intro c _
  simp only [perform]
  rcases statement_cases (c := c) (w := w) () (w.store.setTierBitmask id b) with eq | ⟨e, _, eq⟩
  · simpa [eq] using answered
  · simpa [eq] using failed e

theorem wp_recordAccess {id : Nat} {post : Outcome Unit → World → Prop}
    (answered : ∀ now, post (.ok ()) (w.withStore (w.store.recordAccess id now)))
    (failed : ∀ e, post (.error e) w) : (Async.recordAccess id).wp perform ok post w := by
  intro c _
  simp only [perform]
  rcases statement_cases (c := c) (w := w) () (w.store.recordAccess id c.clock) with
    eq | ⟨e, _, eq⟩
  · simpa [eq] using answered c.clock
  · simpa [eq] using failed e

theorem wp_delete {t : Tier} {p : FvfsPath} {post : Outcome Unit → World → Prop}
    (answered : (w.tiers t p).isSome ∨ t = .s3 → post (.ok ()) (w.setObject t p none))
    (failed : ∀ e, post (.error e) w) :
    (Async.delete t p).wp perform ok post w := by
  intro c _
  simp only [perform, deleteObject]
  split
  next => exact failed _
  next =>
    split
    next there => exact answered there
    next => exact failed _

theorem wp_walEnqueue {fileId : Nat} {op : WalOp} {post : Outcome Nat → World → Prop}
    (answered : ∀ now id s, w.store.walEnqueue fileId op now = .ok (id, s) →
      post (.ok id) (w.withStore s))
    (failed : ∀ e, ((∀ c, ok c → c.Faultless) → (w.store.files.get? fileId) = none) →
      post (.error e) w) :
    (Async.walEnqueue fileId op).wp perform ok post w := by
  intro c permitted
  simp only [perform, enqueueEntry]
  cases enqueued : w.store.walEnqueue fileId op c.clock with
  | error e =>
    refine failed e fun _ => ?_
    by_contra present
    simp [Store.walEnqueue, Option.isSome_iff_ne_none.mpr present] at enqueued
  | ok answer =>
    obtain ⟨id, s⟩ := answer
    rcases statement_cases (c := c) (w := w) id s with eq | ⟨e, faulty, eq⟩
    · simpa [eq] using answered c.clock id s enqueued
    · simpa [eq] using failed e fun faultless => absurd (faultless c permitted) faulty

end Any

namespace Router

variable {ok : Choice → Prop} {w : World}

/-- The loop keeps what each of its turns keeps, the ancestors still to come included. -/
theorem always_ensureDirs (inv : List FvfsPath → World → Prop)
    (turn : ∀ q rest u v, inv (q :: rest) u → Ensures q u v → inv rest v) {dirs : List FvfsPath}
    (start : inv dirs w) :
    (ensureDirs dirs).always perform ok (fun u => ∃ rest, inv rest u)
      (fun r u => ∃ rest, inv rest u ∧ (r = .ok () → rest = []) ∧
        ((∀ c, ok c → c.Faultless) → r = .ok ())) w := by
  induction dirs generalizing w with
  | nil => exact ⟨[], start, fun _ => rfl, fun _ => rfl⟩
  | cons q rest ih =>
    have here : ∃ rest, inv rest w := ⟨_, start⟩
    have stopped {c : Choice} (permitted : ok c) (faulty : ¬c.Faultless) (e : FvfsError) :
        ∃ rest, inv rest w ∧ ((.error e : Outcome Unit) = .ok () → rest = []) ∧
          ((∀ c, ok c → c.Faultless) → (.error e : Outcome Unit) = .ok ()) :=
      ⟨_, start, nofun, fun faultless => absurd (faultless c permitted) faulty⟩
    refine ⟨here, fun c permitted => ?_⟩
    rcases statement_cases (c := c) (w := w) (w.store.get q) w.store with eq | ⟨e, faulty, eq⟩
    · simp only [perform, eq, World.withStore_self]
      cases there : w.store.get q with
      | some m => exact ih (turn q rest w w start (.found there))
      | none =>
        refine ⟨here, fun d _ => ⟨here, fun c permitted => ?_⟩⟩
        rcases statement_cases (c := c) (w := w) (w.store.upsert (.newDir d.clock q)).1
          (w.store.upsert (.newDir d.clock q)).2 with eq | ⟨e, faulty, eq⟩
        · simp only [perform, eq]
          exact ih (turn q rest w _ start (.made d.clock there))
        · simp only [perform, eq]
          exact stopped permitted faulty e
    · simp only [perform, eq]
      exact stopped permitted faulty e

theorem wp_ensureParents (inv : List FvfsPath → World → Prop)
    (turn : ∀ q rest u v, inv (q :: rest) u → Ensures q u v → inv rest v) {turns : Nat}
    {p : FvfsPath} (start : inv (p.ancestorsWithin turns) w) :
    (ensureParents turns p).wp perform ok
      (fun r u => ∃ rest, inv rest u ∧ (r = .ok () → rest = []) ∧
        ((∀ c, ok c → c.Faultless) → r = .ok ())) w := by
  rw [ensureParents_eq_dirs]
  exact Prog.wp_of_always (always_ensureDirs inv turn start)

theorem ensureParentDirs_sure (p : FvfsPath) : (ensureParentDirs p).Only Step.Sure := by
  rw [ensureParentDirs_eq_dirs]
  exact only_ensureDirs (fun _ _ => trivial) trivial fun _ _ _ => trivial

theorem enqueueReplication_sure (fileId : Nat) : (enqueueReplication fileId).Only Step.Sure := by
  refine ⟨trivial, fun answer => ?_⟩
  cases answer with
  | error e => trivial
  | ok id =>
    refine ⟨trivial, fun answer => ?_⟩
    cases answer <;> trivial

theorem afterUpsert_sure (p : FvfsPath) (fileId : Nat) : (afterUpsert p fileId).Only Step.Sure :=
  (ensureParentDirs_sure p).bind fun _ => enqueueReplication_sure fileId

/-- Whatever every insertion of a missing ancestor keeps. -/
theorem ensureParents_keeps (ok : Choice → Prop) (inv : World → Prop) {turns : Nat}
    {p : FvfsPath} {w : World}
    (adds : ∀ q ∈ FvfsPath.ancestorsWithin turns p, ∀ w now, inv w → w.store.fileAt q = none →
      inv (w.withStore (w.store.upsert (.newDir now q)).2))
    (start : inv w) :
    (ensureParents turns p).always perform ok inv
      (fun r w' => inv w' ∧ ((∀ c, ok c → c.Faultless) → r = .ok ())) w := by
  rw [ensureParents_eq_dirs]
  have kept := @always_ensureDirs ok w
    (fun rest u => rest ⊆ FvfsPath.ancestorsWithin turns p ∧ inv u) (fun q rest u v kept ensures => ?_)
    _ ⟨List.Subset.refl _, start⟩
  · refine Prog.always_weaken kept (fun u ⟨_, _, holds⟩ => holds) ?_
    exact fun r u ⟨_, ⟨_, holds⟩, _, returns⟩ => ⟨holds, returns⟩
  · obtain ⟨within, holds⟩ := kept
    refine ⟨List.Subset.trans (List.subset_cons_self q rest) within, ?_⟩
    cases ensures with
    | found => exact holds
    | made now absent =>
      exact adds q (within List.mem_cons_self) u now holds (by simpa [Store.get] using absent)

end Router

end Fvfs
