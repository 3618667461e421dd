import Fvfs.Lib.Service
import Fvfs.Router

/-! The stretches of the router that several operations share: the tiers a read tries, judged
once against any service of its calls, and the ancestor loop, one turn at a time. -/
namespace Fvfs

open Lib

namespace TierBitmask

def colder (b : TierBitmask) : Option Tier :=
  if b.has .nas then some .nas else if b.has .s3 then some .s3 else Option.none

/-- The tier a read tries first. -/
def fastest (b : TierBitmask) : Option Tier :=
  if b.has .localDisk then some .localDisk else b.colder

theorem colder_has {b : TierBitmask} {t : Tier} (colder : b.colder = some t) :
    b.has t = true ∧ t ≠ .localDisk := by
  unfold TierBitmask.colder at colder
  split at colder
  next warm =>
    obtain rfl := Option.some.inj colder
    exact ⟨warm, nofun⟩
  next =>
    split at colder
    next cold =>
      obtain rfl := Option.some.inj colder
      exact ⟨cold, nofun⟩
    next => cases colder

theorem colder_eq_none {b : TierBitmask} (nowhere : b.colder = Option.none) {t : Tier}
    (other : t ≠ .localDisk) : b.has t = false := by
  unfold TierBitmask.colder at nowhere
  split at nowhere
  · cases nowhere
  next warm =>
    split at nowhere
    · cases nowhere
    next cold => cases t <;> simp_all

end TierBitmask

namespace Router

variable {p : FvfsPath} {b : TierBitmask}

theorem readFromNasOrS3_eq (p : FvfsPath) (b : TierBitmask) :
    readFromNasOrS3 p b = match b.colder with
      | some t => readAndPromote p t
      | none => .fail (.notFound p.text) := by
  unfold readFromNasOrS3 TierBitmask.colder
  split
  · rfl
  · split <;> rfl

/-- Without the local bit the router runs the fallback's branches. -/
theorem readTiers_of_cold (cold : b.has .localDisk = false) :
    readTiers p b = readFromNasOrS3 p b := by
  simp [readTiers, readFromNasOrS3, cold]

/-- The local disk answers, or it refuses and the first colder tier is asked, if there is one. -/
theorem meets_readTiers {V : Type} {S : Service Sys V} {post : Outcome Bytes → V → Prop} {v : V}
    (refused : V → Prop)
    (hot : b.has .localDisk = true → (Async.get .localDisk p).meets S (fun
      | .ok data => post (.ok data)
      | .error _ => refused) v)
    (cold : b.has .localDisk = false → refused v)
    (colder : ∀ t v, b.colder = some t → refused v → (readAndPromote p t).meets S post v)
    (nowhere : ∀ v, b.colder = none → refused v → post (.error (.notFound p.text)) v) :
    (readTiers p b).meets S post v := by
  have fallback (v : V) (failed : refused v) : (readFromNasOrS3 p b).meets S post v := by
    rw [readFromNasOrS3_eq]
    cases tier : b.colder with
    | some t => exact colder t v tier failed
    | none => exact nowhere v tier failed
  cases bit : b.has .localDisk with
  | false =>
    rw [readTiers_of_cold bit]
    exact fallback v (cold bit)
  | true =>
    simp only [readTiers, bit, if_true]
    refine Prog.meets_try (hot bit) fun r v' answered => ?_
    cases r with
    | ok data => exact answered
    | error e => exact fallback v' answered

/-- A copy is fetched and its promotion asked for, or the fetch fails. -/
theorem meets_readAndPromote {V : Type} {S : Service Sys V} {post : Outcome Bytes → V → Prop}
    {v : V} {t : Tier}
    (fetched : (Async.get t p).meets S (fun
      | .ok data => (Async.sendPromote ⟨p, t⟩).meets S fun
        | .ok () => post (.ok data)
        | .error e => post (.error e)
      | .error e => post (.error e)) v) :
    (readAndPromote p t).meets S post v := by
  refine Prog.meets_seq fetched ?_ fun e v' failed => failed
  intro data v' sent
  refine (Prog.meets_bind ..).mpr (Prog.meets_mono sent fun r v'' done => ?_)
  cases r <;> exact done

section Judged

variable {W C : Type} {h : Handler Sys W C} {ok : C → Prop} {w : W} {post : Outcome Bytes → W → Prop}

theorem wp_readTiers (refused : W → Prop)
    (hot : b.has .localDisk = true → (Async.get .localDisk p).wp h ok (fun
      | .ok data => post (.ok data)
      | .error _ => refused) w)
    (cold : b.has .localDisk = false → refused w)
    (colder : ∀ t w, b.colder = some t → refused w → (readAndPromote p t).wp h ok post w)
    (nowhere : ∀ w, b.colder = none → refused w → post (.error (.notFound p.text)) w) :
    (readTiers p b).wp h ok post w := by
  simp only [Prog.wp_iff_meets] at *
  exact meets_readTiers refused hot cold colder nowhere

theorem wp_readAndPromote {t : Tier}
    (fetched : (Async.get t p).wp h ok (fun
      | .ok data => fun w => ∀ c, ok c → post (.ok data) (h (.sendPromote ⟨p, t⟩) c w).2
      | .error e => post (.error e)) w) :
    (readAndPromote p t).wp h ok post w := by
  refine Prog.wp_seq fetched ?_ fun e w' failed => failed
  exact fun data w' sent c permitted => sent c permitted

theorem only_readTiers {allowed : Step → Prop} (get : ∀ t, b.has t = true → allowed (.get t p))
    (send : ∀ t, t ≠ .localDisk → allowed (.sendPromote ⟨p, t⟩)) :
    (readTiers p b).Only allowed := by
  rw [Prog.only_iff_meets]
  refine meets_readTiers (fun _ => True) (fun hot => ⟨get _ hot, fun answer _ _ => ?_⟩)
    (fun _ => trivial) (fun t _ tier _ => ?_) fun _ _ _ => trivial
  · cases answer <;> trivial
  · obtain ⟨bit, cold⟩ := TierBitmask.colder_has tier
    refine meets_readAndPromote ⟨get t bit, fun answer _ _ => ?_⟩
    cases answer with
    | ok data => exact ⟨send t cold, fun _ _ _ => trivial⟩
    | error e => trivial

end Judged

/-- One turn of the loop. -/
def ensureDir (q : FvfsPath) : Async Unit := do
  let existing ← Async.metaGet q
  if existing.isNone then
    let now ← Async.now
    let _ ← Async.upsert (.newDir now q)

def ensureDirs : List FvfsPath → Async Unit
  | [] => pure ()
  | q :: rest => do
    ensureDir q
    ensureDirs rest

theorem ensureParents_eq_dirs (turns : Nat) (p : FvfsPath) :
    ensureParents turns p = ensureDirs (p.ancestorsWithin turns) := by
  induction turns generalizing p with
  | zero => rfl
  | succ turns ih =>
    unfold ensureParents FvfsPath.ancestorsWithin
    cases p.parent with
    | none => rfl
    | some q =>
      simp only [ih, ensureDirs, ensureDir, bind_assoc]
      refine congrArg _ (funext fun existing => ?_)
      split
      · simp only [bind_assoc]
        rfl
      · rfl

theorem ensureParentDirs_eq_dirs (p : FvfsPath) : ensureParentDirs p = ensureDirs p.ancestors :=
  ensureParents_eq_dirs _ p

/-- What a turn that succeeds does: it finds the row, or inserts it. -/
inductive Ensures (q : FvfsPath) : World → World → Prop
  | found {m : FileMetadata} (there : w.store.get q = some m) : Ensures q w w
  | made (now : Int) (absent : w.store.get q = none) :
    Ensures q w (w.withStore (w.store.upsert (.newDir now q)).2)

theorem only_ensureDirs {allowed : Step → Prop} {dirs : List FvfsPath}
    (look : ∀ q ∈ dirs, allowed (.metaGet q)) (clock : allowed .now)
    (make : ∀ q ∈ dirs, ∀ now, allowed (.upsert (.newDir now q))) :
    (ensureDirs dirs).Only allowed := by
  induction dirs with
  | nil => trivial
  | cons q rest ih =>
    simp only [List.mem_cons, forall_eq_or_imp] at look make
    refine Prog.Only.bind ⟨look.1, fun answer => ?_⟩ fun _ => ih look.2 make.2
    cases answer with
    | error e => trivial
    | ok existing =>
      cases existing with
      | some m => trivial
      | none =>
        refine ⟨clock, fun now => ⟨make.1 now, fun answer => ?_⟩⟩
        cases answer <;> trivial

end Router

end Fvfs
