import Fvfs.Lib.Rely
import Fvfs.Namespace

/-! Files and directories created side by side. Each write and directory creation looks for
its missing ancestors and inserts them, while others do the same on shared ancestors. -/
namespace Fvfs

open Lib

/-- What may run while nothing is deleted; the daemon's own tasks settle the rows. -/
inductive Creation where
  | write (p : CanonPath) (data : Bytes)
  | mkdir (p : CanonPath)
  | settled (task : Async Unit) (only : task.Only Step.Settled)

namespace Creation

def task (sha256 : Bytes → Text) : Creation → Async Unit
  | write p data => Router.write sha256 p data
  | mkdir p => Router.mkdir p
  | settled task _ => task

def path : Creation → Option CanonPath
  | write p _ => some p
  | mkdir p => some p
  | settled _ _ => none

/-- The paths that have rows once it has returned. -/
def Names (c : Creation) (q : FvfsPath) : Prop :=
  ∃ p : CanonPath, c.path = some p ∧ (q = p ∨ q ∈ p.val.ancestors)

def Writes (c : Creation) (q : FvfsPath) : Prop := ∃ (p : CanonPath) (data : Bytes),
  c = write p data ∧ q = p

end Creation

/-- Between any two steps: nothing but the rows found and those of the creations, and no
files but those found and those written. -/
structure Planned (nodes : FvfsPath → Option Node) (creations : ι → Creation) (w : World) :
    Prop where
  known : ∀ p n, w.store.nodes p = some n → nodes p ≠ none ∨ ∃ i, (creations i).Names p
  leaves : ∀ p, w.store.nodes p = some .leaf →
    nodes p = some .leaf ∨ ∃ i, (creations i).Writes p

/-- No row goes away. -/
def planning (nodes : FvfsPath → Option Node) (creations : ι → Creation) : Rely World where
  inv := Planned nodes creations
  grows := fun w v => ∀ p, w.store.nodes p ≠ none → v.store.nodes p ≠ none
  refl := fun _ _ used => used
  trans := fun first second p used => second p (first p used)

/-- What the creations must leave to each other, and to the rows they find. -/
structure Apart (nodes : FvfsPath → Option Node) (creations : ι → Creation) : Prop where
  below : ∀ i p, (creations i).path = some p → TreeOp.Below nodes p
  onto : ∀ i p, (creations i).Writes p → TreeOp.Childless nodes p
  clear : ∀ i j p, (creations j).path = some p → ∀ q ∈ p.val.ancestors, ¬(creations i).Writes q

section Steps

variable {nodes : FvfsPath → Option Node} {creations : ι → Creation} {w : World} {p : FvfsPath}

/-- Whatever the environment does; `post` is about the rows of the world it ends in. -/
abbrev Creating (nodes : FvfsPath → Option Node) (creations : ι → Creation) (task : Async α)
    (post : Outcome α → World → Prop) (w : World) : Prop :=
  task.amid perform (fun _ => True) (planning nodes creations) post w

theorem Planned.settled {v : World} (planned : Planned nodes creations w)
    (same : v.store.nodes = w.store.nodes) :
    Planned nodes creations v ∧ (planning nodes creations).grows w v := by
  constructor
  · constructor
    · rw [same]
      exact planned.known
    · rw [same]
      exact planned.leaves
  · intro q used
    rw [same]
    exact used

theorem creating_settled {task : Async α} (only : task.Only Step.Settled) :
    Creating nodes creations task (fun _ _ => True) w :=
  Prog.amid_of_only only fun op c v _ settled planned =>
    planned.settled (perform_nodes op c v settled)

/-- An answered look at a row: the path has one from then on. -/
theorem creating_metaGet : Creating nodes creations (Async.metaGet p)
    (fun r u => ∀ m, r = .ok (some m) → u.store.nodes p ≠ none) w := by
  intro v _ planned c _
  obtain ⟨kept, grown⟩ := planned.settled (perform_nodes (.metaGet p) c v trivial)
  refine ⟨kept, grown, ?_⟩
  simp only [perform]
  rcases statement_cases (c := c) (w := v) (v.store.get p) v.store with eq | ⟨e, _, eq⟩
  · rw [eq]
    intro u after _ m answer
    refine after p ?_
    simp [Store.nodes, Store.rowState_of_get (Except.ok.inj answer)]
  · rw [eq]
    exact fun _ _ _ _ absurd => by cases absurd

theorem Planned.upsert (planned : Planned nodes creations w) {m : FileMetadata} {i : ι}
    (named : (creations i).Names m.path) (plain : m.isDir = false → (creations i).Writes m.path) :
    Planned nodes creations (w.withStore (w.store.upsert m).2) ∧
      (planning nodes creations).grows w (w.withStore (w.store.upsert m).2) := by
  have rows := Store.nodes_upsert w.store m
  refine ⟨⟨fun q n used => ?_, fun q used => ?_⟩, fun q used => ?_⟩
  · rw [World.withStore_store, rows] at used
    by_cases here : q = m.path
    · exact Or.inr ⟨i, here ▸ named⟩
    · exact planned.known q n (by simpa [here] using used)
  · rw [World.withStore_store, rows] at used
    by_cases here : q = m.path
    · subst here
      cases dir : m.isDir with
      | true => simp [dir] at used
      | false => exact Or.inr ⟨i, plain dir⟩
    · exact planned.leaves q (by simpa [here] using used)
  · rw [World.withStore_store, rows]
    by_cases here : q = m.path
    · simp [here]
    · simpa [here] using used

theorem creating_upsert {m : FileMetadata} {i : ι} (named : (creations i).Names m.path)
    (plain : m.isDir = false → (creations i).Writes m.path) :
    Creating nodes creations (Async.upsert m)
      (fun r u => ∀ id, r = .ok id → u.store.nodes m.path ≠ none) w := by
  intro v _ planned c _
  simp only [perform]
  rcases statement_cases (c := c) (w := v) (v.store.upsert m).1 (v.store.upsert m).2 with
    eq | ⟨e, _, eq⟩
  · rw [eq]
    obtain ⟨kept, grown⟩ := planned.upsert named plain
    refine ⟨kept, grown, fun u after _ _ _ => after m.path ?_⟩
    simp [Store.nodes_upsert]
  · rw [eq]
    exact ⟨planned, fun _ used => used, fun _ _ _ _ absurd => by cases absurd⟩

end Steps

namespace Router

variable {nodes : FvfsPath → Option Node} {creations : ι → Creation} {w : World} {p : FvfsPath}

/-- Past a turn, the directory has a row: found there, or inserted. -/
theorem creating_ensureDir {i : ι} {q : FvfsPath} (named : (creations i).Names q) :
    Creating nodes creations (ensureDir q) (fun r u => r = .ok () → u.store.nodes q ≠ none) w := by
  refine Prog.amid_seq creating_metaGet (fun existing v _ _ found => ?_)
    fun _ _ _ _ absurd => by cases absurd
  cases existing with
  | some m => exact fun u later _ _ => later q (found m rfl)
  | none =>
    refine Prog.amid_seq (creating_settled ⟨trivial, fun _ => trivial⟩)
      (fun now u _ _ _ => ?_) fun _ _ _ _ absurd => by cases absurd
    refine Prog.amid_seq (creating_upsert (m := .newDir now q) named (fun plain => by cases plain))
      (fun id u' _ _ placed => ?_) fun _ _ _ _ absurd => by cases absurd
    exact fun u later _ _ => later q (placed id rfl)

theorem creating_ensureDirs {i : ι} {dirs : List FvfsPath}
    (named : ∀ q ∈ dirs, (creations i).Names q) :
    Creating nodes creations (ensureDirs dirs)
      (fun r u => r = .ok () → ∀ q ∈ dirs, u.store.nodes q ≠ none) w := by
  induction dirs generalizing w with
  | nil => exact fun _ _ _ _ => List.forall_mem_nil _
  | cons q rest ih =>
    simp only [List.mem_cons, forall_eq_or_imp] at named ⊢
    refine Prog.amid_seq (creating_ensureDir named.1) (fun _ v _ _ placed => ?_)
      fun _ _ _ _ absurd => by cases absurd
    refine Prog.amid_mono (Prog.amid_since (fun q used => used) (ih named.2)) ?_
    exact fun r u _ after ok => ⟨after.1 q (placed rfl), after.2 ok⟩

theorem creating_ensureParents {i : ι} {turns : Nat}
    (named : ∀ q ∈ FvfsPath.ancestorsWithin turns p, (creations i).Names q) :
    Creating nodes creations (ensureParents turns p) (fun r u => r = .ok () →
      ∀ q ∈ FvfsPath.ancestorsWithin turns p, u.store.nodes q ≠ none) w := by
  rw [ensureParents_eq_dirs]
  exact creating_ensureDirs named

theorem creating_mkdir {i : ι} (named : (creations i).Names p)
    (above : ∀ q ∈ p.ancestors, (creations i).Names q) :
    Creating nodes creations (mkdir p) (fun r u => r = .ok () →
      u.store.nodes p ≠ none ∧ ∀ q ∈ p.ancestors, u.store.nodes q ≠ none) w := by
  refine Prog.amid_seq (creating_settled ⟨trivial, fun _ => trivial⟩) (fun now v _ _ _ => ?_)
    fun _ _ _ _ => nofun
  refine Prog.amid_seq (creating_upsert (m := .newDir now p) named (fun plain => by cases plain))
    (fun id u _ _ placed => ?_) fun _ _ _ _ => nofun
  refine Prog.amid_mono (Prog.amid_since (fun q used => used) (creating_ensureParents above)) ?_
  rintro r u' - ⟨later, rest⟩ ok
  exact ⟨later p (placed id rfl), rest ok⟩

theorem put_settled (t : Tier) (p : FvfsPath) (data : Bytes) :
    (Async.put t p data).Only Step.Settled := by
  refine ⟨trivial, fun answer => ?_⟩
  cases answer <;> trivial

theorem creating_write {i : ι} (sha256 : Bytes → Text) (data : Bytes)
    (named : (creations i).Names p) (above : ∀ q ∈ p.ancestors, (creations i).Names q)
    (writes : (creations i).Writes p) :
    Creating nodes creations (write sha256 p data) (fun r u => r = .ok () →
      u.store.nodes p ≠ none ∧ ∀ q ∈ p.ancestors, u.store.nodes q ≠ none) w := by
  refine Prog.amid_seq (creating_settled (put_settled _ p data)) (fun _ v _ _ _ => ?_)
    fun _ _ _ _ => nofun
  refine Prog.amid_seq (creating_settled ⟨trivial, fun _ => trivial⟩) (fun now v _ _ _ => ?_)
    fun _ _ _ _ => nofun
  refine Prog.amid_seq (creating_upsert (m := writtenMetadata sha256 p data now) named
    fun _ => writes) (fun id u _ _ placed => ?_) fun _ _ _ _ => nofun
  refine Prog.amid_seq (creating_ensureParents above) (fun _ u' later _ rest => ?_)
    fun _ _ _ _ => nofun
  refine Prog.amid_mono (Prog.amid_since (fun q used => used)
    (creating_settled (enqueueReplication_settled id))) ?_
  rintro r x - ⟨later', -⟩ -
  exact ⟨later' p (later p (placed id rfl)), fun q member => later' q (rest rfl q member)⟩

end Router

/-- Rows with all their ancestors, none of them under a file. -/
theorem Planned.rooted {ι : Type} {nodes : FvfsPath → Option Node} {creations : ι → Creation}
    {v : World} (planned : Planned nodes creations v)
    (rooted : Rooted nodes) (apart : Apart nodes creations)
    (found : ∀ p, nodes p ≠ none → v.store.nodes p ≠ none)
    (created : ∀ i q, (creations i).Names q → v.store.nodes q ≠ none) :
    Rooted v.store.nodes := by
  have inner (q : FvfsPath) (used : v.store.nodes q ≠ none)
      (old : nodes q ≠ some .leaf) (new : ∀ i, ¬(creations i).Writes q) :
      v.store.nodes q = some .inner := by
    obtain ⟨n, here⟩ := Option.ne_none_iff_exists'.mp used
    cases n with
    | inner => exact here
    | leaf =>
      rcases planned.leaves q here with before | ⟨i, writes⟩
      · exact absurd before old
      · exact absurd writes (new i)
  constructor
  · intro p n used
    rcases planned.known p n used with before | ⟨i, p', own, here | above⟩
    · obtain ⟨m, before⟩ := Option.ne_none_iff_exists'.mp before
      exact rooted.canonical p m before
    · exact here ▸ p'.property
    · exact FvfsPath.ancestor_canonical p'.property above
  · intro p n q used up
    rcases planned.known p n used with before | ⟨i, p', own, member⟩
    · obtain ⟨m, before⟩ := Option.ne_none_iff_exists'.mp before
      have above := rooted.tree p m q before up
      refine inner q (found q (by simp [above])) (by simp [above]) fun i writes => ?_
      exact apart.onto i q writes p m before up
    · have above : q ∈ p'.val.ancestors := by
        rcases member with rfl | inside
        · exact (FvfsPath.ancestors_chain p'.val).first_mem up
        · exact (FvfsPath.ancestors_chain p'.val).parent_mem inside up
      refine inner q (created i q ⟨p', own, Or.inr above⟩) (apart.below i p' own q above) ?_
      exact fun j writes => apart.clear j i p' own q above writes

namespace Creation

/-- A creation that has returned leaves rows at its path and at every ancestor. -/
theorem creating_task {nodes : FvfsPath → Option Node} {creations : ι → Creation} {w : World}
    (sha256 : Bytes → Text) (i : ι) :
    Creating nodes creations ((creations i).task sha256)
      (fun r u => r = .ok () → ∀ q, (creations i).Names q → u.store.nodes q ≠ none) w := by
  have named (p : CanonPath) (own : (creations i).path = some p) : (creations i).Names p ∧
      ∀ q ∈ p.val.ancestors, (creations i).Names q :=
    ⟨⟨p, own, Or.inl rfl⟩, fun q above => ⟨p, own, Or.inr above⟩⟩
  have spelled (p : CanonPath) (own : (creations i).path = some p) (u : World)
      (rows : u.store.nodes p ≠ none ∧ ∀ q ∈ p.val.ancestors, u.store.nodes q ≠ none)
      (q : FvfsPath) (names : (creations i).Names q) : u.store.nodes q ≠ none := by
    obtain ⟨p', own', here | above⟩ := names
    · obtain rfl := Option.some.inj (own.symm.trans own')
      exact here ▸ rows.1
    · obtain rfl := Option.some.inj (own.symm.trans own')
      exact rows.2 q above
  cases kind : creations i with
  | write p data =>
    have own : (creations i).path = some p := by rw [kind, path]
    have runs : (creations i).task sha256 = Router.write sha256 p data := by rw [kind, task]
    rw [← kind, runs]
    refine Prog.amid_mono (Router.creating_write sha256 data (named p own).1 (named p own).2
      ⟨p, data, kind, rfl⟩) ?_
    exact fun r u _ rows ok => spelled p own u (rows ok)
  | mkdir p =>
    have own : (creations i).path = some p := by rw [kind, path]
    have runs : (creations i).task sha256 = Router.mkdir p := by rw [kind, task]
    rw [← kind, runs]
    refine Prog.amid_mono (Router.creating_mkdir (named p own).1 (named p own).2) ?_
    exact fun r u _ rows ok => spelled p own u (rows ok)
  | settled task only =>
    refine Prog.amid_mono (creating_settled only) ?_
    rintro r u - - - q ⟨p, ⟨⟩, -⟩

def started {ι : Type} (sha256 : Bytes → Text) (creations : ι → Creation) (w : World) :
    Pool Sys FvfsError Unit World ι := ⟨w, fun i => (creations i).task sha256⟩

/-- Writes and directory creations that run side by side over a tree, each step of any of them
possibly failing, leave rows at the path of each one that returns and at all its ancestors. Once
all have returned the namespace is a tree, where no file is written above a row found or above
another's path, and no file found is above any path. -/
theorem concurrent_creations {ι : Type} [DecidableEq ι] (sha256 : Bytes → Text)
    (creations : ι → Creation) (w : World) (rooted : Rooted w.store.nodes)
    (schedule : List (ι × Choice)) :
    let pool := Pool.run perform schedule (started sha256 creations w)
    (∀ i, Pool.Returned (pool.threads i) →
      ∀ q, (creations i).Names q → pool.world.store.nodes q ≠ none) ∧
    ((∀ i, Pool.Returned (pool.threads i)) → Apart w.store.nodes creations →
      Tree pool.world.store) := by
  intro pool
  have start : Planned w.store.nodes creations w :=
    ⟨fun p n used => Or.inl (by simp [used]), fun p used => Or.inl used⟩
  obtain ⟨planned, grown, each⟩ := Pool.run_amid (R := planning w.store.nodes creations)
    (started sha256 creations w) schedule start
    (fun i => creating_task sha256 i) fun _ _ => trivial
  have created (i : ι) (returned : Pool.Returned (pool.threads i)) (q : FvfsPath)
      (names : (creations i).Names q) : pool.world.store.nodes q ≠ none := by
    obtain ⟨value, ended⟩ := returned
    have here := each i
    rw [show (Pool.run perform schedule _).threads i = .ret value from ended] at here
    exact here _ (fun _ used => used) planned rfl q names
  refine ⟨created, fun returned apart => Rooted.tree_of ?_⟩
  exact Planned.rooted planned rooted apart grown fun i q => created i (returned i) q

/-- A directory made while a file in it is written. -/
def fileAndDirectory (file : Bool) : Creation :=
  if file then .write TreeOp.sampleEntry [1] else .mkdir TreeOp.sampleDir

def alternating : List (Bool × Choice) :=
  [true, true, false, true, true, false, false, true, false, true, false].map (·, .quiet 0) ++
    .replicate 12 (true, .quiet 0) ++ .replicate 12 (false, .quiet 0)

theorem apart_file_directory : Apart World.empty.store.nodes fileAndDirectory where
  below := fun _ _ _ _ _ used => by cases used
  onto := fun _ _ _ _ _ used => by cases used
  clear := by
    rintro (_ | _) j p own q above ⟨p', data, kind, here⟩
    · cases kind
    · obtain ⟨rfl, -⟩ := Creation.write.inj kind
      subst here
      cases j
      · obtain rfl := Option.some.inj own
        revert above
        decide
      · obtain rfl := Option.some.inj own
        revert above
        decide

theorem file_directory_tree :
    Tree (Pool.run perform alternating
      (started Router.sampleSha256 fileAndDirectory .empty)).world.store :=
  (concurrent_creations _ _ _ TreeOp.rooted_empty _).2 (by decide) apart_file_directory

end Creation

end Fvfs
