import Fvfs.Lib.Hierarchy
import Fvfs.Lib.History
import Fvfs.Requests

/-! The namespace the rows form: what successful writes, directory creations and deletes
do to it, and when it stays a tree of directories with files as its leaves. -/
namespace Fvfs

open Lib
open Lib.Hierarchy (fill)
open Function (update)

namespace Store

def RowState.node (x : RowState) : Node := if x.isDir then .inner else .leaf

/-- The paths that have a row, as files or as directories. -/
def nodes (s : Store) (p : FvfsPath) : Option Node := (s.rowState p).map RowState.node

theorem nodes_upsert (s : Store) (m : FileMetadata) :
    (s.upsert m).2.nodes = update s.nodes m.path (some (if m.isDir then .inner else .leaf)) := by
  funext q
  by_cases here : q = m.path
  · subst here
    simp only [nodes, rowState_upsert_self, Option.map_some, Function.update_self]
    rfl
  · simp [nodes, rowState_upsert_other here, here]

theorem nodes_delete (s : Store) (p : FvfsPath) : (s.delete p).nodes = update s.nodes p none := by
  funext q
  by_cases here : q = p
  · subst here
    simp [nodes]
  · simp [nodes, rowState_delete_other here, here]

theorem nodes_setTierBitmask (s : Store) (id : Nat) (b : TierBitmask) :
    (s.setTierBitmask id b).nodes = s.nodes := by
  funext q
  simp only [nodes, rowState_setTierBitmask, Option.map_map]
  congr 1
  funext x
  by_cases same : x.id = id <;> simp [RowState.node, same]

theorem nodes_eq_some_iff {s : Store} {p : FvfsPath} {n : Node} :
    s.nodes p = some n ↔ ∃ x, s.rowState p = some x ∧ x.node = n := by
  simp [nodes]

end Store

/-- Steps that leave every row where it is, with its kind. -/
def Step.Settled : Step → Prop
  | upsert _ => False
  | metaDelete _ => False
  | _ => True

/-- A statement that fails, or succeeds without touching the rows. -/
theorem statement_nodes {c : Choice} {w : World} (answer : α) {s : Store}
    (same : s.nodes = w.store.nodes) : (statement c w answer s).2.store.nodes = w.store.nodes := by
  rcases statement_cases (c := c) (w := w) answer s with eq | ⟨e, _, eq⟩ <;> rw [eq]
  exact same

theorem perform_nodes (op : Step) (c : Choice) (w : World) (settled : op.Settled) :
    (perform op c w).2.store.nodes = w.store.nodes := by
  cases op with
  | put t q data =>
    simp only [perform]
    rcases putObject_cases (c := c) (w := w) t q data with ⟨_, eq⟩ | ⟨e, _, eq⟩ | ⟨e, n, _, _, eq⟩
    · rw [eq]
      rfl
    · rw [eq]
    · rw [eq]
      rfl
  | get t q =>
    simp only [perform]
    rcases getObject_cases (c := c) (w := w) t q with ⟨data, _, eq⟩ | ⟨e, eq⟩ <;> rw [eq]
  | delete t q =>
    simp only [perform]
    rcases deleteObject_cases (c := c) (w := w) t q with eq | ⟨e, eq⟩
    · rw [eq]
      rfl
    · rw [eq]
  | upsert m => exact settled.elim
  | metaDelete q => exact settled.elim
  | setTierBitmask id b => exact statement_nodes _ (Store.nodes_setTierBitmask _ id b)
  | recordAccess id =>
    exact statement_nodes _ (funext fun q => by simp [Store.nodes])
  | walEnqueue fileId op =>
    simp only [perform]
    rcases enqueueEntry_cases (c := c) (w := w) fileId op with ⟨id, s, enqueued, eq⟩ | ⟨e, eq⟩
    · rw [eq]
      exact funext fun q => by simp [Store.nodes, Store.rowState_walEnqueue enqueued]
    · rw [eq]
  | now | sendPromote signal | recvPromote => rfl
  | metaGet q | metaGetById id | walComplete id | walRecordFailure id error | walPending =>
    exact statement_nodes _ rfl

namespace FvfsPath

theorem ancestorsWithin_chain {turns : Nat} {p : FvfsPath} (enough : p.text.length ≤ turns) :
    Hierarchy.Chain parent p (ancestorsWithin turns p) := by
  induction turns generalizing p with
  | zero => exact parent_of_empty (Nat.le_zero.mp enough)
  | succ turns ih =>
    unfold ancestorsWithin
    split
    next top => exact top
    next q up =>
      have shorter := parent_shorter up
      exact ⟨up, ih (by omega)⟩

theorem ancestors_chain (p : FvfsPath) : Hierarchy.Chain parent p p.ancestors :=
  ancestorsWithin_chain (Nat.le_refl _)

theorem not_mem_ancestors (p : FvfsPath) : p ∉ p.ancestors := fun above => ancestor_ne above rfl

theorem parent_ne (p : FvfsPath) : p.parent ≠ some p := fun up =>
  Nat.lt_irrefl _ (parent_shorter up)

/-- Only the root has no parent. -/
theorem root_of_parent_none {p : FvfsPath} (canonical : p.Canonical) (top : p.parent = none) :
    p = root := by
  obtain ⟨components, valid, text⟩ := canonical
  rcases List.eq_nil_or_concat' components with rfl | ⟨front, last, rfl⟩
  · exact FvfsPath.ext text
  · obtain rfl : p = ⟨render (front ++ [last])⟩ := FvfsPath.ext text
    rw [parent_render (valid last (by simp))] at top
    contradiction

theorem parent_root : root.parent = none := by simp [parent, root]

end FvfsPath

namespace Router

variable {w : World} {p : FvfsPath}

/-- Whatever the environment does, a run that succeeds leaves these rows. -/
def Leaves (task : Async Unit) (w : World) (nodes : FvfsPath → Option Node) : Prop :=
  task.wp perform (fun _ => True) (fun r w' => r = .ok () → w'.store.nodes = nodes) w

theorem leaves_ensureParents {turns : Nat} :
    Leaves (ensureParents turns p) w
      (fill w.store.nodes (FvfsPath.ancestorsWithin turns p)) := by
  let nodes := fill w.store.nodes (FvfsPath.ancestorsWithin turns p)
  refine Prog.wp_mono (wp_ensureParents (fun rest u => fill u.store.nodes rest = nodes) ?_ rfl) ?_
  · rintro q rest u _ filled (@⟨m, there⟩ | ⟨now, absent⟩)
    · have used : u.store.nodes q ≠ none := by
        simp [Store.nodes, Store.rowState_of_get there]
      simpa [Hierarchy.fill_cons, used] using filled
    · have unused : u.store.nodes q = none := by
        simp [Store.nodes, Store.get_eq_none_iff.mp absent]
      have inserted := Store.nodes_upsert u.store (.newDir now q)
      rw [Hierarchy.fill_cons, if_pos unused] at filled
      rw [World.withStore_store, inserted]
      exact filled
  · rintro r u ⟨rest, filled, all, -⟩ ok
    obtain rfl := all ok
    exact (Hierarchy.fill_nil.symm.trans filled)

theorem leaves_ensureParentDirs :
    Leaves (ensureParentDirs p) w (fill w.store.nodes p.ancestors) := leaves_ensureParents

theorem leaves_mkdir :
    Leaves (mkdir p) w (fill (update w.store.nodes p (some .inner)) p.ancestors) := by
  apply (Prog.wp_bind _ _ _ _).mpr
  apply wp_now
  intro clock
  apply (Prog.wp_bind _ _ _ _).mpr
  apply wp_upsert
  · have inserted := Store.nodes_upsert w.store (.newDir clock p)
    rw [show update w.store.nodes p (some Node.inner) =
      (w.store.upsert (.newDir clock p)).2.nodes from inserted.symm]
    exact leaves_ensureParentDirs (w := w.withStore (w.store.upsert (.newDir clock p)).2)
  · simp

/-- A task that neither inserts nor removes rows. -/
theorem settled_nodes {task : Async α} (settled : task.Only Step.Settled) :
    task.wp perform (fun _ => True) (fun _ w' => w'.store.nodes = w.store.nodes) w :=
  Prog.wp_of_only (f := fun w : World => w.store.nodes) settled perform_nodes

theorem enqueueReplication_settled (fileId : Nat) :
    (enqueueReplication fileId).Only Step.Settled := by
  refine ⟨trivial, fun answer => ?_⟩
  cases answer with
  | error e => trivial
  | ok id =>
    refine ⟨trivial, fun answer => ?_⟩
    cases answer <;> trivial

theorem leaves_write (sha256 : Bytes → Text) (data : Bytes) :
    Leaves (write sha256 p data) w
      (fill (update w.store.nodes p (some .leaf)) p.ancestors) := by
  apply (Prog.wp_bind _ _ _ _).mpr
  apply wp_put
  · apply (Prog.wp_bind _ _ _ _).mpr
    apply wp_now
    intro clock
    apply (Prog.wp_bind _ _ _ _).mpr
    apply wp_upsert
    · have inserted := Store.nodes_upsert w.store (writtenMetadata sha256 p data clock)
      rw [show update w.store.nodes p (some Node.leaf) =
        (w.store.upsert (writtenMetadata sha256 p data clock)).2.nodes from inserted.symm]
      apply Prog.wp_seq leaves_ensureParentDirs
      · intro value w' filled
        apply Prog.wp_mono (settled_nodes (enqueueReplication_settled _))
        exact fun r w'' same _ => same.trans (filled rfl)
      · simp
    · simp
  · simp
  · simp

theorem deleteTiers_settled (p : FvfsPath) (b : TierBitmask) (order : List Tier) :
    (deleteTiers p b order).Only Step.Settled := by
  induction order with
  | nil => trivial
  | cons t rest ih =>
    unfold deleteTiers
    split
    · refine ⟨trivial, fun answer => ?_⟩
      cases answer <;> exact ih
    · exact ih

theorem leaves_delete (order : TaskOrder) :
    Leaves (delete order p) w (update w.store.nodes p none) := by
  apply (Prog.wp_bind _ _ _ _).mpr
  apply (Prog.wp_bind _ _ _ _).mpr
  apply wp_metaGet
  · cases found : w.store.get p with
    | none => simp
    | some m =>
      apply Prog.wp_seq (settled_nodes (deleteTiers_settled p m.tierBitmask order.val))
      · intro value w' same c _
        rcases statement_cases (c := c) (w := w') () (w'.store.delete p) with eq | ⟨e, _, eq⟩
        · simp [perform, eq, Store.nodes_delete, same]
        · simp [perform, eq]
      · simp
  · simp

end Router

/-- What a client may do to the namespace; removing a directory is a delete. -/
inductive TreeOp where
  | write (p : CanonPath) (data : Bytes)
  | mkdir (p : CanonPath)
  | delete (order : Router.TaskOrder) (p : CanonPath)

namespace TreeOp

variable (sha256 : Bytes → Text)

def task : TreeOp → Async Unit
  | write p data => Router.write sha256 p data
  | mkdir p => Router.mkdir p
  | delete order p => Router.delete order p

/-- One call, run to completion under the environment's choices. -/
def serve (w : World) (call : TreeOp × (Nat → Choice)) : World :=
  ((call.1.task sha256).exec perform call.2 w).2

def Succeeds (w : World) (call : TreeOp × (Nat → Choice)) : Prop :=
  ((call.1.task sha256).exec perform call.2 w).1 = .ok ()

instance (w : World) (call : TreeOp × (Nat → Choice)) : Decidable (Succeeds sha256 w call) :=
  inferInstanceAs (Decidable (_ = _))

/-- The rows a successful call leaves. -/
def result : TreeOp → (FvfsPath → Option Node) → FvfsPath → Option Node
  | write p _, nodes => fill (update nodes p (some .leaf)) p.val.ancestors
  | mkdir p, nodes => fill (update nodes p (some .inner)) p.val.ancestors
  | delete _ p, nodes => update nodes p none

theorem serve_nodes {w : World} {call : TreeOp × (Nat → Choice)}
    (succeeds : Succeeds sha256 w call) :
    (serve sha256 w call).store.nodes = call.1.result w.store.nodes := by
  obtain ⟨op, env⟩ := call
  cases op with
  | write p data =>
    exact Prog.exec_of_wp (Router.leaves_write sha256 data) env (fun _ => trivial) succeeds
  | mkdir p => exact Prog.exec_of_wp Router.leaves_mkdir env (fun _ => trivial) succeeds
  | delete order p =>
    exact Prog.exec_of_wp (Router.leaves_delete order) env (fun _ => trivial) succeeds

/-- No file stands above the path. -/
def Below (nodes : FvfsPath → Option Node) (p : FvfsPath) : Prop :=
  ∀ q ∈ p.ancestors, nodes q ≠ some .leaf

/-- No row has the path as its parent. -/
def Childless (nodes : FvfsPath → Option Node) (p : FvfsPath) : Prop :=
  ∀ q n, nodes q = some n → q.parent ≠ some p

/-- What the router would have to check before the call. -/
def Fits (w : World) (call : TreeOp × (Nat → Choice)) : Prop :=
  match call.1 with
  | write p _ => Below w.store.nodes p ∧ Childless w.store.nodes p
  | mkdir p => Below w.store.nodes p
  | delete _ p => Childless w.store.nodes p

end TreeOp

/-- A namespace in which every entry is reached from the root by listing directories. -/
structure Tree (s : Store) : Prop where
  parents : ∀ p x, s.rowState p = some x → p ≠ .root →
    ∃ q y, p.parent = some q ∧ s.rowState q = some y ∧ y.isDir = true
  leaves : ∀ p x, s.rowState p = some x → x.isDir = false → TreeOp.Childless s.nodes p
  reachable : ∀ p x, s.rowState p = some x → Hierarchy.Reachable FvfsPath.parent s.nodes .root p

/-- What the successful calls that fit maintain. -/
structure Rooted (nodes : FvfsPath → Option Node) : Prop where
  canonical : ∀ p n, nodes p = some n → p.Canonical
  tree : Hierarchy.WellFormed FvfsPath.parent nodes

namespace TreeOp

theorem result_canonical (op : TreeOp) {nodes : FvfsPath → Option Node}
    (canonical : ∀ p n, nodes p = some n → p.Canonical) :
    ∀ p n, op.result nodes p = some n → p.Canonical := by
  have placed (p : CanonPath) (n : Node) (q : FvfsPath) (m : Node)
      (used : fill (update nodes p (some n)) p.val.ancestors q = some m) : q.Canonical := by
    by_cases above : q ∈ p.val.ancestors
    · exact FvfsPath.ancestor_canonical p.property above
    · by_cases self : q = p
      · exact self ▸ p.property
      · exact canonical q m (by simpa [fill, above, self] using used)
  cases op with
  | write p data => exact placed p .leaf
  | mkdir p => exact placed p .inner
  | delete order p =>
    intro q m used
    by_cases self : q = p
    · exact self ▸ p.property
    · exact canonical q m (by simpa [result, self] using used)

/-- A call keeps the hierarchy well formed exactly when it fits. -/
theorem result_wellFormed_iff {w : World} (rooted : Rooted w.store.nodes)
    (call : TreeOp × (Nat → Choice)) :
    Hierarchy.WellFormed FvfsPath.parent (call.1.result w.store.nodes) ↔ Fits w call := by
  obtain ⟨op, env⟩ := call
  cases op with
  | write p data =>
    have placed := Hierarchy.place_wellFormed_iff (n := .leaf) rooted.tree
      p.val.ancestors_chain p.val.not_mem_ancestors
    simpa [result, Fits, Below, Childless] using placed
  | mkdir p =>
    have placed := Hierarchy.place_wellFormed_iff (n := .inner) rooted.tree
      p.val.ancestors_chain p.val.not_mem_ancestors
    simpa [result, Fits, Below] using placed
  | delete order p => exact Hierarchy.remove_wellFormed_iff rooted.tree p.val.parent_ne

end TreeOp

theorem Rooted.tree_of {s : Store} (rooted : Rooted s.nodes) : Tree s where
  parents := by
    intro p x row apart
    have used : s.nodes p = some x.node := Store.nodes_eq_some_iff.mpr ⟨x, row, rfl⟩
    cases up : p.parent with
    | none => exact absurd (FvfsPath.root_of_parent_none (rooted.canonical p _ used) up) apart
    | some q =>
      obtain ⟨y, above, inner⟩ := Store.nodes_eq_some_iff.mp (rooted.tree p _ q used up)
      refine ⟨q, y, rfl, above, ?_⟩
      by_contra plain
      simp [Store.RowState.node, plain] at inner
  leaves := by
    intro p x row plain q n used up
    obtain ⟨y, again, inner⟩ := Store.nodes_eq_some_iff.mp (rooted.tree q n p used up)
    obtain rfl := Option.some.inj (row.symm.trans again)
    simp [Store.RowState.node, plain] at inner
  reachable := by
    intro p x row
    have used : s.nodes p = some x.node := Store.nodes_eq_some_iff.mpr ⟨x, row, rfl⟩
    apply rooted.tree.reachable _ p.ancestors_chain used
    exact fun q n there top => FvfsPath.root_of_parent_none (rooted.canonical q n there) top

/-- A tree's rows are well formed as a hierarchy. -/
theorem Tree.wellFormed {s : Store} (tree : Tree s) :
    Hierarchy.WellFormed FvfsPath.parent s.nodes := by
  intro p n q used up
  obtain ⟨x, row, -⟩ := Store.nodes_eq_some_iff.mp used
  have apart : p ≠ .root := by
    rintro rfl
    rw [FvfsPath.parent_root] at up
    contradiction
  obtain ⟨r, y, up', above, dir⟩ := tree.parents p x row apart
  obtain rfl := Option.some.inj (up.symm.trans up')
  exact Store.nodes_eq_some_iff.mpr ⟨y, above, by simp [Store.RowState.node, dir]⟩

namespace TreeOp

theorem rooted_empty : Rooted World.empty.store.nodes := by
  constructor
  · intro p n used
    contradiction
  · intro p n q used up
    contradiction

/-- Over any history of successful calls the namespace stays a tree exactly when every
write finds no file above its path and nothing below it, every directory creation no file
above, and every delete nothing below. -/
theorem tree_iff (sha256 : Bytes → Text) (history : List (TreeOp × (Nat → Choice)))
    (succeed : EachStep (serve sha256) .empty history (Succeeds sha256)) :
    Throughout (serve sha256) .empty history (fun w => Tree w.store) ↔
      EachStep (serve sha256) .empty history Fits := by
  apply throughout_iff_eachStep (fun w => Rooted w.store.nodes) _ rooted_empty _ _ _ succeed
  · intro w call rooted succeeds fits
    rw [serve_nodes sha256 succeeds]
    exact ⟨result_canonical _ rooted.canonical, (result_wellFormed_iff rooted call).mpr fits⟩
  · exact fun w rooted => rooted.tree_of
  · intro w call rooted succeeds tree
    have kept := tree.wellFormed
    rw [serve_nodes sha256 succeeds] at kept
    exact (result_wellFormed_iff rooted call).mp kept

open Router (sampleSha256)

def sampleDir : CanonPath := ⟨⟨['/', 'd']⟩, by decide⟩

def sampleEntry : CanonPath := ⟨⟨['/', 'd', '/', 'e']⟩, by decide⟩

def quietly (op : TreeOp) : TreeOp × (Nat → Choice) := (op, fun _ => .quiet 0)

/-- Directories created inside each other form a tree. -/
theorem nested_directories_tree :
    Throughout (serve sampleSha256) .empty
      [quietly (.mkdir sampleDir), quietly (.mkdir sampleEntry)]
      (fun w => Tree w.store) := by
  apply (tree_iff sampleSha256 _ _).mpr
  · simp only [eachStep_cons, eachStep_nil, and_true, Fits, quietly, Below]
    decide
  · simp only [eachStep_cons, eachStep_nil, and_true]
    decide

def deletion : TreeOp := .delete ⟨[.s3, .nas, .localDisk], by decide⟩ sampleDir

/-- Deleting a directory that still has a file in it leaves the file without a parent. -/
theorem delete_orphans_entry :
    ¬∀ history : List (TreeOp × (Nat → Choice)),
      EachStep (serve sampleSha256) .empty history (Succeeds sampleSha256) →
      Throughout (serve sampleSha256) .empty history (fun w => Tree w.store) := by
  intro claimed
  have tree := claimed [quietly (.mkdir sampleDir), quietly (.write sampleEntry [1]),
    quietly deletion] (by
      simp only [eachStep_cons, eachStep_nil, and_true]
      decide) _ (List.prefix_refl _)
  obtain ⟨q, y, up, row, -⟩ := tree.parents sampleEntry _ (Option.some_get (by decide)).symm
    (by decide)
  have here : sampleEntry.val.parent = some sampleDir := by decide
  obtain rfl := Option.some.inj (here.symm.trans up)
  revert row
  simp only [show ([quietly (.mkdir sampleDir), quietly (.write sampleEntry [1]),
    quietly deletion].foldl (serve sampleSha256) .empty).store.rowState sampleDir = none by decide]
  simp

end TreeOp

end Fvfs
