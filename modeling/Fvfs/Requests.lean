import Fvfs.Refinement

/-! Runs of requests, one after the other, in which the backends fail only on absent
objects, against the plain map they stand for. -/
namespace Fvfs

open Lib
open Function (update)

inductive Request where
  | write (p : CanonPath) (data : Bytes)
  | read (p : CanonPath)
  | delete (order : Router.TaskOrder) (p : CanonPath)
  | evict (p : CanonPath) (t : Tier)
  | flushPending
  | replayWal
  | promoteNext

namespace Request

open Router (sampleSha256)

variable (sha256 : Bytes → Text)

def task : Request → Async Unit
  | write p data => Router.write sha256 p data
  | read p => do let _ ← Router.read p
  | delete order p => Router.delete order p
  | evict p t => Router.evictFromTier p t
  | flushPending => Router.flushPending
  | replayWal => Router.replayWal
  | promoteNext => Router.promoteNext

/-- What the request does to the map of file contents. -/
def effect : Request → (FvfsPath → Option Bytes) → FvfsPath → Option Bytes
  | write p data, files => update files p (some data)
  | delete _ p, files => update files p none
  | _, files => files

/-- Each request runs to completion, its steps at the given clock readings. -/
def serve : List (Request × (Nat → Int)) → World → World
  | [], w => w
  | (request, clock) :: rest, w =>
    serve rest ((request.task sha256).exec perform (fun i => .quiet (clock i)) w).2

def contents : List (Request × (Nat → Int)) → (FvfsPath → Option Bytes) → FvfsPath → Option Bytes
  | [], files => files
  | (request, _) :: rest, files => contents rest (request.effect files)

theorem quiet_task {w : World} {files : FvfsPath → Option Bytes} (refines : Refines w files)
    (request : Request) :
    Quiet (request.task sha256) (fun _ w' => Refines w' (request.effect files)) w := by
  cases request with
  | write p data => exact Router.quiet_write_refines refines sha256 p.property data
  | read p =>
    apply Prog.wp_seq (Router.quiet_read (refines.represents p))
    · exact fun _ _ answer => refines.of_view answer.2
    · exact fun _ _ answer => refines.of_view answer.2
  | delete order p => exact Router.quiet_delete_refines refines order p
  | evict p t => exact Router.quiet_evictFromTier Router.refines_background refines p t
  | flushPending => exact Router.quiet_flushPending Router.refines_background refines
  | replayWal => exact Router.quiet_replayWal Router.refines_background refines
  | promoteNext => exact Router.quiet_promoteNext Router.refines_background refines

theorem serve_refines {w : World} {files : FvfsPath → Option Bytes} (refines : Refines w files)
    (history : List (Request × (Nat → Int))) :
    Refines (serve sha256 history w) (contents history files) := by
  induction history generalizing w files with
  | nil => exact refines
  | cons turn rest ih =>
    obtain ⟨request, clock⟩ := turn
    exact ih (Prog.exec_of_wp (quiet_task sha256 refines request).faultless _ fun _ => rfl)

theorem empty_refines : Refines .empty fun _ => none :=
  ⟨nofun, fun _ => .absent rfl rfl⟩

/-- After any history a read answers exactly what the plain map holds: the last content
written and not deleted since. -/
theorem read_serve_iff (history : List (Request × (Nat → Int))) (p : CanonPath)
    (clock : Nat → Int) (data : Bytes) :
    ((Router.read p).exec perform (fun i => .quiet (clock i)) (serve sha256 history .empty)).1 =
      .ok data ↔ contents history (fun _ => none) p = some data := by
  have refines := serve_refines sha256 empty_refines history
  exact (Prog.exec_of_wp (Router.quiet_read (refines.represents p)).faultless _
    fun i => Choice.faultless_quiet (clock i)).1 data

def sampleFile : CanonPath := ⟨⟨['/', 'a']⟩, by decide⟩

def written : World := serve sampleSha256 [(.write sampleFile [1], fun _ => 0)] .empty

def uploaded : World := serve sampleSha256 [(.flushPending, fun _ => 0)] written

def evicted : World := serve sampleSha256 [(.evict sampleFile .localDisk, fun _ => 0)] uploaded

end Request

end Fvfs
