import Fvfs.Inodes
import Fvfs.Requests

/-! The FUSE handler for writes: the file read, spliced and written back whole, over a router
whose calls may fail, and the router itself as such a one. -/
namespace Fvfs

open Lib
open Function (update)

namespace VfsdFuse

/-- What the kernel asks for. The offset is an `i64` and the size a `u32`. -/
structure WriteRequest where
  ino : UInt64
  offset : Nat
  data : Bytes
  offset_range : offset < 2 ^ 63
  data_range : data.length < 2 ^ 32

inductive Errno where
  | enoent | eio
  deriving DecidableEq

inductive WriteReply where
  | written (size : Nat)
  | error (errno : Errno)
  deriving DecidableEq

/-- `Vec::resize` with zeros, where it is too short. -/
def grow (buf : Bytes) (length : Nat) : Bytes := buf ++ .replicate (length - buf.length) 0

/-- `buf[offset..end].copy_from_slice(data)`. -/
def copyFromSlice (buf : Bytes) (offset : Nat) (data : Bytes) : Bytes :=
  buf.take offset ++ data ++ buf.drop (offset + data.length)

def splice (existing : Bytes) (offset : Nat) (data : Bytes) : Bytes :=
  let stop := offset + data.length
  let buf := if existing.length < stop then grow existing stop else existing
  copyFromSlice buf offset data

def unwrapOrDefault : Outcome Bytes → Bytes
  | .ok data => data
  | .error _ => []

@[simp] theorem unwrapOrDefault_ok (data : Bytes) : unwrapOrDefault (.ok data) = data := rfl
@[simp] theorem unwrapOrDefault_error (e : FvfsError) : unwrapOrDefault (.error e) = [] := rfl

variable {I : Interface} {ε : Type}

/-- `VfsdFuse::write` over a router's two calls. -/
def write (read : FvfsPath → Prog I FvfsError Bytes)
    (write : FvfsPath → Bytes → Prog I FvfsError Unit) (inodes : InodeTable)
    (request : WriteRequest) : Prog I ε WriteReply :=
  match inodes.path request.ino with
  | none => pure (.error .enoent)
  | some path => do
    let existing ← (read path).attempt
    let buf := splice (unwrapOrDefault existing) request.offset request.data
    match ← (write path buf).attempt with
    | .ok () => pure (.written (request.data.length % 2 ^ 32))
    | .error _ => pure (.error .eio)

/-- What the kernel is told of a write to a known path. -/
def replied (request : WriteRequest) : Outcome Unit → WriteReply
  | .ok () => .written request.data.length
  | .error _ => .error .eio

/-- The two calls of a request for a known path, and the reply. -/
theorem exec_write {W C : Type} (h : Handler I W C) {read : FvfsPath → Prog I FvfsError Bytes}
    {write : FvfsPath → Bytes → Prog I FvfsError Unit} {inodes : InodeTable}
    {request : WriteRequest} {p : FvfsPath} (known : inodes.path request.ino = some p)
    (env : Nat → C) (w : W) :
    (VfsdFuse.write read write inodes request : Prog I ε WriteReply).exec h env w =
      let found := (read p).exec h env w
      let stored := (write p (splice (unwrapOrDefault found.1) request.offset request.data)).exec h
        (fun i => env (i + (read p).steps h env w)) found.2
      (.ok (replied request stored.1), stored.2) := by
  have size := Nat.mod_eq_of_lt request.data_range
  unfold VfsdFuse.write
  rw [known]
  dsimp only
  rw [Prog.exec_try, Prog.exec_try, size]
  generalize (write p _).exec h _ _ = stored
  obtain ⟨r, after⟩ := stored
  cases r <;> rfl

end VfsdFuse

/-- A router as its callers see it: contents, and calls that may fail. -/
inductive RouterCall where
  | read (p : FvfsPath)
  | write (p : FvfsPath) (data : Bytes)

@[reducible] def RouterCall.Res : RouterCall → Type
  | read _ => Outcome Bytes
  | write _ _ => Outcome Unit

abbrev RouterCalls : Interface := ⟨RouterCall, RouterCall.Res⟩

abbrev Contents := FvfsPath → Option Bytes

namespace RouterCalls

/-- A call that fails changes nothing. -/
def perform : Handler RouterCalls Contents (Option FvfsError)
  | .read _, some e, files => (.error e, files)
  | .read p, none, files =>
    match files p with
    | some data => (.ok data, files)
    | none => (.error (.notFound p.text), files)
  | .write _ _, some e, files => (.error e, files)
  | .write p data, none, files => (.ok (), update files p (some data))

def read (p : FvfsPath) : Prog RouterCalls FvfsError Bytes := .call (.read p) .lift
def write (p : FvfsPath) (data : Bytes) : Prog RouterCalls FvfsError Unit :=
  .call (.write p data) .lift

end RouterCalls

namespace VfsdFuse

/-- The old content with the data placed at the offset, and zeros in any gap before it. -/
structure Spliced (old : Bytes) (offset : Nat) (data new : Bytes) : Prop where
  length : new.length = max old.length (offset + data.length)
  placed : ∀ i < data.length, new[offset + i]? = data[i]?
  kept : ∀ i < old.length, i < offset ∨ offset + data.length ≤ i → new[i]? = old[i]?
  gap : ∀ i < offset, old.length ≤ i → new[i]? = some 0

theorem splice_eq (existing : Bytes) (offset : Nat) (data : Bytes) :
    splice existing offset data = (grow existing (offset + data.length)).take offset ++ data ++
      existing.drop (offset + data.length) := by
  unfold splice copyFromSlice grow
  dsimp only
  split
  next short => simp [List.drop_append, List.drop_of_length_le (Nat.le_of_lt short)]
  next long =>
    have enough : offset + data.length - existing.length = 0 := by omega
    simp [enough]

/-- What the handler computes is the splice. -/
theorem spliced_splice (old : Bytes) (offset : Nat) (data : Bytes) :
    Spliced old offset data (splice old offset data) := by
  have reached : ((grow old (offset + data.length)).take offset).length = offset := by
    simp only [grow, List.length_take, List.length_append, List.length_replicate]
    omega
  rw [splice_eq]
  refine ⟨?_, fun i inside => ?_, fun i present outside => ?_, fun i before behind => ?_⟩
  · simp only [List.length_append, reached, List.length_drop]
    omega
  · rw [List.append_assoc, List.getElem?_append_right (by omega), reached,
      List.getElem?_append_left (by omega)]
    congr 1
    omega
  · rcases outside with before | behind
    · rw [List.append_assoc, List.getElem?_append_left (by omega),
        List.getElem?_take_of_lt before, grow, List.getElem?_append_left present]
    · rw [List.getElem?_append_right (by simp [reached]; omega), List.getElem?_drop]
      congr 1
      simp only [List.length_append, reached]
      omega
  · rw [List.append_assoc, List.getElem?_append_left (by omega), List.getElem?_take_of_lt before,
      grow, List.getElem?_append_right behind]
    exact List.getElem?_replicate_of_lt (by omega)

theorem splice_nil (offset : Nat) (data : Bytes) :
    splice [] offset data = .replicate offset 0 ++ data := by
  simp [splice_eq, grow]

theorem splice_again (offset : Nat) (data : Bytes) :
    splice (.replicate offset 0 ++ data) offset data = .replicate offset 0 ++ data := by
  have reached : (List.replicate offset (0 : UInt8)).length = offset := List.length_replicate
  rw [splice_eq, grow, List.append_assoc (.replicate _ _), List.take_append_of_le_length (by simp),
    List.take_of_length_le (by simp), List.drop_of_length_le (by simp), List.append_nil]

/-- The handler's reply and the contents it leaves, under these outcomes of its two calls. -/
def handled (inodes : InodeTable) (request : WriteRequest) (outcome : Nat → Option FvfsError)
    (files : Contents) : Outcome WriteReply × Contents :=
  (write RouterCalls.read RouterCalls.write inodes request).exec RouterCalls.perform outcome files

/-- A request done, or refused without a trace; and refused where there are bytes to keep and
they were not read. -/
structure Faithful (inodes : InodeTable) (request : WriteRequest) (outcome : Nat → Option FvfsError)
    (files : Contents) : Prop where
  replies :
    (∃ p new, inodes.path request.ino = some p ∧
        handled inodes request outcome files =
          (.ok (.written request.data.length), update files p (some new)) ∧
        Spliced ((files p).getD []) request.offset request.data new) ∨
      ∃ errno, handled inodes request outcome files = (.ok (.error errno), files)
  preserves : ∀ p, inodes.path request.ino = some p → files p ≠ none → outcome 0 ≠ none →
    (handled inodes request outcome files).2 = files

section Handled

variable {inodes : InodeTable} {request : WriteRequest} {outcome : Nat → Option FvfsError}
  {files : Contents} {p : FvfsPath}

variable (outcome files) in
theorem handled_unknown (unknown : inodes.path request.ino = none) :
    handled inodes request outcome files = (.ok (.error .enoent), files) := by
  unfold handled write
  rw [unknown]
  rfl

/-- What the read finds, and what a failed one is taken for. -/
def existing (failed : Option FvfsError) (content : Option Bytes) : Bytes :=
  match failed with
  | some _ => []
  | none => content.getD []

variable (outcome files) in
theorem handled_known (known : inodes.path request.ino = some p) :
    handled inodes request outcome files = match outcome 1 with
      | none => (.ok (.written request.data.length), update files p
          (some (splice (existing (outcome 0) (files p)) request.offset request.data)))
      | some _ => (.ok (.error .eio), files) := by
  have asked : ((RouterCalls.read p).exec RouterCalls.perform outcome files).2 = files ∧
      (RouterCalls.read p).steps RouterCalls.perform outcome files = 1 ∧
      unwrapOrDefault ((RouterCalls.read p).exec RouterCalls.perform outcome files).1 =
        existing (outcome 0) (files p) := by
    cases first : outcome 0 with
    | some e => simp [RouterCalls.read, Prog.exec, Prog.steps, RouterCalls.perform, first, existing]
    | none =>
      cases content : files p <;> simp [RouterCalls.read, Prog.exec, Prog.steps,
        RouterCalls.perform, first, content, existing]
  obtain ⟨kept, one, reads⟩ := asked
  unfold handled
  rw [exec_write RouterCalls.perform known]
  simp only [kept, one, reads]
  cases second : outcome 1 <;>
    simp [RouterCalls.write, Prog.exec, RouterCalls.perform, second, replied]

/-- A refused request is faithful. -/
theorem faithful_of_refused {errno : Errno}
    (refused : handled inodes request outcome files = (.ok (.error errno), files)) :
    Faithful inodes request outcome files :=
  ⟨Or.inr ⟨errno, refused⟩, fun _ _ _ _ => by rw [refused]⟩

/-- So is one whose old bytes are read, or that has none. -/
theorem faithful_of_harmless (known : inodes.path request.ino = some p)
    (stored : outcome 1 = none) (harmless : outcome 0 = none ∨ files p = none) :
    Faithful inodes request outcome files := by
  have runs := handled_known outcome files known
  have read : existing (outcome 0) (files p) = (files p).getD [] := by
    rcases harmless with answered | absent
    · rw [answered]
      rfl
    · cases outcome 0 <;> simp [existing, absent]
  rw [stored, read] at runs
  refine ⟨Or.inl ⟨p, _, known, runs, spliced_splice _ _ _⟩, ?_⟩
  intro q same present unread
  obtain rfl := Option.some.inj (known.symm.trans same)
  rcases harmless with answered | absent
  · exact absurd answered unread
  · exact absurd absent present

/-- So is one that writes over unread bytes what they already were. -/
theorem faithful_of_same (known : inodes.path request.ino = some p) (stored : outcome 1 = none)
    (unread : outcome 0 ≠ none)
    (kept : files p = some (.replicate request.offset 0 ++ request.data)) :
    Faithful inodes request outcome files := by
  have runs := handled_known outcome files known
  obtain ⟨e, failed⟩ := Option.ne_none_iff_exists'.mp unread
  have same : handled inodes request outcome files =
      (.ok (.written request.data.length), files) := by
    rw [runs, stored, failed]
    simp only [existing, splice_nil]
    rw [← kept, Function.update_eq_self]
  refine ⟨Or.inl ⟨p, .replicate request.offset 0 ++ request.data, known, ?_, ?_⟩,
    fun _ _ _ _ => by rw [same]⟩
  · rw [same, ← kept, Function.update_eq_self]
  · have done := spliced_splice (.replicate request.offset 0 ++ request.data) request.offset
      request.data
    rw [splice_again] at done
    simpa [kept] using done

/-- A write is a splice that spares what it cannot read exactly where not all of these hold:
the file exists, it is not read, it is written, and it does not already consist of zeros up
to the offset and the data behind them. -/
theorem write_faithful_iff (inodes : InodeTable) (request : WriteRequest)
    (outcome : Nat → Option FvfsError) (files : Contents) :
    Faithful inodes request outcome files ↔
      ∀ p content, inodes.path request.ino = some p → files p = some content →
        outcome 0 ≠ none → outcome 1 = none →
          content = .replicate request.offset 0 ++ request.data := by
  constructor
  · rintro ⟨-, preserves⟩ p content known present unread stored
    have same := preserves p known (by simp [present]) unread
    obtain ⟨e, failed⟩ := Option.ne_none_iff_exists'.mp unread
    rw [handled_known _ _ known, stored, failed] at same
    have here := congrFun same p
    simp only [Function.update_self, present, existing, splice_nil] at here
    exact (Option.some.inj here).symm
  · intro spared
    cases known : inodes.path request.ino with
    | none => exact faithful_of_refused (handled_unknown outcome files known)
    | some p =>
      cases stored : outcome 1 with
      | some e =>
        have runs := handled_known outcome files known
        rw [stored] at runs
        exact faithful_of_refused runs
      | none =>
        by_cases harmless : outcome 0 = none ∨ files p = none
        · exact faithful_of_harmless known stored harmless
        · obtain ⟨unread, present⟩ := not_or.mp harmless
          obtain ⟨content, present⟩ := Option.ne_none_iff_exists'.mp present
          have kept := spared p content known present unread stored
          exact faithful_of_same known stored unread (kept ▸ present)

end Handled

section Router

variable {w : World} {files : Contents} {p : FvfsPath} {content : Option Bytes}

/-- From one tier: its bytes, if any. -/
theorem wp_getHeld {t : Tier} {data : Bytes} (held : w.tiers t p = some data) :
    (Async.get t p).wp Fvfs.perform (fun _ => True)
      (fun r w' => w' = w ∧ ∀ found, r = .ok found → found = data) w := by
  refine wp_get (fun found there => ⟨rfl, ?_⟩) fun e => ⟨rfl, nofun⟩
  rintro _ ⟨⟩
  exact Option.some.inj (there.symm.trans held)

theorem wp_readAndPromote {t : Tier} {data : Bytes} (held : w.tiers t p = some data) :
    (Router.readAndPromote p t).wp Fvfs.perform (fun _ => True)
      (fun r w' => w'.view = w.view ∧ ∀ found, r = .ok found → found = data) w := by
  refine Router.wp_readAndPromote (Prog.wp_mono (wp_getHeld held) ?_)
  rintro (e | found) _ ⟨rfl, same⟩
  · exact ⟨rfl, nofun⟩
  · exact fun _ _ => ⟨rfl, fun _ eq => (Except.ok.inj eq) ▸ same _ rfl⟩

theorem wp_readTiers {b : TierBitmask} {data : Bytes}
    (holds : ∀ t, b.has t = true → w.tiers t p = some data) :
    (Router.readTiers p b).wp Fvfs.perform (fun _ => True)
      (fun r w' => w'.view = w.view ∧ ∀ found, r = .ok found → found = data) w := by
  refine Router.wp_readTiers (· = w) (fun hot => ?_) (fun _ => rfl) ?_ ?_
  · refine Prog.wp_mono (wp_getHeld (holds .localDisk hot)) ?_
    rintro (e | found) _ ⟨rfl, same⟩
    · rfl
    · exact ⟨rfl, fun _ eq => (Except.ok.inj eq) ▸ same _ rfl⟩
  · rintro t _ tier rfl
    exact wp_readAndPromote (holds t (TierBitmask.colder_has tier).1)
  · rintro _ - rfl
    exact ⟨rfl, nofun⟩

/-- Whatever fails in it, a read changes no view, and answers the content if it answers. -/
theorem wp_read (rep : Represents (w.view p) content) :
    (Router.read p).wp Fvfs.perform (fun _ => True)
      (fun r w' => w'.view = w.view ∧ ∀ data, r = .ok data → content = some data) w := by
  have lookup : (Async.metaGet p).wp Fvfs.perform (fun _ => True)
      (fun r w' => w' = w ∧ ∀ found, r = .ok found → found = w.store.get p) w :=
    wp_metaGet ⟨rfl, fun _ eq => (Except.ok.inj eq).symm⟩ fun e _ _ _ => ⟨rfl, nofun⟩
  unfold Router.read Router.requireMetadata
  rw [Prog.bind_assoc]
  refine Prog.wp_seq lookup ?_ ?_
  · rintro found _ ⟨rfl, loaded⟩
    have loaded := loaded _ rfl
    cases found with
    | none => exact ⟨rfl, nofun⟩
    | some m =>
      change Prog.wp _ _ (if m.isDir then _ else _) _ _
      split
      next => exact ⟨rfl, nofun⟩
      next plain =>
        have row := Store.rowState_of_get loaded.symm
        cases rep with
        | absent none => simp [row] at none
        | directory there dir =>
          obtain rfl := Option.some.inj (row.symm.trans there)
          exact absurd dir plain
        | @file x data there _ copies =>
          obtain rfl := Option.some.inj (row.symm.trans there)
          refine Prog.wp_seq (wp_readTiers copies.holds) ?_ ?_
          · rintro found w' ⟨same, own⟩
            have counted : (Async.recordAccess m.id).wp Fvfs.perform (fun _ => True)
                (fun _ v => v.view = w'.view) w' :=
              wp_recordAccess (fun _ => view_withStore fun q => Store.rowState_recordAccess _ _)
                fun _ => rfl
            refine Prog.wp_try counted fun _ v still => ?_
            exact ⟨still.trans same, fun _ eq => by rw [← own found rfl, Except.ok.inj eq]⟩
          · rintro e w' ⟨same, -⟩
            exact ⟨same, nofun⟩
  · rintro e _ ⟨rfl, -⟩
    exact ⟨rfl, nofun⟩

/-- A write that reports success has stored the bytes. -/
theorem wp_write (refines : Refines w files) (sha256 : Bytes → Text) (canonical : p.Canonical)
    (data : Bytes) :
    (Router.write sha256 p data).wp Fvfs.perform (fun _ => True)
      (fun r w' => r = .ok () → Refines w' (update files p (some data))) w := by
  have put : (Async.put .localDisk p data).wp Fvfs.perform (fun _ => True)
      (fun r w' => r = .ok () → w' = w.setObject .localDisk p (some data)) w :=
    wp_put (fun _ => rfl) (fun _ _ _ _ => nofun) fun _ _ _ _ _ _ => nofun
  have upsert (clock : Int) : (Async.upsert (Router.writtenMetadata sha256 p data clock)).wp
      Fvfs.perform (fun _ => True)
      (fun r w' => ∀ id, r = .ok id → Refines w' (update files p (some data)))
      (w.setObject .localDisk p (some data)) :=
    wp_upsert (fun _ _ => Router.refines_written refines sha256 canonical data clock)
      fun _ _ _ _ => nofun
  have timed : Async.now.wp Fvfs.perform (fun _ => True)
      (fun _ w' => w' = w.setObject .localDisk p (some data))
      (w.setObject .localDisk p (some data)) := wp_now fun _ => rfl
  unfold Router.write
  refine Prog.wp_seq put ?_ fun _ _ _ => nofun
  intro _ w' stored
  obtain rfl := stored rfl
  refine Prog.wp_seq timed ?_ fun _ _ _ => nofun
  rintro clock _ rfl
  refine Prog.wp_seq (upsert clock) ?_ fun _ _ _ => nofun
  intro id w' upserted
  refine Prog.wp_seq (Router.wp_ensureParentDirs (upserted id rfl) canonical) ?_
    fun _ _ _ => nofun
  rintro _ w'' ⟨kept, -⟩
  exact Prog.wp_mono (Router.wp_enqueueReplication id) fun _ _ same _ => kept.of_view same

/-- How a call failed, if it did. -/
def failure : Outcome α → Option FvfsError
  | .ok _ => none
  | .error e => some e

/-- On the daemon's router, a request is handled as under some outcomes of its calls, the first
that of the read, and one that is answered as written leaves the contents these leave. -/
theorem write_on_router (refines : Refines w files) (sha256 : Bytes → Text) (inodes : InodeTable)
    (canonical : ∀ ino p, inodes.path ino = some p → p.Canonical) (request : WriteRequest)
    (env : Nat → Choice) :
    let done := (write Router.read (Router.write sha256) inodes request).exec Fvfs.perform env w
    ∃ outcome, (∀ p, inodes.path request.ino = some p →
        outcome 0 = failure ((Router.read p).exec Fvfs.perform env w).1) ∧
      done.1 = (handled inodes request outcome files).1 ∧
      ((∃ size, done.1 = .ok (.written size)) →
        Refines done.2 (handled inodes request outcome files).2) := by
  cases known : inodes.path request.ino with
  | none =>
    refine ⟨fun _ => none, nofun, ?_⟩
    simp only [handled_unknown _ _ known, write, known]
    exact ⟨rfl, by rintro ⟨_, ⟨⟩⟩⟩
  | some p =>
    obtain ⟨same, own⟩ := Prog.exec_of_wp (wp_read (refines.represents p)) env fun _ => trivial
    have wrote (env : Nat → Choice) (data : Bytes) := Prog.exec_of_wp
      (wp_write (refines.of_view same) sha256 (canonical _ p known) data) env fun _ => trivial
    have reads : unwrapOrDefault ((Router.read p).exec Fvfs.perform env w).1 =
        existing (failure ((Router.read p).exec Fvfs.perform env w).1) (files p) := by
      revert own
      cases ((Router.read p).exec Fvfs.perform env w).1 with
      | ok data => exact fun own => by simp [existing, failure, own data rfl]
      | error e => exact fun _ => rfl
    rw [exec_write Fvfs.perform known]
    dsimp only
    specialize wrote (fun i => env (i + (Router.read p).steps Fvfs.perform env w))
      (splice (unwrapOrDefault ((Router.read p).exec Fvfs.perform env w).1) request.offset
        request.data)
    revert wrote
    rw [reads]
    generalize (Router.write sha256 p _).exec Fvfs.perform _ _ = stored
    obtain ⟨r, after⟩ := stored
    intro wrote
    refine ⟨fun i => if i = 0 then failure ((Router.read p).exec Fvfs.perform env w).1
      else failure r, fun _ same => by cases same; rfl, ?_⟩
    rw [handled_known _ files known]
    cases r with
    | ok value => exact ⟨rfl, fun _ => wrote rfl⟩
    | error e => exact ⟨rfl, by rintro ⟨_, ⟨⟩⟩⟩

end Router

/-- The handler, request after request. -/
def serve (sha256 : Bytes → Text) (inodes : InodeTable) :
    List (WriteRequest × (Nat → Choice)) → World → List (Outcome WriteReply) × World
  | [], w => ([], w)
  | (request, env) :: rest, w =>
    let done := (write Router.read (Router.write sha256) inodes request).exec Fvfs.perform env w
    let later := serve sha256 inodes rest done.2
    (done.1 :: later.1, later.2)

/-- Every request for a known path places its data, and nothing else changes. It places them in
the bytes of the file, or over nothing where the read of these failed. -/
inductive Placed (sha256 : Bytes → Text) (inodes : InodeTable) :
    List (WriteRequest × (Nat → Choice)) → World → Contents → Contents → Prop
  | nil : Placed sha256 inodes [] w files files
  | unknown (unknown : inodes.path request.ino = none)
      (later : Placed sha256 inodes rest w files files') :
    Placed sha256 inodes ((request, env) :: rest) w files files'
  | spliced (known : inodes.path request.ino = some p)
      (read : ∀ data, ((Router.read p).exec Fvfs.perform env w).1 = .ok data →
        old = (files p).getD [])
      (unread : ∀ e, ((Router.read p).exec Fvfs.perform env w).1 = .error e → old = [])
      (spliced : Spliced old request.offset request.data new)
      (later : Placed sha256 inodes rest (serve sha256 inodes [(request, env)] w).2
        (update files p (some new)) files') :
    Placed sha256 inodes ((request, env) :: rest) w files files'

/-- However the steps of any number of writes fail: where none is answered as failed, each has
placed its data, and nothing else has changed. -/
theorem serve_places {w : World} {files : Contents} (refines : Refines w files)
    (sha256 : Bytes → Text) (inodes : InodeTable)
    (canonical : ∀ ino p, inodes.path ino = some p → p.Canonical)
    (requests : List (WriteRequest × (Nat → Choice)))
    (stored : .ok (.error .eio) ∉ (serve sha256 inodes requests w).1) :
    ∃ files', Placed sha256 inodes requests w files files' ∧
      Refines (serve sha256 inodes requests w).2 files' := by
  induction requests generalizing w files with
  | nil => exact ⟨files, .nil, refines⟩
  | cons turn rest ih =>
    obtain ⟨request, env⟩ := turn
    obtain ⟨here, later⟩ := not_or.mp (mt List.mem_cons.mpr stored)
    cases known : inodes.path request.ino with
    | none =>
      have same : (write Router.read (Router.write sha256) inodes request : Async WriteReply).exec
          Fvfs.perform env w = (.ok (.error .enoent), w) := by
        unfold write
        rw [known]
        rfl
      simp only [serve, same] at later ⊢
      obtain ⟨files', placed, refines'⟩ := ih refines later
      exact ⟨files', .unknown known placed, refines'⟩
    | some p =>
      obtain ⟨outcome, read, replies, leaves⟩ :=
        write_on_router refines sha256 inodes canonical request env
      rw [handled_known outcome files known] at replies leaves
      cases second : outcome 1 with
      | some e =>
        rw [second] at replies
        exact absurd replies.symm here
      | none =>
        rw [second] at replies leaves
        obtain ⟨files', placed, refines'⟩ := ih (leaves ⟨_, replies⟩) later
        refine ⟨files', .spliced known ?_ ?_ (spliced_splice _ _ _) placed, refines'⟩
        · intro data served
          rw [read p known, served]
          rfl
        · intro e refused
          rw [read p known, refused]
          rfl

def sampleInodes : InodeTable := (InodeTable.new.getOrAlloc ⟨"/a".toList⟩ none).2

def sampleWrite : WriteRequest := ⟨2, 1, [9], by decide, by decide⟩

def sampleContents : Contents := update (fun _ => none) ⟨"/a".toList⟩ (some [1, 2, 3])

theorem sampleInodes_canonical (ino : UInt64) (p : FvfsPath)
    (known : sampleInodes.path ino = some p) : p.Canonical := by
  have entries : sampleInodes.inoToPath =
      update (update (fun _ => none) rootIno (some .root)) 2 (some ⟨"/a".toList⟩) := rfl
  change sampleInodes.inoToPath ino = some p at known
  rw [entries] at known
  by_cases second : ino = 2
  · obtain rfl : (⟨"/a".toList⟩ : FvfsPath) = p := by simpa [second] using known
    decide
  by_cases first : ino = rootIno
  · rw [Function.update_of_ne second, first, Function.update_self] at known
    exact Option.some.inj known ▸ FvfsPath.root_canonical
  · simp [first, second] at known

/-- A file is written, and then its second byte, while its bytes cannot be fetched. -/
def sampleSession : List (WriteRequest × (Nat → Choice)) :=
  [(⟨2, 0, [1, 2, 3], by decide, by decide⟩, fun _ => .quiet 0),
    (sampleWrite, fun i => ⟨1, if i = 1 then some (.io "".toList) else none, none⟩)]

theorem serve_places_sampleSession :
    ∃ files', Placed Router.sampleSha256 sampleInodes sampleSession .empty (fun _ => none) files' ∧
      Refines (serve Router.sampleSha256 sampleInodes sampleSession .empty).2 files' :=
  serve_places Request.empty_refines _ _ sampleInodes_canonical _ (by decide)

/-- One byte written at offset 1 while S3 does not answer: the other bytes are lost. -/
theorem unread_file_overwritten :
    ¬∀ (inodes : InodeTable) (request : WriteRequest) (outcome : Nat → Option FvfsError)
      (files : Contents), Faithful inodes request outcome files := by
  intro claimed
  have faithful := claimed sampleInodes sampleWrite
    (fun i => if i = 0 then some (.s3 "timeout".toList) else none) sampleContents
  have same := congrFun (faithful.preserves ⟨"/a".toList⟩ (by decide) (by decide) (by decide))
    ⟨"/a".toList⟩
  revert same
  decide

end VfsdFuse

end Fvfs
