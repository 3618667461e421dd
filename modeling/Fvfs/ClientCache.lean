import Fvfs.CacheTasks
import Mathlib.Data.Fintype.Basic
import Mathlib.Data.Set.Function

/-! Soundness of the client's cache: a file of the cache is trusted as soon as it is there,
so what a lookup returns is right where no read comes before the bytes it asks for. -/
namespace Fvfs

open Lib
open Function (update)

namespace ClientCache

section Events

variable {ι : Type} [DecidableEq ι]

/-- The file a create returned. -/
def created (e : Event ClientSys ι) : Option Nat :=
  match e.op, e.res with
  | .create _, some file => some file
  | _, _ => none

def Created (file : Nat) (e : Event ClientSys ι) : Prop := created e = some file

instance (file : Nat) : DecidablePred fun e : Event ClientSys ι => Created file e :=
  fun e => inferInstanceAs (Decidable (created e = some file))

/-- How many bytes of this file a write says it wrote. -/
def wrote (file : Nat) (e : Event ClientSys ι) : Nat :=
  match e.op, e.res with
  | .write other _ _, some n => if other = file then n else 0
  | _, _ => 0

/-- What the thread's own writes to the file come to. -/
def written (i : ι) (file : Nat) (past : List (Event ClientSys ι)) : Nat :=
  (past.map fun e => if e.thread = i then wrote file e else 0).sum

@[simp] theorem written_snoc (i : ι) (file : Nat) (past : List (Event ClientSys ι))
    (e : Event ClientSys ι) : written i file (past ++ [e]) =
      written i file past + if e.thread = i then wrote file e else 0 := by
  simp [written]

/-- The event neither made a file nor added to one. -/
structure Quiet (e : Event ClientSys ι) : Prop where
  created : created e = none
  wrote : ∀ file, wrote file e = 0

end Events

section Cache

variable {ι : Type} [DecidableEq ι]

def clients (sha256 : Bytes → Digest) (cache : LocalCache) (tasks : ι → CacheTask) :
    Pool ClientSys Halt CacheReply Disk ι :=
  ⟨.empty, fun i => (tasks i).run sha256 cache⟩

/-- A read that succeeds comes after the put that made or emptied the file last has written
all of its content, or finds some bytes and only such as that put has written. -/
def CoveredCall (tasks : ι → CacheTask) (past : List (Event ClientSys ι)) (d : Disk) (c : Chance) :
    Option ClientCall → Prop
  | some (.read file offset) => c.fault = false → ∀ k, LastBy (Created file) k past →
    let stop := min (offset + c.amount + 1) (d.files file).length
    written k file past = (tasks k).content.length ∨ offset < stop ∧ stop ≤ written k file past
  | _ => True

/-- Where the step of this thread reads a file, the read is covered. -/
def Covered (tasks : ι → CacheTask) (past : List (Event ClientSys ι))
    (pool : Pool ClientSys Halt CacheReply Disk ι) (i : ι) (c : Chance) : Prop :=
  CoveredCall tasks past pool.world c (Pool.nextOp (pool.threads i))

instance decidableCoveredCall [Fintype ι] (tasks : ι → CacheTask)
    (past : List (Event ClientSys ι)) (d : Disk) (c : Chance) :
    (op : Option ClientCall) → Decidable (CoveredCall tasks past d c op)
  | some (.read file offset) => inferInstanceAs (Decidable (c.fault = false →
    ∀ k, LastBy (Created file) k past →
      written k file past = (tasks k).content.length ∨
        offset < min (offset + c.amount + 1) (d.files file).length ∧
          min (offset + c.amount + 1) (d.files file).length ≤ written k file past))
  | none | some (.createDirAll _) | some (.pathExists _) | some (.create _) | some (.write _ _ _)
  | some (.openFile _) | some (.readDir _) | some (.isDir _) | some (.metadata _)
  | some (.removeFile _) | some (.stat _) | some (.fetch _) => .isTrue trivial

instance [Fintype ι] (tasks : ι → CacheTask) (past : List (Event ClientSys ι))
    (pool : Pool ClientSys Halt CacheReply Disk ι) (i : ι) (c : Chance) :
    Decidable (Covered tasks past pool i c) :=
  decidableCoveredCall tasks past pool.world c (Pool.nextOp (pool.threads i))

/-- What a lookup returns is a content some task put, and has the hash it was looked up
under; bytes served from the cache are those the content of that version has there. -/
structure Sound (sha256 : Bytes → Digest) (contents : Set Bytes) (tasks : ι → CacheTask)
    (pool : Pool ClientSys Halt CacheReply Disk ι) : Prop where
  found : ∀ i (h : Digest) turns data, tasks i = .get h.text turns →
    pool.threads i = .ret (.found (some data)) → sha256 data = h ∧ ∃ k, tasks k = .put data
  served : ∀ i path offset size turns (h : Digest) bytes, tasks i = .read path offset size turns →
    pool.threads i = .ret (.answered (.data (some h.text) bytes)) →
    (∃ k data, tasks k = .put data ∧ sha256 data = h) ∧
      ∀ content ∈ contents, sha256 content = h → bytes = VfscFuse.slice offset size content

variable (sha256 : Bytes → Digest) (cache : LocalCache) (tasks : ι → CacheTask)

/-- The files the puts have made: `content` is what every put into the file writes. -/
structure CacheFiles (content : Nat → Bytes) (past : List (Event ClientSys ι)) (d : Disk) :
    Prop where
  named : ∀ path file, d.names path = some file →
    file < d.next ∧ cache.place (sha256 (content file)).text = some path
  made : ∀ k file, Occurs (fun e => Created file e ∧ e.thread = k) past →
    file < d.next ∧ tasks k = .put (content file)
  maker : ∀ file < d.next, ∃ k, LastBy (Created file) k past
  filled : ∀ k file, LastBy (Created file) k past →
    Files.Filled (content file) (written k file past) (d.files file)

/-- What a thread in this phase relies on. -/
def Stands (content : Nat → Bytes) (past : List (Event ClientSys ι)) (d : Disk) (i : ι) :
    CachePhase → Prop
  | .preparing | .checking | .creating => ∀ file, written i file past = 0
  | .writing file offset =>
    Occurs (fun e => Created file e ∧ e.thread = i) past ∧ written i file past = offset
  | .reading hash file data => file < d.next ∧
    cache.place hash = cache.place (sha256 (content file)).text ∧ data <+: content file
  | .hit hash data => cache.place hash = cache.place (sha256 data).text ∧ ∃ k, tasks k = .put data
  | _ => True

/-- Between any two steps, for some assignment of contents to the files. -/
def CacheInv (past : List (Event ClientSys ι)) (d : Disk) (phase : ι → CachePhase) : Prop :=
  ∃ content, CacheFiles sha256 cache tasks content past d ∧
    ∀ i, Stands sha256 cache tasks content past d i (phase i)

variable {sha256 cache tasks} {content content' : Nat → Bytes} {past : List (Event ClientSys ι)}
  {d d' : Disk} {e : Event ClientSys ι} {i j : ι}

/-- Nothing another thread does takes from what a thread relies on. -/
theorem Stands.keep {phase : CachePhase} (stands : Stands sha256 cache tasks content past d j phase)
    (other : e.thread ≠ j) (grows : d.next ≤ d'.next)
    (same : ∀ file < d.next, content' file = content file) :
    Stands sha256 cache tasks content' (past ++ [e]) d' j phase := by
  cases phase with
  | preparing | checking | creating => simpa [Stands, other] using stands
  | writing file offset =>
    obtain ⟨made, count⟩ := stands
    exact ⟨occurs_append.mpr (Or.inl made), by simpa [other] using count⟩
  | reading hash file data =>
    obtain ⟨old, place, begins⟩ := stands
    simp only [Stands, same file old]
    exact ⟨by omega, place, begins⟩
  | hit hash data => exact stands
  | _ => trivial

omit [DecidableEq ι] in
theorem lastBy_quiet (none_made : created e = none) {file : Nat} {k : ι} :
    LastBy (Created file) k (past ++ [e]) ↔ LastBy (Created file) k past := by
  simp [Created, none_made]

omit [DecidableEq ι] in
theorem occurs_quiet (none_made : created e = none) {file : Nat} {k : ι} :
    Occurs (fun e => Created file e ∧ e.thread = k) (past ++ [e]) ↔
      Occurs (fun e => Created file e ∧ e.thread = k) past := by
  simp [Created, none_made]

theorem CacheFiles.quiet (files : CacheFiles sha256 cache tasks content past d) (quiet : Quiet e)
    (fewer : ∀ path file, d'.names path = some file → d.names path = some file)
    (same : d'.files = d.files) (next : d'.next = d.next) :
    CacheFiles sha256 cache tasks content (past ++ [e]) d' := by
  obtain ⟨named, made, maker, filled⟩ := files
  rw [← next] at named made maker
  constructor
  · exact fun path file entry => named path file (fewer path file entry)
  · exact fun k file occurs => made k file ((occurs_quiet quiet.created).mp occurs)
  · intro file old
    obtain ⟨k, last⟩ := maker file old
    exact ⟨k, (lastBy_quiet quiet.created).mpr last⟩
  · intro k file last
    have kept := filled k file ((lastBy_quiet quiet.created).mp last)
    simpa [same, quiet.wrote] using kept

/-- A writer puts its own content where it belongs, so no file loses anything by it. -/
theorem CacheFiles.write (files : CacheFiles sha256 cache tasks content past d) {data : Bytes}
    (putting : tasks e.thread = .put data) {file : Nat}
    (mine : Occurs (fun x => Created file x ∧ x.thread = e.thread) past) {amount : Nat}
    (none_made : created e = none) (elsewhere : ∀ other ≠ file, wrote other e = 0)
    (count : wrote file e = 0 ∨
      wrote file e = ((data.drop (written e.thread file past)).take amount).length) :
    CacheFiles sha256 cache tasks content (past ++ [e]) (d.write file (written e.thread file past)
      ((data.drop (written e.thread file past)).take amount)) := by
  obtain ⟨named, made, maker, filled⟩ := files
  have same : content file = data := by
    have task := (made _ _ mine).2
    rw [putting] at task
    exact (CacheTask.put.inj task).symm
  constructor
  · exact named
  · exact fun k other occurs => made k other ((occurs_quiet none_made).mp occurs)
  · intro other old
    obtain ⟨k, last⟩ := maker other old
    exact ⟨k, (lastBy_quiet none_made).mpr last⟩
  · intro k other last
    have before := filled k other ((lastBy_quiet none_made).mp last)
    by_cases here : other = file
    · subst here
      rw [same] at before ⊢
      have kept := before.writeAt (written e.thread other past) amount
      simp only [Disk.write, Function.update_self, written_snoc]
      by_cases own : e.thread = k
      · subst own
        rw [if_pos rfl]
        rcases count with none_counted | counted
        · simpa only [none_counted, Nat.add_zero] using kept
        · rw [counted]
          exact before.extend amount
      · simpa only [own, if_false, Nat.add_zero] using kept
    · simpa [Disk.write, here, elsewhere other here] using before

/-- A file made where none was. -/
theorem CacheFiles.create_new (files : CacheFiles sha256 cache tasks content past d) {data : Bytes}
    (putting : tasks e.thread = .put data) {path : Place}
    (located : cache.place (sha256 data).text = some path)
    (nothing : ∀ file, written e.thread file past = 0) (made_new : created e = some d.next)
    (none_counted : ∀ file, wrote file e = 0) :
    CacheFiles sha256 cache tasks (update content d.next data) (past ++ [e])
      ⟨update d.names path (some d.next), update d.files d.next [], d.next + 1⟩ := by
  obtain ⟨named, made, maker, filled⟩ := files
  constructor
  · intro other file entry
    by_cases here : other = path
    · subst here
      obtain rfl : d.next = file := by simpa using entry
      simpa using located
    · obtain ⟨old, place⟩ := named other file (by simpa [here] using entry)
      have apart : file ≠ d.next := by omega
      simp only [Function.update_of_ne apart]
      exact ⟨by omega, place⟩
  · intro k file occurs
    rcases occurs_append.mp occurs with before | now
    · obtain ⟨old, task⟩ := made k file before
      have apart : file ≠ d.next := by omega
      simp only [Function.update_of_ne apart]
      exact ⟨by omega, task⟩
    · obtain ⟨new, rfl⟩ := occurs_singleton.mp now
      obtain rfl : d.next = file := Option.some.inj (made_new.symm.trans new)
      simpa using putting
  · intro file old
    by_cases new : file = d.next
    · subst new
      exact ⟨e.thread, lastBy_snoc.mpr (Or.inl ⟨made_new, rfl⟩)⟩
    · have older : file < d.next + 1 := old
      obtain ⟨k, last⟩ := maker file (by omega)
      refine ⟨k, lastBy_snoc.mpr (Or.inr ⟨fun here => new ?_, last⟩)⟩
      exact Option.some.inj (here.symm.trans made_new)
  · intro k file last
    rcases lastBy_snoc.mp last with ⟨new, rfl⟩ | ⟨_, before⟩
    · obtain rfl : d.next = file := Option.some.inj (made_new.symm.trans new)
      simpa [none_counted, nothing] using Files.filled_nil data
    · obtain ⟨old, _⟩ := made k file before.occurs
      have apart : file ≠ d.next := by omega
      simpa [apart, none_counted] using filled k file before

/-- A file emptied in place: whoever made it before wrote the same content. -/
theorem CacheFiles.create_over (files : CacheFiles sha256 cache tasks content past d) {file : Nat}
    (putting : tasks e.thread = .put (content file)) (old : file < d.next)
    (nothing : ∀ file, written e.thread file past = 0) (made_over : created e = some file)
    (none_counted : ∀ file, wrote file e = 0) :
    CacheFiles sha256 cache tasks content (past ++ [e])
      { d with files := update d.files file [] } := by
  obtain ⟨named, made, maker, filled⟩ := files
  constructor
  · exact named
  · intro k other occurs
    rcases occurs_append.mp occurs with before | now
    · exact made k other before
    · obtain ⟨here, rfl⟩ := occurs_singleton.mp now
      obtain rfl : file = other := Option.some.inj (made_over.symm.trans here)
      exact ⟨old, putting⟩
  · intro other older
    by_cases here : other = file
    · subst here
      exact ⟨e.thread, lastBy_snoc.mpr (Or.inl ⟨made_over, rfl⟩)⟩
    · obtain ⟨k, last⟩ := maker other older
      refine ⟨k, lastBy_snoc.mpr (Or.inr ⟨fun same => here ?_, last⟩)⟩
      exact Option.some.inj (same.symm.trans made_over)
  · intro k other last
    rcases lastBy_snoc.mp last with ⟨here, rfl⟩ | ⟨elsewhere, before⟩
    · obtain rfl : file = other := Option.some.inj (made_over.symm.trans here)
      simpa [none_counted, nothing] using Files.filled_nil (content file)
    · have apart : other ≠ file := by
        rintro rfl
        exact elsewhere made_over
      simpa [apart, none_counted] using filled k other before

theorem CacheInv.advance {phase : ι → CachePhase} {next : CachePhase}
    (files : CacheFiles sha256 cache tasks content' (past ++ [e]) d')
    (stands : ∀ j, Stands sha256 cache tasks content past d j (phase j))
    (grows : d.next ≤ d'.next) (same : ∀ file < d.next, content' file = content file)
    (own : Stands sha256 cache tasks content' (past ++ [e]) d' e.thread next) :
    CacheInv sha256 cache tasks (past ++ [e]) d' (update phase e.thread next) := by
  refine ⟨content', files, fun j => ?_⟩
  by_cases mine : e.thread = j
  · subst mine
    simpa using own
  · have others : j ≠ e.thread := fun same => mine same.symm
    simpa [others] using (stands j).keep mine grows same

/-- A step that leaves the files alone, and at most takes away a name. -/
theorem CacheInv.quiet {phase : ι → CachePhase} {next : CachePhase}
    (files : CacheFiles sha256 cache tasks content past d)
    (stands : ∀ j, Stands sha256 cache tasks content past d j (phase j)) (quiet : Quiet e)
    (fewer : ∀ path file, d'.names path = some file → d.names path = some file)
    (same : d'.files = d.files) (kept : d'.next = d.next)
    (own : Stands sha256 cache tasks content (past ++ [e]) d' e.thread next) :
    CacheInv sha256 cache tasks (past ++ [e]) d' (update phase e.thread next) :=
  advance (files.quiet quiet fewer same kept) stands kept.ge (fun _ _ => rfl) own

/-- A step that leaves the disk as it is. -/
theorem CacheInv.still {phase : ι → CachePhase} {next : CachePhase}
    (files : CacheFiles sha256 cache tasks content past d)
    (stands : ∀ j, Stands sha256 cache tasks content past d j (phase j)) (quiet : Quiet e)
    (own : Stands sha256 cache tasks content (past ++ [e]) d e.thread next) :
    CacheInv sha256 cache tasks (past ++ [e]) d (update phase e.thread next) :=
  .quiet files stands quiet (fun _ _ same => same) rfl rfl own

theorem written_quiet (quiet : Quiet e) (file : Nat) :
    written i file (past ++ [e]) = written i file past := by
  simp [quiet.wrote]

variable (sha256 cache tasks past d i) in
/-- The invariant after this step of this thread. -/
abbrev StepKeeps (phase : ι → CachePhase) (c : Chance) (op : ClientCall) : Prop :=
  CacheInv sha256 cache tasks (past ++ [⟨i, op, (Disk.respond op c d).1⟩]) (Disk.respond op c d).2
    (update phase i
      ((cacheProtocol sha256 cache (tasks i)).next (phase i) op (Disk.respond op c d).1))

section Steps

variable {phase : ι → CachePhase} {c : Chance}

theorem CacheInv.create
    (distinct : ∀ i j a b, tasks i = .put a → tasks j = .put b → sha256 a = sha256 b → a = b)
    (files : CacheFiles sha256 cache tasks content past d)
    (stands : ∀ j, Stands sha256 cache tasks content past d j (phase j))
    (nothing : ∀ file, written i file past = 0) {data : Bytes} (putting : tasks i = .put data)
    {path : Place} (located : cache.place (sha256 data).text = some path) :
    StepKeeps sha256 cache tasks past d i phase c (.create path) := by
  unfold StepKeeps
  cases fault : c.fault with
  | true =>
    simp only [Disk.respond, fault, if_true]
    exact .still files stands ⟨rfl, fun _ => rfl⟩ trivial
  | false =>
    simp only [Disk.respond, fault, Bool.false_eq_true, if_false, Disk.create]
    cases known : d.names path with
    | some file =>
      obtain ⟨old, place⟩ := files.named path file known
      obtain ⟨k, last⟩ := files.maker file old
      have before := (files.made k file last.occurs).2
      have same_hash : sha256 data = sha256 (content file) :=
        Digest.ext (cache.place_injective (sha256 data).hex (sha256 _).hex
          (located.trans place.symm))
      obtain rfl := distinct i k _ _ putting before same_hash
      refine .advance (files.create_over (e := ⟨i, .create path, some file⟩) putting old nothing rfl
        fun _ => rfl) stands (Nat.le_refl _) (fun _ _ => rfl) ?_
      exact ⟨by simp [Created, created], by simp [nothing, wrote]⟩
    | none =>
      refine .advance (files.create_new (e := ⟨i, .create path, some d.next⟩) putting located
        nothing rfl fun _ => rfl) stands (Nat.le_succ _) (fun file old => ?_) ?_
      · exact Function.update_of_ne (by omega) _ _
      · exact ⟨by simp [Created, created], by simp [nothing, wrote]⟩

theorem CacheInv.write (files : CacheFiles sha256 cache tasks content past d)
    (stands : ∀ j, Stands sha256 cache tasks content past d j (phase j)) {file offset : Nat}
    (mine : Occurs (fun e => Created file e ∧ e.thread = i) past)
    (count : written i file past = offset) {data : Bytes} (putting : tasks i = .put data) :
    StepKeeps sha256 cache tasks past d i phase c (.write file offset (data.drop offset)) := by
  subst count
  unfold StepKeeps
  cases fault : c.fault with
  | true =>
    simp only [Disk.respond, fault]
    refine .advance (files.write (e := ⟨i, .write _ _ _, none⟩) putting mine rfl
      (fun _ _ => rfl) (Or.inl rfl)) stands (Nat.le_refl _) (fun _ _ => rfl) trivial
  | false =>
    simp only [Disk.respond, fault, Bool.false_eq_true]
    refine .advance (files.write (e := ⟨i, .write _ _ _, some _⟩) putting mine rfl
      (fun other apart => ?_) (Or.inr ?_)) stands (Nat.le_refl _) (fun _ _ => rfl) ?_
    · exact if_neg fun same => apart same.symm
    · exact if_pos rfl
    · exact ⟨occurs_append.mpr (Or.inl mine), by simp [wrote]⟩

theorem CacheInv.read (files : CacheFiles sha256 cache tasks content past d)
    (stands : ∀ j, Stands sha256 cache tasks content past d j (phase j)) {hash : Text} {file : Nat}
    {data : Bytes} (reading : phase i = .reading hash file data)
    (covered : c.fault = false → ∀ k, LastBy (Created file) k past →
      let stop := min (data.length + c.amount + 1) (d.files file).length
      written k file past = (tasks k).content.length ∨
        data.length < stop ∧ stop ≤ written k file past) :
    StepKeeps sha256 cache tasks past d i phase c (.read file data.length) := by
  have here := stands i
  rw [reading] at here
  obtain ⟨old, place, begins⟩ := here
  unfold StepKeeps
  cases fault : c.fault with
  | true =>
    simp only [Disk.respond, fault]
    exact .still files stands ⟨rfl, fun _ => rfl⟩ (by rw [reading]; trivial)
  | false =>
    simp only [Disk.respond, fault, Bool.false_eq_true]
    obtain ⟨k, last⟩ := files.maker file old
    have task := (files.made k file last.occurs).2
    have enough := covered fault k last
    rw [task] at enough
    obtain ⟨width, found⟩ := (files.filled k file last).readAt enough
    refine .still files stands ⟨rfl, fun _ => rfl⟩ ?_
    rw [reading, found]
    cases next : Files.readAt (content file) data.length width with
    | nil =>
      obtain rfl := Files.eq_of_readAt_nil begins next
      exact ⟨place, k, task⟩
    | cons byte more =>
      have longer := Files.append_readAt begins width
      rw [next] at longer
      exact ⟨old, place, longer⟩

theorem CacheInv.sweep (files : CacheFiles sha256 cache tasks content past d)
    (stands : ∀ j, Stands sha256 cache tasks content past d j (phase j))
    (evicting : phase i = .evicting) {op : ClientCall} (sweeps : op.Sweeps) :
    StepKeeps sha256 cache tasks past d i phase c op := by
  cases op with
  | readDir _ | isDir _ | metadata _ =>
    exact .still files stands ⟨rfl, fun _ => rfl⟩ (by rw [evicting]; trivial)
  | removeFile path =>
    unfold StepKeeps
    simp only [Disk.respond]
    split
    next =>
      exact .still files stands ⟨rfl, fun _ => rfl⟩ (by rw [evicting]; trivial)
    next =>
      refine .quiet files stands ⟨rfl, fun _ => rfl⟩ (fun other file entry => ?_) rfl rfl
        (by rw [evicting]; trivial)
      by_cases removed : other = path
      · simp [Disk.remove, removed] at entry
      · simpa [Disk.remove, removed] using entry
  | _ => exact sweeps.elim

theorem CacheInv.keep
    (distinct : ∀ i j a b, tasks i = .put a → tasks j = .put b → sha256 a = sha256 b → a = b)
    {pool : Pool ClientSys Halt CacheReply Disk ι} {op : ClientCall}
    {rest : op.Answer → ClientTask CacheReply}
    (inv : CacheInv sha256 cache tasks past pool.world phase)
    (covered : Covered tasks past pool i c)
    (at_op : pool.threads i = .call op rest)
    (permitted : (cacheProtocol sha256 cache (tasks i)).permits (phase i) op) :
    StepKeeps sha256 cache tasks past pool.world i phase c op := by
  obtain ⟨content, files, stands⟩ := inv
  have here := stands i
  generalize current : phase i = now at permitted here
  cases now with
  | preparing =>
    obtain ⟨dir, rfl⟩ := permitted
    refine .still files stands ⟨rfl, fun _ => rfl⟩ ?_
    rw [current]
    cases fault : c.fault with
    | true =>
      simp only [Disk.respond, fault]
      trivial
    | false =>
      simp only [Disk.respond, fault]
      exact fun file => (written_quiet ⟨rfl, fun _ => rfl⟩ file).trans (here file)
  | checking =>
    obtain ⟨path, rfl⟩ := permitted
    refine .still files stands ⟨rfl, fun _ => rfl⟩ ?_
    rw [current]
    cases found : (Disk.respond (.pathExists path) c pool.world).1 with
    | true => trivial
    | false => exact fun file => (written_quiet ⟨rfl, fun _ => rfl⟩ file).trans (here file)
  | creating =>
    obtain ⟨data, path, putting, located, rfl⟩ := permitted
    exact .create distinct files stands here putting located
  | writing file offset =>
    obtain ⟨data, putting, rfl⟩ := permitted
    exact .write files stands here.1 here.2 putting
  | statting =>
    obtain ⟨path, rfl⟩ := permitted
    refine .still files stands ⟨rfl, fun _ => rfl⟩ ?_
    rw [current]
    match (Disk.respond (.stat path) c pool.world).1 with
    | none => trivial
    | some [] => trivial
    | some (_ :: _) => trivial
  | opening hash =>
    obtain ⟨path, located, rfl⟩ := permitted
    refine .still files stands ⟨rfl, fun _ => rfl⟩ ?_
    rw [current]
    cases found : (Disk.respond (.openFile path) c pool.world).1 with
    | none => trivial
    | some file =>
      have known : pool.world.names path = some file := by
        cases fault : c.fault <;> simp_all [Disk.respond]
      obtain ⟨old, place⟩ := files.named path file known
      exact ⟨old, located.trans place.symm, List.nil_prefix⟩
  | reading hash file data =>
    subst permitted
    refine .read files stands current ?_
    simpa [Covered, CoveredCall, at_op, Pool.nextOp] using covered
  | missed =>
    obtain ⟨path, rfl⟩ := permitted
    exact .still files stands ⟨rfl, fun _ => rfl⟩ (by rw [current]; trivial)
  | evicting => exact .sweep files stands current permitted
  | stopped => exact permitted.elim
  | hit hash data => exact permitted.elim

end Steps

theorem stands_start (task : CacheTask) :
    Stands sha256 cache tasks content [] d i task.start := by
  cases task with
  | put data => exact fun file => rfl
  | get hash turns => trivial
  | read path offset size turns => trivial
  | evict turns => trivial

theorem Stands.hit {phase : CachePhase} {h : Digest} {data : Bytes}
    (stands : Stands sha256 cache tasks content past d i phase) (hit : phase = .hit h.text data) :
    sha256 data = h ∧ ∃ k, tasks k = .put data := by
  subst hit
  obtain ⟨place, put⟩ := stands
  exact ⟨Digest.ext (cache.place_injective h.hex (sha256 data).hex place).symm, put⟩

variable (sha256 cache tasks) in
theorem cacheInv_run
    (distinct : ∀ i j a b, tasks i = .put a → tasks j = .put b → sha256 a = sha256 b → a = b)
    {schedule : List (ι × Chance)}
    (covered : Pool.Along Disk.respond (Covered tasks) [] schedule (clients sha256 cache tasks)) :
    CacheInv sha256 cache tasks (Pool.trace Disk.respond schedule (clients sha256 cache tasks))
      (Pool.run Disk.respond schedule (clients sha256 cache tasks)).world fun i =>
        (cacheProtocol sha256 cache (tasks i)).after i (tasks i).start
          (Pool.trace Disk.respond schedule (clients sha256 cache tasks)) := by
  refine Protocol.run_phases (fun i => cacheProtocol sha256 cache (tasks i))
    (CacheInv sha256 cache tasks) (Covered tasks)
    (fun past pool phase i c op rest inv covered at_op permitted =>
      inv.keep distinct covered at_op permitted) (fun i => (tasks i).start) covered ?_
    fun i => (tasks i).follows sha256 cache
  refine ⟨fun _ => [], ⟨?_, ?_, ?_, ?_⟩, fun i => stands_start (tasks i)⟩
  · exact fun path file entry => nomatch entry
  · exact fun k file occurs => absurd occurs occurs_nil
  · exact fun file old => absurd old (Nat.not_lt_zero _)
  · exact fun k file last => absurd last lastBy_nil

/-- In every run of the clients of one cache in which each read of a cache file is covered,
and in which no two of the contents share their SHA-256, what the cache returns is sound. -/
theorem cache_sound (sha256 : Bytes → Digest) (cache : LocalCache) (tasks : ι → CacheTask)
    (contents : Set Bytes) (put : ∀ i data, tasks i = .put data → data ∈ contents)
    (distinct : contents.InjOn sha256) (schedule : List (ι × Chance))
    (covered : Pool.Along Disk.respond (Covered tasks) [] schedule (clients sha256 cache tasks)) :
    Sound sha256 contents tasks (Pool.run Disk.respond schedule (clients sha256 cache tasks)) := by
  obtain ⟨content, files, stands⟩ := cacheInv_run sha256 cache tasks
    (fun i j a b first second same => distinct (put i a first) (put j b second) same) covered
  have ends {i : ι} {reply : CacheReply}
      (done : (Pool.run Disk.respond schedule (clients sha256 cache tasks)).threads i =
        .ret reply) := Protocol.Follows.final_of_ret
    (Protocol.run_follows (h := Disk.respond) (cacheProtocol sha256 cache (tasks i))
      ((tasks i).follows sha256 cache) schedule) done
  constructor
  · intro i h turns data task done
    obtain ⟨hash, turns, task', phase⟩ := ends done
    obtain ⟨rfl, rfl⟩ := CacheTask.get.inj (task.symm.trans task')
    exact (stands i).hit phase
  · intro i path offset size turns h bytes task done
    obtain ⟨path, offset, size, turns, data, task', phase, rfl⟩ := ends done
    obtain ⟨rfl, rfl, rfl, rfl⟩ := CacheTask.read.inj (task.symm.trans task')
    obtain ⟨version, k, putting⟩ := (stands i).hit phase
    refine ⟨⟨k, data, putting, version⟩, fun other member same => ?_⟩
    rw [distinct (put k data putting) member (version.trans same.symm)]

end Cache

/-- The SHA-256 of `[1]` and of no bytes. -/
def knownDigest (data : Bytes) : Digest :=
  if data = [1] then
    ⟨"4bf5122f344554c53bde2ebb8cd2b7e3d1600ad631c385a5d7cce23c7785459a".toList, by decide⟩
  else ⟨"e3b0c44298fc1c149afbf4c8996fb92427ae41e4649b934ca495991b7852b855".toList, by decide⟩

/-- A put of `[1]`, and a lookup of its hash. -/
def putAndGet (putting : Bool) : CacheTask :=
  if putting then .put [1] else .get (knownDigest [1]).text 2

def calls (i : Bool) (amounts : List Nat) : List (Bool × Chance) :=
  amounts.map fun amount => (i, .quiet amount)

theorem cache_sound_after_put :
    Sound knownDigest {[1]} putAndGet (Pool.run Disk.respond
      (calls true [0, 0, 0, 1] ++ calls false [0, 0, 0])
      (clients knownDigest ⟨"/c".toList, 100⟩ putAndGet)) := by
  apply cache_sound
  · intro i data task
    cases i with
    | true => exact (CacheTask.put.inj task).symm
    | false => nomatch task
  · exact Set.injOn_singleton _ _
  · decide

/-- The put has created the file and written nothing when the lookup reads it. -/
theorem empty_cache_hit :
    ¬Sound knownDigest {[1]} putAndGet (Pool.run Disk.respond
      (calls true [0, 0, 0] ++ calls false [0, 0])
      (clients knownDigest ⟨"/c".toList, 100⟩ putAndGet)) := by
  intro sound
  obtain ⟨hash, -⟩ := sound.found false (knownDigest [1]) 2 [] rfl rfl
  exact absurd (congrArg (·.text.head?) hash) (by decide)

end ClientCache

end Fvfs
