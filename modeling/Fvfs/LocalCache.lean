import Fvfs.Lib.Files
import Fvfs.Lib.Pool
import Fvfs.Lib.UnixPath
import Fvfs.Types
import Mathlib.Data.UInt

/-! `LocalCache` and the reads of `VfscFuse` that go through it, as programs over single
calls to the client's file system and to the daemon. -/
namespace Fvfs

open Lib
open Lib.UnixPath (Component components)
open Function (update)

/-- What `hex::encode` makes of a SHA-256. -/
structure Hex (s : Text) : Prop where
  length : s.length = 64
  digits : ∀ c ∈ s, c ∈ "0123456789abcdef".toList

instance (s : Text) : Decidable (Hex s) :=
  decidable_of_iff (s.length = 64 ∧ s.all fun c => decide (c ∈ "0123456789abcdef".toList))
    ⟨fun ⟨length, digits⟩ => ⟨length, by simpa using digits⟩,
    fun ⟨length, digits⟩ => ⟨length, by simpa using digits⟩⟩

@[ext] structure Digest where
  text : Text
  hex : Hex text

/-- A path on the client's disk, by its components. -/
abbrev Place := List Component

/-- The calls. A file is known by its path until it is opened or created, and by its
number from then on. -/
inductive ClientCall where
  | createDirAll (dir : Place)
  | pathExists (path : Place)
  | create (path : Place)
  | write (file offset : Nat) (data : Bytes)
  | openFile (path : Place)
  | read (file offset : Nat)
  | readDir (dir : Place)
  | isDir (path : Place)
  | metadata (path : Place)
  | removeFile (path : Place)
  | stat (path : FvfsPath)
  | fetch (path : FvfsPath)
  deriving DecidableEq

/-- Modification time, where the file system has one, and length. -/
abbrev FileStat := Option Int × UInt64

/-- An error of the file system is only logged, so it has no content here. The answer to
`stat` is the hash of the version, empty where there is none. -/
abbrev ClientCall.Answer : ClientCall → Type
  | createDirAll _ | pathExists _ | isDir _ | removeFile _ => Bool
  | create _ | openFile _ | write _ _ _ => Option Nat
  | read _ _ => Option Bytes
  | readDir _ => Option (List Text)
  | metadata _ => Option FileStat
  | stat _ => Option Text
  | fetch _ => Except FvfsError Bytes

def ClientSys : Interface := ⟨ClientCall, ClientCall.Answer⟩

/-- A thread stops short of its end at a panic, or where the turns it was given run out. -/
inductive Halt where
  | panicked | unfinished

abbrev ClientTask (α : Type) := Prog ClientSys Halt α

structure Disk where
  names : Place → Option Nat
  files : Nat → Bytes
  next : Nat

def Disk.empty : Disk := ⟨fun _ => none, fun _ => [], 0⟩

/-- The environment's part in one call: whether it fails, how many bytes one write or read
moves, what a directory walk sees and what the daemon answers. -/
structure Chance where
  fault : Bool
  amount : Nat
  names : List Text
  isDir : Bool
  stat : FileStat
  sha256 : Text
  data : Except FvfsError Bytes

def Chance.quiet (amount : Nat) : Chance := ⟨false, amount, [], false, (none, 0), [], .ok []⟩

namespace Disk

/-- `O_CREAT` and `O_TRUNC`: a file that is already there is emptied in place. -/
def create (d : Disk) (path : Place) : Nat × Disk :=
  match d.names path with
  | some file => (file, { d with files := update d.files file [] })
  | none => (d.next, ⟨update d.names path (some d.next), update d.files d.next [], d.next + 1⟩)

def write (d : Disk) (file offset : Nat) (data : Bytes) : Disk :=
  { d with files := update d.files file (Files.writeAt (d.files file) offset data) }

/-- Readers and writers that have the file open keep it. -/
def remove (d : Disk) (path : Place) : Disk := { d with names := update d.names path none }

/-- A write that fails may have written some of its bytes. -/
def respond : Handler ClientSys Disk Chance
  | .createDirAll _, c, d => (!c.fault, d)
  | .pathExists path, c, d => (!c.fault && (d.names path).isSome, d)
  | .create path, c, d => if c.fault then (none, d) else (some (d.create path).1, (d.create path).2)
  | .write file offset data, c, d =>
    (if c.fault then none else some (data.take c.amount).length,
      d.write file offset (data.take c.amount))
  | .openFile path, c, d => (if c.fault then none else d.names path, d)
  | .read file offset, c, d =>
    (if c.fault then none else some (Files.readAt (d.files file) offset c.amount), d)
  | .readDir _, c, d => (if c.fault then none else some c.names, d)
  | .isDir _, c, d => (c.isDir, d)
  | .metadata _, c, d => (if c.fault then none else some c.stat, d)
  | .removeFile path, c, d =>
    if c.fault || (d.names path).isNone then (false, d) else (true, d.remove path)
  | .stat _, c, d => (if c.fault then none else some c.sha256, d)
  | .fetch _, c, d => (c.data, d)

end Disk

namespace ClientCall

def run (op : ClientCall) : ClientTask op.Answer := Prog.perform (I := ClientSys) op

end ClientCall

structure LocalCache where
  root : Text
  maxBytes : UInt64

namespace LocalCache

open ClientCall

/-- `str::split_at` by bytes; a cut inside a character panics. -/
def splitAt : Nat → Text → Option (Text × Text)
  | 0, s => some ([], s)
  | _ + 1, [] => none
  | n + 1, c :: s =>
    if c.utf8Size ≤ n + 1 then
      (splitAt (n + 1 - c.utf8Size) s).map fun (front, rest) => (c :: front, rest)
    else none

def byteLength (s : Text) : Nat := (s.map Char.utf8Size).sum

def cachePath (cache : LocalCache) (sha256 : Text) : Option Text :=
  (splitAt (min 2 (byteLength sha256)) sha256).map fun (lead, rest) =>
    Lib.UnixPath.join (Lib.UnixPath.join cache.root lead) rest

/-- The file a hash is looked up in, unless computing its path panics. -/
def place (cache : LocalCache) (sha256 : Text) : Option Place :=
  (cache.cachePath sha256).map components

theorem splitAt_of_ascii {s : Text} (ascii : ∀ c ∈ s, c.utf8Size = 1) {n : Nat}
    (within : n ≤ s.length) : splitAt n s = some (s.take n, s.drop n) := by
  induction s generalizing n with
  | nil =>
    obtain rfl : n = 0 := by simpa using within
    rfl
  | cons c s ih =>
    cases n with
    | zero => rfl
    | succ n =>
      have size : c.utf8Size = 1 := ascii c (by simp)
      have shorter : n ≤ s.length := by simpa using within
      have rest := ih (fun d member => ascii d (by simp [member])) shorter
      simp [splitAt, size, rest]

theorem byteLength_of_ascii {s : Text} (ascii : ∀ c ∈ s, c.utf8Size = 1) :
    byteLength s = s.length := by
  induction s with
  | nil => rfl
  | cons c s ih =>
    have rest := ih fun d member => ascii d (by simp [member])
    simp only [byteLength, List.map_cons, List.sum_cons, List.length_cons] at rest ⊢
    rw [ascii c (by simp), rest, Nat.add_comm]

/-- A part made of hexadecimal digits names an entry of its directory. -/
theorem plain_of_digits {part : Text} (nonempty : part ≠ [])
    (digits : ∀ c ∈ part, c ∈ "0123456789abcdef".toList) : Lib.UnixPath.Plain part := by
  have no_dot : '.' ∉ "0123456789abcdef".toList := by decide
  have no_slash : '/' ∉ "0123456789abcdef".toList := by decide
  refine ⟨nonempty, ?_, ?_, fun slash => no_slash (digits _ slash)⟩
  · rintro rfl
    exact no_dot (digits '.' (by simp))
  · rintro rfl
    exact no_dot (digits '.' (by simp))

/-- A hash has a file of its own, two directories below the root. -/
theorem place_hex (cache : LocalCache) {s : Text} (hex : Hex s) : cache.place s =
    some (components cache.root ++ [.normal (s.take 2), .normal (s.drop 2)]) := by
  have ascii : ∀ c ∈ s, c.utf8Size = 1 := by
    intro c member
    have all_ascii : "0123456789abcdef".toList.all fun d => d.utf8Size == 1 := by decide
    have size := List.all_eq_true.mp all_ascii c (hex.digits c member)
    simpa using size
  have size := hex.length
  have lead : Lib.UnixPath.Plain (s.take 2) := by
    apply plain_of_digits
    · intro empty
      have short := congrArg List.length empty
      rw [List.length_take, size] at short
      contradiction
    · exact fun c member => hex.digits c (List.mem_of_mem_take member)
  have rest : Lib.UnixPath.Plain (s.drop 2) := by
    apply plain_of_digits
    · intro empty
      have short := congrArg List.length empty
      rw [List.length_drop, size] at short
      contradiction
    · exact fun c member => hex.digits c (List.mem_of_mem_drop member)
  have first := @Lib.UnixPath.components_join cache.root [s.take 2] (by simpa using lead)
  have second := @Lib.UnixPath.components_join (Lib.UnixPath.join cache.root (s.take 2)) [s.drop 2]
    (by simpa using rest)
  simp only [Lib.UnixPath.text, List.intercalate_singleton, List.map_cons, List.map_nil]
    at first second
  have width : min 2 (byteLength s) = 2 := by
    rw [byteLength_of_ascii ascii]
    omega
  simp only [place, cachePath, width, splitAt_of_ascii ascii (n := 2) (by omega), Option.map_some,
    second, first, List.append_assoc, List.cons_append, List.nil_append]

theorem exists_parent (cache : LocalCache) {s : Text} (hex : Hex s) :
    ∃ path parent, cache.place s = some path ∧ Lib.UnixPath.parent path = some parent := by
  refine ⟨_, components cache.root ++ [.normal (s.take 2)], place_hex cache hex, ?_⟩
  rw [List.append_cons]
  exact Lib.UnixPath.parent_snoc _ _

theorem place_injective (cache : LocalCache) {s t : Text} (hex : Hex s) (hex' : Hex t)
    (same : cache.place s = cache.place t) : s = t := by
  rw [place_hex cache hex, place_hex cache hex'] at same
  have parts := List.append_cancel_left (Option.some.inj same)
  simp only [List.cons.injEq, Component.normal.injEq, and_true] at parts
  rw [← List.take_append_drop 2 s, ← List.take_append_drop 2 t, parts.1, parts.2]

/-- The loop of `fs::read`, up to the read that finds the end of the file. -/
def readToEnd (file : Nat) : Nat → Bytes → ClientTask (Option Bytes)
  | 0, _ => .fail .unfinished
  | turns + 1, data => do
    match ← (read file data.length).run with
    | none => pure none
    | some [] => pure (some data)
    | some (byte :: more) => readToEnd file turns (data ++ byte :: more)

def getByHash (turns : Nat) (cache : LocalCache) (sha256 : Text) : ClientTask (Option Bytes) :=
  match cache.place sha256 with
  | none => .fail .panicked
  | some path => do
    match ← (openFile path).run with
    | none => pure none
    | some file => readToEnd file turns []

/-- `write_all` from this offset on; an error, or a write of no bytes, ends it. -/
def writeFrom (file : Nat) : Nat → Nat → Bytes → ClientTask Unit
  | 0, _, _ => pure ()
  | turns + 1, offset, data =>
    if data = [] then pure ()
    else do
      match ← (write file offset data).run with
      | none | some 0 => pure ()
      | some (n + 1) => writeFrom file turns (offset + (n + 1)) (data.drop (n + 1))

/-- Each turn writes something, so the length of the data bounds the turns. -/
def writeAll (file : Nat) (data : Bytes) : ClientTask Unit := writeFrom file data.length 0 data

theorem writeFrom_eq (file : Nat) {n m offset : Nat} {data : Bytes} (enough : data.length ≤ n)
    (also : data.length ≤ m) : writeFrom file n offset data = writeFrom file m offset data := by
  induction n generalizing m offset data with
  | zero =>
    obtain rfl : data = [] := List.eq_nil_of_length_eq_zero (Nat.le_zero.mp enough)
    cases m <;> rfl
  | succ n ih =>
    cases m with
    | zero =>
      obtain rfl : data = [] := List.eq_nil_of_length_eq_zero (Nat.le_zero.mp also)
      rfl
    | succ m =>
      have next (written : Nat) :
          writeFrom file n (offset + (written + 1)) (data.drop (written + 1)) =
            writeFrom file m (offset + (written + 1)) (data.drop (written + 1)) := by
        apply ih
        · rw [List.length_drop]
          omega
        · rw [List.length_drop]
          omega
      simp only [writeFrom, next]

/-- The loop as `write_all` runs it, whatever bound its turns have. -/
theorem writeAll_eq (file : Nat) (data : Bytes) {turns : Nat} (enough : data.length ≤ turns) :
    writeAll file data = writeFrom file turns 0 data :=
  writeFrom_eq file (Nat.le_refl _) enough

/-- The existence check, and the write where nothing is there. -/
def storeNew (path : Place) (data : Bytes) : ClientTask Unit := do
  if !(← (pathExists path).run) then
    match ← (create path).run with
    | none => pure ()
    | some file => writeAll file data

def put (sha256 : Bytes → Digest) (cache : LocalCache) (data : Bytes) : ClientTask Text :=
  let hash := (sha256 data).text
  match cache.place hash with
  | none => .fail .panicked
  | some path =>
    match Lib.UnixPath.parent path with
    | none => do
      storeNew path data
      pure hash
    | some parent => do
      if ← (createDirAll parent).run then storeNew path data
      pure hash

structure Entry where
  modified : Int
  path : Place
  size : UInt64

/-- The entries of one directory: directories go on the stack, files to the result. -/
def visit (dir : Place) : List Text → List Place → List Entry → ClientTask (List Place × List Entry)
  | [], stack, out => pure (stack, out)
  | name :: names, stack, out => do
    let path := dir ++ [.normal name]
    if ← (isDir path).run then visit dir names (path :: stack) out
    else
      match ← (metadata path).run with
      | none => visit dir names stack out
      | some (modified, size) =>
        visit dir names stack (out ++ [⟨modified.getD 0, path, size⟩])

/-- The walk of `compute_dir_size` and `collect_cache_files`. -/
def walk : Nat → List Place → List Entry → ClientTask (List Entry)
  | 0, _, _ => .fail .unfinished
  | _ + 1, [], out => pure out
  | turns + 1, dir :: stack, out => do
    match ← (readDir dir).run with
    | none => walk turns stack out
    | some names => do
      let (stack, out) ← visit dir names stack out
      walk turns stack out

def collectCacheFiles (turns : Nat) (root : Place) : ClientTask (List Entry) := walk turns [root] []

def totalBytes (turns : Nat) (cache : LocalCache) : ClientTask UInt64 := do
  let entries ← walk turns [components cache.root] []
  pure (entries.foldl (fun total entry => total + entry.size) 0)

/-- The removals, oldest first, until little enough is left. -/
def removeOldest (used target : UInt64) : UInt64 → List Entry → ClientTask Unit
  | _, [] => pure ()
  | freed, entry :: entries =>
    if used - freed ≤ target then pure ()
    else do
      if ← (removeFile entry.path).run then removeOldest used target (freed + entry.size) entries
      else removeOldest used target freed entries

def evictIfNeeded (turns : Nat) (cache : LocalCache) : ClientTask Unit := do
  let used ← totalBytes turns cache
  if used ≤ cache.maxBytes then pure ()
  else
    let entries ← collectCacheFiles turns (components cache.root)
    let target := min (used * 3 / 4) cache.maxBytes
    removeOldest used target 0 (entries.mergeSort fun a b => a.modified ≤ b.modified)

end LocalCache

inductive Errno where
  | enoent | eisdir | eio
  deriving DecidableEq

/-- The answer to the kernel. Bytes from the cache carry the hash they were found under. -/
inductive ReadReply where
  | data (cached : Option Text) (bytes : Bytes)
  | error (errno : Errno)

namespace VfscFuse

open ClientCall

/-- The requested part of the content; a negative offset wraps to a large one. -/
def slice (offset : Int64) (size : UInt32) (data : Bytes) : Bytes :=
  let start := min offset.toUInt64.toNat data.length
  let stop := min (start + size.toNat) data.length
  (data.take stop).drop start

/-- The content under the hash of the current version, if the cache has it. -/
def lookUp (turns : Nat) (cache : LocalCache) (path : FvfsPath) :
    ClientTask (Option (Text × Bytes)) := do
  match ← (stat path).run with
  | none => pure none
  | some sha256 =>
    if sha256 = [] then pure none
    else do
      match ← cache.getByHash turns sha256 with
      | none => pure none
      | some data => pure (some (sha256, data))

def errno : FvfsError → Errno
  | .notFound _ => .enoent
  | .isADirectory _ => .eisdir
  | _ => .eio

/-- Without a hit. The put of the content is spawned, so it is a task of its own. -/
def fetchSlice (path : FvfsPath) (offset : Int64) (size : UInt32) : ClientTask ReadReply := do
  match ← (fetch path).run with
  | .ok data => pure (.data none (slice offset size data))
  | .error e => pure (.error (errno e))

/-- `path` is what the inode table has for the number. -/
def read (turns : Nat) (cache : LocalCache) (path : Option FvfsPath) (offset : Int64)
    (size : UInt32) : ClientTask ReadReply :=
  match path with
  | none => pure (.error .enoent)
  | some path => do
    match ← lookUp turns cache path with
    | some (sha256, data) => pure (.data (some sha256) (slice offset size data))
    | none => fetchSlice path offset size

end VfscFuse

end Fvfs
