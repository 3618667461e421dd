import Fvfs.ClientInodes
import Fvfs.ClientUrl
import Fvfs.FuseWrite
import Fvfs.Lib.Cursor
import Fvfs.Listing
import Fvfs.PathTree
import Fvfs.ReusedIds

/-! Directory scans over FUSE: each `readdir` fetches the listing again and resumes at the
position of the last entry the kernel took. -/
namespace Fvfs

open Lib
open Lib.Cursor (Visit)

/-- What a record of a reply stands for. -/
inductive DirItem where
  | self | parent
  | entry (path : FvfsPath)
  deriving DecidableEq

/-- The arguments of one `reply.add`, and what it was called for. -/
structure DirRecord where
  ino : UInt64
  next : Int
  kind : EntryKind
  name : Text
  item : DirItem

inductive DirReply where
  | records (added : List DirRecord)
  | error (errno : VfsdFuse.Errno)

section Handler

variable {τ : Type} (alloc : τ → FvfsPath → UInt64 × τ) (offset : Int)

/-- The loop over the listing. The number is allocated before the reply turns out to be full. -/
def addEntries : Int → List FileEntry → Nat → τ → List DirRecord × τ
  | _, [], _, table => ([], table)
  | idx, entry :: entries, room, table =>
    if offset > idx then addEntries (idx + 1) entries room table
    else
      let (child_ino, table) := alloc table entry.path
      match room with
      | 0 => ([], table)
      | room + 1 =>
        let (records, table) := addEntries (idx + 1) entries room table
        (⟨child_ino, idx + 1, entry.kind, entry.path.fileName, .entry entry.path⟩ :: records, table)

/-- One of the two entries every directory has, and what follows it. -/
def addDot (idx : Int) (record : DirRecord) (rest : Nat → τ → List DirRecord × τ) (room : Nat)
    (table : τ) : List DirRecord × τ :=
  if offset ≤ idx then
    match room with
    | 0 => ([], table)
    | room + 1 =>
      let (records, table) := rest room table
      (record :: records, table)
  else rest room table

/-- The reply to a call with this many records of room; `..` has the root's number. -/
def addAll (ino : UInt64) (entries : List FileEntry) : Nat → τ → List DirRecord × τ :=
  addDot offset 0 ⟨ino, 1, .directory, ".".toList, .self⟩
    (addDot offset 1 ⟨rootIno, 2, .directory, "..".toList, .parent⟩
      (addEntries alloc offset 2 entries))

end Handler

/-- `VfsdFuse::readdir`, with the error of the router's listing if there is one. -/
def VfsdFuse.readdir (inodes : InodeTable) (w : World) (fault : Option FvfsError) (ino : UInt64)
    (offset : Int) (room : Nat) : DirReply × InodeTable :=
  match inodes.path ino with
  | none => (.error .enoent, inodes)
  | some dir_path =>
    match fault with
    | some _ => (.error .eio, inodes)
    | none =>
      let (records, inodes) :=
        addAll (fun t p => t.getOrAlloc p none) offset ino (w.list dir_path) room inodes
      (.records records, inodes)

/-- `VfsdClient::list`: the listing of the path the daemon's handler obtains. What any other
handler answers is no listing. -/
def VfsdClient.fetchList (w : World) (p : FvfsPath) : Option (List FileEntry) :=
  match HttpApi.received (VfsdClient.list p) with
  | some (.list, obtained) => some (w.list obtained)
  | some (.listRoot, obtained) => some (w.list obtained)
  | _ => none

/-- `VfscFuse::readdir`, with the error of the request if there is one. -/
def VfscFuse.readdir (inodes : Fvfsc.InodeTable) (w : World) (fault : Option FvfsError)
    (ino : UInt64) (offset : Int) (room : Nat) : DirReply × Fvfsc.InodeTable :=
  match inodes.path ino with
  | none => (.error .enoent, inodes)
  | some dir_path =>
    match fault with
    | some _ => (.error .eio, inodes)
    | none =>
      match VfsdClient.fetchList w dir_path with
      | none => (.error .eio, inodes)
      | some entries =>
        let (records, inodes) := addAll Fvfsc.InodeTable.getOrAlloc offset ino entries room inodes
        (.records records, inodes)

/-- Each record carries the position after its own. -/
def Consecutive : Int → List DirRecord → Prop
  | _, [] => True
  | position, record :: records => record.next = position + 1 ∧ Consecutive (position + 1) records

theorem Consecutive.last {position : Int} {records : List DirRecord}
    (consecutive : Consecutive position records) :
    (records.getLast?.map DirRecord.next).getD position = position + records.length := by
  induction records generalizing position with
  | nil => simp
  | cons record records ih =>
    obtain ⟨next, rest⟩ := consecutive
    have last := ih rest
    cases records with
    | nil => simpa using next
    | cons second records =>
      simp only [List.getLast?_cons_cons, List.length_cons] at last ⊢
      have some_last : ∃ r, (second :: records).getLast? = some r :=
        ⟨_, List.getLast?_eq_some_getLast (by simp)⟩
      obtain ⟨r, found⟩ := some_last
      simp only [found, Option.map_some, Option.getD_some] at last ⊢
      omega

/-- The records are those of the items from the offset on, as many as fit. -/
structure Pages (offset idx : Int) (items : List DirItem) (room : Nat) (records : List DirRecord) :
    Prop where
  items : records.map DirRecord.item = (items.drop (offset - idx).toNat).take room
  positions : Consecutive (max offset idx) records

section Handler

variable {τ : Type} {alloc : τ → FvfsPath → UInt64 × τ} {offset : Int}

theorem addEntries_pages (idx : Int) (entries : List FileEntry) (room : Nat) (table : τ) :
    Pages offset idx (entries.map fun e => .entry e.path) room
      (addEntries alloc offset idx entries room table).1 := by
  induction entries generalizing idx room table with
  | nil => exact ⟨by simp [addEntries], trivial⟩
  | cons entry entries ih =>
    rw [addEntries]
    split
    next before =>
      obtain ⟨items, positions⟩ := ih (idx + 1) room table
      have shift : (offset - idx).toNat = (offset - (idx + 1)).toNat + 1 := by omega
      refine ⟨?_, ?_⟩
      · rw [shift]
        exact items
      · rwa [show max offset idx = max offset (idx + 1) by omega]
    next here =>
      have start : (offset - idx).toNat = 0 := by omega
      cases room with
      | zero => exact ⟨by simp, trivial⟩
      | succ room =>
        obtain ⟨items, positions⟩ := ih (idx + 1) room (alloc table entry.path).2
        have start' : (offset - (idx + 1)).toNat = 0 := by omega
        refine ⟨?_, ?_, ?_⟩
        · rw [start'] at items
          rw [start]
          simpa using items
        · change idx + 1 = max offset idx + 1
          omega
        · rwa [show max offset idx + 1 = max offset (idx + 1) by omega]

theorem addDot_pages {idx second : Int} {record : DirRecord}
    {rest : Nat → τ → List DirRecord × τ} {items : List DirItem} (follows : second = idx + 1)
    (next : record.next = second)
    (pages : ∀ room table, Pages offset second items room (rest room table).1) (room : Nat)
    (table : τ) :
    Pages offset idx (record.item :: items) room (addDot offset idx record rest room table).1 := by
  subst follows
  unfold addDot
  split
  next here =>
    have start : (offset - idx).toNat = 0 := by omega
    cases room with
    | zero => exact ⟨by simp, trivial⟩
    | succ room =>
      obtain ⟨later, positions⟩ := pages room table
      have start' : (offset - (idx + 1)).toNat = 0 := by omega
      refine ⟨?_, ?_, ?_⟩
      · rw [start'] at later
        rw [start]
        simpa using later
      · omega
      · rwa [show max offset idx + 1 = max offset (idx + 1) by omega]
  next before =>
    obtain ⟨later, positions⟩ := pages room table
    have shift : (offset - idx).toNat = (offset - (idx + 1)).toNat + 1 := by omega
    refine ⟨?_, ?_⟩
    · rw [shift]
      exact later
    · rwa [show max offset idx = max offset (idx + 1) by omega]

/-- What a directory's scan goes over. -/
def dirItems (entries : List FileEntry) : List DirItem :=
  .self :: .parent :: entries.map fun e => .entry e.path

theorem addAll_pages (ino : UInt64) (entries : List FileEntry) (room : Nat) (table : τ) :
    Pages offset 0 (dirItems entries) room (addAll alloc offset ino entries room table).1 := by
  have from_parent := @addDot_pages τ offset 1 2
    ⟨rootIno, 2, .directory, "..".toList, .parent⟩ (addEntries alloc offset 2 entries)
    (entries.map fun e => .entry e.path) rfl rfl (addEntries_pages 2 entries)
  exact @addDot_pages τ offset 0 1 ⟨ino, 1, .directory, ".".toList, .self⟩ _ _ rfl rfl from_parent
    room table

end Handler

/-- A call of a scan: the states of the daemon since the call before, the one the listing is
fetched in, the table then, and the records there is room for. -/
structure ReaddirCall (τ : Type) where
  since : List World
  world : World
  inodes : τ
  fault : Option FvfsError
  room : Nat

abbrev ReaddirHandler (τ : Type) :=
  τ → World → Option FvfsError → UInt64 → Int → Nat → DirReply × τ

/-- Where the next call resumes: at the offset of the last entry. -/
def DirReply.resume (offset : Int) : DirReply → Int
  | .records added => (added.getLast?.map DirRecord.next).getD offset
  | .error _ => offset

def DirReply.items : DirReply → List DirItem
  | .records added => added.map DirRecord.item
  | .error _ => []

section Scan

variable {τ : Type} (readdir : ReaddirHandler τ) (ino : UInt64)

def ReaddirCall.reply (c : ReaddirCall τ) (offset : Int) : DirReply :=
  (readdir c.inodes c.world c.fault ino offset c.room).1

def scan : Int → List (ReaddirCall τ) → List DirReply
  | _, [] => []
  | offset, c :: calls =>
    c.reply readdir ino offset :: scan ((c.reply readdir ino offset).resume offset) calls

/-- The scan is over at the first reply without entries. -/
def Complete : List DirReply → Prop
  | [] => False
  | [last] => last = .records []
  | reply :: second :: replies => reply.items ≠ [] ∧ Complete (second :: replies)

end Scan

/-- An entry of the directory during the whole scan. -/
structure Lasting {τ : Type} (d : FvfsPath) (calls : List (ReaddirCall τ)) (p : FvfsPath) : Prop where
  child : p.parent = some d
  present : ∀ c ∈ calls, ∀ w ∈ c.world :: c.since, (w.store.rowState p).isSome

/-- The scan returns both dots and every lasting entry exactly once. -/
structure Thorough {τ : Type} (d : FvfsPath) (calls : List (ReaddirCall τ)) (items : List DirItem) :
    Prop where
  self : items.count .self = 1
  parent : items.count .parent = 1
  lasting : ∀ p, Lasting d calls p → items.count (.entry p) = 1

section Scan

variable {τ : Type} {readdir : ReaddirHandler τ} {ino : UInt64}

/-- What the calls of a scan go over, where each fetches this listing. -/
def visits (listing : ReaddirCall τ → List FileEntry) (calls : List (ReaddirCall τ)) :
    List (Visit DirItem) :=
  calls.map fun c => ⟨dirItems (listing c), c.room⟩

/-- A handler that answers with the records of this listing, or with an error. -/
def Lists (readdir : ReaddirHandler τ) (ino : UInt64) (alloc : τ → FvfsPath → UInt64 × τ)
    (listing : ReaddirCall τ → List FileEntry) (calls : List (ReaddirCall τ)) : Prop :=
  ∀ c ∈ calls, ∀ offset, (∃ errno, c.reply readdir ino offset = .error errno) ∨
    c.reply readdir ino offset = .records (addAll alloc offset ino (listing c) c.room c.inodes).1

theorem addAll_page (alloc : τ → FvfsPath → UInt64 × τ) (ino : UInt64) (entries : List FileEntry)
    (room : Nat) (table : τ) (o : Nat) :
    (addAll alloc o ino entries room table).1.map DirRecord.item =
        Visit.page ⟨dirItems entries, room⟩ o ∧
      (DirReply.records (addAll alloc o ino entries room table).1).resume o =
        (Visit.next ⟨dirItems entries, room⟩ o : Nat) := by
  obtain ⟨items, positions⟩ := @addAll_pages τ alloc o ino entries room table
  have from_start : ((o : Int) - 0).toNat = o := by omega
  have offset : max (o : Int) 0 = o := by omega
  rw [from_start] at items
  rw [offset] at positions
  refine ⟨items, positions.last.trans ?_⟩
  have length := congrArg List.length items
  rw [List.length_map] at length
  simp only [Visit.next, Visit.page, length]
  omega

/-- A complete scan is that of a positional cursor over the listings. -/
theorem scan_items {alloc : τ → FvfsPath → UInt64 × τ} {listing : ReaddirCall τ → List FileEntry}
    {calls : List (ReaddirCall τ)} (lists : Lists readdir ino alloc listing calls) {o : Nat}
    (complete : Complete (scan readdir ino o calls)) :
    (scan readdir ino o calls).flatMap DirReply.items = Cursor.returned o (visits listing calls) ∧
      Cursor.Ends o (visits listing calls) := by
  induction calls generalizing o with
  | nil => cases complete
  | cons c calls ih =>
    obtain ⟨page, resume⟩ := addAll_page alloc ino (listing c) c.room c.inodes o
    obtain ⟨errno, failed⟩ | answered := lists c (List.mem_cons_self ..) o
    · rw [scan, failed] at complete
      cases calls with
      | nil => cases complete
      | cons c' calls => exact absurd rfl complete.1
    · have here : (c.reply readdir ino o).items = Visit.page ⟨dirItems (listing c), c.room⟩ o := by
        rw [answered]
        exact page
      rw [scan, answered, resume] at complete
      rw [scan, List.flatMap_cons, here, answered, resume]
      cases calls with
      | nil =>
        have none_left := DirReply.records.inj complete
        rw [none_left] at page
        exact ⟨rfl, page.symm⟩
      | cons c' calls =>
        obtain ⟨some_items, rest⟩ := complete
        obtain ⟨items, ends⟩ := ih (fun c' inside => lists c' (List.mem_cons_of_mem _ inside)) rest
        exact ⟨congrArg _ items, fun empty => some_items (page.trans empty), ends⟩

theorem thorough_iff {alloc : τ → FvfsPath → UInt64 × τ} {listing : ReaddirCall τ → List FileEntry}
    {calls : List (ReaddirCall τ)} {d : FvfsPath} (lists : Lists readdir ino alloc listing calls)
    (roomy : ∀ c ∈ calls, 0 < c.room)
    (apart : ∀ c ∈ calls, ((listing c).map FileEntry.path).Nodup)
    (steady : ∀ p, Lasting d calls p → (∃ c ∈ calls, p ∈ (listing c).map FileEntry.path) →
      ∀ c ∈ calls, p ∈ (listing c).map FileEntry.path)
    (complete : Complete (scan readdir ino 0 calls)) :
    Thorough d calls ((scan readdir ino 0 calls).flatMap DirReply.items) ↔
      ∀ p, Lasting d calls p → (∀ c ∈ calls, p ∈ (listing c).map FileEntry.path) ∧
        Cursor.skips (.entry p) 0 (visits listing calls) =
          Cursor.repeats (.entry p) 0 (visits listing calls) := by
  obtain ⟨items, ends⟩ := scan_items lists (o := 0) complete
  change (scan readdir ino 0 calls).flatMap DirReply.items = _ at items
  have nodup (c : ReaddirCall τ) (inside : c ∈ calls) : (dirItems (listing c)).Nodup := by
    have entries := (apart c inside).map (f := DirItem.entry) fun _ _ same => DirItem.entry.inj same
    rw [List.map_map] at entries
    simp only [dirItems, List.nodup_cons, List.mem_cons, List.mem_map, reduceCtorEq, and_false,
      exists_false, or_self, not_false_eq_true, true_and]
    exact entries
  have room : ∀ v ∈ visits listing calls, 0 < v.room := by
    simpa [visits] using roomy
  have listed {x : DirItem} (member : ∀ c ∈ calls, x ∈ dirItems (listing c)) :
      ∀ v ∈ visits listing calls, v.listing.Nodup ∧ x ∈ v.listing := by
    intro v inside
    obtain ⟨c, call, rfl⟩ := List.mem_map.mp inside
    exact ⟨nodup c call, member c call⟩
  have dot {x : DirItem} {i : Nat} (fixed : ∀ entries, (dirItems entries).idxOf x = i)
      (member : ∀ entries, x ∈ dirItems entries) :
      (Cursor.returned 0 (visits listing calls)).count x = 1 := by
    obtain ⟨skipped, repeated⟩ := @Cursor.crossings_eq_zero _ _ x i (visits listing calls) 0 (by
      intro v inside
      obtain ⟨c, -, rfl⟩ := List.mem_map.mp inside
      exact fixed _)
    rw [Cursor.count_eq_one_iff room (listed fun c _ => member _) ends, skipped, repeated]
  have entry {p : FvfsPath} {entries : List FileEntry} :
      DirItem.entry p ∈ dirItems entries ↔ p ∈ entries.map FileEntry.path := by
    simp [dirItems]
  have counted {p : FvfsPath} (inside : ∀ c ∈ calls, p ∈ (listing c).map FileEntry.path) :=
    Cursor.count_eq_one_iff room (listed fun c call => entry.mpr (inside c call)) ends
  rw [items]
  constructor
  · intro thorough p lasting
    have once := thorough.lasting p lasting
    have inside : ∀ c ∈ calls, p ∈ (listing c).map FileEntry.path := by
      apply steady p lasting
      have member : .entry p ∈ Cursor.returned 0 (visits listing calls) :=
        List.count_pos_iff.mp (by omega)
      obtain ⟨v, visited, listed⟩ := Cursor.mem_of_returned member
      obtain ⟨c, call, rfl⟩ := List.mem_map.mp visited
      exact ⟨c, call, entry.mp listed⟩
    exact ⟨inside, (counted inside).mp once⟩
  · intro balanced
    refine ⟨dot (i := 0) (fun _ => by simp [dirItems]) (fun _ => by simp [dirItems]),
      dot (i := 1) (fun _ => by simp [dirItems]) (fun _ => by simp [dirItems]), ?_⟩
    exact fun p lasting => (counted (balanced p lasting).1).mpr (balanced p lasting).2

end Scan

/-- Listed are the paths with a row that the patterns match. -/
theorem mem_list_path {w : World} (canonical : ∀ p x, w.store.rowState p = some x → p.Canonical)
    {d p : FvfsPath} : p ∈ (w.list d).map FileEntry.path ↔
      (w.store.rowState p).isSome ∧ Store.likeListed d p.text = true := by
  rw [World.list_paths, List.mem_map]
  constructor
  · rintro ⟨m, member, rfl⟩
    obtain ⟨i, r, row, like, rfl⟩ := Store.mem_listDir.mp member
    rw [Store.rowToMetadata_path (Store.row_canonical canonical row) rfl]
    have state := rowState_of_row (x := (i, r)) (Table.mem_rows_iff.mpr row)
    exact ⟨Option.isSome_iff_exists.mpr ⟨_, state⟩, like⟩
  · rintro ⟨present, like⟩
    obtain ⟨x, row⟩ := Option.isSome_iff_exists.mp present
    obtain ⟨i, r, at_id, path, -⟩ := Store.rowState_eq_some_iff.mp row
    refine ⟨Store.rowToMetadata i r, Store.mem_listDir.mpr ⟨i, r, at_id, path ▸ like, rfl⟩, ?_⟩
    exact Store.rowToMetadata_path (canonical p x row) path

section Handlers

variable {τ : Type} {d : FvfsPath} {calls : List (ReaddirCall τ)}

/-- The calls of a scan of the directory: each has room for an entry, and the rows of every
state the daemon is in have canonical paths. -/
structure ScanOf (path : τ → UInt64 → Option FvfsPath) (ino : UInt64) (d : FvfsPath)
    (calls : List (ReaddirCall τ)) : Prop where
  named : ∀ c ∈ calls, path c.inodes ino = some d
  roomy : ∀ c ∈ calls, 0 < c.room
  canonical : ∀ c ∈ calls, ∀ w ∈ c.world :: c.since, ∀ p x, w.store.rowState p = some x → p.Canonical

/-- A lasting entry is listed in all calls or in none: its row is there in each. -/
theorem Lasting.listed {path : τ → UInt64 → Option FvfsPath} {ino : UInt64}
    (scans : ScanOf path ino d calls) {p : FvfsPath} (lasting : Lasting d calls p) (listed : FvfsPath)
    {c : ReaddirCall τ} (inside : c ∈ calls) :
    p ∈ (c.world.list listed).map FileEntry.path ↔ Store.likeListed listed p.text = true := by
  rw [mem_list_path (scans.canonical c inside c.world (List.mem_cons_self ..))]
  simp [lasting.present c inside c.world (List.mem_cons_self ..)]

end Handlers

/-- The listing a call of the daemon's own mount fetches. -/
def ReaddirCall.daemonListing {τ : Type} (d : FvfsPath) (c : ReaddirCall τ) : List FileEntry :=
  c.world.list d

/-- The listing a call of a client's mount fetches. -/
def ReaddirCall.clientListing {τ : Type} (d : FvfsPath) (c : ReaddirCall τ) : List FileEntry :=
  (VfsdClient.fetchList c.world d).getD []

theorem vfsd_scan_iff {ino : UInt64} {d : FvfsPath} (dir : d.Canonical)
    {calls : List (ReaddirCall InodeTable)} (scans : ScanOf InodeTable.path ino d calls)
    (complete : Complete (scan VfsdFuse.readdir ino 0 calls)) :
    Thorough d calls ((scan VfsdFuse.readdir ino 0 calls).flatMap DirReply.items) ↔
      ∀ p, Lasting d calls p →
        Cursor.skips (.entry p) 0 (visits (ReaddirCall.daemonListing d) calls) =
          Cursor.repeats (.entry p) 0 (visits (ReaddirCall.daemonListing d) calls) := by
  have lists : Lists VfsdFuse.readdir ino (fun t p => t.getOrAlloc p none)
      (ReaddirCall.daemonListing d) calls := by
    intro c inside offset
    unfold ReaddirCall.reply VfsdFuse.readdir
    rw [scans.named c inside]
    cases c.fault with
    | some e => exact Or.inl ⟨.eio, rfl⟩
    | none => exact Or.inr rfl
  have always {p : FvfsPath} (lasting : Lasting d calls p) :
      ∀ c ∈ calls, p ∈ (c.daemonListing d).map FileEntry.path := by
    intro c inside
    obtain ⟨x, row⟩ :=
      Option.isSome_iff_exists.mp (lasting.present c inside c.world (List.mem_cons_self ..))
    have canonical := scans.canonical c inside c.world (List.mem_cons_self ..) p x row
    exact (lasting.listed scans d inside).mpr
      ((Store.likeListed_canonical dir canonical).mpr (Or.inr ⟨d, lasting.child, rfl⟩))
  rw [thorough_iff lists scans.roomy
    (fun c inside => World.list_paths_nodup (scans.canonical c inside c.world (List.mem_cons_self ..)) d)
    (fun p lasting _ => always lasting) complete]
  exact forall_congr' fun p => ⟨fun balanced lasting => (balanced lasting).2,
    fun balanced lasting => ⟨always lasting, balanced lasting⟩⟩

theorem vfsc_scan_iff {ino : UInt64} {d : FvfsPath} {calls : List (ReaddirCall Fvfsc.InodeTable)}
    (scans : ScanOf Fvfsc.InodeTable.path ino d calls)
    (complete : Complete (scan VfscFuse.readdir ino 0 calls)) :
    Thorough d calls ((scan VfscFuse.readdir ino 0 calls).flatMap DirReply.items) ↔
      ∀ p, Lasting d calls p → (∀ c ∈ calls, p ∈ (c.clientListing d).map FileEntry.path) ∧
        Cursor.skips (.entry p) 0 (visits (ReaddirCall.clientListing d) calls) =
          Cursor.repeats (.entry p) 0 (visits (ReaddirCall.clientListing d) calls) := by
  have lists : Lists VfscFuse.readdir ino Fvfsc.InodeTable.getOrAlloc
      (ReaddirCall.clientListing d) calls := by
    intro c inside offset
    unfold ReaddirCall.reply VfscFuse.readdir ReaddirCall.clientListing
    rw [scans.named c inside]
    cases c.fault with
    | some e => exact Or.inl ⟨.eio, rfl⟩
    | none =>
      dsimp only
      generalize VfsdClient.fetchList c.world d = fetched
      cases fetched with
      | none => exact Or.inl ⟨.eio, rfl⟩
      | some entries => exact Or.inr rfl
  -- the directory the daemon lists is the same in every call
  have same_directory : (∃ listed, ∀ w, VfsdClient.fetchList w d = some (World.list w listed)) ∨
      ∀ w, VfsdClient.fetchList w d = none := by
    unfold VfsdClient.fetchList
    rcases HttpApi.received (VfsdClient.list d) with _ | ⟨handler, obtained⟩
    · exact Or.inr fun _ => rfl
    · cases handler with
      | list | listRoot => exact Or.inl ⟨obtained, fun _ => rfl⟩
      | putFile | getFile | deleteFile | getMeta => exact Or.inr fun _ => rfl
  refine thorough_iff lists scans.roomy ?_ ?_ complete
  · intro c inside
    unfold ReaddirCall.clientListing
    rcases same_directory with ⟨listed, fetched⟩ | nothing
    · rw [fetched]
      exact World.list_paths_nodup (scans.canonical c inside c.world (List.mem_cons_self ..)) listed
    · rw [nothing]
      exact List.nodup_nil
  · intro p lasting somewhere c inside
    obtain ⟨c', inside', found⟩ := somewhere
    unfold ReaddirCall.clientListing at found ⊢
    rcases same_directory with ⟨listed, fetched⟩ | nothing
    · rw [fetched] at found ⊢
      exact (lasting.listed scans listed inside).mpr ((lasting.listed scans listed inside').mp found)
    · rw [nothing] at found
      cases found

/-- A scan is thorough exactly where creations and unlinks carry each lasting entry across the
offset the next call resumes at as often one way as the other, and, over a client's mount, where
the daemon obtained a path under which that entry is listed. -/
theorem readdir_scan_iff {ino : UInt64} {d : FvfsPath} (dir : d.Canonical) :
    (∀ calls : List (ReaddirCall InodeTable), ScanOf InodeTable.path ino d calls →
      Complete (scan VfsdFuse.readdir ino 0 calls) →
      (Thorough d calls ((scan VfsdFuse.readdir ino 0 calls).flatMap DirReply.items) ↔
        ∀ p, Lasting d calls p →
          Cursor.skips (.entry p) 0 (visits (ReaddirCall.daemonListing d) calls) =
            Cursor.repeats (.entry p) 0 (visits (ReaddirCall.daemonListing d) calls))) ∧
    ∀ calls : List (ReaddirCall Fvfsc.InodeTable), ScanOf Fvfsc.InodeTable.path ino d calls →
      Complete (scan VfscFuse.readdir ino 0 calls) →
      (Thorough d calls ((scan VfscFuse.readdir ino 0 calls).flatMap DirReply.items) ↔
        ∀ p, Lasting d calls p → (∀ c ∈ calls, p ∈ (c.clientListing d).map FileEntry.path) ∧
          Cursor.skips (.entry p) 0 (visits (ReaddirCall.clientListing d) calls) =
            Cursor.repeats (.entry p) 0 (visits (ReaddirCall.clientListing d) calls)) :=
  ⟨fun _ => vfsd_scan_iff dir, fun _ => vfsc_scan_iff⟩

namespace Request

open Router (sampleSha256)

def scanned : CanonPath := ⟨⟨"/d".toList⟩, by decide⟩
def firstEntry : CanonPath := ⟨⟨"/d/a".toList⟩, by decide⟩
def secondEntry : CanonPath := ⟨⟨"/d/b".toList⟩, by decide⟩
def thirdEntry : CanonPath := ⟨⟨"/d/c".toList⟩, by decide⟩

/-- A directory of three files, before and after the first of them is unlinked. -/
def threeEntries : World :=
  serve sampleSha256 [(.write firstEntry [1], fun _ => 0), (.write secondEntry [2], fun _ => 0),
    (.write thirdEntry [3], fun _ => 0)] .empty

def twoEntries : World :=
  serve sampleSha256 [(.delete inOrder firstEntry, fun _ => 0)] threeEntries

/-- Three records, then the unlink, then the rest. -/
def unlinkedBetween {τ : Type} (inodes : τ) : List (ReaddirCall τ) :=
  [⟨[], threeEntries, inodes, none, 3⟩, ⟨[], twoEntries, inodes, none, 3⟩,
    ⟨[], twoEntries, inodes, none, 3⟩]

def daemonInodes : InodeTable := (InodeTable.new.getOrAlloc scanned.val none).2
def clientInodes : Fvfsc.InodeTable := (Fvfsc.InodeTable.new.getOrAlloc scanned.val).2

def scannedOnce : List DirItem := [.self, .parent, .entry firstEntry.val, .entry thirdEntry.val]

section Unlinked

variable {τ : Type} (inodes : τ)

theorem unlinked_worlds {c : ReaddirCall τ} (inside : c ∈ unlinkedBetween inodes) {w : World}
    (state : w ∈ c.world :: c.since) : w = threeEntries ∨ w = twoEntries := by
  simp only [unlinkedBetween, List.mem_cons, List.not_mem_nil, or_false] at inside
  rcases inside with rfl | rfl | rfl <;> simp only [List.mem_singleton] at state
  · exact Or.inl state
  · exact Or.inr state
  · exact Or.inr state

theorem unlinked_canonical {c : ReaddirCall τ} (inside : c ∈ unlinkedBetween inodes) {w : World}
    (state : w ∈ c.world :: c.since) : ∀ p x, w.store.rowState p = some x → p.Canonical := by
  have three := serve_refines sampleSha256 empty_refines [(.write firstEntry [1], fun _ => 0),
    (.write secondEntry [2], fun _ => 0), (.write thirdEntry [3], fun _ => 0)]
  intro p x row
  rcases unlinked_worlds inodes inside state with rfl | rfl
  · exact three.canonical p x row
  · exact (serve_refines sampleSha256 three _).canonical p x row

/-- The second file is there all along. -/
theorem unlinked_lasting : Lasting scanned (unlinkedBetween inodes) secondEntry := by
  refine ⟨by decide, fun c inside w state => ?_⟩
  rcases unlinked_worlds inodes inside state with rfl | rfl
  · decide
  · decide

theorem unlinked_scanOf {path : τ → UInt64 → Option FvfsPath}
    (named : path inodes 2 = some scanned.val) :
    ScanOf path 2 scanned (unlinkedBetween inodes) := by
  refine ⟨?_, ?_, fun c inside w state => unlinked_canonical inodes inside state⟩
  · intro c inside
    simp only [unlinkedBetween, List.mem_cons, List.not_mem_nil, or_false] at inside
    rcases inside with rfl | rfl | rfl <;> exact named
  · intro c inside
    simp only [unlinkedBetween, List.mem_cons, List.not_mem_nil, or_false] at inside
    rcases inside with rfl | rfl | rfl <;> exact Nat.succ_pos 2

end Unlinked

theorem daemon_scanned :
    (scan VfsdFuse.readdir 2 0 (unlinkedBetween daemonInodes)).flatMap DirReply.items =
      scannedOnce := by
  decide

theorem client_scanned :
    (scan VfscFuse.readdir 2 0 (unlinkedBetween clientInodes)).flatMap DirReply.items =
      scannedOnce := by
  decide

theorem daemon_complete : Complete (scan VfsdFuse.readdir 2 0 (unlinkedBetween daemonInodes)) :=
  ⟨by decide, by decide, rfl⟩

theorem client_complete : Complete (scan VfscFuse.readdir 2 0 (unlinkedBetween clientInodes)) :=
  ⟨by decide, by decide, rfl⟩

/-- Neither mount's scan returns the second file. -/
theorem scan_skips :
    (¬∀ (ino : UInt64) (d : FvfsPath) (calls : List (ReaddirCall InodeTable)), d.Canonical →
      ScanOf InodeTable.path ino d calls → Complete (scan VfsdFuse.readdir ino 0 calls) →
      Thorough d calls ((scan VfsdFuse.readdir ino 0 calls).flatMap DirReply.items)) ∧
    ¬∀ (ino : UInt64) (d : FvfsPath) (calls : List (ReaddirCall Fvfsc.InodeTable)), d.Canonical →
      ScanOf Fvfsc.InodeTable.path ino d calls → Complete (scan VfscFuse.readdir ino 0 calls) →
      Thorough d calls ((scan VfscFuse.readdir ino 0 calls).flatMap DirReply.items) := by
  have missing : scannedOnce.count (.entry secondEntry) ≠ 1 := by decide
  constructor
  · intro always
    have thorough := always 2 scanned _ scanned.property (unlinked_scanOf daemonInodes rfl)
      daemon_complete
    rw [daemon_scanned] at thorough
    exact missing (thorough.lasting secondEntry (unlinked_lasting daemonInodes))
  · intro always
    have thorough := always 2 scanned _ scanned.property (unlinked_scanOf clientInodes rfl)
      client_complete
    rw [client_scanned] at thorough
    exact missing (thorough.lasting secondEntry (unlinked_lasting clientInodes))

theorem readdir_scan_unlinked :
    (Thorough scanned (unlinkedBetween daemonInodes) ((scan VfsdFuse.readdir 2 0
        (unlinkedBetween daemonInodes)).flatMap DirReply.items) ↔
      ∀ p, Lasting scanned (unlinkedBetween daemonInodes) p →
        Cursor.skips (.entry p) 0
            (visits (ReaddirCall.daemonListing scanned) (unlinkedBetween daemonInodes)) =
          Cursor.repeats (.entry p) 0
            (visits (ReaddirCall.daemonListing scanned) (unlinkedBetween daemonInodes))) ∧
    (Thorough scanned (unlinkedBetween clientInodes) ((scan VfscFuse.readdir 2 0
        (unlinkedBetween clientInodes)).flatMap DirReply.items) ↔
      ∀ p, Lasting scanned (unlinkedBetween clientInodes) p →
        (∀ c ∈ unlinkedBetween clientInodes,
          p ∈ (c.clientListing scanned).map FileEntry.path) ∧
        Cursor.skips (.entry p) 0
            (visits (ReaddirCall.clientListing scanned) (unlinkedBetween clientInodes)) =
          Cursor.repeats (.entry p) 0
            (visits (ReaddirCall.clientListing scanned) (unlinkedBetween clientInodes))) :=
  have scans := @readdir_scan_iff 2 scanned scanned.property
  ⟨scans.1 _ (unlinked_scanOf daemonInodes rfl) daemon_complete,
    scans.2 _ (unlinked_scanOf clientInodes rfl) client_complete⟩

end Request

end Fvfs
