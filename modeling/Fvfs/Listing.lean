import Fvfs.Lib.Like
import Fvfs.Lib.Percent
import Fvfs.Orphans
import Fvfs.PathLaws
import Fvfs.Requests
import Mathlib.Data.List.Lex

/-! Directory listings: which rows the two `LIKE` patterns of `list_dir` leave, and when these
are the children of the directory. -/
namespace Fvfs

open Lib
open Lib.Like (like quote caseless)

/-- `s.replace(c, by)` for a single character. -/
def replace (c : Char) (by_text s : Text) : Text :=
  s.flatMap fun x => if x = c then by_text else [x]

def escapeLike (s : Text) : Text :=
  replace '_' ['\\', '_'] (replace '%' ['\\', '%'] (replace '\\' ['\\', '\\'] s))

/-- The three replacements, one after the other, escape each character once. -/
theorem escapeLike_eq (s : Text) : escapeLike s = quote '\\' s := by
  simp only [escapeLike, replace, quote, List.flatMap_assoc]
  congr 1
  funext c
  by_cases slash : c = '\\'
  · simp [slash]
  · by_cases any : c = '%'
    · simp [any]
    · by_cases one : c = '_' <;> simp [slash, any, one]

/-- Escaped, a text stands for its own characters whatever follows in the pattern, so it is
matched up to case, and so is every text that begins with it where `%` follows. -/
theorem escapeLike_faithful (s t : Text) :
    (like '\\' (escapeLike s ++ ['%']) t = true ↔ ∃ u v, t = u ++ v ∧ caseless u = caseless s) ∧
    (like '\\' (escapeLike s) t = true ↔ caseless t = caseless s) ∧
    ∀ rest, Lib.Like.parse '\\' (escapeLike s ++ rest) =
      (Lib.Like.parse '\\' rest).map (s.map Lib.Like.Token.char ++ ·) := by
  rw [escapeLike_eq]
  refine ⟨Lib.Like.like_beginning '\\' (by decide), Lib.Like.like_quote '\\', fun rest => ?_⟩
  exact Lib.Like.parse_quote '\\' s rest

namespace FvfsPath

/-- What `list_dir` takes for the beginning of every path below the directory. -/
def listPrefix (d : FvfsPath) : Text := if d.text = ['/'] then ['/'] else d.text ++ ['/']

theorem listPrefix_eq (d : FvfsPath) : d.listPrefix = d.stem ++ ['/'] := by
  unfold listPrefix stem
  split <;> rfl

/-- A canonical path is the root or one segment below its parent. -/
theorem canonical_cases {p : FvfsPath} (canonical : p.Canonical) :
    p = root ∨ ∃ q last, q.Canonical ∧ p.parent = some q ∧ p.text = q.listPrefix ++ last ∧
      Segment last := by
  obtain ⟨components, valid, text⟩ := canonical
  obtain ⟨raw⟩ := p
  obtain rfl : raw = render components := text
  rcases List.eq_nil_or_concat components with rfl | ⟨front, last, rfl⟩
  · exact Or.inl rfl
  · rw [List.concat_eq_append] at valid ⊢
    have own := valid last (by simp)
    have above : ∀ part ∈ front, Segment part := fun part member => valid part (by simp [member])
    refine Or.inr ⟨⟨render front⟩, last, ⟨front, above, rfl⟩, parent_render own, ?_, own⟩
    rw [render_snoc]
    by_cases top : front = []
    · simp [top, listPrefix, render]
    · have below : render front ≠ ['/'] := by
        obtain ⟨shorter, end_segment, split⟩ := (List.eq_nil_or_concat front).resolve_left top
        have some_text := (above end_segment (by simp [split])).nonempty
        intro same
        have length := congrArg List.length same
        rw [split, List.concat_eq_append, render_snoc] at length
        have := List.length_pos_iff.mpr some_text
        simp at length
        omega
      simp [listPrefix, top, below]

theorem Canonical.nonempty {p : FvfsPath} (canonical : p.Canonical) : p.text ≠ [] := by
  rcases canonical_cases canonical with rfl | ⟨q, last, -, -, text, -⟩
  · simp [root]
  · simp [text, listPrefix_eq]

end FvfsPath

theorem caseless_eq_slash {s : Text} : caseless s = ['/'] ↔ s = ['/'] := by
  cases s with
  | nil => simp [caseless]
  | cons c s => simp [caseless, Lib.Like.toLower_eq_iff]

theorem caseless_snoc_slash {s t : Text} (same : caseless s = caseless (t ++ ['/'])) :
    ∃ u, s = u ++ ['/'] ∧ caseless u = caseless t := by
  rcases List.eq_nil_or_concat s with rfl | ⟨u, c, rfl⟩
  · simp [caseless] at same
  · rw [List.concat_eq_append, Lib.Like.caseless_append, Lib.Like.caseless_append] at same
    obtain ⟨front, last⟩ := List.append_inj' same rfl
    refine ⟨u, ?_, front⟩
    rw [List.concat_eq_append, caseless_eq_slash.mp last]

theorem stem_eq_nil {d : FvfsPath} (canonical : d.Canonical) : d.stem = [] ↔ d = .root := by
  rw [FvfsPath.ext_iff]
  unfold FvfsPath.stem FvfsPath.root
  split
  next top => simp [top]
  next below => simp [below, canonical.nonempty]

/-- Two directories are the same up to case where their stems are. -/
theorem caseless_stem_iff {q d : FvfsPath} (above : q.Canonical) (dir : d.Canonical) :
    caseless q.stem = caseless d.stem ↔ caseless q.text = caseless d.text := by
  have some_q : caseless q.text ≠ [] := by simpa [caseless] using above.nonempty
  have some_d : caseless d.text ≠ [] := by simpa [caseless] using dir.nonempty
  have slash : caseless ['/'] = ['/'] := rfl
  have nothing : caseless [] = [] := rfl
  unfold FvfsPath.stem
  by_cases q_top : q.text = ['/'] <;> by_cases d_top : d.text = ['/']
  · simp [q_top, d_top]
  · rw [if_pos q_top, if_neg d_top, q_top, nothing, slash]
    refine iff_of_false some_d.symm fun same => d_top (caseless_eq_slash.mp same.symm)
  · rw [if_neg q_top, if_pos d_top, d_top, nothing, slash]
    exact iff_of_false some_q fun same => q_top (caseless_eq_slash.mp same)
  · rw [if_neg q_top, if_neg d_top]

/-- The last slash of a text is where it is. -/
theorem last_slash_unique {u u' v v' : Text} (plain : '/' ∉ v) (plain' : '/' ∉ v')
    (same : u ++ ['/'] ++ v = u' ++ ['/'] ++ v') : u = u' ∧ v = v' := by
  simp only [List.append_assoc, List.singleton_append] at same
  rcases List.append_eq_append_iff.mp same with ⟨x, rfl, split⟩ | ⟨x, rfl, split⟩
  · cases x with
    | nil => simpa using split
    | cons c x =>
      have inside : '/' ∈ v := by simp [(List.cons.inj split).2]
      contradiction
  · cases x with
    | nil => simpa [eq_comm] using split
    | cons c x =>
      have inside : '/' ∈ v' := by simp [(List.cons.inj split).2]
      contradiction

structure FileEntry where
  path : FvfsPath
  kind : EntryKind
  sizeBytes : Nat
  modifiedAt : Int
  tierBitmask : TierBitmask
  deriving DecidableEq

/-- `impl From<&FileMetadata> for FileEntry`. -/
def FileEntry.ofMetadata (m : FileMetadata) : FileEntry :=
  ⟨m.path, m.kind, m.sizeBytes, m.modifiedAt, m.tierBitmask⟩

namespace Store

/-- The bytes a text column is compared by. -/
def sortKey (s : Text) : List Nat := (Lib.Percent.utf8 s).map UInt8.toNat

/-- `WHERE path LIKE ?1 ESCAPE '\' AND path NOT LIKE ?2 ESCAPE '\'`. -/
def likeListed (d : FvfsPath) (path : Text) : Bool :=
  let like_prefix := escapeLike d.listPrefix ++ ['%']
  let like_deeper := escapeLike d.listPrefix ++ ['%', '/', '%']
  like '\\' like_prefix path && !like '\\' like_deeper path

/-- The two patterns ask for the beginning, up to case, and no slash behind it. -/
theorem likeListed_iff {d : FvfsPath} {path : Text} :
    likeListed d path = true ↔
      ∃ u v, path = u ++ v ∧ caseless u = caseless d.listPrefix ∧ '/' ∉ v := by
  have slash (x : Char) : x.toLower = '/'.toLower ↔ x = '/' := Lib.Like.toLower_eq_iff (by decide)
  simp only [likeListed, escapeLike_eq, Bool.and_eq_true, Bool.not_eq_true',
    Lib.Like.like_beginning '\\' (by decide)]
  constructor
  · rintro ⟨⟨u, v, split, fold⟩, shallow⟩
    refine ⟨u, v, split, fold, fun inside => ?_⟩
    have deeper := (Lib.Like.like_beginning_then '\\' '/' (by decide) (by decide) rfl).mpr
      ⟨u, v, '/', split, fold, inside, rfl⟩
    rw [shallow] at deeper
    exact Bool.false_ne_true deeper
  · rintro ⟨u, v, split, fold, plain⟩
    refine ⟨⟨u, v, split, fold⟩, ?_⟩
    rw [← Bool.not_eq_true, Lib.Like.like_beginning_then _ _ (by decide) (by decide) rfl]
    rintro ⟨u', v', x, split', fold', inside, same⟩
    obtain rfl := (slash x).mp same
    have length : u.length = u'.length := by
      have := congrArg List.length (fold.trans fold'.symm)
      simpa [caseless] using this
    obtain ⟨-, rfl⟩ := List.append_inj (split.symm.trans split') length
    exact plain inside

/-- Listed are the paths whose parent is the directory up to case, and in the root the root. -/
theorem likeListed_canonical {d p : FvfsPath} (dir : d.Canonical) (canonical : p.Canonical) :
    likeListed d p.text = true ↔
      (d = .root ∧ p = .root) ∨ ∃ q, p.parent = some q ∧ caseless q.text = caseless d.text := by
  rw [likeListed_iff, FvfsPath.listPrefix_eq]
  rcases FvfsPath.canonical_cases canonical with rfl | ⟨q, last, above, up, text, valid⟩
  · have orphan : FvfsPath.root.parent = none := rfl
    simp only [orphan, reduceCtorEq, false_and, exists_false, or_false, and_true]
    constructor
    · rintro ⟨u, v, split, fold, -⟩
      obtain ⟨u, rfl, stem⟩ := caseless_snoc_slash fold
      have length := congrArg List.length split
      simp only [FvfsPath.root, List.length_append, List.length_singleton] at length
      obtain rfl : u = [] := List.length_eq_zero_iff.mp (by omega)
      rw [← stem_eq_nil dir]
      simpa [caseless] using stem.symm
    · rintro rfl
      exact ⟨['/'], [], rfl, rfl, by simp⟩
  · have proper : p ≠ .root := by
      rintro rfl
      cases up
    simp only [proper, and_false, up, Option.some.injEq, exists_eq_left', false_or,
      ← caseless_stem_iff above dir]
    rw [text, FvfsPath.listPrefix_eq]
    constructor
    · rintro ⟨u, v, split, fold, plain⟩
      obtain ⟨u, rfl, stem⟩ := caseless_snoc_slash fold
      obtain ⟨same, -⟩ := last_slash_unique valid.no_slash plain split
      rw [same, stem]
    · intro stem
      refine ⟨q.stem ++ ['/'], last, rfl, ?_, valid.no_slash⟩
      rw [Lib.Like.caseless_append, Lib.Like.caseless_append, stem]

/-- The listed rows, `ORDER BY path`. -/
def listedRows (s : Store) (d : FvfsPath) : List (Nat × FileRow) :=
  (s.files.rows.filter fun x => likeListed d x.2.path).insertionSort
    fun x y => sortKey x.2.path ≤ sortKey y.2.path

def listDir (s : Store) (d : FvfsPath) : List FileMetadata :=
  (s.listedRows d).map fun x => rowToMetadata x.1 x.2

theorem mem_listedRows {s : Store} {d : FvfsPath} {x : Nat × FileRow} :
    x ∈ s.listedRows d ↔ x ∈ s.files.rows ∧ likeListed d x.2.path = true := by
  rw [listedRows, List.mem_insertionSort, List.mem_filter]

theorem sortKey_injective {s t : Text} (same : sortKey s = sortKey t) : s = t :=
  Lib.Percent.utf8_injective (List.map_injective_iff.mpr (fun _ _ => UInt8.toNat_inj.mp) same)

instance : Std.Total fun x y : Nat × FileRow => sortKey x.2.path ≤ sortKey y.2.path :=
  ⟨fun x y => le_total (sortKey x.2.path) (sortKey y.2.path)⟩

instance : IsTrans (Nat × FileRow) fun x y => sortKey x.2.path ≤ sortKey y.2.path :=
  ⟨fun _ _ _ first second => le_trans first second⟩

/-- No two rows have one path, so a listing ascends strictly. -/
theorem listedRows_ascending (s : Store) (d : FvfsPath) :
    (s.listedRows d).Pairwise fun x y => sortKey x.2.path < sortKey y.2.path := by
  have distinct : s.files.rows.Pairwise fun x y => x.2.path ≠ y.2.path :=
    (List.pairwise_map.mp (rowPaths_nodup s)).imp fun apart same => apart (FvfsPath.ext same)
  have apart : (s.listedRows d).Pairwise fun x y => x.2.path ≠ y.2.path :=
    (List.perm_insertionSort _ _).symm.pairwise (distinct.filter _) fun h => h.symm
  have sorted : (s.listedRows d).Pairwise fun x y => sortKey x.2.path ≤ sortKey y.2.path :=
    List.pairwise_insertionSort _ _
  exact (sorted.and apart).imp fun {x y} order =>
    lt_of_le_of_ne order.1 fun same => order.2 (sortKey_injective same)

/-- The listing has exactly the rows whose parent is the directory, by path and each once. -/
structure ListsChildren (s : Store) (d : FvfsPath) : Prop where
  ordered : (s.listDir d).Pairwise fun m n => sortKey m.path.text < sortKey n.path.text
  children : ∀ m, m ∈ s.listDir d ↔
    ∃ i r, s.files.get? i = some r ∧ (⟨r.path⟩ : FvfsPath).parent = some d ∧ m = rowToMetadata i r

theorem mem_listDir {s : Store} {d : FvfsPath} {m : FileMetadata} :
    m ∈ s.listDir d ↔ ∃ i r, s.files.get? i = some r ∧ likeListed d r.path = true ∧
      m = rowToMetadata i r := by
  simp only [listDir, List.mem_map, mem_listedRows, Prod.exists, Table.mem_rows_iff, and_assoc,
    eq_comm]

theorem row_canonical {s : Store} (canonical : ∀ p x, s.rowState p = some x → p.Canonical)
    {i : Nat} {r : FileRow} (row : s.files.get? i = some r) : (⟨r.path⟩ : FvfsPath).Canonical :=
  canonical _ _ (rowState_of_row (x := (i, r)) (Table.mem_rows_iff.mpr row))

/-- Whatever is listed, it is listed by path and once. -/
theorem listDir_ordered {s : Store} (canonical : ∀ p x, s.rowState p = some x → p.Canonical)
    (d : FvfsPath) :
    (s.listDir d).Pairwise fun m n => sortKey m.path.text < sortKey n.path.text := by
  have path {x : Nat × FileRow} (member : x ∈ s.listedRows d) :
      (rowToMetadata x.1 x.2).path.text = x.2.path := by
    have row := Table.mem_rows_iff.mp (mem_listedRows.mp member).1
    rw [rowToMetadata_path (row_canonical canonical row) rfl]
  refine List.pairwise_map.mpr ((listedRows_ascending s d).imp_of_mem ?_)
  intro x y mem_x mem_y below
  rwa [path mem_x, path mem_y]

/-- A listing is the children of its directory exactly where it is not the root's with a row
for the root itself, and no row's parent is another directory of the same letters. -/
theorem listDir_iff {s : Store} (canonical : ∀ p x, s.rowState p = some x → p.Canonical)
    {d : FvfsPath} (dir : d.Canonical) :
    ListsChildren s d ↔ (d = .root → s.rowState .root = none) ∧
      ∀ p x q, s.rowState p = some x → p.parent = some q → caseless q.text = caseless d.text →
        q = d := by
  constructor
  · intro lists
    have child {i : Nat} {r : FileRow} (row : s.files.get? i = some r)
        (here : likeListed d r.path = true) : (⟨r.path⟩ : FvfsPath).parent = some d := by
      obtain ⟨j, t, other, up, same⟩ :=
        (lists.children _).mp (mem_listDir.mpr ⟨i, r, row, here, rfl⟩)
      obtain rfl : i = j := congrArg FileMetadata.id same
      obtain rfl := Option.some.inj (row.symm.trans other)
      exact up
    constructor
    · rintro rfl
      by_contra present
      obtain ⟨x, row⟩ := Option.ne_none_iff_exists'.mp present
      obtain ⟨i, r, at_id, path, -⟩ := rowState_eq_some_iff.mp row
      have up := child at_id (path ▸ (likeListed_canonical dir FvfsPath.root_canonical).mpr
        (Or.inl ⟨rfl, rfl⟩))
      rw [path] at up
      cases up
    · intro p x q row up fold
      obtain ⟨i, r, at_id, path, -⟩ := rowState_eq_some_iff.mp row
      have own := child at_id (path ▸ (likeListed_canonical dir (canonical p x row)).mpr
        (Or.inr ⟨q, up, fold⟩))
      rw [path, up] at own
      exact Option.some.inj own
  · rintro ⟨no_root, no_twin⟩
    refine ⟨listDir_ordered canonical d, fun m => ?_⟩
    rw [mem_listDir]
    refine exists_congr fun i => exists_congr fun r => and_congr_right fun row => ?_
    refine and_congr_left fun _ => ?_
    have row' := rowState_of_row (x := (i, r)) (Table.mem_rows_iff.mpr row)
    refine (likeListed_canonical dir (row_canonical canonical row)).trans
      ⟨?_, fun up => Or.inr ⟨d, up, rfl⟩⟩
    rintro (⟨top, own⟩ | ⟨q, up, fold⟩)
    · have present : s.rowState .root = some (stateOf (i, r)) := own ▸ row'
      rw [no_root top] at present
      cases present
    · rw [up, no_twin _ _ q row' up fold]

end Store

/-- `TierRouter::list`. -/
def World.list (w : World) (d : FvfsPath) : List FileEntry :=
  (w.store.listDir d).map FileEntry.ofMetadata

theorem World.list_paths (w : World) (d : FvfsPath) :
    (w.list d).map FileEntry.path = (w.store.listDir d).map FileMetadata.path := by
  rw [World.list, List.map_map]
  rfl

theorem World.list_paths_nodup {w : World}
    (canonical : ∀ p x, w.store.rowState p = some x → p.Canonical) (d : FvfsPath) :
    ((w.list d).map FileEntry.path).Nodup := by
  rw [World.list_paths, List.nodup_iff_pairwise_ne, List.pairwise_map]
  refine (Store.listDir_ordered canonical d).imp fun {m n} below same => ?_
  rw [same] at below
  exact lt_irrefl _ below

/-- What the listings over HTTP and FUSE are made of. -/
theorem World.list_children {w : World} {d : FvfsPath} (lists : w.store.ListsChildren d) :
    (w.list d).Pairwise (fun e f => Store.sortKey e.path.text < Store.sortKey f.path.text) ∧
      ∀ e, e ∈ w.list d ↔ ∃ i r, w.store.files.get? i = some r ∧
        (⟨r.path⟩ : FvfsPath).parent = some d ∧
        e = FileEntry.ofMetadata (Store.rowToMetadata i r) := by
  refine ⟨List.pairwise_map.mpr lists.ordered, fun e => ?_⟩
  simp only [World.list, List.mem_map, lists.children]
  constructor
  · rintro ⟨m, ⟨i, r, row, up, rfl⟩, rfl⟩
    exact ⟨i, r, row, up, rfl⟩
  · rintro ⟨i, r, row, up, rfl⟩
    exact ⟨_, ⟨i, r, row, up, rfl⟩, rfl⟩

namespace Request

open Router (sampleSha256)

/-- Two directories whose names differ in case, with a file in each. -/
def twinDirs : World :=
  serve sampleSha256 [(.write ⟨⟨"/A/x".toList⟩, by decide⟩ [1], fun _ => 0),
    (.write ⟨⟨"/a/y".toList⟩, by decide⟩ [2], fun _ => 0)] .empty

theorem twinDirs_canonical (p : FvfsPath) (x : Store.RowState)
    (row : twinDirs.store.rowState p = some x) : p.Canonical :=
  (serve_refines sampleSha256 empty_refines _).canonical p x row

theorem twinDirs_other_iff :
    twinDirs.store.ListsChildren ⟨"/b".toList⟩ ↔
      ((⟨"/b".toList⟩ : FvfsPath) = .root → twinDirs.store.rowState .root = none) ∧
        ∀ p x q, twinDirs.store.rowState p = some x → p.parent = some q →
          caseless q.text = caseless "/b".toList → q = ⟨"/b".toList⟩ :=
  Store.listDir_iff twinDirs_canonical (d := ⟨"/b".toList⟩) (by decide)

/-- The listing of `/a` shows a file of `/A`. -/
theorem listing_mixes_cases :
    ¬∀ (s : Store) (d : FvfsPath), (∀ p x, s.rowState p = some x → p.Canonical) → d.Canonical →
      s.ListsChildren d := by
  intro claimed
  have lists := claimed twinDirs.store ⟨"/a".toList⟩ twinDirs_canonical (by decide)
  have foreign : (twinDirs.store.listDir ⟨"/a".toList⟩).map (·.path.text) =
      ["/A/x".toList, "/a/y".toList] := by decide
  obtain ⟨m, here, path⟩ : ∃ m ∈ twinDirs.store.listDir ⟨"/a".toList⟩, m.path.text = "/A/x".toList := by
    have inside : "/A/x".toList ∈ (twinDirs.store.listDir ⟨"/a".toList⟩).map (·.path.text) := by
      rw [foreign]
      exact List.mem_cons_self
    exact List.mem_map.mp inside
  obtain ⟨i, r, row, up, rfl⟩ := (lists.children m).mp here
  have canonical := twinDirs_canonical _ _
    (rowState_of_row (x := (i, r)) (Table.mem_rows_iff.mpr row))
  rw [Store.rowToMetadata_path canonical rfl] at path
  have raw : r.path = "/A/x".toList := path
  rw [raw] at up
  exact absurd up (by decide)

end Request

end Fvfs
