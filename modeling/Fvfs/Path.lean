import Mathlib.Data.List.Basic
import Mathlib.Data.List.Induction

/-! Virtual paths: `FvfsPath` with its normalizing constructor, and the canonical
form every constructor of the daemon produces. Strings are lists of characters;
every index the source takes stands at an ASCII slash. -/
namespace Fvfs

abbrev Text := List Char

/-- Failures of the core library, with the payload their messages print. -/
inductive FvfsError where
  | notFound (path : Text)
  | alreadyExists (path : Text)
  | invalidPath (message : Text)
  | backend (tier source : Text)
  | metadata (source : Text)
  | serde (source : Text)
  | io (source : Text)
  | s3 (message : Text)
  | wal (message : Text)
  | config (message : Text)
  | permissionDenied (message : Text)
  | notADirectory (path : Text)
  | isADirectory (path : Text)
  | directoryNotEmpty (path : Text)
  | other (message : Text)
  deriving DecidableEq

def FvfsError.toText : FvfsError → Text
  | notFound path => "file not found: ".toList ++ path
  | alreadyExists path => "path already exists: ".toList ++ path
  | invalidPath message => "invalid path: ".toList ++ message
  | backend tier source => "storage backend error (".toList ++ tier ++ "): ".toList ++ source
  | metadata source => "metadata store error: ".toList ++ source
  | serde source => "serialization error: ".toList ++ source
  | io source => "I/O error: ".toList ++ source
  | s3 message => "S3 error: ".toList ++ message
  | wal message => "WAL error: ".toList ++ message
  | config message => "configuration error: ".toList ++ message
  | permissionDenied message => "permission denied: ".toList ++ message
  | notADirectory path => "not a directory: ".toList ++ path
  | isADirectory path => "is a directory: ".toList ++ path
  | directoryNotEmpty path => "directory not empty: ".toList ++ path
  | other message => message

@[ext] structure FvfsPath where
  text : Text
  deriving DecidableEq

namespace FvfsPath

def nul : Char := Char.ofNat 0

def root : FvfsPath := ⟨['/']⟩

/-- One turn of the component loop: skip, pop, refuse, or push. -/
def resolve (components : List Text) (part : Text) : Except FvfsError (List Text) :=
  if part = [] ∨ part = ['.'] then .ok components
  else if part = ['.', '.'] then .ok components.dropLast
  else if nul ∈ part then .error (.invalidPath "path cannot contain null bytes".toList)
  else .ok (components ++ [part])

def render (components : List Text) : Text :=
  if components = [] then ['/'] else '/' :: ['/'].intercalate components

def normalize (s : Text) : Except FvfsError Text :=
  if s = [] then .error (.invalidPath "path cannot be empty".toList)
  else
    let s := if s.head? = some '/' then s else '/' :: s
    (s.splitOn '/').foldlM resolve [] |>.map render

def new (raw : Text) : Except FvfsError FvfsPath := (normalize raw).map FvfsPath.mk

/-- The text before the last slash; `none` for the root. -/
def parent (p : FvfsPath) : Option FvfsPath :=
  if p.text = ['/'] then none
  else match p.text.reverse.dropWhile (· != '/') with
    | [] => none
    | _ :: before => if before = [] then some root else some ⟨before.reverse⟩

def join (p : FvfsPath) (segment : Text) : Except FvfsError FvfsPath :=
  new (if p.text = ['/'] then '/' :: segment else p.text ++ '/' :: segment)

/-- What a component of a normalized path looks like. -/
structure Segment (part : Text) : Prop where
  nonempty : part ≠ []
  not_dot : part ≠ ['.']
  not_dots : part ≠ ['.', '.']
  no_slash : '/' ∉ part
  no_nul : nul ∉ part

def Canonical (p : FvfsPath) : Prop :=
  ∃ components, (∀ part ∈ components, Segment part) ∧ p.text = render components

theorem parent_shorter {p q : FvfsPath} (up : p.parent = some q) :
    q.text.length < p.text.length := by
  unfold parent at up
  split at up
  · contradiction
  next not_root =>
    have shorter := (List.dropWhile_suffix (p := (· != '/')) (l := p.text.reverse)).length_le
    split at up
    · contradiction
    next slash before cut =>
      rw [cut] at shorter
      simp only [List.length_cons, List.length_reverse] at shorter
      split at up
      next top =>
        obtain rfl := Option.some.inj up
        subst top
        rcases text : p.text with _ | ⟨a, _ | ⟨b, rest⟩⟩
        · simp [text] at shorter
        · rw [text] at cut not_root
          have alone : a = '/' := by
            simp only [List.reverse_singleton, List.dropWhile_cons] at cut
            split at cut
            · contradiction
            next here => simpa using here
          exact absurd (congrArg (fun c => [c]) alone) not_root
        · simp [root]
      next =>
        obtain rfl := Option.some.inj up
        simp only [List.length_reverse]
        omega

theorem mem_splitOn_no_sep {xs part : Text} (member : part ∈ xs.splitOn '/') : '/' ∉ part := by
  induction xs generalizing part with
  | nil => simp_all [List.splitOn_nil]
  | cons x xs ih =>
    rw [List.splitOn_cons_eq_if_modifyHead] at member
    split at member
    next =>
      rcases List.mem_cons.mp member with rfl | inside
      · exact List.not_mem_nil
      · exact ih inside
    next plain =>
      rcases split : xs.splitOn '/' with _ | ⟨first, rest⟩
      · exact absurd split (by simp)
      rw [split] at member ih
      rcases List.mem_cons.mp member with rfl | inside
      · have tail : '/' ∉ first := ih (by simp)
        simp only [List.mem_cons, not_or]
        exact ⟨fun slash => plain (by simp [← slash]), tail⟩
      · exact ih (List.mem_cons_of_mem _ inside)

theorem subset_of_mem_splitOn {xs part : Text} (member : part ∈ xs.splitOn '/') : part ⊆ xs := by
  induction xs generalizing part with
  | nil => simp_all [List.splitOn_nil]
  | cons x xs ih =>
    rw [List.splitOn_cons_eq_if_modifyHead] at member
    split at member
    next =>
      rcases List.mem_cons.mp member with rfl | inside
      · simp
      · exact fun c here => List.mem_cons_of_mem x (ih inside here)
    next plain =>
      rcases split : xs.splitOn '/' with _ | ⟨first, rest⟩
      · exact absurd split (by simp)
      rw [split] at member ih
      rcases List.mem_cons.mp member with rfl | inside
      · exact List.cons_subset_cons x (ih (by simp))
      · exact fun c here => List.mem_cons_of_mem x (ih (List.mem_cons_of_mem _ inside) here)

theorem resolve_segment {components : List Text} {part : Text} (valid : Segment part) :
    resolve components part = .ok (components ++ [part]) := by
  simp [resolve, valid.nonempty, valid.not_dot, valid.not_dots, valid.no_nul]

/-- Only proper components are ever pushed. -/
theorem resolve_valid {components result : List Text} {part : Text}
    (valid : ∀ c ∈ components, Segment c) (plain : '/' ∉ part)
    (resolved : resolve components part = .ok result) : ∀ c ∈ result, Segment c := by
  unfold resolve at resolved
  split at resolved
  · obtain rfl := Except.ok.inj resolved
    exact valid
  next skip =>
    split at resolved
    · obtain rfl := Except.ok.inj resolved
      exact fun c member => valid c (List.dropLast_subset _ member)
    next up =>
      split at resolved
      · contradiction
      next clean =>
        obtain rfl := Except.ok.inj resolved
        intro c member
        rcases List.mem_append.mp member with old | new
        · exact valid c old
        · obtain rfl := List.mem_singleton.mp new
          exact ⟨fun h => skip (Or.inl h), fun h => skip (Or.inr h), up, plain, clean⟩

theorem foldlM_resolve_valid {parts components result : List Text}
    (valid : ∀ c ∈ components, Segment c) (plain : ∀ part ∈ parts, '/' ∉ part)
    (resolved : parts.foldlM resolve components = .ok result) : ∀ c ∈ result, Segment c := by
  induction parts generalizing components with
  | nil =>
    obtain rfl := Except.ok.inj resolved
    exact valid
  | cons part parts ih =>
    rw [List.foldlM_cons] at resolved
    cases first : resolve components part with
    | error e =>
      rw [first] at resolved
      contradiction
    | ok middle =>
      rw [first] at resolved
      exact ih (resolve_valid valid (plain part (by simp)) first)
        (fun c member => plain c (by simp [member])) resolved

theorem foldlM_resolve_segments {parts : List Text} (valid : ∀ c ∈ parts, Segment c)
    (components : List Text) : parts.foldlM resolve components = .ok (components ++ parts) := by
  induction parts generalizing components with
  | nil => simp [pure, Except.pure]
  | cons part parts ih =>
    rw [List.foldlM_cons, resolve_segment (valid part (by simp))]
    exact (ih (fun c member => valid c (by simp [member])) _).trans (by simp)

theorem new_canonical {raw : Text} {p : FvfsPath} (built : new raw = .ok p) : p.Canonical := by
  unfold new normalize at built
  split at built
  · contradiction
  · generalize (if raw.head? = some '/' then raw else '/' :: raw) = s at built
    cases resolved : (s.splitOn '/').foldlM resolve [] with
    | error e => simp [resolved, Except.map] at built
    | ok components =>
      simp only [resolved, Except.map, Except.ok.injEq] at built
      subst built
      exact ⟨components, foldlM_resolve_valid (by simp) (fun _ => mem_splitOn_no_sep) resolved, rfl⟩

theorem splitOn_render {components : List Text} (valid : ∀ part ∈ components, Segment part)
    (some_part : components ≠ []) : (render components).splitOn '/' = [] :: components := by
  simp only [render, some_part, if_false]
  rw [← List.nil_append ('/' :: _), List.splitOn_append_cons_self_of_not_mem (by simp),
    List.splitOn_intercalate _ (fun part member => (valid part member).no_slash) some_part]

theorem foldlM_resolve_clean {parts : List Text} (clean : ∀ part ∈ parts, nul ∉ part)
    (components : List Text) : ∃ result, parts.foldlM resolve components = .ok result := by
  induction parts generalizing components with
  | nil => exact ⟨components, rfl⟩
  | cons part parts ih =>
    have rest := ih fun other member => clean other (by simp [member])
    rw [List.foldlM_cons]
    unfold resolve
    split
    · exact rest components
    · split
      · exact rest components.dropLast
      · rw [if_neg (clean part (by simp))]
        exact rest _

/-- Null bytes are all the constructor refuses in an absolute path. -/
theorem new_of_clean {raw : Text} (clean : nul ∉ raw) : ∃ p, new ('/' :: raw) = .ok p := by
  have parts : ∀ part ∈ ('/' :: raw).splitOn '/', nul ∉ part := by
    intro part member inside
    rcases List.mem_cons.mp (subset_of_mem_splitOn member inside) with slash | here
    · exact absurd slash (by decide)
    · exact clean here
  obtain ⟨components, resolved⟩ := foldlM_resolve_clean parts []
  exact ⟨⟨render components⟩, by simp [new, normalize, resolved, Except.map]⟩

/-- The constructor returns a canonical text unchanged. -/
theorem new_of_canonical {p : FvfsPath} (canonical : p.Canonical) : new p.text = .ok p := by
  obtain ⟨components, valid, text⟩ := canonical
  have head : (render components).head? = some '/' := by
    unfold render
    split <;> rfl
  have some_text : render components ≠ [] := by
    intro empty
    simp [empty] at head
  cases p with
  | mk raw =>
    obtain rfl : raw = render components := text
    simp only [new, normalize, some_text, if_false, head, if_true]
    by_cases top : components = []
    · subst top
      rfl
    · rw [splitOn_render valid top, List.foldlM_cons]
      have skip : resolve [] [] = .ok [] := rfl
      rw [skip]
      change ((components.foldlM resolve []).map render).map FvfsPath.mk = _
      rw [foldlM_resolve_segments valid []]
      rfl

theorem canonical_iff_new {p : FvfsPath} : p.Canonical ↔ new p.text = .ok p :=
  ⟨new_of_canonical, new_canonical⟩

instance (p : FvfsPath) : Decidable p.Canonical :=
  decidable_of_iff (new p.text = .ok p) canonical_iff_new.symm

theorem join_canonical {p q : FvfsPath} {segment : Text} (joined : p.join segment = .ok q) :
    q.Canonical := new_canonical joined

theorem root_canonical : root.Canonical := ⟨[], by simp, rfl⟩

theorem render_snoc (front : List Text) (last : Text) :
    render (front ++ [last]) = (if front = [] then [] else render front) ++ '/' :: last := by
  have join : ∀ front : List Text, front ≠ [] →
      ['/'].intercalate (front ++ [last]) = ['/'].intercalate front ++ '/' :: last := by
    intro front some_part
    induction front with
    | nil => contradiction
    | cons a front ih =>
      cases front with
      | nil => simp
      | cons b front =>
        have rest := ih (by simp)
        simp only [List.cons_append, List.intercalate_cons_cons] at rest ⊢
        rw [rest]
        simp
  by_cases top : front = []
  · subst top
    simp [render]
  · simp only [render, top, if_false, List.append_eq_nil_iff, false_and, join front top]
    rfl

theorem parent_render {front : List Text} {last : Text} (valid : Segment last) :
    (⟨render (front ++ [last])⟩ : FvfsPath).parent = some ⟨render front⟩ := by
  have plain : ∀ c ∈ last.reverse, (c != '/') = true := by
    intro c member
    simp only [bne_iff_ne, ne_eq]
    rintro rfl
    exact valid.no_slash (List.mem_reverse.mp member)
  have cut : (render (front ++ [last])).reverse.dropWhile (· != '/') =
      '/' :: (if front = [] then [] else render front).reverse := by
    rw [render_snoc, List.reverse_append, List.reverse_cons, List.append_assoc,
      List.dropWhile_append_of_pos plain]
    rfl
  have not_root : render (front ++ [last]) ≠ ['/'] := by
    rw [render_snoc]
    have := valid.nonempty
    split
    · simpa using this
    · intro same
      have := congrArg List.length same
      have := List.length_pos_iff.mpr valid.nonempty
      simp at *
      omega
  unfold parent
  simp only [not_root, if_false, cut]
  by_cases top : front = []
  · simp [top, render, root]
  · have some_text : render front ≠ [] := by simp [render, top]
    simp [top, some_text]

/-- Going up from a canonical path stays canonical. -/
theorem parent_canonical {p q : FvfsPath} (canonical : p.Canonical) (up : p.parent = some q) :
    q.Canonical := by
  obtain ⟨components, valid, text⟩ := canonical
  cases p with
  | mk raw =>
    obtain rfl : raw = render components := text
    rcases List.eq_nil_or_concat components with rfl | ⟨front, last, rfl⟩
    · simp [parent, render] at up
    · rw [List.concat_eq_append] at up valid
      rw [parent_render (valid last (by simp))] at up
      obtain rfl := Option.some.inj up
      exact ⟨front, fun part member => valid part (by simp [member]), rfl⟩

theorem parent_of_empty {p : FvfsPath} (empty : p.text.length = 0) : p.parent = none := by
  cases up : p.parent with
  | none => rfl
  | some q =>
    have := parent_shorter up
    omega

/-- The first `turns` ancestors, nearest first. -/
def ancestorsWithin : Nat → FvfsPath → List FvfsPath
  | 0, _ => []
  | turns + 1, p =>
    match p.parent with
    | none => []
    | some q => q :: ancestorsWithin turns q

def ancestors (p : FvfsPath) : List FvfsPath := ancestorsWithin p.text.length p

theorem ancestor_shorter {turns : Nat} {p q : FvfsPath} (above : q ∈ ancestorsWithin turns p) :
    q.text.length < p.text.length := by
  induction turns generalizing p with
  | zero => cases above
  | succ turns ih =>
    unfold ancestorsWithin at above
    split at above
    · cases above
    next r up =>
      have shorter := parent_shorter up
      rcases List.mem_cons.mp above with rfl | further
      · exact shorter
      · have := ih further
        omega

theorem ancestor_ne {turns : Nat} {p q : FvfsPath} (above : q ∈ ancestorsWithin turns p) : q ≠ p := by
  rintro rfl
  exact Nat.lt_irrefl _ (ancestor_shorter above)

theorem ancestorsWithin_nodup {turns : Nat} {p : FvfsPath} : (ancestorsWithin turns p).Nodup := by
  induction turns generalizing p with
  | zero => exact List.nodup_nil
  | succ turns ih =>
    unfold ancestorsWithin
    split
    · exact List.nodup_nil
    · exact List.nodup_cons.mpr ⟨fun above => ancestor_ne above rfl, ih⟩

theorem ancestor_canonical {turns : Nat} {p q : FvfsPath} (canonical : p.Canonical)
    (above : q ∈ ancestorsWithin turns p) : q.Canonical := by
  induction turns generalizing p with
  | zero => cases above
  | succ turns ih =>
    unfold ancestorsWithin at above
    split at above
    · cases above
    next r up =>
      have here := parent_canonical canonical up
      rcases List.mem_cons.mp above with rfl | further
      · exact here
      · exact ih here further

end FvfsPath

/-- A path in canonical form: what `new`, `join` and `parent` hand out. -/
def CanonPath := { p : FvfsPath // p.Canonical }

instance : DecidableEq CanonPath := inferInstanceAs (DecidableEq { p : FvfsPath // p.Canonical })

instance : CoeOut CanonPath FvfsPath := ⟨Subtype.val⟩

end Fvfs
