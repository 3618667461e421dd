import Fvfs.Lib.Journal
import Fvfs.Lib.Percent
import Fvfs.Namespace
import Fvfs.PathLaws

/-! `FvfsPath` as a tree: taking a path apart and putting it together, the prefix test of the
source on bytes, and the way up to the root, all read on lists of segments. -/
namespace Fvfs

open Lib
open Lib.Percent (utf8)

namespace FvfsPath

/-- The text after the last slash. -/
def fileName (p : FvfsPath) : Text :=
  if p.text = ['/'] then ['/'] else (p.text.reverse.takeWhile (· != '/')).reverse

/-- `starts_with` on the bytes, then the length or the byte that follows. -/
def isPrefixOf (p other : FvfsPath) : Bool :=
  if p.text = ['/'] then true
  else (utf8 p.text).isPrefixOf (utf8 other.text) &&
    ((utf8 other.text).length == (utf8 p.text).length ||
      (utf8 other.text)[(utf8 p.text).length]? == some 47)

def segments (p : FvfsPath) : List Text := (p.text.splitOn '/').filter (· ≠ [])

/-- One step towards the root. -/
def Up (p q : FvfsPath) : Prop := p.parent = some q

/-- The path found after so many steps. -/
def climb : Nat → FvfsPath → Option FvfsPath
  | 0, p => some p
  | steps + 1, p => p.parent.bind (climb steps)

theorem stem_cons (part : Text) (components : List Text) :
    (part :: components).flatMap ('/' :: ·) = '/' :: ['/'].intercalate (part :: components) := by
  induction components generalizing part with
  | nil => simp
  | cons next components ih =>
    rw [List.flatMap_cons, ih next, List.intercalate_cons_cons]
    simp

theorem render_eq_stem {components : List Text} (some_part : components ≠ []) :
    render components = components.flatMap ('/' :: ·) := by
  obtain ⟨part, components, rfl⟩ := List.exists_cons_of_ne_nil some_part
  exact (stem_cons part components).symm

theorem segments_render {components : List Text} (valid : ∀ part ∈ components, Segment part) :
    (⟨render components⟩ : FvfsPath).segments = components := by
  by_cases top : components = []
  · subst top
    rfl
  · rw [segments, splitOn_render valid top]
    have kept : components.filter (· ≠ []) = components :=
      List.filter_eq_self.mpr fun part member => by simpa using (valid part member).nonempty
    simpa using kept

/-- A canonical path is the rendering of its segments. -/
theorem Canonical.eq_render {p : FvfsPath} (canonical : p.Canonical) :
    (∀ part ∈ p.segments, Segment part) ∧ p = ⟨render p.segments⟩ := by
  obtain ⟨components, valid, text⟩ := canonical
  obtain rfl : p = ⟨render components⟩ := FvfsPath.ext text
  rw [segments_render valid]
  exact ⟨valid, rfl⟩

/-- The stem of a path is a slash before each of its segments. -/
theorem Canonical.stem_eq {p : FvfsPath} (canonical : p.Canonical) :
    p.stem = p.segments.flatMap ('/' :: ·) := by
  obtain ⟨valid, shape⟩ := canonical.eq_render
  have text : p.text = render p.segments := congrArg FvfsPath.text shape
  rw [stem, text]
  by_cases top : p.segments = []
  · rw [top]
    rfl
  · rw [if_neg (render_ne_root valid top), render_eq_stem top]

theorem splitOn_stem {components : List Text} (valid : ∀ part ∈ components, Segment part) :
    (components.flatMap ('/' :: ·)).splitOn '/' = [] :: components := by
  cases components with
  | nil => simp
  | cons part components =>
    rw [stem_cons]
    simpa [render] using splitOn_render valid (by simp)

/-- One stem continues another at a slash exactly where its segments do. -/
theorem stem_append_slash {above below : List Text} {rest : Text}
    (valid : ∀ part ∈ above, Segment part) (also : ∀ part ∈ below, Segment part)
    (continues : below.flatMap ('/' :: ·) = above.flatMap ('/' :: ·) ++ '/' :: rest) :
    below = above ++ rest.splitOn '/' := by
  have parts := congrArg (fun s : Text => s.splitOn '/') continues
  simp only [List.splitOn_append_cons_self, splitOn_stem valid, splitOn_stem also] at parts
  simpa using parts

theorem stem_injective {above below : List Text} (valid : ∀ part ∈ above, Segment part)
    (also : ∀ part ∈ below, Segment part)
    (same : below.flatMap ('/' :: ·) = above.flatMap ('/' :: ·)) : below = above := by
  have parts := congrArg (fun s : Text => s.splitOn '/') same
  simp only [splitOn_stem valid, splitOn_stem also] at parts
  simpa using parts

/-- Below the root the byte comparison is one of texts: equal, or continued by a slash. -/
theorem isPrefixOf_iff_text {p q : FvfsPath} (below : p.text ≠ ['/']) :
    p.isPrefixOf q = true ↔ q.text = p.text ∨ ∃ rest, q.text = p.text ++ '/' :: rest := by
  have slash : utf8 ['/'] = [47] := by decide
  simp only [isPrefixOf, if_neg below, Bool.and_eq_true, Bool.or_eq_true, beq_iff_eq,
    List.isPrefixOf_iff_prefix]
  constructor
  · rintro ⟨⟨bytes, begins⟩, ending⟩
    obtain ⟨rest, text, encoded⟩ := Lib.Percent.prefix_of_utf8 begins
    rw [← begins] at ending
    rcases ending with same | next
    · have none_left : bytes = [] := by simpa using same
      subst none_left
      have empty : rest = [] := Lib.Percent.utf8_injective encoded
      exact Or.inl (by simpa [empty] using text)
    · rw [List.getElem?_append_right (Nat.le_refl _), Nat.sub_self] at next
      obtain ⟨more, rfl⟩ : ∃ more, bytes = 47 :: more := by
        cases bytes with
        | nil => simp at next
        | cons b more => exact ⟨more, by simpa using next⟩
      obtain ⟨after, rfl, -⟩ := @Lib.Percent.prefix_of_utf8 ['/'] rest more
        (by rw [slash, encoded]; rfl)
      exact Or.inr ⟨after, text⟩
  · rintro (same | ⟨rest, text⟩)
    · rw [same]
      exact ⟨List.prefix_rfl, Or.inl rfl⟩
    · have bytes : utf8 q.text = utf8 p.text ++ 47 :: utf8 rest := by
        rw [text, Lib.Percent.utf8_append]
        change _ ++ utf8 (['/'] ++ rest) = _
        rw [Lib.Percent.utf8_append, slash]
        rfl
      rw [bytes]
      exact ⟨⟨_, rfl⟩, Or.inr (by simp)⟩

/-- One path is a prefix of another where its segments begin the other's. -/
theorem isPrefixOf_render {above below : List Text} (valid : ∀ part ∈ above, Segment part)
    (also : ∀ part ∈ below, Segment part) :
    (⟨render above⟩ : FvfsPath).isPrefixOf ⟨render below⟩ = true ↔ above <+: below := by
  by_cases top : above = []
  · subst top
    simp [isPrefixOf, render]
  have not_root := render_ne_root valid top
  have text : render above = above.flatMap ('/' :: ·) := render_eq_stem top
  refine (isPrefixOf_iff_text (p := ⟨render above⟩) not_root).trans ?_
  by_cases empty : below = []
  · subst empty
    simp only [List.prefix_nil, top, iff_false, not_or, not_exists]
    refine ⟨fun same => not_root same.symm, fun rest same => ?_⟩
    obtain ⟨part, others, rfl⟩ := List.exists_cons_of_ne_nil top
    simp [render] at same
  · simp only [text, render_eq_stem empty]
    constructor
    · rintro (same | ⟨rest, continued⟩)
      · rw [stem_injective valid also same]
      · rw [stem_append_slash valid also continued]
        exact List.prefix_append _ _
    · rintro ⟨_ | ⟨part, rest⟩, rfl⟩
      · simp
      · simp

theorem fileName_render {front : List Text} {last : Text} (valid : Segment last) :
    (⟨render (front ++ [last])⟩ : FvfsPath).fileName = last := by
  have plain : ∀ c ∈ last.reverse, (c != '/') = true := by
    intro c member
    simp only [bne_iff_ne, ne_eq]
    rintro rfl
    exact valid.no_slash (List.mem_reverse.mp member)
  have not_root : render (front ++ [last]) ≠ ['/'] := by
    intro top
    have up : (⟨render (front ++ [last])⟩ : FvfsPath).parent = some ⟨render front⟩ :=
      parent_render valid
    rw [top, show (⟨['/']⟩ : FvfsPath).parent = none from rfl] at up
    contradiction
  rw [fileName, if_neg not_root, render_snoc, List.reverse_append, List.reverse_cons,
    List.append_assoc, List.takeWhile_append_of_pos plain]
  simp

theorem join_render {front : List Text} {last : Text} (above : ∀ part ∈ front, Segment part)
    (valid : Segment last) :
    (⟨render front⟩ : FvfsPath).join last = .ok ⟨render (front ++ [last])⟩ := by
  have pushed : resolveAll front last = .ok (front ++ [last]) := by
    rw [resolveAll, List.splitOn_eq_singleton valid.no_slash]
    exact foldlM_resolve_segments (by simpa using valid) front
  rw [join_eq, resolveAll_stem above]
  change (resolveAll front last).map _ = _
  rw [pushed]
  rfl

theorem reached_render {above : List Text} (below : List Text)
    (valid : ∀ part ∈ above ++ below, Segment part) :
    Relation.ReflTransGen Up ⟨render (above ++ below)⟩ ⟨render above⟩ := by
  induction below using List.reverseRecOn with
  | nil => rw [List.append_nil]
  | append_singleton front last ih =>
    rw [← List.append_assoc] at valid ⊢
    have up : (⟨render (above ++ front ++ [last])⟩ : FvfsPath).parent = some ⟨render (above ++ front)⟩ :=
      parent_render (valid last (by simp))
    exact .head up (ih fun part member => valid part (List.mem_append_left _ member))

/-- Each step up takes the last segment away. -/
theorem prefix_of_reached {p q : FvfsPath} (canonical : q.Canonical)
    (reached : Relation.ReflTransGen Up q p) : p.Canonical ∧ p.segments <+: q.segments := by
  induction reached with
  | refl => exact ⟨canonical, List.prefix_rfl⟩
  | @tail middle top _ up ih =>
    obtain ⟨middle_canonical, begins⟩ := ih
    refine ⟨parent_canonical middle_canonical up, List.IsPrefix.trans ?_ begins⟩
    obtain ⟨valid, shape⟩ := middle_canonical.eq_render
    rcases List.eq_nil_or_concat' middle.segments with none_left | ⟨front, last, split⟩
    · rw [shape, none_left] at up
      cases up
    · rw [split] at valid shape ⊢
      rw [shape, Up, parent_render (valid last (by simp))] at up
      obtain rfl := Option.some.inj up
      rw [segments_render fun part member => valid part (List.mem_append_left _ member)]
      exact List.prefix_append _ _

theorem reached_iff {p q : FvfsPath} (canonical : p.Canonical) (also : q.Canonical) :
    Relation.ReflTransGen Up q p ↔ p.segments <+: q.segments := by
  refine ⟨fun reached => (prefix_of_reached also reached).2, ?_⟩
  rintro ⟨below, split⟩
  obtain ⟨valid, shape⟩ := also.eq_render
  rw [← split] at valid shape
  rw [shape, canonical.eq_render.2, segments_render fun part member =>
    valid part (List.mem_append_left _ member)]
  exact reached_render below valid

theorem isPrefixOf_iff {p q : FvfsPath} (canonical : p.Canonical) (also : q.Canonical) :
    p.isPrefixOf q = true ↔ p.segments <+: q.segments := by
  obtain ⟨valid, shape⟩ := canonical.eq_render
  obtain ⟨valid', shape'⟩ := also.eq_render
  have same := isPrefixOf_render valid valid'
  rwa [← shape, ← shape'] at same

theorem climb_render {above : List Text} (below : List Text)
    (valid : ∀ part ∈ above ++ below, Segment part) :
    climb below.length ⟨render (above ++ below)⟩ = some ⟨render above⟩ := by
  induction below using List.reverseRecOn with
  | nil => rw [List.append_nil, List.length_nil, climb]
  | append_singleton front last ih =>
    rw [← List.append_assoc] at valid ⊢
    rw [List.length_append, List.length_singleton, climb, parent_render (valid last (by simp))]
    exact ih fun part member => valid part (List.mem_append_left _ member)

/-- The way up passes through the shorter and shorter beginnings of the segments. -/
theorem climb_eq {p : FvfsPath} (canonical : p.Canonical) {steps : Nat}
    (within : steps ≤ p.segments.length) :
    climb steps p = some ⟨render (p.segments.take (p.segments.length - steps))⟩ := by
  obtain ⟨valid, shape⟩ := canonical.eq_render
  have whole := List.take_append_drop (p.segments.length - steps) p.segments
  have climbed := climb_render (p.segments.drop (p.segments.length - steps)) (by rwa [whole])
  rw [whole, ← shape, List.length_drop] at climbed
  rwa [show p.segments.length - (p.segments.length - steps) = steps by omega] at climbed

theorem chain_length {components : List Text} (valid : ∀ part ∈ components, Segment part)
    {above : List FvfsPath} (chain : Hierarchy.Chain parent ⟨render components⟩ above) :
    above.length = components.length := by
  induction components using List.reverseRecOn generalizing above with
  | nil =>
    cases above with
    | nil => rfl
    | cons q above => cases chain.1
  | append_singleton front last ih =>
    have up : (⟨render (front ++ [last])⟩ : FvfsPath).parent = some ⟨render front⟩ :=
      parent_render (valid last (by simp))
    cases above with
    | nil =>
      have top : (⟨render (front ++ [last])⟩ : FvfsPath).parent = none := chain
      rw [up] at top
      cases top
    | cons q above =>
      obtain ⟨first, rest⟩ := chain
      rw [up] at first
      obtain rfl := Option.some.inj first
      have length := ih (fun part member => valid part (List.mem_append_left _ member)) rest
      simp [length]

end FvfsPath

namespace Router

/-- The paths whose rows were looked up, in order. -/
def lookups (log : Journal Sys World) : List FvfsPath :=
  log.filterMap fun a => match a.op with
    | .metaGet p => some p
    | _ => none

theorem lookups_append (log later : Journal Sys World) :
    lookups (log ++ later) = lookups log ++ lookups later := List.filterMap_append

theorem noted_ensureDir (q : FvfsPath) (w : World) :
    (ensureDir q).noted perform (fun _ => True) (fun _ log _ => lookups log = [q]) w := by
  intro c _
  cases (perform (.metaGet q) c w).1 with
  | error e => rfl
  | ok existing =>
    cases existing with
    | some m => rfl
    | none =>
      intro c' _ c'' _
      generalize (perform (.upsert (.newDir (perform .now c' _).1 q)) c'' _).1 = answer
      cases answer <;> rfl

theorem noted_ensureDirs {dirs : List FvfsPath} {w : World} :
    (ensureDirs dirs).noted perform (fun _ => True) (fun r log _ =>
      lookups log <+: dirs ∧ (r = .ok () → lookups log = dirs)) w := by
  induction dirs generalizing w with
  | nil => exact ⟨List.prefix_rfl, fun _ => rfl⟩
  | cons q rest ih =>
    refine Prog.noted_seq (noted_ensureDir q w) (fun _ log v visited => ?_) fun e log v visited => ?_
    · refine Prog.noted_mono (ih (w := v)) fun r later _ further => ?_
      simpa [lookups_append, visited] using further
    · exact ⟨⟨rest, by simp [visited]⟩, nofun⟩

theorem noted_ensureParents {turns : Nat} {p : FvfsPath} {w : World} :
    (ensureParents turns p).noted perform (fun _ => True) (fun r log _ =>
      lookups log <+: p.ancestorsWithin turns ∧
      (r = .ok () → lookups log = p.ancestorsWithin turns)) w := by
  rw [ensureParents_eq_dirs]
  exact noted_ensureDirs

/-- Without a fault the loop runs to its end. -/
theorem exec_ensureParentDirs_ok (p : FvfsPath) {env : Nat → Choice}
    (faultless : ∀ i, (env i).Faultless) (w : World) :
    ((ensureParentDirs p).exec perform env w).1 = .ok () := by
  have kept : (ensureParents p.text.length p).always perform Choice.Faultless (fun _ => True) _ w :=
    ensureParents_keeps Choice.Faultless (fun _ => True) (fun _ _ _ _ _ _ => trivial) trivial
  exact (Prog.exec_of_wp (Prog.wp_of_always kept) env faultless).2 fun _ permitted => permitted

end Router

namespace FvfsPath

/-- What the operations on a path come to, as operations on its list of segments. -/
structure LikeSegments (p : FvfsPath) : Prop where
  taken_apart : p ≠ root → ∃ q, p.parent = some q ∧ q.join p.fileName = .ok p
  put_together : ∀ s, Segment s → ∃ q, p.join s = .ok q ∧ q.parent = some p ∧ q.fileName = s
  prefix_iff : ∀ q : FvfsPath, q.Canonical →
    (p.isPrefixOf q = true ↔ Relation.ReflTransGen Up q p)
  refl : p.isPrefixOf p = true
  antisymm : ∀ q : FvfsPath, q.Canonical → p.isPrefixOf q = true → q.isPrefixOf p = true → p = q
  trans : ∀ q r : FvfsPath, q.Canonical → r.Canonical → p.isPrefixOf q = true →
    q.isPrefixOf r = true → p.isPrefixOf r = true
  /-- A longer last segment does not lie below. -/
  sibling : p ≠ root → ∀ c rest, c ≠ '/' → p.isPrefixOf ⟨p.text ++ c :: rest⟩ = false
  reaches_root : p.climb p.segments.length = some root
  not_before : ∀ steps < p.segments.length, p.climb steps ≠ some root
  ancestor_iff : ∀ q, q ∈ p.ancestors ↔ Relation.TransGen Up p q
  ancestors_nodup : p.ancestors.Nodup
  ancestors_length : p.ancestors.length = p.segments.length
  /-- A failing statement ends the loop with an error, and nothing else cuts it short. -/
  visits : ∀ env w,
    Router.lookups ((Router.ensureParentDirs p).journal perform env w) <+: p.ancestors ∧
    (((Router.ensureParentDirs p).exec perform env w).1 = .ok () →
      Router.lookups ((Router.ensureParentDirs p).journal perform env w) = p.ancestors) ∧
    ((∀ i, (env i).Faultless) → ((Router.ensureParentDirs p).exec perform env w).1 = .ok ())

theorem Canonical.taken_apart {p : FvfsPath} (canonical : p.Canonical) (below : p ≠ root) :
    ∃ q, p.parent = some q ∧ q.join p.fileName = .ok p := by
  obtain ⟨valid, shape⟩ := canonical.eq_render
  rcases List.eq_nil_or_concat' p.segments with none_left | ⟨front, last, split⟩
  · rw [none_left] at shape
    exact absurd shape below
  · rw [split] at valid shape
    have own := valid last (by simp)
    refine ⟨⟨render front⟩, ?_, ?_⟩
    · rw [shape, parent_render own]
    · rw [shape, fileName_render own]
      exact join_render (fun part member => valid part (List.mem_append_left _ member)) own

theorem Canonical.put_together {p : FvfsPath} (canonical : p.Canonical) {s : Text}
    (own : Segment s) : ∃ q, p.join s = .ok q ∧ q.parent = some p ∧ q.fileName = s := by
  obtain ⟨valid, shape⟩ := canonical.eq_render
  refine ⟨⟨render (p.segments ++ [s])⟩, ?_, ?_, fileName_render own⟩
  · have joined := join_render valid own
    rwa [← shape] at joined
  · rw [parent_render own, ← shape]

theorem Canonical.climb_root {p : FvfsPath} (canonical : p.Canonical) :
    p.climb p.segments.length = some root ∧
      ∀ steps < p.segments.length, p.climb steps ≠ some root := by
  constructor
  · rw [climb_eq canonical (Nat.le_refl _), Nat.sub_self]
    rfl
  · intro steps early arrived
    rw [climb_eq canonical (by omega)] at arrived
    have valid : ∀ part ∈ p.segments.take (p.segments.length - steps), Segment part :=
      fun part member => canonical.eq_render.1 part (List.mem_of_mem_take member)
    refine render_ne_root valid (fun none_left => ?_) (congrArg text (Option.some.inj arrived))
    have length := congrArg List.length none_left
    rw [List.length_take, List.length_nil] at length
    omega

/-- The operations on canonical paths agree with those on their segments. -/
theorem like_segments {p : FvfsPath} (canonical : p.Canonical) : p.LikeSegments where
  taken_apart := canonical.taken_apart
  put_together _ := canonical.put_together
  prefix_iff q also := (isPrefixOf_iff canonical also).trans (reached_iff canonical also).symm
  refl := (isPrefixOf_iff canonical canonical).mpr List.prefix_rfl
  antisymm q also below above := by
    have begins := (isPrefixOf_iff canonical also).mp below
    have begun := (isPrefixOf_iff also canonical).mp above
    have same := begins.eq_of_length_le begun.length_le
    rw [canonical.eq_render.2, also.eq_render.2, same]
  trans q r also third below above := by
    have begins := (isPrefixOf_iff canonical also).mp below
    exact (isPrefixOf_iff canonical third).mpr
      (begins.trans ((isPrefixOf_iff also third).mp above))
  sibling below c rest plain := by
    rw [Bool.eq_false_iff, Ne, isPrefixOf_iff_text fun top => below (FvfsPath.ext top)]
    rintro (same | ⟨more, same⟩)
    · simp at same
    · exact plain (by simpa using (List.cons.inj (List.append_cancel_left same)).1)
  reaches_root := canonical.climb_root.1
  not_before := canonical.climb_root.2
  ancestor_iff q := (ancestors_chain p).mem_iff
  ancestors_nodup := ancestorsWithin_nodup
  ancestors_length := by
    obtain ⟨valid, shape⟩ := canonical.eq_render
    exact chain_length valid (shape ▸ ancestors_chain p)
  visits env w := by
    have visited := Prog.exec_of_noted Router.noted_ensureParents env (fun _ => trivial)
      (p := Router.ensureParentDirs p) (w := w)
    exact ⟨visited.1, visited.2, fun faultless => Router.exec_ensureParentDirs_ok p faultless w⟩

/-- A path three levels down. -/
theorem like_segments_deep :
    (⟨"/a/b/c".toList⟩ : FvfsPath).Canonical ∧ (⟨"/a/b/c".toList⟩ : FvfsPath).LikeSegments :=
  ⟨by decide, like_segments (by decide)⟩

example : (⟨"/a".toList⟩ : FvfsPath).isPrefixOf ⟨"/ab".toList⟩ = false := by decide

end FvfsPath

end Fvfs
