import Fvfs.PathTree
import Mathlib.Data.List.DropRight

/-! The keys of `S3Backend`: what a path is stored under, the prefix a listing asks for, and
the path it reads back from a key. -/
namespace Fvfs

open Lib
open FvfsPath (Segment render Up)

def trimStart (s : Text) : Text := s.dropWhile (· == '/')
def trimEnd (s : Text) : Text := s.rdropWhile (· == '/')

/-- The part of the backend its keys depend on: the configured prefix. -/
structure S3Backend where
  configured : Text
  deriving DecidableEq

namespace S3Backend

variable (b : S3Backend)

def s3Key (p : FvfsPath) : Text :=
  let rel := trimStart p.text
  if b.configured = [] then rel
  else trimEnd b.configured ++ (if rel = [] then [] else '/' :: rel)

/-- The prefix `list` sends. -/
def requested (q : FvfsPath) : Text :=
  let key := b.s3Key q
  if key = ['/'] ∨ key = [] then b.configured else trimEnd key ++ ['/']

/-- The path `list` reads back from a key. -/
def pathOfKey (key : Text) : FvfsPath :=
  let rel :=
    if b.configured = [] then key
    else trimStart ((key.dropPrefix? (trimEnd b.configured)).getD key)
  match FvfsPath.new ('/' :: rel) with
  | .ok p => p
  | .error _ => ⟨"/unknown".toList⟩

/-- The store answers a listing with the keys that begin with the prefix. -/
def list (keys : List Text) (q : FvfsPath) : List FvfsPath :=
  (keys.filter fun key => (b.requested q).isPrefixOf key).map b.pathOfKey

end S3Backend

theorem trimStart_segment {s rest : Text} (own : Segment s) : trimStart (s ++ rest) = s ++ rest := by
  obtain ⟨c, s, rfl⟩ := List.exists_cons_of_ne_nil own.nonempty
  have plain : c ≠ '/' := fun same => own.no_slash (by simp [same])
  simp [trimStart, plain]

theorem trimEnd_segment {s front : Text} (own : Segment s) : trimEnd (front ++ s) = front ++ s := by
  obtain ⟨s, c, rfl⟩ := (List.eq_nil_or_concat' s).resolve_left own.nonempty
  have plain : c ≠ '/' := fun same => own.no_slash (by simp [same])
  rw [trimEnd, ← List.append_assoc, List.rdropWhile_concat_neg _ _ _ (by simpa using plain)]

theorem stem_of_below {p : FvfsPath} (below : p ≠ .root) : p.stem = p.text :=
  if_neg fun top => below (FvfsPath.ext top)

theorem segments_ne_nil {p : FvfsPath} (canonical : p.Canonical) (below : p ≠ .root) :
    p.segments ≠ [] := by
  intro top
  have shape := canonical.eq_render.2
  rw [top] at shape
  exact below shape

/-- Below the root a path is a slash and the part of it the keys hold. -/
theorem stem_eq_trimStart {p : FvfsPath} (canonical : p.Canonical) (below : p ≠ .root) :
    p.stem = '/' :: trimStart p.text ∧ trimStart p.text ≠ [] := by
  obtain ⟨part, rest, split⟩ := List.exists_cons_of_ne_nil (segments_ne_nil canonical below)
  have own : Segment part := canonical.eq_render.1 part (by simp [split])
  have stem : p.stem = '/' :: (part ++ rest.flatMap ('/' :: ·)) := by
    rw [canonical.stem_eq, split]
    simp
  have trimmed : trimStart p.text = part ++ rest.flatMap ('/' :: ·) := by
    rw [← stem_of_below below, stem]
    exact trimStart_segment own
  rw [trimmed]
  exact ⟨stem, by simp [own.nonempty]⟩

theorem trimEnd_stem {p : FvfsPath} (canonical : p.Canonical) (below : p ≠ .root) (front : Text) :
    trimEnd (front ++ p.stem) = front ++ p.stem := by
  obtain ⟨above, last, split⟩ :=
    (List.eq_nil_or_concat' p.segments).resolve_left (segments_ne_nil canonical below)
  have own : Segment last := canonical.eq_render.1 last (by simp [split])
  have stem : p.stem = above.flatMap ('/' :: ·) ++ ['/'] ++ last := by
    rw [canonical.stem_eq, split]
    simp
  rw [stem, ← List.append_assoc, trimEnd_segment own]

theorem stem_injective {p q : FvfsPath} (canonical : p.Canonical) (also : q.Canonical)
    (same : p.stem = q.stem) : p = q := by
  rw [canonical.stem_eq, also.stem_eq] at same
  have segments := FvfsPath.stem_injective also.eq_render.1 canonical.eq_render.1 same
  rw [canonical.eq_render.2, also.eq_render.2, segments]

/-- Going up once or more takes one or more segments away. -/
theorem descends_iff {p q : FvfsPath} (canonical : p.Canonical) (also : q.Canonical) :
    Relation.TransGen Up p q ↔ ∃ parts, parts ≠ [] ∧ p.segments = q.segments ++ parts := by
  constructor
  · intro below
    obtain ⟨parts, split⟩ := (FvfsPath.reached_iff also canonical).mp below.to_reflTransGen
    refine ⟨parts, ?_, split.symm⟩
    rintro rfl
    have same : p = q := by
      rw [canonical.eq_render.2, also.eq_render.2, ← split, List.append_nil]
    subst same
    exact FvfsPath.not_mem_ancestors p ((FvfsPath.ancestors_chain p).mem_iff.mpr below)
  · rintro ⟨parts, some_part, split⟩
    have reached := (FvfsPath.reached_iff also canonical).mpr ⟨parts, split.symm⟩
    refine (Relation.reflTransGen_iff_eq_or_transGen.mp reached).resolve_left ?_
    rintro rfl
    exact some_part (by simpa using split)

/-- One path lies below another where the other's stem and a slash begin its own. -/
theorem stem_begins_iff {p q : FvfsPath} (canonical : p.Canonical) (also : q.Canonical) :
    q.stem ++ ['/'] <+: p.stem ↔ Relation.TransGen Up p q := by
  rw [descends_iff canonical also, canonical.stem_eq, also.stem_eq]
  constructor
  · rintro ⟨rest, continued⟩
    refine ⟨rest.splitOn '/', List.splitOn_ne_nil _ _, ?_⟩
    refine FvfsPath.stem_append_slash also.eq_render.1 canonical.eq_render.1 ?_
    rw [← continued, List.append_assoc]
    rfl
  · rintro ⟨parts, some_part, split⟩
    obtain ⟨part, parts, rfl⟩ := List.exists_cons_of_ne_nil some_part
    rw [split]
    exact ⟨part ++ parts.flatMap ('/' :: ·), by simp⟩

namespace S3Backend

variable {b : S3Backend} {p q : FvfsPath}

theorem s3Key_bare (bare : b.configured = []) : b.s3Key p = trimStart p.text := by
  simp [s3Key, bare]

/-- A configured prefix is followed by the stem of the path. -/
theorem s3Key_eq (named : b.configured ≠ []) (canonical : p.Canonical) :
    b.s3Key p = trimEnd b.configured ++ p.stem := by
  unfold s3Key
  simp only [if_neg named]
  by_cases top : p = .root
  · subst top
    rfl
  · obtain ⟨stem, some_text⟩ := stem_eq_trimStart canonical top
    rw [if_neg some_text, stem]

theorem s3Key_injective (canonical : p.Canonical) (also : q.Canonical)
    (same : b.s3Key p = b.s3Key q) : p = q := by
  by_cases bare : b.configured = []
  · rw [s3Key_bare bare, s3Key_bare bare] at same
    by_cases top : p = .root <;> by_cases top' : q = .root
    · rw [top, top']
    · subst top
      exact absurd same.symm (stem_eq_trimStart also top').2
    · subst top'
      exact absurd same (stem_eq_trimStart canonical top).2
    · apply stem_injective canonical also
      rw [(stem_eq_trimStart canonical top).1, (stem_eq_trimStart also top').1, same]
  · rw [s3Key_eq bare canonical, s3Key_eq bare also] at same
    exact stem_injective canonical also (List.append_cancel_left same)

theorem pathOfKey_s3Key (canonical : p.Canonical) (below : p ≠ .root) :
    b.pathOfKey (b.s3Key p) = p := by
  obtain ⟨stem, -⟩ := stem_eq_trimStart canonical below
  have text : p.text = '/' :: trimStart p.text := (stem_of_below below).symm.trans stem
  have built := FvfsPath.new_of_canonical canonical
  unfold pathOfKey
  by_cases bare : b.configured = []
  · simp only [if_pos bare, s3Key_bare bare, ← text, built]
  · have rest : (b.s3Key p).dropPrefix? (trimEnd b.configured) = some p.stem :=
      List.dropPrefix?_eq_some_iff.mpr ⟨_, s3Key_eq bare canonical, by simp⟩
    simp only [if_neg bare, rest, Option.getD_some, stem_of_below below, ← text, built]

theorem trimEnd_rel (canonical : q.Canonical) (below : q ≠ .root) :
    trimEnd (trimStart q.text) = trimStart q.text := by
  obtain ⟨stem, some_text⟩ := stem_eq_trimStart canonical below
  have whole := trimEnd_stem canonical below []
  rw [List.nil_append, stem, trimEnd, List.rdropWhile_eq_self_iff] at whole
  rw [trimEnd, List.rdropWhile_eq_self_iff]
  intro _
  simpa [List.getLast_cons some_text] using whole (by simp)

/-- Some prefix and the root are listed by slashes no key begins with. -/
def Overslashed (b : S3Backend) (q : FvfsPath) : Prop :=
  q = .root ∧ (∀ c ∈ b.configured, c = '/') ∧ 2 ≤ b.configured.length

theorem requested_bare (bare : b.configured = []) (canonical : q.Canonical) :
    '/' :: b.requested q = q.stem ++ ['/'] := by
  unfold requested
  simp only [s3Key_bare bare]
  by_cases top : q = .root
  · subst top
    rw [bare]
    rfl
  · obtain ⟨stem, some_text⟩ := stem_eq_trimStart canonical top
    have trimmed := trimEnd_rel canonical top
    have not_slash : trimStart q.text ≠ ['/'] := by
      intro same
      rw [same] at trimmed
      contradiction
    rw [if_neg (not_or.mpr ⟨not_slash, some_text⟩), trimmed, stem]
    rfl

theorem requested_named (named : b.configured ≠ []) (canonical : q.Canonical)
    (sound : ¬b.Overslashed q) : b.requested q = trimEnd b.configured ++ (q.stem ++ ['/']) := by
  unfold requested
  simp only [s3Key_eq named canonical]
  by_cases top : q = .root
  · subst top
    have stem : FvfsPath.root.stem = [] := rfl
    rw [stem, List.append_nil, List.nil_append]
    by_cases slashes : trimEnd b.configured = []
    · have all : ∀ c ∈ b.configured, c = '/' := by
        simpa [trimEnd, List.rdropWhile_eq_nil_iff] using slashes
      have single : b.configured.length < 2 := by
        by_contra longer
        exact sound ⟨rfl, all, by omega⟩
      obtain ⟨c, only⟩ := List.length_eq_one_iff.mp
        (show b.configured.length = 1 by have := List.length_pos_iff.mpr named; omega)
      have slash : c = '/' := all c (by simp [only])
      have trimmed : trimEnd ['/'] = [] := by decide
      simp [only, slash, trimmed]
    · have trimmed : trimEnd (trimEnd b.configured) = trimEnd b.configured :=
        List.rdropWhile_idempotent ..
      have not_slash : trimEnd b.configured ≠ ['/'] := by
        intro same
        rw [same] at trimmed
        contradiction
      rw [if_neg (not_or.mpr ⟨not_slash, slashes⟩), trimmed]
  · obtain ⟨stem, some_text⟩ := stem_eq_trimStart canonical top
    have longer : 2 ≤ (trimEnd b.configured ++ q.stem).length := by
      have := List.length_pos_iff.mpr some_text
      simp only [stem, List.length_append, List.length_cons]
      omega
    rw [if_neg, trimEnd_stem canonical top, List.append_assoc]
    rintro (same | same)
    · simp [same] at longer
    · simp [same] at longer

theorem requested_begins_iff (canonical : p.Canonical) (below : p ≠ .root) (also : q.Canonical)
    (sound : ¬b.Overslashed q) :
    b.requested q <+: b.s3Key p ↔ Relation.TransGen Up p q := by
  rw [← stem_begins_iff canonical also]
  by_cases bare : b.configured = []
  · rw [← requested_bare bare also, (stem_eq_trimStart canonical below).1, s3Key_bare bare,
      List.cons_prefix_cons]
    simp
  · rw [requested_named bare also sound, s3Key_eq bare canonical, List.prefix_append_right_inj]

/-- What the keys owe the paths: no two paths share one, a key gives its path back, and a
listing asks for the keys of what lies below. -/
structure KeyCodec (b : S3Backend) (q : FvfsPath) : Prop where
  injective : ∀ p : FvfsPath, p.Canonical → b.s3Key p = b.s3Key q → p = q
  read_back : ∀ p : FvfsPath, p.Canonical → p ≠ .root → b.pathOfKey (b.s3Key p) = p
  listed_iff : ∀ p : FvfsPath, p.Canonical → p ≠ .root →
    (b.requested q <+: b.s3Key p ↔ Relation.TransGen Up p q)

/-- A prefix of several slashes is the one a listing of the root does not trim. -/
theorem keyCodec_iff (b : S3Backend) {q : FvfsPath} (canonical : q.Canonical) :
    b.KeyCodec q ↔ ¬b.Overslashed q := by
  constructor
  · rintro codec ⟨rfl, all, several⟩
    obtain ⟨first, second, rest, split⟩ :
        ∃ first second rest, b.configured = first :: second :: rest := by
      rcases text : b.configured with _ | ⟨first, _ | ⟨second, rest⟩⟩
      · simp [text] at several
      · simp [text] at several
      · exact ⟨first, second, rest, rfl⟩
    have slashes : trimEnd b.configured = [] := by
      simpa [trimEnd, List.rdropWhile_eq_nil_iff] using all
    have named : b.configured ≠ [] := by simp [split]
    have a : (⟨"/a".toList⟩ : FvfsPath).Canonical := by decide
    have listed := (codec.listed_iff ⟨"/a".toList⟩ a (by decide)).mpr (.single rfl)
    have asked : b.requested .root = b.configured := by
      have key : b.s3Key .root = [] := by
        rw [s3Key_eq named FvfsPath.root_canonical, slashes]
        rfl
      simp [requested, key]
    rw [asked, s3Key_eq named a, slashes, split, all second (by simp [split])] at listed
    obtain ⟨more, same⟩ := listed
    have second_char := congrArg (fun s : Text => s[1]?) same
    simp [FvfsPath.stem] at second_char
  · intro sound
    exact ⟨fun p fine same => s3Key_injective fine canonical same,
      fun p fine below => pathOfKey_s3Key fine below,
      fun p fine below => requested_begins_iff fine below canonical sound⟩

/-- A directory under a prefix with a slash at its end. -/
theorem keyCodec_backup : (⟨"backup/".toList⟩ : S3Backend).KeyCodec ⟨"/a".toList⟩ :=
  (keyCodec_iff _ (by decide)).mpr fun overslashed => absurd overslashed.1 (by decide)

theorem two_slashes_list_nothing : ¬(⟨"//".toList⟩ : S3Backend).KeyCodec .root := by
  intro codec
  have listed := (codec.listed_iff ⟨"/a".toList⟩ (by decide) (by decide)).mpr (.single rfl)
  revert listed
  decide

/-- A listing over the keys of stored paths is the stored paths below. -/
theorem list_eq (b : S3Backend) (stored : List FvfsPath) (q : FvfsPath) (also : q.Canonical)
    (canonical : ∀ p ∈ stored, p.Canonical) (below : ∀ p ∈ stored, p ≠ .root)
    (sound : ¬b.Overslashed q) (p : FvfsPath) :
    p ∈ b.list (stored.map b.s3Key) q ↔ p ∈ stored ∧ Relation.TransGen Up p q := by
  simp only [list, List.mem_map, List.mem_filter, List.isPrefixOf_iff_prefix]
  constructor
  · rintro ⟨key, ⟨⟨r, member, rfl⟩, begins⟩, rfl⟩
    rw [pathOfKey_s3Key (canonical r member) (below r member)]
    exact ⟨member, (requested_begins_iff (canonical r member) (below r member) also sound).mp begins⟩
  · rintro ⟨member, lower⟩
    exact ⟨b.s3Key p, ⟨⟨p, member, rfl⟩,
      (requested_begins_iff (canonical p member) (below p member) also sound).mpr lower⟩,
      pathOfKey_s3Key (canonical p member) (below p member)⟩

end S3Backend

end Fvfs
