import Fvfs.Lib.Percent
import Mathlib.Data.List.DropRight

/-! Relative references with a path, joined to the origin of an `http` URL as browsers
and the `url` crate do it: the ends are trimmed, tabs and newlines dropped, a query or
fragment is cut off, a backslash separates like a slash, dot segments are removed, and
what is unsafe in a path is percent-encoded. -/
namespace Lib.Url

open Percent

def control (c : Char) : Bool := c.toNat ≤ 0x20

def tabOrNewline (c : Char) : Bool := c == '\t' || c == '\n' || c == '\r'

def strip (s : Text) : Text := ((s.dropWhile control).rdropWhile control).filter (!tabOrNewline ·)

/-- The reference up to its query or fragment. -/
def pathPart (s : Text) : Text := s.takeWhile fun c => c != '?' && c != '#'

def slash (c : Char) : Char := if c = '\\' then '/' else c

def pathSet (c : Char) : Bool :=
  c.toNat < 0x20 || 0x7e < c.toNat || c ∈ [' ', '"', '#', '<', '>', '?', '^', '\x60', '{', '}']

def singleDot (segment : Text) : Bool :=
  [".".toList, "%2e".toList, "%2E".toList].contains segment

def doubleDot (segment : Text) : Bool :=
  ["..".toList, "%2e.".toList, "%2E.".toList, ".%2e".toList, ".%2E".toList,
    "%2e%2e".toList, "%2e%2E".toList, "%2E%2e".toList, "%2E%2E".toList].contains segment

/-- One more segment; a dot segment at the end leaves an empty one. -/
def push (path : List Text) (segment : Text) (last : Bool) : List Text :=
  let ending := if last then [[]] else []
  if doubleDot segment then path.dropLast ++ ending
  else if singleDot segment then path ++ ending
  else path ++ [segment]

def resolve (path : List Text) : List Text → List Text
  | [] => path
  | [segment] => push path segment true
  | segment :: rest => resolve (push path segment false) rest

/-- The path segments of the joined URL. -/
def join (reference : Text) : List Text :=
  resolve [] ((((pathPart (strip reference)).map slash).splitOn '/').map (encode pathSet))

/-- The path as a request line has it. -/
def text (path : List Text) : Text := path.flatMap ('/' :: ·)

theorem size_of_sublist {s t : Text} (part : s.Sublist t) : size s ≤ size t := by
  induction part with
  | slnil => exact Nat.le_refl _
  | cons c _ ih =>
    rw [size_cons]
    omega
  | cons_cons c _ ih =>
    rw [size_cons, size_cons]
    omega

theorem eq_of_sublist {s t : Text} (part : s.Sublist t) (whole : size t ≤ size s) : s = t := by
  induction part with
  | slnil => rfl
  | cons c part ih =>
    have := size_of_sublist part
    have := Char.utf8Size_pos c
    rw [size_cons] at whole
    omega
  | cons_cons c part ih =>
    rw [size_cons, size_cons] at whole
    rw [ih (by omega)]

theorem strip_sublist (s : Text) : (strip s).Sublist s :=
  List.filter_sublist.trans ((List.rdropWhile_prefix control _).sublist.trans
    (List.dropWhile_sublist control))

theorem strip_eq_self_iff {s : Text} : strip s = s ↔
    (∀ c, s.head? = some c → control c = false) ∧ (∀ c, s.getLast? = some c → control c = false) ∧
      ∀ c ∈ s, tabOrNewline c = false := by
  constructor
  · intro same
    have inner : (s.dropWhile control).rdropWhile control = s := by
      refine ((List.rdropWhile_prefix control _).sublist.trans
        (List.dropWhile_sublist control)).antisymm ?_
      conv_lhs => rw [← same]
      exact List.filter_sublist
    have front : s.dropWhile control = s := by
      refine (List.dropWhile_sublist control).antisymm ?_
      conv_lhs => rw [← inner]
      exact (List.rdropWhile_prefix control _).sublist
    rw [front] at inner
    refine ⟨fun c first => ?_, fun c last => ?_, fun c inside => ?_⟩
    · obtain ⟨rest, rfl⟩ := List.head?_eq_some_iff.mp first
      have here : ¬control c = true := List.dropWhile_eq_self_iff.mp front (by simp)
      simpa using here
    · obtain ⟨rest, rfl⟩ := List.getLast?_eq_some_iff.mp last
      simpa using List.rdropWhile_eq_self_iff.mp inner (by simp)
    · rw [← same] at inside
      simpa using (List.mem_filter.mp inside).2
  · rintro ⟨first, last, inside⟩
    have front : s.dropWhile control = s := by
      refine List.dropWhile_eq_self_iff.mpr fun nonempty => ?_
      rw [first s[0] (by simp [List.head?_eq_getElem?])]
      simp
    have back : s.rdropWhile control = s := by
      refine List.rdropWhile_eq_self_iff.mpr fun nonempty => ?_
      rw [last (s.getLast nonempty) (List.getLast?_eq_some_getLast nonempty)]
      simp
    rw [strip, front, back, List.filter_eq_self]
    intro c here
    simp [inside c here]

theorem pathPart_eq_self_iff {s : Text} : pathPart s = s ↔ '?' ∉ s ∧ '#' ∉ s := by
  rw [pathPart, List.takeWhile_eq_self_iff]
  constructor
  · intro plain
    constructor <;> intro inside <;> simpa using plain _ inside
  · rintro ⟨query, fragment⟩ c inside
    simp only [Bool.and_eq_true, bne_iff_ne, ne_eq]
    exact ⟨fun same => query (same ▸ inside), fun same => fragment (same ▸ inside)⟩

theorem pathPart_sublist (s : Text) : (pathPart s).Sublist s := List.takeWhile_sublist _

theorem size_slash (s : Text) : size (s.map slash) = size s := by
  induction s with
  | nil => rfl
  | cons c s ih =>
    have same : (slash c).utf8Size = c.utf8Size := by
      unfold slash
      split
      next back => rw [back]; rfl
      next => rfl
    rw [List.map_cons, size_cons, size_cons, same, ih]

/-- The length in bytes of what the path decodes to, slashes included. -/
def extent : List Text → Nat
  | [] => 0
  | segment :: path => 1 + (decode segment).length + extent path

@[simp] theorem extent_nil : extent [] = 0 := rfl
@[simp] theorem extent_cons (segment : Text) (path : List Text) :
    extent (segment :: path) = 1 + (decode segment).length + extent path := rfl

@[simp] theorem extent_append (path more : List Text) :
    extent (path ++ more) = extent path + extent more := by
  induction path with
  | nil => simp
  | cons segment path ih =>
    rw [List.cons_append, extent_cons, extent_cons, ih]
    omega

theorem hexValue_range {c : Char} (digit : (hexValue c).isSome) :
    (48 ≤ c.toNat ∧ c.toNat ≤ 57) ∨ (65 ≤ c.toNat ∧ c.toNat ≤ 70) ∨
      (97 ≤ c.toNat ∧ c.toNat ≤ 102) := by
  unfold hexValue at digit
  simp only [Char.le_def, UInt32.le_iff_toNat_le] at digit
  split at digit
  next here => exact Or.inl here
  next =>
    split at digit
    next here => exact Or.inr (Or.inl here)
    next =>
      split at digit
      next here => exact Or.inr (Or.inr here)
      next => contradiction

theorem pathSet_sparing : Sparing pathSet := by
  refine ⟨by decide, fun c digit => ?_⟩
  have range := hexValue_range digit
  have other : c ∉ [' ', '"', '#', '<', '>', '?', '^', '\x60', '{', '}'] := by
    simp only [List.mem_cons, List.not_mem_nil, or_false]
    rintro (rfl | rfl | rfl | rfl | rfl | rfl | rfl | rfl | rfl | rfl) <;> simp at range
  have printable : ¬c.toNat < 0x20 ∧ ¬0x7e < c.toNat := by omega
  simp [pathSet, other, printable]

theorem extent_encode (path : List Text) : extent (path.map (encode pathSet)) = extent path := by
  induction path with
  | nil => rfl
  | cons segment path ih =>
    rw [List.map_cons, extent_cons, extent_cons, ih, decode_encode pathSet_sparing]

theorem decode_slash (s t : Text) :
    decode (s ++ '/' :: t) = decode s ++ String.utf8EncodeChar '/' ++ decode t :=
  decode_append (by decide) (by decide) s t

/-- Texts are built from pieces without a slash. -/
theorem slash_induction {P : Text → Prop} (piece : ∀ s, '/' ∉ s → P s)
    (joined : ∀ s t, P s → P t → P (s ++ '/' :: t)) (s : Text) : P s := by
  induction length : s.length using Nat.strongRecOn generalizing s with
  | ind n ih =>
    by_cases slash : '/' ∈ s
    · obtain ⟨before, after, rfl⟩ := List.append_of_mem slash
      simp only [List.length_append, List.length_cons] at length
      exact joined before after (ih _ (by omega) before rfl) (ih _ (by omega) after rfl)
    · exact piece s slash

theorem splitOn_slash (s t : Text) : (s ++ '/' :: t).splitOn '/' = s.splitOn '/' ++ t.splitOn '/' :=
  List.splitOn_append_cons_of_beq s t (by decide)

theorem extent_splitOn (s : Text) : extent (s.splitOn '/') = (decode s).length + 1 := by
  induction s using slash_induction with
  | piece s plain =>
    rw [List.splitOn_eq_singleton plain]
    simp only [extent_cons, extent_nil]
    omega
  | joined s t ihs iht =>
    rw [splitOn_slash, extent_append, ihs, iht, decode_slash]
    simp only [List.length_append, String.length_utf8EncodeChar]
    have : ('/' : Char).utf8Size = 1 := rfl
    omega

theorem text_cons (segment : Text) (path : List Text) :
    text (segment :: path) = '/' :: (segment ++ text path) := rfl

theorem text_append (path more : List Text) : text (path ++ more) = text path ++ text more :=
  List.flatMap_append

theorem text_splitOn (s : Text) : text (s.splitOn '/') = '/' :: s := by
  induction s using slash_induction with
  | piece s plain => simp [List.splitOn_eq_singleton plain, text]
  | joined s t ihs iht =>
    rw [splitOn_slash, text_append, ihs, iht]
    rfl

theorem text_encode (path : List Text) :
    text (path.map (encode pathSet)) = encode pathSet (text path) := by
  induction path with
  | nil => rfl
  | cons segment path ih =>
    have slash : encodeChar pathSet '/' = ['/'] := encodeChar_plain (by decide)
    rw [List.map_cons, text_cons, text_cons, ih, encode_cons, encode_append, slash]
    rfl

theorem decode_append_text (s : Text) (path : List Text) :
    (decode (s ++ text path)).length = (decode s).length + extent path := by
  induction path generalizing s with
  | nil => simp [text]
  | cons segment path ih =>
    rw [text_cons, decode_slash, List.length_append, List.length_append, ih, extent_cons,
      String.length_utf8EncodeChar]
    have : ('/' : Char).utf8Size = 1 := rfl
    omega

theorem decode_text (path : List Text) : (decode (text path)).length = extent path := by
  simpa [decode] using decode_append_text [] path

theorem extent_dropLast (path : List Text) : extent path.dropLast ≤ extent path := by
  rcases List.eq_nil_or_concat path with rfl | ⟨front, segment, rfl⟩
  · exact Nat.le_refl _
  · rw [List.concat_eq_append, List.dropLast_concat, extent_append]
    omega

theorem decode_singleDot {segment : Text} (dot : singleDot segment = true) :
    decode segment = utf8 ['.'] := by
  simp only [singleDot, List.contains_eq_mem, decide_eq_true_eq, List.mem_cons, List.not_mem_nil,
    or_false] at dot
  rcases dot with rfl | rfl | rfl <;> decide

theorem decode_doubleDot {segment : Text} (dots : doubleDot segment = true) :
    decode segment = utf8 ['.', '.'] := by
  simp only [doubleDot, List.contains_eq_mem, decide_eq_true_eq, List.mem_cons, List.not_mem_nil,
    or_false] at dots
  rcases dots with rfl | rfl | rfl | rfl | rfl | rfl | rfl | rfl | rfl <;> decide

theorem push_cases (path : List Text) (segment : Text) (last : Bool) :
    push path segment last = path ++ [segment] ∨
      extent (push path segment last) < extent (path ++ [segment]) := by
  have ending : extent (if last then [[]] else []) ≤ 1 := by cases last <;> decide
  simp only [push]
  by_cases dots : doubleDot segment = true
  · have shorter := extent_dropLast path
    have two : (decode segment).length = 2 := congrArg List.length (decode_doubleDot dots)
    simp only [dots, if_true, extent_append, extent_cons, extent_nil]
    omega
  · rw [if_neg dots]
    by_cases dot : singleDot segment = true
    · have one : (decode segment).length = 1 := congrArg List.length (decode_singleDot dot)
      simp only [dot, if_true, extent_append, extent_cons, extent_nil]
      omega
    · rw [if_neg dot]
      exact Or.inl rfl

theorem resolve_cases (path segments : List Text) :
    resolve path segments = path ++ segments ∨
      extent (resolve path segments) < extent (path ++ segments) := by
  fun_induction resolve path segments with
  | case1 path => exact Or.inl (List.append_nil path).symm
  | case2 path segment => exact push_cases path segment true
  | case3 path segment rest _ ih =>
    have ih : resolve (push path segment false) rest = push path segment false ++ rest ∨
        extent (resolve (push path segment false) rest) <
          extent (push path segment false ++ rest) := ih
    rcases push_cases path segment false with kept | shorter
    · rw [kept, List.append_assoc] at ih
      rw [kept]
      exact ih
    · right
      simp only [extent_append, extent_cons, extent_nil] at shorter ih ⊢
      rcases ih with same | less
      · rw [same, extent_append]
        omega
      · omega

/-- What is left of a reference before it is split. -/
def kept (s : Text) : Text := (pathPart (strip s)).map slash

theorem join_cases (s : Text) :
    join s = ((kept s).splitOn '/').map (encode pathSet) ∧
        extent (join s) = (decode (kept s)).length + 1 ∨
      extent (join s) < (decode (kept s)).length + 1 := by
  have segments := extent_splitOn (kept s)
  have encoded := extent_encode ((kept s).splitOn '/')
  rcases resolve_cases [] (((kept s).splitOn '/').map (encode pathSet)) with same | less
  · left
    refine ⟨same, ?_⟩
    calc extent (join s) = extent (((kept s).splitOn '/').map (encode pathSet)) := congrArg _ same
      _ = (decode (kept s)).length + 1 := by omega
  · right
    calc extent (join s) < extent (((kept s).splitOn '/').map (encode pathSet)) := less
      _ = (decode (kept s)).length + 1 := by omega

theorem size_kept (s : Text) : size (kept s) = size (pathPart (strip s)) := size_slash _

/-- A reference that lost nothing has no query, escape or dot segment, and keeps its ends. -/
theorem kept_of_extent {s : Text} (whole : size s + 1 ≤ extent (join s)) :
    strip s = s ∧ pathPart s = s ∧ ¬HasEscape (s.map slash) ∧
      join s = ((s.map slash).splitOn '/').map (encode pathSet) := by
  have stripped := size_of_sublist (strip_sublist s)
  have cut := size_of_sublist (pathPart_sublist (strip s))
  have slashed := size_kept s
  have decoded := decode_length_le (kept s)
  rcases join_cases s with ⟨same, length⟩ | less
  · have ends : strip s = s := eq_of_sublist (strip_sublist s) (by omega)
    have whole_path : pathPart s = s := by
      have rest := eq_of_sublist (pathPart_sublist (strip s)) (by omega)
      rwa [ends] at rest
    have all : kept s = s.map slash := by rw [kept, ends, whole_path]
    rw [all] at same length slashed
    refine ⟨ends, whole_path, fun escaped => ?_, same⟩
    have fewer := decode_length_lt escaped
    omega
  · omega

theorem resolve_plain {path segments : List Text}
    (plain : ∀ segment ∈ segments, singleDot segment = false ∧ doubleDot segment = false) :
    resolve path segments = path ++ segments := by
  induction segments generalizing path with
  | nil => exact (List.append_nil path).symm
  | cons segment rest ih =>
    obtain ⟨single, double⟩ := plain segment (by simp)
    have pushed (last : Bool) : push path segment last = path ++ [segment] := by
      simp [push, single, double]
    cases rest with
    | nil => exact pushed true
    | cons next rest =>
      change resolve (push path segment false) (next :: rest) = _
      rw [pushed, ih fun other inside => plain other (by simp [inside])]
      simp

theorem encode_not_dot {segment : Text} (clean : ¬HasEscape segment) (not_dot : segment ≠ ['.'])
    (not_dots : segment ≠ ['.', '.']) : singleDot (encode pathSet segment) = false ∧
      doubleDot (encode pathSet segment) = false := by
  have decoded : decode (encode pathSet segment) = utf8 segment := by
    rw [decode_encode pathSet_sparing, decode_eq clean]
  constructor
  · rw [Bool.eq_false_iff]
    intro dot
    exact not_dot (utf8_injective (decoded.symm.trans (decode_singleDot dot)))
  · rw [Bool.eq_false_iff]
    intro dots
    exact not_dots (utf8_injective (decoded.symm.trans (decode_doubleDot dots)))

theorem hasEscape_splitOn {s segment : Text} (inside : segment ∈ s.splitOn '/')
    (escaped : HasEscape segment) : HasEscape s := by
  induction s using slash_induction with
  | piece s plain =>
    rw [List.splitOn_eq_singleton plain, List.mem_singleton] at inside
    exact inside ▸ escaped
  | joined s t ihs iht =>
    rw [hasEscape_append (by decide) (by decide)]
    rw [splitOn_slash, List.mem_append] at inside
    exact inside.imp ihs iht

/-- A reference that comes through the parser character for character. -/
structure Clean (s : Text) : Prop where
  ends : strip s = s
  whole : pathPart s = s
  slashes : '\\' ∉ s
  escapes : ¬HasEscape s
  dots : ∀ segment ∈ s.splitOn '/', segment ≠ ['.'] ∧ segment ≠ ['.', '.']

theorem slash_ne (c : Char) : slash c ≠ '\\' := by
  unfold slash
  split
  next => decide
  next other => exact other

theorem map_slash {s : Text} (slashes : '\\' ∉ s) : s.map slash = s := by
  refine (List.map_congr_left fun c inside => ?_).trans (List.map_id s)
  refine if_neg fun back => slashes ?_
  rw [← back]
  exact inside

theorem text_join {s : Text} (clean : Clean s) : text (join s) = '/' :: encode pathSet s := by
  have plain : ∀ segment ∈ (s.splitOn '/').map (encode pathSet),
      singleDot segment = false ∧ doubleDot segment = false := by
    intro segment inside
    obtain ⟨raw, part, rfl⟩ := List.mem_map.mp inside
    obtain ⟨not_dot, not_dots⟩ := clean.dots raw part
    exact encode_not_dot (fun escaped => clean.escapes (hasEscape_splitOn part escaped)) not_dot
      not_dots
  have slash : encodeChar pathSet '/' = ['/'] := encodeChar_plain (by decide)
  rw [join, clean.ends, clean.whole, map_slash clean.slashes, resolve_plain plain, List.nil_append,
    text_encode, text_splitOn, encode_cons, slash]
  rfl

end Lib.Url
