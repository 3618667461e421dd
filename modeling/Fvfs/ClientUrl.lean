import Fvfs.Lib.Url
import Fvfs.LocalDisk
import Mathlib.Data.List.Flatten

/-! The path of a request, from `VfsdClient`'s URL to the daemon's handler. The client
hands the virtual path to the URL parser as it is, and the handler gets what is left of it
after parsing, route matching and percent-decoding. -/
namespace Fvfs

open Lib.Percent (utf8 fromUtf8 decode encode size HasEscape encode_cons encodeChar_plain
  decode_encode)
open Lib.Url (pathSet)

inductive Method where
  | get | put | delete
  deriving DecidableEq

/-- The operations of the client that name a path. -/
inductive ClientOp where
  | put | get | delete | stat | list
  deriving DecidableEq

/-- The handlers of the daemon that take one. -/
inductive FileHandler where
  | putFile | getFile | deleteFile | getMeta | list | listRoot
  deriving DecidableEq

namespace VfsdClient

/-- The path of the URL that `base_url.join` makes, the base being the daemon's origin; joining
such a reference cannot fail. -/
def url (path : Text) : Text := Lib.Url.text (Lib.Url.join (path.dropWhile (· == '/')))

def put (p : FvfsPath) : Method × Text := (.put, url ("/v1/files".toList ++ p.text))
def get (p : FvfsPath) : Method × Text := (.get, url ("/v1/files".toList ++ p.text))
def delete (p : FvfsPath) : Method × Text := (.delete, url ("/v1/files".toList ++ p.text))
def stat (p : FvfsPath) : Method × Text := (.get, url ("/v1/meta".toList ++ p.text))
def list (p : FvfsPath) : Method × Text := (.get, url ("/v1/ls".toList ++ p.text))

end VfsdClient

namespace ClientOp

def request : ClientOp → FvfsPath → Method × Text
  | .put => VfsdClient.put
  | .get => VfsdClient.get
  | .delete => VfsdClient.delete
  | .stat => VfsdClient.stat
  | .list => VfsdClient.list

/-- The handler the operation is meant for. -/
def handler : ClientOp → FileHandler
  | .put => .putFile
  | .get => .getFile
  | .delete => .deleteFile
  | .stat => .getMeta
  | .list => .list

end ClientOp

namespace HttpApi

/-- What a wildcard after `stem` matches; it matches no empty rest. -/
def wildcard (stem path : Text) : Option Text :=
  if stem <+: path ∧ path ≠ stem then some (path.drop stem.length) else none

/-- A route without a wildcard. -/
def exactly (stem path : Text) : Option Text := if path = stem then some [] else none

/-- The routes of `build_router` with a file handler, and what their wildcard matches. -/
def route : Method → Text → Option (FileHandler × Text)
  | .put, path => (wildcard "/v1/files/".toList path).map (.putFile, ·)
  | .delete, path => (wildcard "/v1/files/".toList path).map (.deleteFile, ·)
  | .get, path =>
    (wildcard "/v1/files/".toList path).map (.getFile, ·) <|>
    (wildcard "/v1/meta/".toList path).map (.getMeta, ·) <|>
    (wildcard "/v1/ls/".toList path).map (.list, ·) <|>
    (exactly "/v1/ls/".toList path).map (.listRoot, ·)

/-- The wildcard decoded once, as `Path<String>` extracts it. -/
def extract (raw : Text) : Option Text := fromUtf8 (decode raw)

/-- The path a handler obtains; none where it refuses the request. -/
def handlerPath : FileHandler → Text → Option FvfsPath
  | .listRoot, _ => some .root
  | _, raw => (extract raw).bind fun path => (parsePath path).toOption

/-- The handler a request reaches, with the path it obtains. -/
def received (request : Method × Text) : Option (FileHandler × FvfsPath) :=
  (route request.1 request.2).bind fun matched =>
    (handlerPath matched.1 matched.2).map (matched.1, ·)

end HttpApi

/-- No character of the path means anything to the URL parser. -/
structure FvfsPath.Plain (p : FvfsPath) : Prop where
  no_query : '?' ∉ p.text
  no_fragment : '#' ∉ p.text
  no_backslash : '\\' ∉ p.text
  no_break : ∀ c ∈ p.text, Lib.Url.tabOrNewline c = false
  no_escape : ¬HasEscape p.text
  ending : ∀ c, p.text.getLast? = some c → Lib.Url.control c = false

instance (p : FvfsPath) : Decidable p.Plain :=
  decidable_of_iff
    ('?' ∉ p.text ∧ '#' ∉ p.text ∧ '\\' ∉ p.text ∧
      p.text.all (fun c => !Lib.Url.tabOrNewline c) ∧ ¬HasEscape p.text ∧
      p.text.getLast?.all fun c => !Lib.Url.control c)
    ⟨fun ⟨query, fragment, back, breaks, escape, last⟩ =>
      ⟨query, fragment, back, by simpa using breaks, escape,
        by simpa [Option.all_eq_true] using last⟩,
    fun ⟨query, fragment, back, breaks, escape, last⟩ =>
      ⟨query, fragment, back, by simpa using breaks, escape,
        by simpa [Option.all_eq_true] using last⟩⟩

namespace FvfsPath

theorem resolve_sublist {components parts result : List Text} {part : Text}
    (kept : components.Sublist parts) (resolved : resolve components part = .ok result) :
    result.Sublist (parts ++ [part]) := by
  unfold resolve at resolved
  split at resolved
  · obtain rfl := Except.ok.inj resolved
    exact kept.trans (List.sublist_append_left _ _)
  · split at resolved
    · obtain rfl := Except.ok.inj resolved
      exact (List.dropLast_sublist _).trans (kept.trans (List.sublist_append_left _ _))
    · split at resolved
      · contradiction
      · obtain rfl := Except.ok.inj resolved
        exact kept.append (List.Sublist.refl _)

theorem foldlM_resolve_sublist {parts before components result : List Text}
    (kept : components.Sublist before) (resolved : parts.foldlM resolve components = .ok result) :
    result.Sublist (before ++ parts) := by
  induction parts generalizing before components with
  | nil =>
    obtain rfl := Except.ok.inj resolved
    simpa using kept
  | cons part parts ih =>
    rw [List.foldlM_cons] at resolved
    cases first : resolve components part with
    | error e =>
      rw [first] at resolved
      contradiction
    | ok middle =>
      rw [first] at resolved
      simpa using ih (resolve_sublist kept first) resolved

theorem render_eq {components : List Text} (some_part : components ≠ []) :
    render components = Lib.Url.text components := by
  rw [render, if_neg some_part]
  induction components with
  | nil => contradiction
  | cons part rest ih =>
    cases rest with
    | nil => simp [Lib.Url.text]
    | cons next rest =>
      rw [Lib.Url.text_cons, ← ih (by simp), List.intercalate_cons_cons]
      simp

/-- Components are only dropped, never made: the text is what is left of the string. -/
theorem new_sublist {s : Text} {p : FvfsPath} (built : new ('/' :: s) = .ok p) :
    p.text.Sublist ('/' :: s) := by
  have parts : ('/' :: s).splitOn '/' = [] :: s.splitOn '/' := Lib.Url.splitOn_slash [] s
  simp only [new, normalize, List.head?_cons, if_true, parts, List.foldlM_cons] at built
  cases resolved : (s.splitOn '/').foldlM resolve [] with
  | error e => simp [resolve, resolved, Except.map, bind, Except.bind] at built
  | ok components =>
    have kept := foldlM_resolve_sublist (List.Sublist.refl []) resolved
    have text : p.text = render components := by
      simp [resolve, resolved, Except.map, bind, Except.bind] at built
      exact (congrArg FvfsPath.text built).symm
    rw [text]
    by_cases top : components = []
    · subst top
      exact (List.nil_sublist s).cons_cons '/'
    · rw [render_eq top, ← Lib.Url.text_splitOn s]
      exact kept.flatMap _

theorem parsePath_sublist {s : Text} {p : FvfsPath} (parsed : parsePath s = .ok p) :
    p.text.Sublist ('/' :: s) :=
  (new_sublist parsed).trans ((List.dropWhile_sublist _).cons_cons '/')

end FvfsPath

namespace HttpApi

theorem wildcard_eq_some_iff {stem path raw : Text} :
    wildcard stem path = some raw ↔ path = stem ++ raw ∧ raw ≠ [] := by
  unfold wildcard
  constructor
  · intro matched
    split at matched
    next here =>
      obtain ⟨⟨rest, rfl⟩, longer⟩ := here
      rw [List.drop_left] at matched
      obtain rfl := Option.some.inj matched
      exact ⟨rfl, fun empty => longer (by simp [empty])⟩
    next => contradiction
  · rintro ⟨rfl, nonempty⟩
    have longer : stem ++ raw ≠ stem := by simpa using nonempty
    rw [if_pos ⟨List.prefix_append _ _, longer⟩, List.drop_left]

/-- Routes that differ at a character no wildcard covers. -/
theorem wildcard_eq_none {stem other raw : Text} (n : Nat) (short : n ≤ stem.length)
    (also : n ≤ other.length) (apart : stem.take n ≠ other.take n) :
    wildcard stem (other ++ raw) = none := by
  refine if_neg ?_
  rintro ⟨⟨rest, same⟩, -⟩
  have first := congrArg (List.take n) same
  rw [List.take_append_of_le_length short, List.take_append_of_le_length also] at first
  exact apart first

end HttpApi

namespace ClientOp

/-- The route's part of the URL, between the first slash and the wildcard's. -/
def stem : ClientOp → Text
  | .put | .get | .delete => "v1/files".toList
  | .stat => "v1/meta".toList
  | .list => "v1/ls".toList

def method : ClientOp → Method
  | .put => .put
  | .get | .stat | .list => .get
  | .delete => .delete

theorem request_eq (op : ClientOp) (p : FvfsPath) :
    op.request p = (op.method, Lib.Url.text (Lib.Url.join (op.stem ++ p.text))) := by
  cases op <;> rfl

open HttpApi in
/-- An operation's own handler is reached through its own route only. -/
theorem route_iff (op : ClientOp) {path raw : Text} :
    route op.method path = some (op.handler, raw) ↔
      path = '/' :: (op.stem ++ '/' :: raw) ∧ raw ≠ [] := by
  cases op with
  | put | delete =>
    have own := @wildcard_eq_some_iff "/v1/files/".toList path raw
    refine Iff.trans ?_ own
    simp [route, method, handler]
  | get =>
    have own := @wildcard_eq_some_iff "/v1/files/".toList path raw
    refine Iff.trans ?_ own
    simp only [route, method, handler]
    generalize wildcard "/v1/files/".toList path = files
    generalize wildcard "/v1/meta/".toList path = info
    generalize wildcard "/v1/ls/".toList path = listed
    generalize exactly "/v1/ls/".toList path = root
    cases files <;> cases info <;> cases listed <;> cases root <;> simp
  | stat =>
    have own := @wildcard_eq_some_iff "/v1/meta/".toList path raw
    refine Iff.trans ⟨fun matched => ?_, fun matched => ?_⟩ own
    · simp only [route, method, handler] at matched
      generalize wildcard "/v1/files/".toList path = files at matched
      generalize wildcard "/v1/meta/".toList path = info at matched ⊢
      generalize wildcard "/v1/ls/".toList path = listed at matched
      generalize exactly "/v1/ls/".toList path = root at matched
      cases files <;> cases info <;> cases listed <;> cases root <;> simp at matched ⊢ <;>
        exact matched
    · obtain ⟨rfl, -⟩ := own.mp matched
      have files : wildcard "/v1/files/".toList ("/v1/meta/".toList ++ raw) = none :=
        wildcard_eq_none 5 (by decide) (by decide) (by decide)
      simp only [route, method, handler, files, matched]
      rfl
  | list =>
    have own := @wildcard_eq_some_iff "/v1/ls/".toList path raw
    refine Iff.trans ⟨fun matched => ?_, fun matched => ?_⟩ own
    · simp only [route, method, handler] at matched
      generalize wildcard "/v1/files/".toList path = files at matched
      generalize wildcard "/v1/meta/".toList path = info at matched
      generalize wildcard "/v1/ls/".toList path = listed at matched ⊢
      generalize exactly "/v1/ls/".toList path = root at matched
      cases files <;> cases info <;> cases listed <;> cases root <;> simp at matched ⊢ <;>
        exact matched
    · obtain ⟨rfl, -⟩ := own.mp matched
      have files : wildcard "/v1/files/".toList ("/v1/ls/".toList ++ raw) = none :=
        wildcard_eq_none 5 (by decide) (by decide) (by decide)
      have info : wildcard "/v1/meta/".toList ("/v1/ls/".toList ++ raw) = none :=
        wildcard_eq_none 5 (by decide) (by decide) (by decide)
      simp only [route, method, handler, files, info, matched]
      rfl

end ClientOp

namespace ClientOp

open HttpApi Lib.Url

variable {op : ClientOp} {p : FvfsPath}

theorem received_iff (op : ClientOp) (p : FvfsPath) :
    received (op.request p) = some (op.handler, p) ↔
      ∃ raw u, text (join (op.stem ++ p.text)) = '/' :: (op.stem ++ '/' :: raw) ∧ raw ≠ [] ∧
        extract raw = some u ∧ parsePath u = .ok p := by
  have obtained (raw : Text) : handlerPath op.handler raw = some p ↔
      ∃ u, extract raw = some u ∧ parsePath u = .ok p := by
    have refused (u : Text) : (parsePath u).toOption = some p ↔ parsePath u = .ok p := by
      cases parsePath u <;> simp [Except.toOption]
    cases op <;> simp [handlerPath, handler, Option.bind_eq_some_iff, refused]
  rw [request_eq]
  unfold received
  constructor
  · intro reached
    obtain ⟨⟨handler, raw⟩, matched, found⟩ := Option.bind_eq_some_iff.mp reached
    obtain ⟨q, path, same⟩ := Option.map_eq_some_iff.mp found
    obtain ⟨rfl, rfl⟩ := Prod.mk.inj same
    obtain ⟨whole, nonempty⟩ := (route_iff op).mp matched
    obtain ⟨u, decoded, parsed⟩ := (obtained raw).mp path
    exact ⟨raw, u, whole, nonempty, decoded, parsed⟩
  · rintro ⟨raw, u, whole, nonempty, decoded, parsed⟩
    have matched := (route_iff op).mpr ⟨whole, nonempty⟩
    have path := (obtained raw).mpr ⟨u, decoded, parsed⟩
    simp only [matched, Option.bind_some, path, Option.map_some]

/-- The route's part means nothing to the parser either. -/
theorem stem_plain (op : ClientOp) :
    '%' ∉ op.stem ∧ '\\' ∉ op.stem ∧ '?' ∉ op.stem ∧ '#' ∉ op.stem ∧
    (∀ c ∈ op.stem, tabOrNewline c = false) ∧
    (∀ segment ∈ op.stem.splitOn '/', segment ≠ ['.'] ∧ segment ≠ ['.', '.']) ∧
    encode pathSet op.stem = op.stem := by
  have breaks : op.stem.all (fun c => !tabOrNewline c) := by cases op <;> decide
  have no_breaks : ∀ c ∈ op.stem, tabOrNewline c = false := by simpa using breaks
  have others : '%' ∉ op.stem ∧ '\\' ∉ op.stem ∧ '?' ∉ op.stem ∧ '#' ∉ op.stem ∧
      (∀ segment ∈ op.stem.splitOn '/', segment ≠ ['.'] ∧ segment ≠ ['.', '.']) ∧
      encode pathSet op.stem = op.stem := by
    cases op <;> decide
  obtain ⟨percent, back, query, fragment, rest⟩ := others
  exact ⟨percent, back, query, fragment, no_breaks, rest⟩

theorem head_stem (op : ClientOp) (s : Text) : (op.stem ++ s).head? = some 'v' := by
  cases op <;> rfl

theorem plain_of_received (reached : received (op.request p) = some (op.handler, p)) : p.Plain := by
  obtain ⟨raw, u, whole, nonempty, decoded, parsed⟩ := (received_iff op p).mp reached
  obtain ⟨percent, back, -, -, -, -, encoded⟩ := stem_plain op
  have kept := FvfsPath.parsePath_sublist parsed
  have bytes : utf8 u = decode raw := Lib.Percent.utf8_of_fromUtf8 decoded
  have one : ('/' : Char).utf8Size = 1 := rfl
  have split : decode (op.stem ++ '/' :: raw) = utf8 (op.stem ++ '/' :: u) := by
    rw [decode_slash, Lib.Percent.decode_eq (Lib.Percent.not_hasEscape percent), ← bytes]
    simp
  -- nothing was lost on the way: the path obtained is no longer than what was decoded
  have long : size (op.stem ++ p.text) + 1 ≤ extent (join (op.stem ++ p.text)) := by
    have shorter := size_of_sublist kept
    have front := decode_slash [] (op.stem ++ '/' :: raw)
    rw [List.nil_append, split] at front
    have length := congrArg List.length front
    simp only [decode, List.nil_append, List.length_append, String.length_utf8EncodeChar] at length
    rw [← whole, decode_text] at length
    change extent _ = _ + size (op.stem ++ '/' :: u) at length
    rw [Lib.Percent.size_append, Lib.Percent.size_cons] at length
    rw [Lib.Percent.size_cons] at shorter
    rw [Lib.Percent.size_append]
    omega
  obtain ⟨ends, path, escapes, joined⟩ := kept_of_extent long
  have same : (op.stem ++ p.text).map slash = op.stem ++ '/' :: u := by
    rw [joined, text_encode, text_splitOn, encode_cons, encodeChar_plain (by decide)] at whole
    have rest : encode pathSet ((op.stem ++ p.text).map slash) = op.stem ++ '/' :: raw :=
      (List.cons.inj whole).2
    apply Lib.Percent.utf8_injective
    rw [← split, ← rest, decode_encode pathSet_sparing, Lib.Percent.decode_eq escapes]
  have no_backslash : '\\' ∉ p.text := by
    intro inside
    have here : '\\' ∈ (op.stem ++ p.text).map slash := by
      rw [same]
      exact List.mem_append_right _ (kept.subset inside)
    obtain ⟨c, -, back⟩ := List.mem_map.mp here
    exact Lib.Url.slash_ne c back
  have clean : '\\' ∉ op.stem ++ p.text := by simp [back, no_backslash]
  rw [map_slash clean] at escapes
  obtain ⟨-, last, breaks⟩ := strip_eq_self_iff.mp ends
  obtain ⟨query, fragment⟩ := pathPart_eq_self_iff.mp path
  refine ⟨fun inside => query ?_, fun inside => fragment ?_, no_backslash, fun c inside => ?_,
    fun escaped => escapes ?_, fun c ending => ?_⟩
  · exact List.mem_append_right _ inside
  · exact List.mem_append_right _ inside
  · exact breaks c (List.mem_append_right _ inside)
  · obtain ⟨tail, suffix, escape⟩ := escaped
    exact ⟨tail, suffix.trans (List.suffix_append _ _), escape⟩
  · exact last c (by simp [List.getLast?_append, ending])

/-- The text of a path other than the root, after its first slash. -/
theorem text_of_not_root (canonical : p.Canonical) (not_root : p ≠ .root) :
    ∃ rest, p.text = '/' :: rest ∧ rest ≠ [] ∧ rest.dropWhile (· == '/') = rest ∧
      ∀ segment ∈ rest.splitOn '/', FvfsPath.Segment segment := by
  obtain ⟨components, valid, text⟩ := canonical
  have some_part : components ≠ [] := by
    rintro rfl
    exact not_root (FvfsPath.ext text)
  have split : (['/'].intercalate components).splitOn '/' = components :=
    List.splitOn_intercalate _ (fun part member => (valid part member).no_slash) some_part
  have trimmed := FvfsPath.trim_render valid
  rw [FvfsPath.render, if_neg some_part] at text trimmed
  change _ = ['/'].intercalate components at trimmed
  refine ⟨['/'].intercalate components, text, fun empty => ?_, ?_, fun segment inside => ?_⟩
  · rw [empty, List.splitOn_nil] at split
    exact (valid [] (by simp [← split])).nonempty rfl
  · rw [← trimmed, List.dropWhile_idempotent]
  · rw [split] at inside
    exact valid segment inside

theorem received_of_plain (canonical : p.Canonical) (not_root : p ≠ .root) (plain : p.Plain) :
    received (op.request p) = some (op.handler, p) := by
  obtain ⟨rest, text, nonempty, trimmed, valid⟩ := text_of_not_root canonical not_root
  obtain ⟨percent, back, query, fragment, breaks, dots, encoded⟩ := stem_plain op
  have escapes : ¬HasEscape rest := by
    intro escaped
    refine plain.no_escape ?_
    rw [text, Lib.Percent.hasEscape_cons]
    exact Or.inr escaped
  have clean : Clean (op.stem ++ p.text) := by
    refine ⟨strip_eq_self_iff.mpr ⟨fun c first => ?_, fun c last => ?_, fun c inside => ?_⟩,
      pathPart_eq_self_iff.mpr ⟨?_, ?_⟩, ?_, fun escaped => ?_, fun segment inside => ?_⟩
    · rw [head_stem, Option.some.injEq] at first
      rw [← first]
      rfl
    · refine plain.ending c ?_
      rw [text] at last ⊢
      simpa [List.getLast?_append] using last
    · rcases List.mem_append.mp inside with stem | path
      · exact breaks c stem
      · exact plain.no_break c path
    · simp [query, plain.no_query]
    · simp [fragment, plain.no_fragment]
    · simp [back, plain.no_backslash]
    · rw [text, Lib.Percent.hasEscape_append (by decide) (by decide)] at escaped
      exact escaped.elim (Lib.Percent.not_hasEscape percent) escapes
    · rw [text, splitOn_slash, List.mem_append] at inside
      rcases inside with stem | path
      · exact dots segment stem
      · exact ⟨(valid segment path).not_dot, (valid segment path).not_dots⟩
  have decoded : decode (encode pathSet rest) = utf8 rest := by
    rw [decode_encode pathSet_sparing, Lib.Percent.decode_eq escapes]
  refine (received_iff op p).mpr ⟨encode pathSet rest, rest, ?_, ?_, ?_, ?_⟩
  · rw [text_join clean, text, Lib.Percent.encode_append, encoded, encode_cons,
      encodeChar_plain (by decide)]
    rfl
  · intro empty
    rw [empty] at decoded
    exact nonempty (Lib.Percent.utf8_injective decoded.symm)
  · rw [extract, decoded, Lib.Percent.fromUtf8_utf8]
  · rw [parsePath, trimmed, ← text]
    exact FvfsPath.new_of_canonical canonical

/-- The daemon obtains the path the client named exactly where the URL parser has nothing
to do with it. -/
theorem received_iff_plain (op : ClientOp) (p : FvfsPath) (canonical : p.Canonical)
    (not_root : p ≠ .root) :
    received (op.request p) = some (op.handler, p) ↔ p.Plain :=
  ⟨plain_of_received, received_of_plain canonical not_root⟩

/-- Characters the URL encodes: a space, accents, a percent sign without digits. -/
theorem received_encoded :
    received (put.request ⟨"/a b/été 5%".toList⟩) = some (put.handler, ⟨"/a b/été 5%".toList⟩) :=
  (received_iff_plain .put ⟨"/a b/été 5%".toList⟩ (by decide) (by decide)).mpr (by decide)

/-- A `put` of `/a?b` writes `/a`. -/
theorem put_loses_query :
    received (VfsdClient.put ⟨"/a?b".toList⟩) = some (.putFile, ⟨"/a".toList⟩) ∧
    ¬∀ (op : ClientOp) (p : FvfsPath), p.Canonical → p ≠ .root →
      received (op.request p) = some (op.handler, p) := by
  refine ⟨by decide, fun all => ?_⟩
  have agreed := all .put ⟨"/a?b".toList⟩ (by decide) (by decide)
  exact absurd agreed (by decide)

end ClientOp

end Fvfs
