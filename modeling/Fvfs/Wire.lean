import Fvfs.Listing
import Fvfs.PathSources

/-! What goes over HTTP as JSON: the structs of the API, as their derived `Serialize` writes
and their derived `Deserialize` reads them. -/
namespace Fvfs

/-- A struct with derived instances: its fields, their values, and the struct they make. -/
structure Record (α : Type) where
  fields : List JsonField
  values : α → List Json
  ofValues : List Json → Option α

namespace Record

variable {α : Type}

def names (R : Record α) : List Text := R.fields.map JsonField.name

def members (R : Record α) (a : α) : List (Text × Json) := R.names.zip (R.values a)

def toJson (R : Record α) (a : α) : Json := .obj (R.members a)

def ofJson (R : Record α) (json : Json) : Option α := (json.fieldValues R.fields).bind R.ofValues

/-- The two instances fit together: the fields are apart, and each takes its value exactly
where the struct's own types hold it. -/
structure Lawful (R : Record α) (range : α → Prop) : Prop where
  apart : R.names.Nodup
  length : ∀ a, (R.values a).length = R.fields.length
  accepts : ∀ a, (∀ x ∈ R.fields.zip (R.values a), x.1.accepts x.2 = true) ↔ range a
  back : ∀ a, range a → R.ofValues (R.values a) = some a

theorem filter_zip {names : List Text} {values : List Json} (apart : names.Nodup) {n : Text}
    {x : Json} (here : (n, x) ∈ names.zip values) :
    ((names.zip values).filter fun m => m.1 = n) = [(n, x)] := by
  induction names generalizing values with
  | nil => simp at here
  | cons name names ih =>
    obtain ⟨fresh, apart⟩ := List.nodup_cons.mp apart
    cases values with
    | nil => simp at here
    | cons value values =>
      rw [List.zip_cons_cons, List.mem_cons] at here
      rcases here with first | later
      · obtain ⟨rfl, rfl⟩ := Prod.mk.inj first
        have none : ((names.zip values).filter fun m => m.1 = n) = [] := by
          rw [List.filter_eq_nil_iff]
          rintro ⟨name, value⟩ member same
          simp only [decide_eq_true_eq] at same
          exact fresh (same ▸ (List.of_mem_zip member).1)
        simp [none]
      · have other : name ≠ n := fun same => fresh (same ▸ (List.of_mem_zip later).1)
        simp [other, ih apart later]

/-- Where each field finds its one value, the values are read or one of them is refused. -/
theorem mapM_value {members : List (Text × Json)} {found : List (JsonField × Json)}
    (single : ∀ x ∈ found, (members.filter fun m => m.1 = x.1.name) = [(x.1.name, x.2)]) :
    ((found.map Prod.fst).mapM fun f => f.value members) =
      if (∀ x ∈ found, x.1.accepts x.2 = true) then some (found.map Prod.snd) else none := by
  induction found with
  | nil => rfl
  | cons x rest ih =>
    have here := single x List.mem_cons_self
    have later := ih fun y member => single y (List.mem_cons_of_mem x member)
    have first : x.1.value members = if x.1.accepts x.2 then some x.2 else none := by
      simp only [JsonField.value, here]
    simp only [List.map_cons, List.mapM_cons, first, later]
    by_cases own : x.1.accepts x.2 = true
    · by_cases others : ∀ y ∈ rest, y.1.accepts y.2 = true
      · have all : ∀ y ∈ x :: rest, y.1.accepts y.2 = true := by
          simpa only [List.mem_cons, forall_eq_or_imp] using ⟨own, others⟩
        simp only [if_pos own, if_pos others, if_pos all]
        rfl
      · have some_not : ¬∀ y ∈ x :: rest, y.1.accepts y.2 = true := fun all =>
          others fun y member => all y (List.mem_cons_of_mem x member)
        simp only [if_pos own, if_neg others, if_neg some_not]
        rfl
    · have some_not : ¬∀ y ∈ x :: rest, y.1.accepts y.2 = true := fun all =>
        own (all x List.mem_cons_self)
      simp only [if_neg own, if_neg some_not]
      rfl

variable {R : Record α} {range : α → Prop} [DecidablePred range]

/-- The members may stand in any order, among any others. -/
theorem Lawful.ofJson_obj (lawful : R.Lawful range) (a : α) {members : List (Text × Json)}
    (extra : List (Text × Json))
    (order : members.Perm (R.members a ++ extra)) (foreign : ∀ m ∈ extra, m.1 ∉ R.names) :
    R.ofJson (.obj members) = if range a then some a else none := by
  have zipped : R.members a = (R.fields.zip (R.values a)).map fun x => (x.1.name, x.2) := by
    rw [Record.members, names, List.zip_map_left]
    rfl
  have single : ∀ x ∈ R.fields.zip (R.values a),
      (members.filter fun m => m.1 = x.1.name) = [(x.1.name, x.2)] := by
    intro x member
    have named : (x.1.name, x.2) ∈ R.members a :=
      zipped ▸ List.mem_map.mpr ⟨x, member, rfl⟩
    have others : (extra.filter fun m => m.1 = x.1.name) = [] := by
      rw [List.filter_eq_nil_iff]
      intro m inside same
      simp only [decide_eq_true_eq] at same
      refine foreign m inside (same ▸ ?_)
      exact (List.of_mem_zip named).1
    have perm := order.filter fun m => decide (m.1 = x.1.name)
    rw [List.filter_append, others, List.append_nil, Record.members,
      filter_zip lawful.apart named] at perm
    exact List.perm_singleton.mp perm
  have length : R.fields.length = (R.values a).length := (lawful.length a).symm
  have read := mapM_value single
  rw [List.map_fst_zip length.le, List.map_snd_zip length.ge] at read
  simp only [ofJson, Json.fieldValues, read]
  by_cases inside : range a
  · rw [if_pos ((lawful.accepts a).mpr inside), if_pos inside]
    exact lawful.back a inside
  · rw [if_neg fun all => inside ((lawful.accepts a).mp all), if_neg inside]
    rfl

theorem Lawful.ofJson_toJson (lawful : R.Lawful range) (a : α) :
    R.ofJson (R.toJson a) = if range a then some a else none :=
  lawful.ofJson_obj a [] (by simp) (by simp)

theorem Lawful.isSome_ofJson (lawful : R.Lawful range) (a : α) :
    (R.ofJson (R.toJson a)).isSome = true ↔ range a := by
  rw [lawful.ofJson_toJson]
  by_cases inside : range a <;> simp [inside]

/-- An array of the values does too. -/
theorem Lawful.ofJson_arr (lawful : R.Lawful range) (a : α) :
    R.ofJson (.arr (R.values a)) = if range a then some a else none := by
  have all : ((R.fields.zip (R.values a)).all fun x => x.1.accepts x.2) = true ↔ range a := by
    rw [List.all_eq_true, ← lawful.accepts a]
  simp only [ofJson, Json.fieldValues, lawful.length a, true_and]
  by_cases inside : range a
  · rw [if_pos (all.mpr inside), if_pos inside]
    exact lawful.back a inside
  · rw [if_neg fun every => inside (all.mp every), if_neg inside]
    rfl

def toJsonList (R : Record α) (items : List α) : Json := .arr (items.map R.toJson)

def ofJsonList (R : Record α) : Json → Option (List α)
  | .arr items => items.mapM R.ofJson
  | _ => none

theorem Lawful.ofJsonList_toJsonList (lawful : R.Lawful range) (items : List α) :
    R.ofJsonList (R.toJsonList items) = if ∀ a ∈ items, range a then some items else none := by
  simp only [ofJsonList, toJsonList]
  induction items with
  | nil => rfl
  | cons a rest ih =>
    simp only [List.map_cons, List.mapM_cons, lawful.ofJson_toJson, ih, List.mem_cons,
      forall_eq_or_imp]
    by_cases own : range a
    · by_cases others : ∀ b ∈ rest, range b
      · simp only [if_pos own, if_pos others, if_pos (And.intro own others)]
        rfl
      · simp only [if_pos own, if_neg others, if_neg fun both : _ ∧ _ => others both.2]
        rfl
    · simp only [if_neg own, if_neg fun both : _ ∧ _ => own both.1]
      rfl

end Record

namespace Json

def text? : Json → Option Text
  | .str t => some t
  | _ => none

def int? : Json → Option Int
  | .int n => some n
  | _ => none

/-- Counts are unsigned, and row ids, which the structs hold as `i64`, start at 1: none is
negative. -/
def nat? : Json → Option Nat
  | .int n => if 0 ≤ n then some n.toNat else none
  | _ => none

def optionalText : Option Text → Json
  | none => .null
  | some t => .str t

def optionalText? : Json → Option (Option Text)
  | .null => some none
  | .str t => some (some t)
  | _ => none

/-- A unit variant, in either of its two forms. -/
def variant? (json : Json) : Option Text :=
  match json with
  | .str t => some t
  | .obj [(t, .null)] => some t
  | _ => none

@[simp] theorem text?_str (t : Text) : text? (.str t) = some t := rfl
@[simp] theorem int?_int (n : Int) : int? (.int n) = some n := rfl
@[simp] theorem nat?_int (n : Nat) : nat? (.int n) = some n := by simp [nat?]
@[simp] theorem variant?_str (t : Text) : variant? (.str t) = some t := rfl

@[simp] theorem optionalText?_optionalText (t : Option Text) :
    optionalText? (optionalText t) = some t := by
  cases t <;> rfl

end Json

namespace JsonField

def walOp (name : Text) : JsonField where
  name := name
  accepts
    | .str t => t = "replicate_nas".toList ∨ t = "upload_s3".toList
    | .obj [(t, .null)] => t = "replicate_nas".toList ∨ t = "upload_s3".toList
    | _ => false
  optional := false

/-- A sequence of structs. -/
def sequence (R : Record α) (name : Text) : JsonField where
  name := name
  accepts
    | .arr items => items.all fun item => (R.ofJson item).isSome
    | _ => false
  optional := false

theorem sequence_accepts {R : Record α} {range : α → Prop} [DecidablePred range]
    (lawful : R.Lawful range) (name : Text) (items : List α) :
    (sequence R name).accepts (R.toJsonList items) = true ↔ ∀ a ∈ items, range a := by
  change ((items.map R.toJson).all fun item => (R.ofJson item).isSome) = true ↔ _
  rw [List.all_map, List.all_eq_true]
  exact forall₂_congr fun a _ => lawful.isSome_ofJson a

@[simp] theorem integer_accepts (name : Text) (least bound n : Int) :
    (integer name least bound).accepts (.int n) = decide (least ≤ n ∧ n < bound) := rfl
@[simp] theorem string_accepts (name t : Text) : (string name).accepts (.str t) = true := rfl
@[simp] theorem optionalString_accepts (name : Text) (t : Option Text) :
    (optionalString name).accepts (.optionalText t) = true := by
  cases t <;> rfl

end JsonField

def EntryKind.tag : EntryKind → Text
  | file => "file".toList
  | directory => "directory".toList

def EntryKind.ofTag (t : Text) : Option EntryKind :=
  if t = "file".toList then some .file
  else if t = "directory".toList then some .directory
  else none

/-- `WalOp::as_str`, and the tag of the variant. -/
def WalOp.asStr : WalOp → Text
  | replicateNas => "replicate_nas".toList
  | uploadS3 => "upload_s3".toList

def WalOp.tryFrom (t : Text) : Outcome WalOp :=
  if t = "replicate_nas".toList then .ok .replicateNas
  else if t = "upload_s3".toList then .ok .uploadS3
  else .error (.wal ("unknown WAL op: ".toList ++ t))

@[simp] theorem EntryKind.ofTag_tag (k : EntryKind) : ofTag k.tag = some k := by
  cases k <;> rfl

@[simp] theorem WalOp.tryFrom_asStr (op : WalOp) : tryFrom op.asStr = .ok op := by
  cases op <;> rfl

@[simp] theorem JsonField.entryKind_accepts (name : Text) (k : EntryKind) :
    (entryKind name).accepts (.str k.tag) = true := by
  cases k <;> rfl

@[simp] theorem JsonField.walOp_accepts (name : Text) (op : WalOp) :
    (walOp name).accepts (.str op.asStr) = true := by
  cases op <;> rfl

def InI64 (n : Int) : Prop := -2 ^ 63 ≤ n ∧ n < 2 ^ 63

instance : DecidablePred InI64 := fun n => inferInstanceAs (Decidable (-2 ^ 63 ≤ n ∧ n < 2 ^ 63))

namespace FileMetadata

def ofJsonValues : List Json → Option FileMetadata
  | [id, path, kind, sizeBytes, sha256, tierBitmask, createdAt, modifiedAt, accessedAt,
      accessCount30d, mimeType] => do
    some {
      id := ← id.nat?
      path := ⟨← path.text?⟩
      kind := ← kind.variant?.bind EntryKind.ofTag
      sizeBytes := ← sizeBytes.nat?
      sha256 := ← sha256.text?
      tierBitmask := ⟨.ofNat 8 (← tierBitmask.nat?)⟩
      createdAt := ← createdAt.int?
      modifiedAt := ← modifiedAt.int?
      accessedAt := ← accessedAt.int?
      accessCount30d := ← accessCount30d.nat?
      mimeType := ← mimeType.optionalText? }
  | _ => none

def record : Record FileMetadata where
  fields := jsonFields
  values m := [.int m.id, .str m.path.text, .str m.kind.tag, .int m.sizeBytes, .str m.sha256,
    .int m.tierBitmask.bits.toNat, .int m.createdAt, .int m.modifiedAt, .int m.accessedAt,
    .int m.accessCount30d, .optionalText m.mimeType]
  ofValues := ofJsonValues

def InRange (m : FileMetadata) : Prop :=
  m.id < 2 ^ 63 ∧ m.sizeBytes < 2 ^ 64 ∧ InI64 m.createdAt ∧ InI64 m.modifiedAt ∧
    InI64 m.accessedAt ∧ m.accessCount30d < 2 ^ 32

instance : DecidablePred InRange := fun _ => inferInstanceAs (Decidable (_ ∧ _))

theorem record_lawful : record.Lawful InRange where
  apart := by decide
  length _ := rfl
  accepts m := by
    have bits := m.tierBitmask.bits.isLt
    simp [record, jsonFields, JsonField.i64, JsonField.u64, JsonField.u32, JsonField.u8, InRange,
      InI64]
    omega
  back m _ := by simp [record, ofJsonValues]

end FileMetadata

namespace FileEntry

def ofJsonValues : List Json → Option FileEntry
  | [path, kind, sizeBytes, modifiedAt, tierBitmask] => do
    some {
      path := ⟨← path.text?⟩
      kind := ← kind.variant?.bind EntryKind.ofTag
      sizeBytes := ← sizeBytes.nat?
      modifiedAt := ← modifiedAt.int?
      tierBitmask := ⟨.ofNat 8 (← tierBitmask.nat?)⟩ }
  | _ => none

def record : Record FileEntry where
  fields := jsonFields
  values e := [.str e.path.text, .str e.kind.tag, .int e.sizeBytes, .int e.modifiedAt,
    .int e.tierBitmask.bits.toNat]
  ofValues := ofJsonValues

def InRange (e : FileEntry) : Prop := e.sizeBytes < 2 ^ 64 ∧ InI64 e.modifiedAt

instance : DecidablePred InRange := fun _ => inferInstanceAs (Decidable (_ ∧ _))

theorem record_lawful : record.Lawful InRange where
  apart := by decide
  length _ := rfl
  accepts e := by
    have bits := e.tierBitmask.bits.isLt
    simp [record, jsonFields, JsonField.i64, JsonField.u64, JsonField.u8, InRange, InI64]
    omega
  back e _ := by simp [record, ofJsonValues]

end FileEntry

namespace WalEntry

def jsonFields : List JsonField :=
  [.i64 "id".toList, .i64 "file_id".toList, .walOp "op".toList, .i64 "enqueued_at".toList,
    .u32 "attempts".toList, .optionalString "last_error".toList]

def ofJsonValues : List Json → Option WalEntry
  | [id, fileId, op, enqueuedAt, attempts, lastError] => do
    some {
      id := ← id.nat?
      fileId := ← fileId.nat?
      op := ← op.variant?.bind fun tag => (WalOp.tryFrom tag).toOption
      enqueuedAt := ← enqueuedAt.int?
      attempts := ← attempts.nat?
      lastError := ← lastError.optionalText? }
  | _ => none

def record : Record WalEntry where
  fields := jsonFields
  values e := [.int e.id, .int e.fileId, .str e.op.asStr, .int e.enqueuedAt, .int e.attempts,
    .optionalText e.lastError]
  ofValues := ofJsonValues

def InRange (e : WalEntry) : Prop :=
  e.id < 2 ^ 63 ∧ e.fileId < 2 ^ 63 ∧ InI64 e.enqueuedAt ∧ e.attempts < 2 ^ 32

instance : DecidablePred InRange := fun _ => inferInstanceAs (Decidable (_ ∧ _))

theorem record_lawful : record.Lawful InRange where
  apart := by decide
  length _ := rfl
  accepts e := by simp [record, jsonFields, JsonField.i64, JsonField.u32, InRange, InI64]
  back e _ := by simp [record, ofJsonValues, Except.toOption]

end WalEntry

structure DeviceInfo where
  id : Nat
  name : Text
  mdnsName : Text
  lastSeenAt : Int
  ip : Text
  deriving DecidableEq

namespace DeviceInfo

def jsonFields : List JsonField :=
  [.i64 "id".toList, .string "name".toList, .string "mdns_name".toList, .i64 "last_seen_at".toList,
    .string "ip".toList]

def ofJsonValues : List Json → Option DeviceInfo
  | [id, name, mdnsName, lastSeenAt, ip] => do
    some {
      id := ← id.nat?
      name := ← name.text?
      mdnsName := ← mdnsName.text?
      lastSeenAt := ← lastSeenAt.int?
      ip := ← ip.text? }
  | _ => none

def record : Record DeviceInfo where
  fields := jsonFields
  values d := [.int d.id, .str d.name, .str d.mdnsName, .int d.lastSeenAt, .str d.ip]
  ofValues := ofJsonValues

def InRange (d : DeviceInfo) : Prop := d.id < 2 ^ 63 ∧ InI64 d.lastSeenAt

instance : DecidablePred InRange := fun _ => inferInstanceAs (Decidable (_ ∧ _))

theorem record_lawful : record.Lawful InRange where
  apart := by decide
  length _ := rfl
  accepts d := by simp [record, jsonFields, JsonField.i64, InRange, InI64]
  back d _ := by simp [record, ofJsonValues]

end DeviceInfo

structure TierStats where
  name : Text
  files : Nat
  bytes : Nat
  deriving DecidableEq

namespace TierStats

def jsonFields : List JsonField :=
  [.string "name".toList, .u64 "files".toList, .u64 "bytes".toList]

def ofJsonValues : List Json → Option TierStats
  | [name, files, bytes] => do
    some { name := ← name.text?, files := ← files.nat?, bytes := ← bytes.nat? }
  | _ => none

def record : Record TierStats where
  fields := jsonFields
  values s := [.str s.name, .int s.files, .int s.bytes]
  ofValues := ofJsonValues

def InRange (s : TierStats) : Prop := s.files < 2 ^ 64 ∧ s.bytes < 2 ^ 64

instance : DecidablePred InRange := fun _ => inferInstanceAs (Decidable (_ ∧ _))

theorem record_lawful : record.Lawful InRange where
  apart := by decide
  length _ := rfl
  accepts s := by simp [record, jsonFields, JsonField.u64, InRange]
  back s _ := by simp [record, ofJsonValues]

end TierStats

structure DaemonStatus where
  version : Text
  uptimeSecs : Nat
  tiers : List TierStats
  walPending : Nat
  deriving DecidableEq

namespace DaemonStatus

def jsonFields : List JsonField :=
  [.string "version".toList, .u64 "uptime_secs".toList,
    .sequence TierStats.record "tiers".toList, .u64 "wal_pending".toList]

def ofJsonValues : List Json → Option DaemonStatus
  | [version, uptimeSecs, tiers, walPending] => do
    some {
      version := ← version.text?
      uptimeSecs := ← uptimeSecs.nat?
      tiers := ← TierStats.record.ofJsonList tiers
      walPending := ← walPending.nat? }
  | _ => none

def record : Record DaemonStatus where
  fields := jsonFields
  values s := [.str s.version, .int s.uptimeSecs, TierStats.record.toJsonList s.tiers,
    .int s.walPending]
  ofValues := ofJsonValues

def InRange (s : DaemonStatus) : Prop :=
  s.uptimeSecs < 2 ^ 64 ∧ (∀ t ∈ s.tiers, t.InRange) ∧ s.walPending < 2 ^ 64

instance : DecidablePred InRange := fun _ => inferInstanceAs (Decidable (_ ∧ _))

theorem record_lawful : record.Lawful InRange where
  apart := by decide
  length _ := rfl
  accepts s := by
    have tiers := JsonField.sequence_accepts TierStats.record_lawful "tiers".toList s.tiers
    simp only [record, jsonFields, List.zip_cons_cons, List.zip_nil_right, List.mem_cons,
      List.not_mem_nil, or_false, forall_eq_or_imp, forall_eq, tiers]
    simp [JsonField.u64, InRange]
  back s inside := by
    have tiers := TierStats.record_lawful.ofJsonList_toJsonList s.tiers
    rw [if_pos inside.2.1] at tiers
    simp [record, ofJsonValues, tiers]

end DaemonStatus

/-- Whatever the order of the members and whatever else stands between them, or as an array,
or in a sequence, a value comes back exactly where the struct's types hold it. -/
structure Record.RoundTrips {α : Type} (R : Record α) (range : α → Prop) [DecidablePred range] :
    Prop where
  obj : ∀ a members extra, members.Perm (R.members a ++ extra) → (∀ m ∈ extra, m.1 ∉ R.names) →
    R.ofJson (.obj members) = if range a then some a else none
  arr : ∀ a, R.ofJson (.arr (R.values a)) = if range a then some a else none
  sequence : ∀ items, R.ofJsonList (R.toJsonList items) =
    if ∀ a ∈ items, range a then some items else none

theorem Record.Lawful.roundTrips {α : Type} {R : Record α} {range : α → Prop}
    [DecidablePred range] (lawful : R.Lawful range) : R.RoundTrips range where
  obj a _ extra order foreign := lawful.ofJson_obj a extra order foreign
  arr a := lawful.ofJson_arr a
  sequence items := lawful.ofJsonList_toJsonList items

/-- Every struct of the API comes back as it was sent. -/
theorem api_round_trips :
    FileMetadata.record.RoundTrips FileMetadata.InRange ∧
    FileEntry.record.RoundTrips FileEntry.InRange ∧
    WalEntry.record.RoundTrips WalEntry.InRange ∧
    DeviceInfo.record.RoundTrips DeviceInfo.InRange ∧
    TierStats.record.RoundTrips TierStats.InRange ∧
    DaemonStatus.record.RoundTrips DaemonStatus.InRange :=
  ⟨FileMetadata.record_lawful.roundTrips, FileEntry.record_lawful.roundTrips,
    WalEntry.record_lawful.roundTrips, DeviceInfo.record_lawful.roundTrips,
    TierStats.record_lawful.roundTrips, DaemonStatus.record_lawful.roundTrips⟩

end Fvfs
