import Fvfs.Store

/-! Where `FvfsPath` values come from: the constructor, joining, going up, the rows of the
store, and what a derived `Deserialize` builds from JSON. -/
namespace Fvfs

inductive Json where
  | null
  | bool (b : Bool)
  | int (n : Int)
  /-- A number with a fraction or an exponent. -/
  | float (digits : Text)
  | str (t : Text)
  | arr (items : List Json)
  | obj (members : List (Text × Json))

/-- A field of a derived `Deserialize`: what its type takes, and whether it may be missing. -/
structure JsonField where
  name : Text
  accepts : Json → Bool
  optional : Bool

namespace JsonField

def integer (name : Text) (least bound : Int) : JsonField where
  name := name
  accepts
    | .int n => decide (least ≤ n ∧ n < bound)
    | _ => false
  optional := false

def u8 (name : Text) : JsonField := integer name 0 (2 ^ 8)
def u32 (name : Text) : JsonField := integer name 0 (2 ^ 32)
def u64 (name : Text) : JsonField := integer name 0 (2 ^ 64)
def i64 (name : Text) : JsonField := integer name (-2 ^ 63) (2 ^ 63)

def string (name : Text) : JsonField where
  name := name
  accepts
    | .str _ => true
    | _ => false
  optional := false

def optionalString (name : Text) : JsonField where
  name := name
  accepts
    | .null => true
    | .str _ => true
    | _ => false
  optional := true

/-- A unit variant stands for itself, or as the only key of an object. -/
def entryKind (name : Text) : JsonField where
  name := name
  accepts
    | .str t => t = "file".toList ∨ t = "directory".toList
    | .obj [(t, .null)] => t = "file".toList ∨ t = "directory".toList
    | _ => false
  optional := false

/-- The value a struct's object has for the field: keys of no field are ignored, and a key
may not stand twice. -/
def value (f : JsonField) (members : List (Text × Json)) : Option Json :=
  match members.filter fun m => m.1 = f.name with
  | [] => if f.optional then some .null else none
  | [m] => if f.accepts m.2 then some m.2 else none
  | _ => none

end JsonField

/-- The fields' values of a struct, given as an object or as the array of its fields. -/
def Json.fieldValues (fields : List JsonField) : Json → Option (List Json)
  | .obj members => fields.mapM fun f => f.value members
  | .arr items =>
    if items.length = fields.length ∧ ((fields.zip items).all fun x => x.1.accepts x.2) then some items
    else none
  | _ => none

def FileMetadata.jsonFields : List JsonField :=
  [.i64 "id".toList, .string "path".toList, .entryKind "kind".toList, .u64 "size_bytes".toList,
    .string "sha256".toList, .u8 "tier_bitmask".toList, .i64 "created_at".toList,
    .i64 "modified_at".toList, .i64 "accessed_at".toList, .u32 "access_count_30d".toList,
    .optionalString "mime_type".toList]

def FileEntry.jsonFields : List JsonField :=
  [.string "path".toList, .entryKind "kind".toList, .u64 "size_bytes".toList,
    .i64 "modified_at".toList, .u8 "tier_bitmask".toList]

namespace FvfsPath

/-- The derived `Deserialize` builds the tuple struct from the string as it is. -/
def deserialize : Json → Option FvfsPath
  | .str t => some ⟨t⟩
  | _ => none

/-- What is deserialised, and as which type. -/
inductive Received where
  | path (json : Json)
  | fileMetadata (json : Json)
  | fileEntry (json : Json)

/-- The value of the path in what is deserialised, where all of it is accepted. -/
def Received.pathJson : Received → Option Json
  | path json => some json
  | fileMetadata json => (json.fieldValues FileMetadata.jsonFields).bind fun values => values[1]?
  | fileEntry json => (json.fieldValues FileEntry.jsonFields).bind fun values => values[0]?

def Received.deserialize (x : Received) : Option FvfsPath := x.pathJson.bind FvfsPath.deserialize

/-- The values any finite combination of the constructors builds. -/
inductive Obtained (received : Received → Prop) : FvfsPath → Prop
  | new {raw : Text} {p : FvfsPath} (built : FvfsPath.new raw = .ok p) : Obtained received p
  | join {p q : FvfsPath} {segment : Text} (from_path : Obtained received p)
      (joined : p.join segment = .ok q) : Obtained received q
  | parent {p q : FvfsPath} (from_path : Obtained received p) (up : p.parent = some q) :
      Obtained received q
  | row (id : Nat) (r : FileRow) : Obtained received (Store.rowToMetadata id r).path
  | deserialized {x : Received} {p : FvfsPath} (input : received x) (built : x.deserialize = some p) :
      Obtained received p

/-- Whatever text a row has, its path is canonical. -/
theorem rowToMetadata_canonical (id : Nat) (r : FileRow) :
    (Store.rowToMetadata id r).path.Canonical := by
  unfold Store.rowToMetadata
  cases built : new r.path with
  | ok p => exact new_canonical built
  | error e => exact root_canonical

theorem deserialize_eq_some_iff {json : Json} {p : FvfsPath} :
    deserialize json = some p ↔ json = .str p.text := by
  cases json with
  | str t => simp [deserialize, FvfsPath.ext_iff]
  | null | bool | int | float | arr | obj => simp [deserialize]

theorem Received.deserialize_eq_some_iff {x : Received} {p : FvfsPath} :
    x.deserialize = some p ↔ x.pathJson = some (.str p.text) := by
  unfold Received.deserialize
  rw [Option.bind_eq_some_iff]
  constructor
  · rintro ⟨json, found, text⟩
    rwa [FvfsPath.deserialize_eq_some_iff.mp text] at found
  · intro found
    exact ⟨_, found, FvfsPath.deserialize_eq_some_iff.mpr rfl⟩

/-- Every value obtained is canonical exactly when every path text received is. -/
theorem obtained_canonical_iff (received : Received → Prop) :
    (∀ p, Obtained received p → p.Canonical) ↔
      ∀ x t, received x → x.pathJson = some (.str t) → new t = .ok ⟨t⟩ := by
  constructor
  · intro closed x t input text
    have built : x.deserialize = some ⟨t⟩ := Received.deserialize_eq_some_iff.mpr text
    exact canonical_iff_new.mp (closed ⟨t⟩ (.deserialized input built))
  · intro normalized p obtained
    induction obtained with
    | new built => exact new_canonical built
    | join _ joined => exact join_canonical joined
    | parent _ up ih => exact parent_canonical ih up
    | row id r => exact rowToMetadata_canonical id r
    | @deserialized x p input built =>
      exact canonical_iff_new.mpr (normalized x p.text input
        (Received.deserialize_eq_some_iff.mp built))

/-- A listing entry whose path climbs out of the tree. -/
def climbingEntry : Json :=
  .obj [("path".toList, .str "/../x".toList), ("kind".toList, .str "file".toList),
    ("size_bytes".toList, .int 0), ("modified_at".toList, .int 0), ("tier_bitmask".toList, .int 0)]

theorem climbing_entry_obtained :
    ¬∀ p, Obtained (fun x => x = .fileEntry climbingEntry) p → p.Canonical := by
  intro closed
  have built : (Received.fileEntry climbingEntry).deserialize = some ⟨"/../x".toList⟩ := rfl
  have canonical := closed _ (.deserialized rfl built)
  revert canonical
  decide

end FvfsPath

end Fvfs
