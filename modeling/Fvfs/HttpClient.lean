import Fvfs.HttpApi

/-! The client's calls over HTTP, each of which may lose its request or its response on the
way, and the volume a client program works on through them. -/
namespace Fvfs

open Lib

inductive HttpCall where
  | put (p : FvfsPath) (data : Bytes)
  | get (p : FvfsPath)
  | delete (p : FvfsPath)
  | stat (p : FvfsPath)
  | list (p : FvfsPath)

namespace HttpCall

@[reducible] def Res : HttpCall → Type
  | put _ _ => Outcome Unit
  | get _ => Outcome Bytes
  | delete _ => Outcome Unit
  | stat _ => Outcome FileMetadata
  | list _ => Outcome (List FileEntry)

def op : HttpCall → ClientOp
  | put _ _ => .put
  | get _ => .get
  | delete _ => .delete
  | stat _ => .stat
  | list _ => .list

/-- The root has a route of its own. -/
def handler : HttpCall → FileHandler
  | put _ _ => .putFile
  | get _ => .getFile
  | delete _ => .deleteFile
  | stat _ => .getMeta
  | list p => if p = .root then .listRoot else .list

def path : HttpCall → FvfsPath
  | put p _ => p
  | get p => p
  | delete p => p
  | stat p => p
  | list p => p

def body : HttpCall → Bytes
  | put _ data => data
  | _ => []

def request (call : HttpCall) : HttpRequest :=
  ⟨(call.op.request call.path).1, (call.op.request call.path).2, call.body⟩

/-- The path means the same to the daemon, the root is only listed, and a file is put where
clients may put one. -/
structure Reaches (files : FvfsPath → Prop) (call : HttpCall) : Prop where
  path : (call.path.Canonical ∧ call.path.Plain ∧ call.path ≠ .root) ∨ call = .list .root
  put : ∀ p data, call = .put p data → files p

end HttpCall

namespace VfsdClient

def mapHttpError (status : StatusCode) (path : FvfsPath) : FvfsError :=
  match status with
  | .notFound => .notFound path.text
  | .conflict => .alreadyExists path.text
  | .forbidden => .permissionDenied path.text
  | .badRequest => .invalidPath path.text
  | _ => .other ("HTTP ".toList ++ status.toText)

/-- What a call makes of the response, or of the error that took its place. -/
abbrev Received := Except Text Response

def putResult (path : FvfsPath) : Received → Outcome Unit
  | .error e => .error (.other ("HTTP put: ".toList ++ e))
  | .ok resp =>
    if resp.status.isSuccess then .ok () else .error (mapHttpError resp.status path)

/-- No file is answered as anything but its bytes. -/
def getResult (path : FvfsPath) (detail : Text) : Received → Outcome Bytes
  | .error e => .error (.other ("HTTP get: ".toList ++ e))
  | .ok resp =>
    if resp.status = .notFound then .error (.notFound path.text)
    else if !resp.status.isSuccess then .error (mapHttpError resp.status path)
    else
      match resp.body with
      | .raw data => .ok data
      | .empty => .ok []
      | _ => .error (.other ("reading body: ".toList ++ detail))

/-- Deleting what is not there succeeds. -/
def deleteResult (path : FvfsPath) : Received → Outcome Unit
  | .error e => .error (.other ("HTTP delete: ".toList ++ e))
  | .ok resp =>
    if resp.status.isSuccess ∨ resp.status = .notFound then .ok ()
    else .error (mapHttpError resp.status path)

def getJson (parse : Json → Option α) (path : FvfsPath) (detail : Text) : Received → Outcome α
  | .error e => .error (.other ("HTTP: ".toList ++ e))
  | .ok resp =>
    if resp.status = .notFound then .error (.notFound path.text)
    else if !resp.status.isSuccess then .error (mapHttpError resp.status path)
    else
      match resp.body with
      | .json value =>
        match parse value with
        | some a => .ok a
        | none => .error (.other ("parse response: ".toList ++ detail))
      | _ => .error (.other ("parse response: ".toList ++ detail))

def result (detail : Text) (received : Received) : (call : HttpCall) → call.Res
  | .put p _ => putResult p received
  | .get p => getResult p detail received
  | .delete p => deleteResult p received
  | .stat p => getJson FileMetadata.record.ofJson p detail received
  | .list p => getJson FileEntry.record.ofJsonList p detail received

end VfsdClient

namespace VfsdClient

/-- What a call answers whose request or response is lost. -/
def lost (call : HttpCall) (e : Text) : call.Res := result [] (.error e) call

end VfsdClient

namespace Volume

/-- A directory is refused as an invalid path. -/
def fetched (v : Volume) (p : FvfsPath) : Outcome Bytes :=
  match v p with
  | none => .error (.notFound p.text)
  | some .directory => .error (.invalidPath p.text)
  | some (.file data) => .ok data

end Volume

namespace HttpCall

variable {sha256 : Bytes → Text} {files : FvfsPath → Prop} {v : Volume}

theorem Reaches.canonical {call : HttpCall} (reaches : call.Reaches files) :
    call.path.Canonical := by
  rcases reaches.path with ⟨canonical, -⟩ | rfl
  · exact canonical
  · exact FvfsPath.root_canonical

end HttpCall

section Exchange

variable {roots : DiskRoots} {sha256 : Bytes → Text} {files : FvfsPath → Prop}

end Exchange

end Fvfs
