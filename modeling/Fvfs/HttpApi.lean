import Fvfs.ClientUrl
import Fvfs.VolumeService
import Fvfs.Wire

/-! The daemon's HTTP handlers for files, over the calls they make, and what a request that
reaches its handler is answered. -/
namespace Fvfs

open Lib

inductive StatusCode where
  | ok | noContent | badRequest | forbidden | notFound | methodNotAllowed | conflict
  | payloadTooLarge | internalServerError
  deriving DecidableEq

namespace StatusCode

def code : StatusCode → Nat
  | ok => 200
  | noContent => 204
  | badRequest => 400
  | forbidden => 403
  | notFound => 404
  | methodNotAllowed => 405
  | conflict => 409
  | payloadTooLarge => 413
  | internalServerError => 500

def isSuccess (s : StatusCode) : Bool := decide (200 ≤ s.code ∧ s.code < 300)

def toText : StatusCode → Text
  | ok => "200 OK".toList
  | noContent => "204 No Content".toList
  | badRequest => "400 Bad Request".toList
  | forbidden => "403 Forbidden".toList
  | notFound => "404 Not Found".toList
  | methodNotAllowed => "405 Method Not Allowed".toList
  | conflict => "409 Conflict".toList
  | payloadTooLarge => "413 Payload Too Large".toList
  | internalServerError => "500 Internal Server Error".toList

end StatusCode

inductive Body where
  | empty
  | raw (data : Bytes)
  | text (t : Text)
  | json (value : Json)

structure Response where
  status : StatusCode
  body : Body

structure HttpRequest where
  method : Method
  url : Text
  body : Bytes

namespace HttpApi

def errorResponse (status : StatusCode) (message : Text) : Response :=
  ⟨status, .json (.obj [("error".toList, .str message)])⟩

/-- `impl IntoResponse for ApiError`. -/
def intoResponse : FvfsError → Response
  | .notFound path => errorResponse .notFound ("not found: ".toList ++ path)
  | .alreadyExists path => errorResponse .conflict ("already exists: ".toList ++ path)
  | .isADirectory path => errorResponse .badRequest ("is a directory: ".toList ++ path)
  | .notADirectory path => errorResponse .badRequest ("not a directory: ".toList ++ path)
  | .permissionDenied message => errorResponse .forbidden message
  | e => errorResponse .internalServerError e.toText

abbrev Handled := Prog DaemonCalls FvfsError Response

def handlePutFile (path : Text) (body : Bytes) : Handled := do
  let vfsPath ← .lift (parsePath path)
  Daemon.write vfsPath body
  pure ⟨.noContent, .empty⟩

def handleGetFile (path : Text) : Handled := do
  let vfsPath ← .lift (parsePath path)
  let data ← Daemon.read vfsPath
  pure ⟨.ok, .raw data⟩

def handleDeleteFile (path : Text) : Handled := do
  let vfsPath ← .lift (parsePath path)
  Daemon.delete vfsPath
  pure ⟨.noContent, .empty⟩

def handleGetMeta (path : Text) : Handled := do
  let vfsPath ← .lift (parsePath path)
  let m ← Daemon.stat vfsPath
  pure ⟨.ok, .json (FileMetadata.record.toJson m)⟩

def listEntries (path : FvfsPath) : Handled := do
  let entries ← Daemon.list path
  pure ⟨.ok, .json (FileEntry.record.toJsonList entries)⟩

def handleList (path : Text) : Handled := do
  let vfsPath ← .lift (parsePath path)
  listEntries vfsPath

def handleListRoot : Handled := do
  let vfsPath ← .lift (FvfsPath.new "/".toList)
  listEntries vfsPath

def handle (path : Text) (body : Bytes) : FileHandler → Handled
  | .putFile => handlePutFile path body
  | .getFile => handleGetFile path
  | .deleteFile => handleDeleteFile path
  | .getMeta => handleGetMeta path
  | .list => handleList path
  | .listRoot => handleListRoot

/-- The limit `axum` sets on a body extracted as `Bytes`, and no layer lifts. -/
def bodyLimit : Nat := 2 * 1024 * 1024

/-- Only the put extracts the body. -/
def refusesBody (handler : FileHandler) (body : Bytes) : Bool :=
  handler = .putFile && decide (bodyLimit < body.length)

/-- Route, extract the wildcard and the body, handle. -/
def respond (request : HttpRequest) : Handled :=
  match route request.method request.url with
  | none =>
    pure ⟨if (route .get request.url).isSome then .methodNotAllowed else .notFound, .empty⟩
  | some (.listRoot, _) => handleListRoot
  | some (handler, raw) =>
    match extract raw with
    | none => pure ⟨.badRequest, .text "Invalid URL: Invalid UTF-8 in `path`".toList⟩
    | some path =>
      if refusesBody handler request.body then
        pure ⟨.payloadTooLarge,
          .text "Failed to buffer the request body: length limit exceeded".toList⟩
      else handle path request.body handler

/-- A handler's error is a response too. -/
def answered : Outcome Response → Response
  | .ok response => response
  | .error e => intoResponse e

/-- What a handler does with the path it obtains. -/
def onPath (p : FvfsPath) (body : Bytes) : FileHandler → Handled
  | .putFile => do
    Daemon.write p body
    pure ⟨.noContent, .empty⟩
  | .getFile => do
    let data ← Daemon.read p
    pure ⟨.ok, .raw data⟩
  | .deleteFile => do
    Daemon.delete p
    pure ⟨.noContent, .empty⟩
  | .getMeta => do
    let m ← Daemon.stat p
    pure ⟨.ok, .json (FileMetadata.record.toJson m)⟩
  | .list | .listRoot => listEntries p

end HttpApi

end Fvfs
