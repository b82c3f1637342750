import Stashden.Api.Mounts
import Stashden.Api.Transfer

/-!
# The JSON routes (`api/src/routes/files.rs`, `versions.rs`, `trash.rs`, `grants.rs`, `uploads.rs`)

The handlers that write, on a request whose paths are parsed, and `precondition.rs` on the texts of its
two headers.
-/

namespace Stashden.Api

open Lib Stashden.Core Tx

/-! ## Preconditions -/

/-- The headers a write may come with, as `to_str` reads them. -/
structure Headers where
  ifMatch : Option Str
  ifNoneMatch : Option Str

/-- `Precondition`. -/
inductive Precondition where
  | unconditional
  | exists
  | absent
  | matches (tags : List Str)
  deriving DecidableEq

namespace Precondition

/-- The tags of an `If-Match` header. -/
def tagsOf (wanted : Str) : List Str :=
  ((wanted.splitOn ',').map trim).filter fun tag => decide (tag ≠ [])

/-- `Precondition::from_headers`. -/
def fromHeaders (headers : Headers) : Precondition :=
  match headers.ifMatch.map trim with
  | some wanted => if wanted = "*".toList then .exists else .matches (tagsOf wanted)
  | none => if headers.ifNoneMatch.map trim = some "*".toList then .absent else .unconditional

/-- Whether `Precondition::check` lets a write through. -/
def holds (tagText : Etag → Str) (existing : Option Node) : Precondition → Bool
  | .unconditional => true
  | .exists => existing.isSome
  | .absent => existing.isNone
  | .matches tags => existing.any fun node => tags.contains (tagText node.etag)

/-- `Precondition::check`. -/
def check (tagText : Etag → Str) (precondition : Precondition) (existing : Option Node) : Tx Unit :=
  if precondition.holds tagText existing then pure () else fail .preconditionFailed

end Precondition

/-- `room_for`. -/
def roomFor (ownerId : Uuid) (size : Nat) : Tx Unit := do
  let left ← roomLeft ownerId
  if left.any fun room => decide (room < (size : Int)) then fail .quotaExceeded else pure ()

/-- `quota_holder`. -/
def quotaHolder (caller : User) (segments : List NodeName) (quota : Int) : Tx Uuid :=
  match segments with
  | [] => do
    let _ ← ensureRoot caller.id quota
    pure caller.id
  | first :: rest =>
    if isShelf first then
      match rest with
      | [] => fail (.conflict sharedWithMe)
      | mountName :: _ => do
        let top ← mount caller.email mountName
        if top.1.access.mayWrite then pure top.2.ownerId else fail .forbidden
    else do
      let _ ← ensureRoot caller.id quota
      pure caller.id

/-! ## The handlers -/

namespace Routes

variable (app : AppState) (tagText : Etag → Str) (caller : User)

/-- What `put` asks before it takes the bytes in. -/
def askRoom (precondition : Precondition) (path : List NodeName) (size : Nat) : Tx Unit := do
  Dav.writer caller
  if path = [] then fail (.wrongKind "file path")
  else do
    let into ← fileTarget caller path true app.defaultQuotaBytes
    let existing ← child into.1.id into.2
    precondition.check tagText existing
    let room ← Dav.room app into.1 into.2
    if room < size then fail .quotaExceeded else pure ()

/-- What `put` does once the bytes are there, and `finish` once they all are. -/
def place (precondition : Precondition) (path : List NodeName) (hash : BlobHash) (size : Nat) :
    Tx Node := do
  let into ← fileTarget caller path true app.defaultQuotaBytes
  let existing ← child into.1.id into.2
  precondition.check tagText existing
  putFile into.1.ownerId into.1 into.2 hash size app.versionsKept

/-- `put`, of bytes with this hash and size. -/
def put (headers : Headers) (path : List NodeName) (hash : BlobHash) (size : Nat) :
    Pool Node := do
  Pool.rolledBack (askRoom app tagText caller (.fromHeaders headers) path size)
  Pool.commit (registerBlob hash size)
  Pool.commit (place app tagText caller (.fromHeaders headers) path hash size)

/-- `finish` of `routes/uploads.rs`, of a session that has all its bytes. -/
def finish (headers : Headers) (path : List NodeName) (hash : BlobHash) (size : Nat) :
    Pool Node := do
  Pool.rolledBack (Dav.writer caller)
  Pool.commit (registerBlob hash size)
  Pool.commit (place app tagText caller (.fromHeaders headers) path hash size)

/-- `rename`. -/
def rename (source destination : List NodeName) : Tx Node := do
  Dav.writer caller
  let name ← orFail (.wrongKind "path below the root") destination.getLast?
  if source = [] then fail (.wrongKind "path below the root")
  else do
    let found ← locateWritable caller source app.defaultQuotaBytes
    let node ← found.intoMovable
    let parent ← directoryForWrite caller destination.dropLast false app.defaultQuotaBytes
    refuseReserved parent name
    if parent.ownerId ≠ node.ownerId then fail .acrossAccounts else Api.rename node parent name

/-- `delete`. -/
def delete (path : List NodeName) : Tx Unit := do
  Dav.writer caller
  if path = [] then fail (.wrongKind "path below the root")
  else do
    let found ← locateWritable caller path app.defaultQuotaBytes
    let node ← found.intoMovable
    send node

/-- `create_folder`. -/
def createFolder (path : List NodeName) : Tx Node := do
  Dav.writer caller
  let name ← orFail (.wrongKind "folder path") path.getLast?
  let parent ← directoryForWrite caller path.dropLast true app.defaultQuotaBytes
  refuseReserved parent name
  let existing ← child parent.id name
  if existing.isSome then fail (.conflict name.str)
  else createDirectories parent.ownerId parent [name]

/-- `get`, `list` and `content` of versions: what a read commits is the look-up. -/
def read (path : List NodeName) : Tx Place := locate caller path app.defaultQuotaBytes

/-- `file` of `routes/versions.rs`. -/
def file (node : Node) : Tx Node :=
  if node.isDirectory then fail (.wrongKind "file") else pure node

/-- `restore` of `routes/versions.rs`. -/
def restoreVersion (path : List NodeName) (id : Uuid) : Tx Node := do
  Dav.writer caller
  let found ← locateWritable caller path app.defaultQuotaBytes
  let located ← found.intoNode
  let node ← file located
  let version ← take node.ownerId node.id id
  let into ← fileTarget caller path false app.defaultQuotaBytes
  putFile into.1.ownerId into.1 into.2 version.hash version.size.toNat app.versionsKept

/-- `restore` of `routes/trash.rs`. -/
def restore (id : Uuid) : Tx Node := do
  Dav.writer caller
  Api.restore caller.id id

/-- `purge` of `routes/trash.rs`. -/
def purge (id : Uuid) : Tx Unit := do
  Dav.writer caller
  Api.purge caller.id id

/-- `empty` of `routes/trash.rs`. -/
def empty : Tx Nat := do
  Dav.writer caller
  emptyTrash caller.id

/-- `create` of `routes/grants.rs`, for an address that is parsed. -/
def createGrant (path : List NodeName) (grantee : Str) (access : Access) : Tx Given := do
  Dav.writer caller
  if path = [] then fail (.wrongKind "path below the root")
  else do
    let found ← locate caller path app.defaultQuotaBytes
    match found with
    | .own node => give caller node grantee access
    | _ => fail .forbidden

/-- What `begin` of `routes/uploads.rs` asks before it opens a session. -/
def beginUpload (headers : Headers) (path : List NodeName) (size : Nat) : Tx Unit := do
  Dav.writer caller
  if path = [] then fail (.wrongKind "path below the root")
  else do
    let holder ← quotaHolder caller path app.defaultQuotaBytes
    roomFor holder size
    let existing ← orElseNotFound
      (do
        let into ← fileTarget caller path false app.defaultQuotaBytes
        child into.1.id into.2)
      (pure none)
    (Precondition.fromHeaders headers).check tagText existing

end Routes

end Stashden.Api
