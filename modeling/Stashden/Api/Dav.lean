import Stashden.Api.Access
import Stashden.Api.Locks
import Stashden.Api.Trash

/-!
# WebDAV (`api/src/dav/methods.rs`, `locking.rs`, `transfer.rs`)

The handlers that write, on a request whose path and headers are parsed: `submitted` are the tokens
`submitted_tokens` finds in the `If` header, `seconds` what `requested_seconds` reads. A handler runs
its statements on the pool: `commit` and `rolledBack` say how its transactions end, and what it ran
outside of them stays when it is refused.
-/

namespace Stashden.Api

open Lib Stashden.Core Tx

/-- `AppState`, as far as the handlers read it; `emptyHash` is the hash of no bytes. -/
structure AppState where
  defaultQuotaBytes : Int
  versionsKept : Int
  emptyHash : BlobHash
  limit : Limit

/-- A handler: what it answers, and the database it leaves. -/
abbrev Pool := ExceptT ApiError (StateM Db)

namespace Pool

variable {α : Type}

/-- A transaction that is committed where it succeeds. -/
def commit (x : Tx α) : Pool α := fun db =>
  match x db with
  | .ok (a, db') => (.ok a, db')
  | .error e => (.error e, db)

/-- A transaction that is dropped. -/
def rolledBack (x : Tx α) : Pool α := fun db =>
  match x db with
  | .ok (a, _) => (.ok a, db)
  | .error e => (.error e, db)

end Pool

namespace Dav

variable (app : AppState) (caller : User)

/-- `may_write`, the first line of every handler. -/
def writer : Tx Unit := if caller.mayWrite then pure () else fail .forbidden

/-- `mkcol`. -/
def mkcol (path : List NodeName) (submitted : List Uuid) (bodyEmpty : Bool) : Tx Node := do
  writer caller
  if bodyEmpty = false then fail (.answered 415)
  else do
    let name ← orFail (.answered 405) path.getLast?
    let parent ← mapNotFound (.answered 409) <|
      directoryForWrite caller path.dropLast false app.defaultQuotaBytes
    refuseReserved parent name
    let existing ← child parent.id name
    if existing.isSome then fail (.answered 405)
    else do
      allows app.limit parent submitted
      createDirectories parent.ownerId parent [name]

/-- `destination`: the parent, the name, and what stands there. -/
def destination (path : List NodeName) (submitted : List Uuid) :
    Tx (Node × NodeName × Option Node) := do
  let target ← mapNotFound (.answered 409) <| fileTarget caller path false app.defaultQuotaBytes
  let existing ← child target.1.id target.2
  allows app.limit (existing.getD target.1) submitted
  pure (target.1, target.2, existing)

/-- What is given up for a file of this name: its bytes, and those of its versions. -/
def replacedBytes (existing : Option Node) : Tx Int :=
  match existing with
  | some existing => do
    let held ← heldBy existing.id
    pure (existing.size + held)
  | none => pure 0

/-- `incoming::room`. -/
def room (parent : Node) (name : NodeName) : Tx Nat := do
  let left ← roomLeft parent.ownerId
  let existing ← child parent.id name
  let replaced ← replacedBytes existing
  pure (left.getD app.defaultQuotaBytes + replaced).toNat

/-- What `put` asks before it takes the bytes in. -/
def askRoom (path : List NodeName) (submitted : List Uuid) (size : Nat) : Tx Unit := do
  writer caller
  if path = [] then fail (.answered 405)
  else do
    let into ← destination app caller path submitted
    let room ← room app into.1 into.2.1
    if room < size then fail .quotaExceeded else pure ()

/-- What `put` does once the bytes are there. -/
def place (path : List NodeName) (submitted : List Uuid) (hash : BlobHash) (size : Nat) : Tx Node := do
  let into ← destination app caller path submitted
  putFile into.1.ownerId into.1 into.2.1 hash size app.versionsKept

/-- `put`, of bytes with this hash and size. -/
def put (path : List NodeName) (submitted : List Uuid) (hash : BlobHash) (size : Nat) : Pool Node := do
  Pool.rolledBack (askRoom app caller path submitted size)
  Pool.commit (registerBlob hash size)
  Pool.commit (place app caller path submitted hash size)

/-- `delete`. -/
def delete (path : List NodeName) (submitted : List Uuid) : Tx Unit := do
  writer caller
  if path = [] then fail (.answered 405)
  else do
    let found ← locateWritable caller path app.defaultQuotaBytes
    let node ← found.intoMovable
    allows app.limit node submitted
    noneBelow node submitted
    let above ← locate caller path.dropLast app.defaultQuotaBytes
    let parent ← above.intoNode
    allows app.limit parent submitted
    send node

/-- The node a COPY or a MOVE takes. -/
def sourceOf (moving : Bool) (found : Place) : Tx Node :=
  if moving then
    if found.writable then found.intoMovable else fail .forbidden
  else
    match found with
    | .sharedWithMe => fail .forbidden
    | found => found.intoNode

/-- What a MOVE asks of the locks on what it takes away. -/
def mayLeave (moving : Bool) (fromPath : List NodeName) (submitted : List Uuid) (source : Node) :
    Tx Unit :=
  if moving then do
    allows app.limit source submitted
    noneBelow source submitted
    let above ← locate caller fromPath.dropLast app.defaultQuotaBytes
    let leaving ← above.intoNode
    allows app.limit leaving submitted
  else pure ()

/-- What happens to what stands at the destination. -/
def replace (submitted : List Uuid) (overwrite : Bool) (source : Node) : Option Node → Tx Unit
  | none => pure ()
  | some occupant => do
    if overwrite = false then fail (.answered 412)
    else do
      let inside ← contains occupant source
      if inside then fail (.answered 403)
      else do
        allows app.limit occupant submitted
        noneBelow occupant submitted
        send occupant

/-- `run`: COPY, and MOVE where `moving`. -/
def transfer (moving : Bool) (fromPath toPath : List NodeName) (overwrite : Bool)
    (submitted : List Uuid) : Tx Node := do
  writer caller
  if fromPath = [] then fail (.answered 405)
  else do
    let name ← orFail (.answered 400) toPath.getLast?
    let found ← locate caller fromPath app.defaultQuotaBytes
    let source ← sourceOf moving found
    let parent ← mapNotFound (.answered 409) <|
      directoryForWrite caller toPath.dropLast false app.defaultQuotaBytes
    refuseReserved parent name
    if moving ∧ parent.ownerId ≠ source.ownerId then fail .acrossAccounts
    else do
      mayLeave app caller moving fromPath submitted source
      allows app.limit parent submitted
      let occupant ← child parent.id name
      replace app submitted overwrite source occupant
      if moving then rename source parent name else copyTree parent.ownerId source parent name

/-- `empty_file`, but for the `register_blob` it runs on the pool. -/
def emptyFile (path : List NodeName) : Tx Node := do
  let wanted ← orFail (.wrongKind "path below the root") path.getLast?
  let into ← mapNotFound (.conflict wanted.str) <|
    fileTarget caller path false app.defaultQuotaBytes
  putFile into.1.ownerId into.1 into.2 app.emptyHash 0 app.versionsKept

/-- What a LOCK is taken on: the node of that path, or a file it creates there. -/
def lockTarget (path : List NodeName) : Tx Node :=
  orElseNotFound
    (do
      let found ← locateWritable caller path app.defaultQuotaBytes
      found.intoNode)
    (emptyFile app caller path)

/-- `lock`, with a lockinfo body. -/
def takeOn (path : List NodeName) (submitted : List Uuid) (deep : Bool) (seconds : Nat) : Tx Lock := do
  writer caller
  let node ← lockTarget app caller path
  allows app.limit node submitted
  takeLock node caller.id deep seconds

/-- Whether `empty_file` gets to its `register_blob`. -/
def registers (path : List NodeName) (db : Db) : Bool :=
  caller.mayWrite && match locateWritable caller path app.defaultQuotaBytes db with
    | .error .notFound =>
      match fileTarget caller path false app.defaultQuotaBytes db with
      | .ok _ => true
      | .error _ => false
    | _ => false

/-- `lock`, with a lockinfo body: the row of the empty file's blob is not part of the transaction. -/
def lock (path : List NodeName) (submitted : List Uuid) (deep : Bool) (seconds : Nat) :
    Pool Lock := fun db =>
  if registers app caller path db then
    (do
      Pool.commit (registerBlob app.emptyHash 0)
      Pool.commit (takeOn app caller path submitted deep seconds) : Pool Lock) db
  else Pool.commit (takeOn app caller path submitted deep seconds) db

/-- The tokens a refresh tries. -/
def refreshFirst (node : Node) (seconds : Nat) : List Uuid → Tx Lock
  | [] => fail (.wrongKind "lockinfo body, or the If header naming a lock to refresh")
  | token :: tokens => do
    let refreshed ← Api.refresh token node seconds
    match refreshed with
    | some lock => pure lock
    | none => refreshFirst node seconds tokens

/-- `lock`, without a body. -/
def refresh (path : List NodeName) (submitted : List Uuid) (seconds : Nat) : Tx Lock := do
  writer caller
  let found ← locateWritable caller path app.defaultQuotaBytes
  let node ← found.intoNode
  refreshFirst node seconds submitted

/-- `unlock`. -/
def unlock (path : List NodeName) (token : Uuid) : Pool Bool := do
  let node ← Pool.commit do
    writer caller
    let found ← locateWritable caller path app.defaultQuotaBytes
    found.intoNode
  Pool.commit (releaseLock node token)

end Dav

end Stashden.Api
