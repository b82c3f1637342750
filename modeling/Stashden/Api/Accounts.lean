import Stashden.Api.Trash
import Stashden.Api.Grants

/-!
# Accounts (`api/src/users.rs`, `thumbnails.rs`, `sweeper.rs`, `departure.rs`)

What else writes to the tables the tree stands on: accounts and their quotas, thumbnails, the sweep.
A departure empties the trash of the account, moves its tree under a folder of the recipient where one
is named, and deletes the account with all that cascades from it.
-/

namespace Stashden.Api

open Lib Stashden.Core Tx

/-! ## Accounts -/

/-- `users::create`, of an account whose password is strong enough. -/
def createUser (email displayName : Str) (mayWriteRole : Bool) : Tx User := do
  let id ← fresh
  let user : User := ⟨id, email, displayName, true, mayWriteRole⟩
  mapViolated (fun c => if c = .usersUniqueEmail then .conflict email else .database c) <|
    insertRow fun s => (s.users.insert user).map fun users => { s with users }
  pure user

/-- `users::set_disabled`. -/
def setDisabled (id : Uuid) (disabled : Bool) : Tx User := do
  execute fun s => { s with
    users := s.users.update (·.id = id) (fun u => { u with active := !disabled }) fun _ => rfl }
  let user ← query fun s => s.users.find id
  orFail .notFound user

/-- `users::set_role`, as far as the role lets its account write. -/
def setRole (id : Uuid) (mayWriteRole : Bool) : Tx User := do
  execute fun s => { s with
    users := s.users.update (·.id = id) (fun u => { u with mayWriteRole }) fun _ => rfl }
  let user ← query fun s => s.users.find id
  orFail .notFound user

/-- `users::set_quota`. -/
def setQuota (id : Uuid) (bytesMax : Int) : Tx Unit :=
  if bytesMax ≤ 0 then fail (.wrongKind "quota above zero")
  else
    mapViolated (fun c => if c = .quotasCheck then .notFound else .database c) <|
      execute fun s => { s with
        quotas := (s.quotas.insert ⟨id, 0, bytesMax⟩).getD <|
          s.quotas.update (·.ownerId = id) (fun q => { q with bytesMax }) fun _ => rfl }

/-! ## Thumbnails and the sweep -/

/-- `remember`. -/
def remember (source : BlobHash) (edge : Nat) (thumbnail : BlobHash) : Tx Unit := do
  let inserted ← query fun s => (s.thumbnails.find (source, edge)).isNone
  execute fun s =>
    { s with thumbnails := (s.thumbnails.insert ⟨source, edge, thumbnail⟩).getD s.thumbnails }
  if inserted then acquireBlob thumbnail else pure ()

/-- The thumbnails of a source no live node holds. -/
def Store.orphaned (s : Store) (t : Thumbnail) : Bool :=
  !s.nodes.rows.any fun n => n.blobHash = some t.source && n.live

/-- `forget_orphans`. -/
def forgetOrphans : Tx Unit := do
  let orphaned ← query fun s => (s.thumbnails.select s.orphaned).map Thumbnail.hash
  execute fun s => { s with thumbnails := s.thumbnails.delete s.orphaned }
  forEach releaseBlob orphaned

/-- What one transaction of `sweep` deletes. -/
def sweepBlob (hash : BlobHash) (grace : Nat) : Tx Unit :=
  execute fun s => { s with
    blobs := s.blobs.delete fun b => b.hash = hash && b.refCount = 0 &&
      b.unreferencedSince.any fun t => decide (t + grace < s.now) }

/-! ## Who leaves -/

/-- `char::is_whitespace`. -/
def isWhitespace (c : Char) : Bool :=
  let n := c.toNat
  decide (9 ≤ n ∧ n ≤ 13) || n = 0x20 || n = 0x85 || n = 0xA0 || n = 0x1680 ||
    decide (0x2000 ≤ n ∧ n ≤ 0x200A) || n = 0x2028 || n = 0x2029 || n = 0x202F || n = 0x205F ||
    n = 0x3000

/-- `str::trim`. -/
def trim (text : Str) : Str :=
  ((text.dropWhile isWhitespace).reverse.dropWhile isWhitespace).reverse

def MAX_ATTEMPTS : Nat := 1000

/-- `NUMBERED_SUFFIX.len()`. -/
def numberedSuffixLen : Nat := byteLen " 1000".toList

def MAX_FOLDER_NAME_BYTES : Nat := MAX_NAME_LEN - numberedSuffixLen

/-- `fitted`. -/
def fitted (who : Str) : Str :=
  let cleaned := who.map fun c => if c = '/' ∨ c = '\\' ∨ isControl c = true then '-' else c
  (takeBytes (boundaryBelow cleaned (min (byteLen cleaned) MAX_FOLDER_NAME_BYTES)) cleaned).getD []

/-- `folder_name`. -/
def folderName (leaving : User) : Str :=
  fitted (trim leaving.displayName ++ (' ' :: '(' :: leaving.email) ++ [')'])

/-- `candidate.parse()`. -/
def parseName (candidate : Str) : Tx NodeName :=
  match NodeName.fromStr candidate with
  | .ok name => pure name
  | .error e => fail (.invalidPath e)

/-- The loop of `free_name`, at one of its attempts. -/
def nextFolderName (parentId : Uuid) (wanted : Str) : Nat → Nat → Tx NodeName
  | 0, _ => fail (.conflict wanted)
  | left + 1, attempt => do
    let name ← parseName
      (if attempt = 1 then wanted else wanted ++ ' ' :: Nat.toDigits 10 attempt)
    let taken ← child parentId name
    if taken.isSome then nextFolderName parentId wanted left (attempt + 1) else pure name

/-- `free_name`. -/
def freeFolderName (parentId : Uuid) (wanted : Str) : Tx NodeName :=
  nextFolderName parentId wanted MAX_ATTEMPTS 1

/-- `hand_over`, of a tree below this root. -/
def handOverTree (leaving recipient : User) (oldRoot : Uuid) (quota : Int) : Tx Unit := do
  let root ← ensureRoot recipient.id quota
  let name ← freeFolderName root.id (folderName leaving)
  let folder ← createDirectories recipient.id root [name]
  execute fun s => { s with
    nodes := s.nodes.update (fun n => n.parentId = some oldRoot)
      (fun n => { n with parentId := some folder.id }) fun _ => rfl }
  execute fun s => { s with
    nodes := s.nodes.update (fun n => n.ownerId = leaving.id && n.id ≠ oldRoot)
      (fun n => { n with ownerId := recipient.id }) fun _ => rfl }
  let used ← query fun s => ((s.quotas.find leaving.id).map Quota.bytesUsed).getD 0
  chargeQuota recipient.id used

/-- `owner_id = $1 AND parent_id IS NULL`. -/
def Store.oldRootOf (s : Store) (ownerId : Uuid) : Option Node :=
  s.nodes.rows.find? fun n => n.ownerId = ownerId && n.parentId = none

/-- `hand_over`. -/
def handOver (leaving recipient : User) (quota : Int) : Tx Unit := do
  let oldRoot ← query fun s => s.oldRootOf leaving.id
  match oldRoot with
  | none => pure ()
  | some oldRoot => handOverTree leaving recipient oldRoot.id quota

/-- `users::by_id_in`. -/
def userById (id : Uuid) : Tx User := do
  let found ← query fun s => s.users.find id
  orFail .notFound found

/-- What `remove` does with the files of the account before it goes. -/
def handOverTo (leaving : User) (quota : Int) : Option Uuid → Tx Unit
  | none => pure ()
  | some recipientId => do
    let recipient ← userById recipientId
    if recipient.isActive = false ∨ recipient.mayWrite = false then
      fail (.wrongKind "active account that can write to hand the files to")
    else handOver leaving recipient quota

namespace Store

/-- `held_blobs`. -/
def heldBlobs (s : Store) (ownerId : Uuid) : List BlobHash :=
  s.blobsOf (s.nodes.select fun n => n.ownerId = ownerId)

/-- `DELETE FROM users`, with its cascades. -/
def deleteUser (s : Store) (id : Uuid) : Store :=
  let left := s.deleteNodes (·.ownerId = id)
  { left with
    users := left.users.delete (·.id = id)
    quotas := left.quotas.delete (·.ownerId = id)
    grants := left.grants.delete (·.createdBy = id)
    locks := left.locks.delete (·.ownerId = id) }

end Store

/-- `departure::remove`. -/
def removeAccount (id : Uuid) (recipient : Option Uuid) (quota : Int) : Tx Unit := do
  let leaving ← userById id
  let _ ← emptyTrash id
  handOverTo leaving quota recipient
  let held ← query fun s => s.heldBlobs id
  execute fun s => { s with grants := s.grants.delete (·.grantee = leaving.email) }
  execute fun s => s.deleteUser id
  forEach releaseBlob held

end Stashden.Api
