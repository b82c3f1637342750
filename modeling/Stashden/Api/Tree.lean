import Stashden.Api.Tx
import Stashden.Lib.Recursive

/-!
# The tree (`api/src/db.rs`)

The functions of `db.rs` on nodes, blobs and quotas, with the statements they run. The advisory lock
of `lock_owner` orders transactions and changes no row, so nothing stands for it here.
-/

namespace Stashden.Api

open Lib Stashden.Core Tx

/-! ## What the statements read -/

namespace Store

/-- `parent_id = $1 AND name = $2 AND deleted_at IS NULL`. -/
def child (s : Store) (parentId : Uuid) (name : Str) : Option Node :=
  s.nodes.rows.find? fun n => n.parentId = some parentId && n.name = name && n.live

/-- `parent_id = $1 AND deleted_at IS NULL`. -/
def childrenIn (s : Store) (parentId : Uuid) : List Node :=
  s.nodes.select fun n => n.parentId = some parentId && n.live

/-- `id = $1 AND deleted_at IS NULL`. -/
def liveNode (s : Store) (id : Uuid) : Option Node := (s.nodes.find id).filter Node.live

/-- `owner_id = $1 AND parent_id IS NULL AND deleted_at IS NULL`. -/
def rootOf (s : Store) (ownerId : Uuid) : Option Node :=
  s.nodes.rows.find? fun n => n.ownerId = ownerId && n.parentId = none && n.live

/-- The recursive query `ancestry`: a node and all above it. -/
def ancestry (s : Store) (id : Uuid) : List Node :=
  recursive s.nodes.rows (fun n above => n.parentId = some above.id) (s.nodes.select (·.id = id))

/-- The recursive query `subtree`: a node, and the live ones below it through live ones. -/
def subtree (s : Store) (id : Uuid) : List Node :=
  recursive s.nodes.rows (fun n below => below.parentId = some n.id && below.live)
    (s.nodes.select (·.id = id))

end Store

/-! ## Nodes -/

/-- `child`. -/
def child (parentId : Uuid) (name : NodeName) : Tx (Option Node) :=
  query fun s => s.child parentId name.str

/-- `live_node`. -/
def liveNode (id : Uuid) : Tx (Option Node) := query fun s => s.liveNode id

/-- `etag_for_directory`. -/
def etagForDirectory : Tx Etag := do
  let id ← fresh
  pure (.directory id)

/-- `INSERT INTO nodes`, under an id of its own. -/
def insertNode (ownerId : Uuid) (parentId : Option Uuid) (name : Str) (body : Body) (etag : Etag) :
    Tx Node := do
  let id ← fresh
  let node : Node := ⟨id, ownerId, parentId, name, body, etag, none⟩
  insertRow fun s => (s.nodes.insert node).map fun nodes => { s with nodes }
  pure node

/-- `UPDATE nodes SET … WHERE id = $1 RETURNING …`. -/
def updateNode (id : Uuid) (f : Node → Node) (hf : ∀ n, (f n).id = n.id) : Tx Node := do
  execute fun s => { s with nodes := s.nodes.update (·.id = id) f hf }
  let node ← query fun s => s.nodes.find id
  orFail .rowNotFound node

/-- `ensure_root`. The one row its `INSERT`s conflict with is the one they would add. -/
def ensureRoot (ownerId : Uuid) (quotaBytes : Int) : Tx Node := do
  execute fun s =>
    { s with quotas := (s.quotas.insert ⟨ownerId, 0, quotaBytes⟩).getD s.quotas }
  let root ← query fun s => s.rootOf ownerId
  match root with
  | some root => pure root
  | none => do
    let etag ← etagForDirectory
    insertNode ownerId none [] .directory etag

/-- `resolve`. -/
def resolve (root : Node) : List NodeName → Tx Node
  | [] => pure root
  | segment :: segments => do
    let found ← child root.id segment
    let next ← orFail .notFound found
    resolve next segments

/-- `insert_directory`: the row it conflicts with is the child of that name. -/
def insertDirectory (ownerId parentId : Uuid) (name : NodeName) : Tx Node := do
  let existing ← child parentId name
  match existing with
  | some existing => if existing.isDirectory then pure existing else fail (.conflict name.str)
  | none => do
    let etag ← etagForDirectory
    insertNode ownerId (some parentId) name.str .directory etag

/-- The loop of `create_directories`. -/
def createBelow (ownerId : Uuid) (current : Node) : List NodeName → Tx Node
  | [] => pure current
  | segment :: segments => do
    let existing ← child current.id segment
    match existing with
    | some existing =>
      if existing.isDirectory then createBelow ownerId existing segments
      else fail (.conflict segment.str)
    | none => do
      let created ← insertDirectory ownerId current.id segment
      createBelow ownerId created segments

/-- `create_directories`. -/
def createDirectories (ownerId : Uuid) (root : Node) (segments : List NodeName) : Tx Node :=
  if segments ≠ [] ∧ root.isDirectory = false then fail (.wrongKind "directory")
  else createBelow ownerId root segments

/-- `contains`. -/
def contains (ancestor node : Node) : Tx Bool :=
  query fun s => (s.ancestry node.id).any fun above => above.id = ancestor.id

/-- `name_taken`. -/
def nameTaken (name : Str) (violated : Constraint) : ApiError :=
  if violated = .nodesUniqueNamePerParent then .conflict name else .database violated

/-! ## Blobs and quotas -/

/-- `register_blob`. -/
def registerBlob (hash : BlobHash) (size : Nat) : Tx Unit :=
  execute fun s => { s with blobs := (s.blobs.insert ⟨hash, size, 0, some s.now⟩).getD s.blobs }

/-- The first statement of `put_file`. -/
def insertBlob (hash : BlobHash) (size : Nat) : Tx Unit :=
  execute fun s => { s with blobs := (s.blobs.insert ⟨hash, size, 0, none⟩).getD s.blobs }

/-- `acquire_blob`. -/
def acquireBlob (hash : BlobHash) : Tx Unit :=
  execute fun s => { s with
    blobs := s.blobs.update (·.hash = hash)
      (fun b => { b with refCount := b.refCount + 1, unreferencedSince := none }) fun _ => rfl }

/-- `release_blob`. -/
def releaseBlob (hash : BlobHash) : Tx Unit :=
  execute fun s => { s with
    blobs := s.blobs.update (fun b => b.hash = hash && decide (0 < b.refCount))
      (fun b => { b with
        refCount := b.refCount - 1
        unreferencedSince := if b.refCount - 1 = 0 then some s.now else none }) fun _ => rfl }

/-- `room_left`. -/
def roomLeft (ownerId : Uuid) : Tx (Option Int) :=
  query fun s => (s.quotas.find ownerId).map fun q => q.bytesMax - q.bytesUsed

/-- The statement of `charge_quota`, and whether it reached a row. -/
def charged (ownerId : Uuid) (delta : Int) : Tx Bool := do
  let reached ← query fun s =>
    (s.quotas.find ownerId).any fun q => decide (q.bytesUsed + delta ≤ q.bytesMax)
  execute fun s => { s with
    quotas := s.quotas.update
      (fun q => q.ownerId = ownerId && decide (q.bytesUsed + delta ≤ q.bytesMax))
      (fun q => { q with bytesUsed := q.bytesUsed + delta }) fun _ => rfl }
  pure reached

/-- Whether `charge_quota` answers `Ok`. -/
def tryCharge (ownerId : Uuid) (delta : Int) : Tx Bool :=
  if delta = 0 then pure true else charged ownerId delta

/-- `charge_quota`. -/
def chargeQuota (ownerId : Uuid) (delta : Int) : Tx Unit := do
  let ok ← tryCharge ownerId delta
  if ok then pure () else fail .quotaExceeded

end Stashden.Api
