import Stashden.Api.Files

/-!
# The trash (`api/src/trash.rs`)

What one `send` marks carries the id it was sent under, its batch; `restore` gives a batch back, with
the trashed folders above it, and makes each part of a batch it opened so a batch of its own.
`purge` deletes a root of the trash with everything below it, which is what the foreign keys cascade to.

The loop of `restore_ancestors` revives one trashed node a round, so as many rounds as there are
nodes are enough.
-/

namespace Stashden.Api

open Lib Stashden.Core Tx

/-- `deleted_at` of a trashed node. -/
def Node.deletedAt (n : Node) : Nat := n.trashed.elim 0 Trashed.deletedAt

/-! ## Into the trash -/

/-- The nodes the first statement of `send` marks: a live node and the live ones below it. -/
def Store.marked (s : Store) (id : Uuid) : List Node :=
  if (s.liveNode id).isSome then s.subtree id else []

/-- `send`. -/
def send (node : Node) : Tx Unit := do
  let marked ← query fun s => s.marked node.id
  execute fun s => { s with
    nodes := s.nodes.update (fun n => n.id ∈ marked.map Node.id)
      (fun n => { n with trashed := some ⟨s.now, node.id⟩ }) fun _ => rfl }
  let versions ← sizeUnder (marked.map Node.id)
  chargeQuota node.ownerId (-((marked.map Node.size).sum + versions))

/-! ## Out of it -/

/-- `id = $1 AND owner_id = $2 AND trash_root_id = id`. -/
def Store.trashRootOf (s : Store) (ownerId id : Uuid) : Option Node :=
  (s.nodes.find id).filter fun n => n.ownerId = ownerId && n.trashRoot = some n.id

/-- `root`. -/
def trashRoot (ownerId id : Uuid) : Tx Node := do
  let found ← query fun s => s.trashRootOf ownerId id
  orFail .notFound found

/-- `UPDATE nodes SET deleted_at = NULL, trash_root_id = NULL`, of the rows `p` holds of. -/
def revive (p : Node → Bool) : Tx Unit :=
  execute fun s => { s with
    nodes := s.nodes.update p (fun n => { n with trashed := none }) fun _ => rfl }

/-- The loop of `restore_ancestors`: the bytes of what it revives, and the batches it opens. -/
def reviveAbove : Nat → Option Uuid → Tx (Int × List Uuid)
  | 0, _ => pure (0, [])
  | _ + 1, none => pure (0, [])
  | rounds + 1, some id => do
    let trashed ← query fun s => (s.nodes.find id).filter fun n => !n.live
    match trashed with
    | none => pure (0, [])
    | some ancestor => do
      mapViolated (nameTaken ancestor.name) (revive (·.id = id))
      let rest ← reviveAbove rounds ancestor.parentId
      pure (ancestor.size + rest.1,
        ancestor.trashRoot.toList ++ rest.2.filter fun batch => some batch ≠ ancestor.trashRoot)

/-- `restore_ancestors`. -/
def restoreAncestors (node : Node) : Tx (Int × List Uuid) := do
  let rounds ← query fun s => s.nodes.rows.length
  reviveAbove (rounds + 1) node.parentId

namespace Store

/-- The rows `stranded` starts from: what is left of a batch under a live folder. -/
def survivors (s : Store) (batch : Uuid) : List Node :=
  s.nodes.select fun n => n.trashRoot = some batch && n.parentId.any fun p => (s.liveNode p).isSome

/-- What is left of a batch below one of these. -/
def strandedBelow (s : Store) (batch : Uuid) (survivor : Node) : List Node :=
  recursive s.nodes.rows
    (fun n below => below.parentId = some n.id && below.trashRoot = some batch) [survivor]

/-- The survivor a stranded row is found from. -/
def strandedBy (s : Store) (batch id : Uuid) : Option Uuid :=
  ((s.survivors batch).find? fun survivor =>
    (s.strandedBelow batch survivor).any fun n => n.id = id).map Node.id

end Store

/-- `reroot_survivors`. -/
def rerootSurvivors (batch : Uuid) : Tx Unit :=
  execute fun s => { s with
    nodes := s.nodes.update (fun n => (s.strandedBy batch n.id).isSome)
      (fun n => { n with
        trashed := n.trashed.map fun t => { t with root := (s.strandedBy batch n.id).getD t.root } })
      fun _ => rfl }

/-- `restore`. -/
def restore (ownerId id : Uuid) : Tx Node := do
  let root ← trashRoot ownerId id
  let above ← restoreAncestors root
  let restored ← query fun s => s.nodes.select fun n => n.trashRoot = some root.id
  mapViolated (nameTaken root.name) (revive fun n => n.trashRoot = some root.id)
  let versions ← sizeUnder (restored.map Node.id)
  forEach rerootSurvivors above.2
  chargeQuota ownerId (above.1 + (restored.map Node.size).sum + versions)
  let node ← query fun s => s.nodes.find root.id
  orFail .rowNotFound node

/-! ## For good -/

namespace Store

/-- The recursive query `buried`: a node and all below it. -/
def buried (s : Store) (id : Uuid) : List Node :=
  recursive s.nodes.rows (fun n below => below.parentId = some n.id) (s.nodes.select (·.id = id))

/-- What `ON DELETE CASCADE` deletes with some nodes: `parent_id` and `trash_root_id` both cascade. -/
def cascade (s : Store) (p : Node → Bool) : List Uuid :=
  (recursive s.nodes.rows
    (fun n other => other.parentId = some n.id || other.trashRoot = some n.id)
    (s.nodes.select p)).map Node.id

/-- `DELETE FROM nodes`, with its cascades. -/
def deleteNodes (s : Store) (p : Node → Bool) : Store :=
  let gone := s.cascade p
  { s with
    nodes := s.nodes.delete fun n => n.id ∈ gone
    versions := s.versions.delete fun v => v.nodeId ∈ gone
    grants := s.grants.delete fun g => g.nodeId ∈ gone
    locks := s.locks.delete fun l => l.nodeId ∈ gone }

/-- `blobs_under`, and the blobs of the nodes themselves. -/
def blobsOf (s : Store) (nodes : List Node) : List BlobHash :=
  nodes.filterMap Node.blobHash ++
    (s.versions.select fun v => v.nodeId ∈ nodes.map Node.id).map Version.hash

end Store

/-- `purge`. -/
def purge (ownerId id : Uuid) : Tx Unit := do
  let root ← trashRoot ownerId id
  let blobs ← query fun s => s.blobsOf (s.buried root.id)
  execute fun s => s.deleteNodes (·.id = root.id)
  forEach releaseBlob blobs

/-- `trash_root_id = id`, of an account, newest first. -/
def Store.trashOf (s : Store) (ownerId : Uuid) : List Node :=
  (s.nodes.select fun n => n.ownerId = ownerId && n.trashRoot = some n.id).insertionSort
    fun n m => m.deletedAt ≤ n.deletedAt

namespace Tx

variable {α : Type}

/-- `Err(ApiError::NotFound) => Err(e)`. -/
def mapNotFound (e : ApiError) (x : Tx α) : Tx α := fun db =>
  match x db with
  | .error .notFound => .error e
  | answer => answer

/-- `Err(ApiError::NotFound) => y`. What `x` wrote before it found nothing, `y` would write again. -/
def orElseNotFound (x y : Tx α) : Tx α := fun db =>
  match x db with
  | .error .notFound => y db
  | answer => answer

end Tx

/-- The loop of `empty`. -/
def purgeAll (ownerId : Uuid) : List Uuid → Tx Nat
  | [] => pure 0
  | id :: ids => do
    let purged ← orElseNotFound (do purge ownerId id; pure 1) (pure 0)
    let rest ← purgeAll ownerId ids
    pure (purged + rest)

/-- `empty`. -/
def emptyTrash (ownerId : Uuid) : Tx Nat := do
  let roots ← query fun s => s.trashOf ownerId
  purgeAll ownerId (roots.map Node.id)

/-- How many roots one `expire` takes up. -/
def EXPIRE_LIMIT : Nat := 10000

/-- The roots an expiry takes up, newest first. -/
def Store.dueRoots (s : Store) (retention : Nat) : List Node :=
  ((s.nodes.select fun n => n.trashRoot = some n.id &&
      n.trashed.any fun t => decide (t.deletedAt + retention < s.now)).insertionSort
    fun n m => m.deletedAt ≤ n.deletedAt).take EXPIRE_LIMIT

/-- The loop of `expire`: each purge in a transaction of its own, one that fails rolled back. -/
def expireAll : List Node → Db → Nat × Db
  | [], db => (0, db)
  | due :: rest, db =>
    match purge due.ownerId due.id db with
    | .ok ((), db') =>
      let after := expireAll rest db'
      (after.1 + 1, after.2)
    | .error _ => expireAll rest db

/-- `expire`. -/
def expire (retention : Nat) (db : Db) : Nat × Db := expireAll (db.dueRoots retention) db

end Stashden.Api
