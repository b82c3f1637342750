import Stashden.Api.Tree

/-!
# Versions (`api/src/versions.rs`)

The loop of `make_room` drops a version a round, so as many rounds as the file has versions, and one
that finds none to drop, are enough.
-/

namespace Stashden.Api

open Lib Stashden.Core Tx

/-- `WHERE node_id = $1 ORDER BY id DESC`. -/
def Store.versionsOf (s : Store) (nodeId : Uuid) : List Version :=
  (s.versions.select (·.nodeId = nodeId)).insertionSort fun v w => w.id ≤ v.id

/-- The sum of the sizes of the versions of some nodes. -/
def Store.versionsUnder (s : Store) (nodes : List Uuid) : Int :=
  ((s.versions.select fun v => v.nodeId ∈ nodes).map Version.size).sum

/-- `DELETE FROM versions`, of the versions with these ids. -/
def deleteVersions (ids : List Uuid) : Tx Unit :=
  execute fun s => { s with versions := s.versions.delete fun v => v.id ∈ ids }

/-- `release`. -/
def release (held : List Version) : Tx Int := do
  forEach (fun version => releaseBlob version.hash) held
  pure (held.map Version.size).sum

/-- `keep`. -/
def keep (nodeId : Uuid) (hash : BlobHash) (size : Int) : Tx Unit := do
  let id ← fresh
  insertRow fun s =>
    (s.versions.insert ⟨id, nodeId, hash, size⟩).map fun versions => { s with versions }

/-- `held_by`. -/
def heldBy (nodeId : Uuid) : Tx Int := query fun s => s.versionsUnder [nodeId]

/-- `size_under`. -/
def sizeUnder (nodes : List Uuid) : Tx Int := query fun s => s.versionsUnder nodes

/-- `take`. -/
def take (ownerId nodeId id : Uuid) : Tx Version := do
  let found ← query fun s => (s.versions.find id).filter fun v => v.nodeId = nodeId
  let taken ← orFail .notFound found
  deleteVersions [taken.id]
  releaseBlob taken.hash
  chargeQuota ownerId (-taken.size)
  pure taken

/-- `drop_oldest`. -/
def dropOldest (ownerId nodeId : Uuid) : Tx Bool := do
  let dropped ← query fun s => (s.versionsOf nodeId).getLast?
  match dropped with
  | none => pure false
  | some oldest => do
    deleteVersions [oldest.id]
    let freed ← release [oldest]
    chargeQuota ownerId (-freed)
    pure true

/-- What `make_room` does once there is no version left to drop. -/
def chargeInstead (ownerId : Uuid) (size previousSize : Int) : Tx Bool := do
  chargeQuota ownerId (size - previousSize)
  pure false

/-- The loop of `make_room`. -/
def makeRoomIn (ownerId nodeId : Uuid) (size previousSize : Int) : Nat → Tx Bool
  | 0 => chargeInstead ownerId size previousSize
  | rounds + 1 => do
    let fits ← tryCharge ownerId size
    if fits then pure true
    else do
      let dropped ← dropOldest ownerId nodeId
      if dropped then makeRoomIn ownerId nodeId size previousSize rounds
      else chargeInstead ownerId size previousSize

/-- `make_room`. -/
def makeRoom (ownerId nodeId : Uuid) (size previousSize : Int) : Tx Bool := do
  let held ← query fun s => s.versionsOf nodeId
  makeRoomIn ownerId nodeId size previousSize (held.length + 1)

/-- `prune_beyond`. -/
def pruneBeyond (ownerId nodeId : Uuid) (kept : Int) : Tx Unit := do
  let dropped ← query fun s => (s.versionsOf nodeId).drop kept.toNat
  deleteVersions (dropped.map Version.id)
  let freed ← release dropped
  chargeQuota ownerId (-freed)

end Stashden.Api
