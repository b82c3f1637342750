import Stashden.Api.Versions

/-!
# Files and folders put, copied and moved (`api/src/db.rs`)

`copyPending` is the loop of `copy_tree` over what is still to copy. A copy never lands in what is
being copied, so each folder is taken up once and as many rounds as there are nodes are enough.
-/

namespace Stashden.Api

open Lib Stashden.Core Tx

/-- The hash and size of what a file held before it was put. -/
def previousOf (existing : Option Node) : Option (Uuid × BlobHash × Int) :=
  existing.bind fun node => node.blobHash.map fun hash => (node.id, hash, node.size)

/-- Whether `put_file` charges for the new bytes beside the previous ones, which it then keeps. -/
def chargeForPut (ownerId : Uuid) (previous : Option (Uuid × BlobHash × Int)) (hash : BlobHash)
    (size : Nat) (versionsKept : Int) : Tx Bool :=
  match previous with
  | some (nodeId, previousHash, previousSize) =>
    if 0 < versionsKept ∧ 0 < previousSize ∧ previousHash ≠ hash then
      makeRoom ownerId nodeId size previousSize
    else do
      chargeQuota ownerId (size - previousSize)
      pure false
  | none => do
    chargeQuota ownerId size
    pure false

/-- `if versioned { keep(…) } else { release_blob(…) }`. -/
def keepOrRelease (versioned : Bool) (nodeId : Uuid) (hash : BlobHash) (size : Int) : Tx Unit :=
  if versioned then keep nodeId hash size else releaseBlob hash

/-- What `put_file` does with the bytes the file held. -/
def retire (ownerId : Uuid) (previous : Option (Uuid × BlobHash × Int)) (versioned : Bool)
    (versionsKept : Int) : Tx Unit :=
  match previous with
  | some (nodeId, previousHash, previousSize) => do
    keepOrRelease versioned nodeId previousHash previousSize
    pruneBeyond ownerId nodeId versionsKept
  | none => pure ()

/-- The last statement of `put_file`. -/
def storeFile (ownerId : Uuid) (parent : Node) (name : NodeName) (existing : Option Node)
    (hash : BlobHash) (size : Nat) : Tx Node :=
  match existing with
  | some node =>
    updateNode node.id (fun n => { n with body := .file hash size, etag := .file hash }) fun _ => rfl
  | none => insertNode ownerId (some parent.id) name.str (.file hash size) (.file hash)

/-- `put_file`. -/
def putFile (ownerId : Uuid) (parent : Node) (name : NodeName) (hash : BlobHash) (size : Nat)
    (versionsKept : Int) : Tx Node := do
  insertBlob hash size
  let existing ← child parent.id name
  if existing.any Node.isDirectory then fail (.conflict name.str)
  else do
    let versioned ← chargeForPut ownerId (previousOf existing) hash size versionsKept
    acquireBlob hash
    retire ownerId (previousOf existing) versioned versionsKept
    storeFile ownerId parent name existing hash size

/-- `if let Some(hash) = original.blob_hash { acquire_blob(tx, hash).await?; }`. -/
def acquireOf : Option BlobHash → Tx Unit
  | some hash => acquireBlob hash
  | none => pure ()

/-- `copy_one`. -/
def copyOne (ownerId parentId : Uuid) (name : Str) (original : Node) : Tx Node := do
  let tag ← etagForDirectory
  let copy ← mapViolated (nameTaken name) <|
    insertNode ownerId (some parentId) name original.body
      (if original.isDirectory then tag else original.etag)
  acquireOf original.blobHash
  pure copy

/-- The inner loop of `copy_tree`: the children of one folder, the folders among them still to copy,
and the bytes. -/
def copyChildren (ownerId into : Uuid) : List Node → Tx (List (Uuid × Uuid) × Int)
  | [] => pure ([], 0)
  | original :: originals => do
    let copy ← copyOne ownerId into original.name original
    let rest ← copyChildren ownerId into originals
    pure (if original.isDirectory then rest.1 ++ [(original.id, copy.id)] else rest.1,
      original.size + rest.2)

/-- The outer loop of `copy_tree`, over its stack. -/
def copyPending (ownerId : Uuid) : Nat → List (Uuid × Uuid) → Tx Int
  | _, [] => pure 0
  | 0, _ :: _ => fail .moveIntoSelf
  | rounds + 1, (source, into) :: pending => do
    let originals ← query fun s => s.childrenIn source
    let copied ← copyChildren ownerId into originals
    let bytes ← copyPending ownerId rounds (copied.1 ++ pending)
    pure (copied.2 + bytes)

/-- `copy_tree`. -/
def copyTree (ownerId : Uuid) (source parent : Node) (name : NodeName) : Tx Node := do
  if parent.isDirectory = false then fail (.wrongKind "directory")
  else do
    let inside ← contains source parent
    if source.isDirectory ∧ inside then fail .moveIntoSelf
    else do
      let taken ← child parent.id name
      if taken.isSome then fail (.conflict name.str)
      else do
        let rounds ← query fun s => s.nodes.rows.length
        let root ← copyOne ownerId parent.id name.str source
        let bytes ← copyPending ownerId rounds [(source.id, root.id)]
        chargeQuota ownerId (source.size + bytes)
        pure root

/-- `rename`. -/
def rename (node parent : Node) (name : NodeName) : Tx Node := do
  if parent.isDirectory = false then fail (.wrongKind "directory")
  else do
    let inside ← contains node parent
    if node.isDirectory ∧ inside then fail .moveIntoSelf
    else do
      let taken ← child parent.id name
      if taken.isSome then fail (.conflict name.str)
      else do
        let tag ← etagForDirectory
        mapViolated (nameTaken name.str) <|
          updateNode node.id
            (fun n => { n with
              parentId := some parent.id
              name := name.str
              etag := if node.isDirectory then tag else node.etag })
            fun _ => rfl

end Stashden.Api
