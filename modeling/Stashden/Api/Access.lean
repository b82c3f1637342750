import Stashden.Api.Files
import Stashden.Api.Grants

/-!
# What a caller reaches (`api/src/access.rs`, `grants::mount`)

A path that starts with the shelf names a mount, and a path below the mount is resolved in the tree of
whoever granted it; any other path is resolved in the caller's own tree.
-/

namespace Stashden.Api

open Lib Stashden.Core Tx

/-- `Mount`. -/
structure Mount where
  id : Uuid
  nodeId : Uuid
  access : Access
  mountName : Str
  deriving DecidableEq

/-- `WHERE grantee_email = $1 AND mount_name = $2`. -/
def Store.mountOf (s : Store) (grantee name : Str) : Option Grant :=
  s.grants.rows.find? fun g => g.grantee = grantee && g.mountName = name

/-- `grants::mount`. -/
def mount (grantee : Str) (name : NodeName) : Tx (Mount × Node) := do
  let found ← query fun s => s.mountOf grantee name.str
  let g ← orFail .notFound found
  let live ← liveNode g.nodeId
  let node ← orFail .notFound live
  pure (⟨g.id, g.nodeId, g.access, g.mountName⟩, node)

/-- `Place`. -/
inductive Place where
  | own (node : Node)
  | sharedWithMe
  | shared (node : Node) (mount : Mount) (atMount : Bool)

namespace Place

/-- `Place::writable`. -/
def writable : Place → Bool
  | own _ => true
  | sharedWithMe => false
  | shared _ mount _ => mount.access.mayWrite

/-- `Place::into_movable`. -/
def intoMovable : Place → Tx Node
  | own node => pure node
  | shared node _ false => pure node
  | shared _ _ true => fail .forbidden
  | sharedWithMe => fail .forbidden

/-- `Place::into_node`. -/
def intoNode : Place → Tx Node
  | own node => pure node
  | shared node mount atMount =>
    pure (if atMount then { node with name := mount.mountName } else node)
  | sharedWithMe => fail (.wrongKind "file")

end Place

/-- `is_shelf`. -/
def isShelf (segment : NodeName) : Bool := segment.str = sharedWithMe

/-- `locate`. -/
def locate (caller : User) (segments : List NodeName) (quota : Int) : Tx Place :=
  match segments with
  | [] => do
    let root ← ensureRoot caller.id quota
    pure (.own root)
  | first :: rest =>
    if isShelf first then
      match rest with
      | [] => pure .sharedWithMe
      | mountName :: below => do
        let top ← mount caller.email mountName
        let node ← resolve top.2 below
        pure (.shared node top.1 below.isEmpty)
    else do
      let root ← ensureRoot caller.id quota
      let node ← resolve root (first :: rest)
      pure (.own node)

/-- `locate_writable`. -/
def locateWritable (caller : User) (segments : List NodeName) (quota : Int) : Tx Place := do
  let place ← locate caller segments quota
  if place.writable then pure place else fail .forbidden

/-- Where `directory_for_write` starts from, and the names below it. -/
def topForWrite (caller : User) (segments : List NodeName) (quota : Int) :
    Tx (Node × List NodeName) :=
  match segments with
  | [] => do
    let root ← ensureRoot caller.id quota
    pure (root, [])
  | first :: rest =>
    if isShelf first then
      match rest with
      | [] => fail .forbidden
      | mountName :: below => do
        let top ← mount caller.email mountName
        if top.1.access.mayWrite then pure (top.2, below) else fail .forbidden
    else do
      let root ← ensureRoot caller.id quota
      pure (root, first :: rest)

/-- `directory_for_write`. -/
def directoryForWrite (caller : User) (segments : List NodeName) (create : Bool) (quota : Int) :
    Tx Node := do
  let top ← topForWrite caller segments quota
  let directory ←
    if create then createDirectories top.1.ownerId top.1 top.2 else resolve top.1 top.2
  if directory.isDirectory then pure directory else fail (.wrongKind "directory")

/-- `refuse_reserved`. -/
def refuseReserved (parent : Node) (name : NodeName) : Tx Unit :=
  if parent.parentId = none ∧ isShelf name then fail (.conflict sharedWithMe) else pure ()

/-- What `file_target` answers for a mount that is a single file: where it stands in its owner's
tree, which is outside the mount. -/
def mountedFile (caller : User) (mountName : NodeName) : Tx (Node × NodeName) := do
  let top ← mount caller.email mountName
  if top.1.access.mayWrite = false then fail .forbidden
  else if top.2.isDirectory then fail (.conflict top.1.mountName)
  else do
    let parentId ← orFail .notFound top.2.parentId
    let live ← liveNode parentId
    let parent ← orFail .notFound live
    match NodeName.fromStr top.2.name with
    | .ok name => pure (parent, name)
    | .error e => fail (.invalidPath e)

/-- `file_target`, away from the mounts themselves. -/
def targetIn (caller : User) (segments : List NodeName) (create : Bool) (quota : Int) :
    Tx (Node × NodeName) := do
  let name ← orFail (.wrongKind "file path") segments.getLast?
  let parent ← directoryForWrite caller segments.dropLast create quota
  refuseReserved parent name
  pure (parent, name)

/-- `file_target`. -/
def fileTarget (caller : User) (segments : List NodeName) (create : Bool) (quota : Int) :
    Tx (Node × NodeName) :=
  match segments with
  | [first, mountName] =>
    if isShelf first then mountedFile caller mountName
    else targetIn caller [first, mountName] create quota
  | segments => targetIn caller segments create quota

end Stashden.Api
