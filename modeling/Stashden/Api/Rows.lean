import Stashden.Lib.Table
import Stashden.Core.Grant

/-!
# The database (`api/migrations`)

One `Table` for each table the modelled functions read, with the columns they use, and the
constraints of the migrations as `Constraint`. A `Store` is any contents of the tables; a `Db` is one
whose constraints hold, which is what Postgres keeps after every statement, so the structure carries
it.

Two CHECKs hold by construction: `files_carry_a_blob` (a `Body` is a directory, or a file with its
blob) and `trashed_nodes_name_their_root` (`Trashed` holds `deleted_at` and `trash_root_id` at once).
-/

namespace Stashden.Api

open Lib Stashden.Core

/-- `Uuid`: `now_v7` is increasing, so ids are the numbers in the order they were given out. -/
abbrev Uuid := Nat

/-- `BlobHash`, taken as collision-free. -/
structure BlobHash where
  digest : Nat
  deriving DecidableEq

/-- The tag of a node: `etag_for_file`, or one of its own (`etag_for_directory`). -/
inductive Etag where
  | file (hash : BlobHash)
  | directory (id : Uuid)
  deriving DecidableEq

/-- A row of `users`. -/
structure User where
  id : Uuid
  email : Str
  displayName : Str
  active : Bool
  mayWriteRole : Bool
  deriving DecidableEq

/-- `User::is_active`. -/
def User.isActive (u : User) : Bool := u.active

/-- `User::may_write`. -/
def User.mayWrite (u : User) : Bool := u.isActive && u.mayWriteRole

/-- `NodeKind`, with what a node of the kind holds. -/
inductive Body where
  | directory
  | file (hash : BlobHash) (size : Nat)
  deriving DecidableEq

/-- `deleted_at` and `trash_root_id` of a trashed node. -/
structure Trashed where
  deletedAt : Nat
  root : Uuid
  deriving DecidableEq

/-- A row of `nodes`. -/
structure Node where
  id : Uuid
  ownerId : Uuid
  parentId : Option Uuid
  name : Str
  body : Body
  etag : Etag
  trashed : Option Trashed
  deriving DecidableEq

namespace Node

def isDirectory (n : Node) : Bool :=
  match n.body with
  | .directory => true
  | .file _ _ => false

/-- `blob_hash`. -/
def blobHash (n : Node) : Option BlobHash :=
  match n.body with
  | .directory => none
  | .file hash _ => some hash

/-- `size`. -/
def size (n : Node) : Int :=
  match n.body with
  | .directory => 0
  | .file _ size => size

/-- `deleted_at IS NULL`. -/
def live (n : Node) : Bool := n.trashed.isNone

/-- `trash_root_id`. -/
def trashRoot (n : Node) : Option Uuid := n.trashed.map Trashed.root

end Node

/-- A row of `blobs`. -/
structure Blob where
  hash : BlobHash
  size : Int
  refCount : Int
  unreferencedSince : Option Nat
  deriving DecidableEq

/-- A row of `versions`. -/
structure Version where
  id : Uuid
  nodeId : Uuid
  hash : BlobHash
  size : Int
  deriving DecidableEq

/-- A row of `thumbnails`. -/
structure Thumbnail where
  source : BlobHash
  edge : Nat
  hash : BlobHash
  deriving DecidableEq

/-- A row of `quotas`. -/
structure Quota where
  ownerId : Uuid
  bytesUsed : Int
  bytesMax : Int
  deriving DecidableEq

/-- A row of `grants`. -/
structure Grant where
  id : Uuid
  nodeId : Uuid
  grantee : Str
  access : Access
  mountName : Str
  createdBy : Uuid
  createdAt : Nat
  deriving DecidableEq

/-- A row of `locks`. -/
structure Lock where
  token : Uuid
  nodeId : Uuid
  ownerId : Uuid
  deep : Bool
  expiresAt : Nat
  deriving DecidableEq

/-- The contents of the tables, the clock, and the next id. -/
structure Store where
  users : Table User User.id
  nodes : Table Node Node.id
  blobs : Table Blob Blob.hash
  versions : Table Version Version.id
  thumbnails : Table Thumbnail fun t => (t.source, t.edge)
  quotas : Table Quota Quota.ownerId
  grants : Table Grant Grant.id
  locks : Table Lock Lock.token
  now : Nat
  next : Uuid
  deriving DecidableEq

/-- The constraints of the migrations, with the foreign keys between the tables. -/
inductive Constraint where
  | primaryKey
  | usersUniqueEmail
  | nodesUniqueNamePerParent
  | nodesSingleRootPerOwner
  | nodesNameCheck
  | nodesForeign
  | blobsCheck
  | versionsForeign
  | thumbnailsForeign
  | quotasCheck
  | grantsOncePerAddress
  | grantsMountNames
  | grantsMountNameCheck
  | grantsForeign
  | locksOnePerNode
  | locksForeign
  deriving DecidableEq

def Constraint.all : List Constraint :=
  [.primaryKey, .usersUniqueEmail, .nodesUniqueNamePerParent, .nodesSingleRootPerOwner,
    .nodesNameCheck, .nodesForeign, .blobsCheck, .versionsForeign, .thumbnailsForeign, .quotasCheck,
    .grantsOncePerAddress, .grantsMountNames, .grantsMountNameCheck, .grantsForeign,
    .locksOnePerNode, .locksForeign]

theorem Constraint.mem_all (c : Constraint) : c ∈ Constraint.all := by
  cases c <;> decide

namespace Store

/-- `name <> '' AND name !~ '/'` of a node below a root, `name = ''` of a root. -/
def nameCheck (n : Node) : Bool :=
  match n.parentId with
  | none => decide (n.name = [])
  | some _ => decide (n.name ≠ []) && decide ('/' ∉ n.name)

/-- What a constraint says of the tables. `primaryKey` says that no id is still to be given out:
each table keeps its own keys apart. -/
def Holds (s : Store) : Constraint → Prop
  | .primaryKey => (∀ n ∈ s.nodes.rows, n.id < s.next) ∧ (∀ v ∈ s.versions.rows, v.id < s.next) ∧
      (∀ g ∈ s.grants.rows, g.id < s.next) ∧ ∀ l ∈ s.locks.rows, l.token < s.next
  | .usersUniqueEmail => ∀ u ∈ s.users.rows, ∀ v ∈ s.users.rows, u.email = v.email → u.id = v.id
  | .nodesUniqueNamePerParent => ∀ n ∈ s.nodes.rows, ∀ m ∈ s.nodes.rows,
      n.live = true → m.live = true → n.parentId.isSome = true → n.parentId = m.parentId →
        n.name = m.name → n.id = m.id
  | .nodesSingleRootPerOwner => ∀ n ∈ s.nodes.rows, ∀ m ∈ s.nodes.rows,
      n.live = true → m.live = true → n.parentId = none → m.parentId = none →
        n.ownerId = m.ownerId → n.id = m.id
  | .nodesNameCheck => ∀ n ∈ s.nodes.rows, nameCheck n = true
  | .nodesForeign => ∀ n ∈ s.nodes.rows,
      (s.users.find n.ownerId).isSome = true ∧
      (∀ p ∈ n.parentId, (s.nodes.find p).isSome = true) ∧
      (∀ r ∈ n.trashRoot, (s.nodes.find r).isSome = true) ∧
      ∀ h ∈ n.blobHash, (s.blobs.find h).isSome = true
  | .blobsCheck => ∀ b ∈ s.blobs.rows, 0 ≤ b.size ∧ 0 ≤ b.refCount
  | .versionsForeign => ∀ v ∈ s.versions.rows,
      (s.nodes.find v.nodeId).isSome = true ∧ (s.blobs.find v.hash).isSome = true ∧ 0 ≤ v.size
  | .thumbnailsForeign => ∀ t ∈ s.thumbnails.rows,
      (s.blobs.find t.source).isSome = true ∧ (s.blobs.find t.hash).isSome = true ∧ 0 < t.edge
  | .quotasCheck => ∀ q ∈ s.quotas.rows,
      (s.users.find q.ownerId).isSome = true ∧ 0 ≤ q.bytesUsed ∧ 0 < q.bytesMax
  | .grantsOncePerAddress => ∀ g ∈ s.grants.rows, ∀ h ∈ s.grants.rows,
      g.nodeId = h.nodeId → g.grantee = h.grantee → g.id = h.id
  | .grantsMountNames => ∀ g ∈ s.grants.rows, ∀ h ∈ s.grants.rows,
      g.grantee = h.grantee → g.mountName = h.mountName → g.id = h.id
  | .grantsMountNameCheck => ∀ g ∈ s.grants.rows, g.mountName ≠ [] ∧ '/' ∉ g.mountName
  | .grantsForeign => ∀ g ∈ s.grants.rows,
      (s.nodes.find g.nodeId).isSome = true ∧ (s.users.find g.createdBy).isSome = true
  | .locksOnePerNode => ∀ l ∈ s.locks.rows, ∀ k ∈ s.locks.rows, l.nodeId = k.nodeId →
      l.token = k.token
  | .locksForeign => ∀ l ∈ s.locks.rows,
      (s.nodes.find l.nodeId).isSome = true ∧ (s.users.find l.ownerId).isSome = true

instance (s : Store) (c : Constraint) : Decidable (s.Holds c) := by
  cases c <;> unfold Holds <;> infer_instance

/-- The first constraint that does not hold. -/
def violated (s : Store) : Option Constraint := Constraint.all.find? fun c => !decide (s.Holds c)

theorem violated_eq_none_iff {s : Store} : s.violated = none ↔ ∀ c, s.Holds c := by
  unfold violated
  rw [List.find?_eq_none]
  simp only [Bool.not_eq_true', decide_eq_false_iff_not, not_not]
  exact ⟨fun h c => h c (Constraint.mem_all c), fun h c _ => h c⟩

end Store

/-- A store every constraint holds of. -/
structure Db extends Store where
  sound : ∀ c, toStore.Holds c

namespace Db

instance : DecidableEq Db := fun a b =>
  decidable_of_iff (a.toStore = b.toStore)
    ⟨fun h => by cases a; cases b; cases h; rfl, fun h => h ▸ rfl⟩

end Db

end Stashden.Api
