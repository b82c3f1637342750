import Stashden.Api.Tree

/-!
# Locks (`api/src/dav/locks.rs`)

`covering` ends in `LIMIT 1` without an order, so which of the rows it answers is the planner's
choice: a `Limit` is any such choice.
-/

namespace Stashden.Api

open Lib Stashden.Core Tx

/-- `LIMIT 1`: one of the rows, where there are any. -/
structure Limit where
  first : List Lock → Option Lock
  mem : ∀ rows lock, first rows = some lock → lock ∈ rows
  isSome : ∀ rows, rows ≠ [] → (first rows).isSome = true

/-- The first row. -/
def Limit.head : Limit where
  first := List.head?
  mem := fun _ _ h => List.mem_of_head? h
  isSome := fun rows h => by
    cases rows with
    | nil => exact absurd rfl h
    | cons _ _ => rfl

namespace Store

/-- `expires_at > now()`. -/
def unexpired (s : Store) (l : Lock) : Bool := decide (s.now < l.expiresAt)

/-- The rows `covering` reads. -/
def coveringRows (s : Store) (id : Uuid) : List Lock :=
  s.locks.select fun l => (s.ancestry id).any (fun n => n.id = l.nodeId) && s.unexpired l &&
    (decide (l.nodeId = id) || l.deep)

/-- The rows `none_below` reads. -/
def rowsBelow (s : Store) (id : Uuid) : List Lock :=
  s.locks.select fun l => (s.subtree id).any (fun n => n.id = l.nodeId) && s.unexpired l

end Store

/-- `covering`. -/
def covering (limit : Limit) (node : Node) : Tx (Option Lock) :=
  query fun s => limit.first (s.coveringRows node.id)

/-- `allows`. -/
def allows (limit : Limit) (node : Node) (submitted : List Uuid) : Tx Unit := do
  let lock ← covering limit node
  match lock with
  | none => pure ()
  | some lock => if lock.token ∈ submitted then pure () else fail (.locked node.name)

/-- `none_below`. -/
def noneBelow (node : Node) (submitted : List Uuid) : Tx Unit := do
  let held ← query fun s =>
    (s.rowsBelow node.id).map fun l => (l.token, (s.nodes.find l.nodeId).elim [] Node.name)
  match held.find? fun h => h.1 ∉ submitted with
  | none => pure ()
  | some h => fail (.locked h.2)

/-- `take`. -/
def takeLock (node : Node) (ownerId : Uuid) (deep : Bool) (seconds : Nat) : Tx Lock := do
  execute fun s =>
    { s with locks := s.locks.delete fun l => decide (l.nodeId = node.id) && !s.unexpired l }
  let token ← fresh
  mapViolated (fun c => if c = .locksOnePerNode then .locked node.name else .database c) <|
    insertRow fun s =>
      (s.locks.insert ⟨token, node.id, ownerId, deep, s.now + seconds⟩).map fun locks =>
        { s with locks }
  let taken ← query fun s => s.locks.find token
  orFail .rowNotFound taken

/-- `refresh`. -/
def refresh (token : Uuid) (node : Node) (seconds : Nat) : Tx (Option Lock) := do
  let reached ← query fun s =>
    (s.locks.find token).any fun l => decide (l.nodeId = node.id) && s.unexpired l
  execute fun s => { s with
    locks := s.locks.update
      (fun l => decide (l.token = token) && decide (l.nodeId = node.id) && s.unexpired l)
      (fun l => { l with expiresAt := s.now + seconds }) fun _ => rfl }
  query fun s => if reached then s.locks.find token else none

/-- `release`. -/
def releaseLock (node : Node) (token : Uuid) : Tx Bool := do
  let reached ← query fun s => (s.locks.find token).any fun l => l.nodeId = node.id
  execute fun s => { s with
    locks := s.locks.delete fun l => decide (l.token = token) && decide (l.nodeId = node.id) }
  pure reached

/-- `purge_expired`. -/
def purgeExpired : Tx Unit :=
  execute fun s => { s with locks := s.locks.delete fun l => !s.unexpired l }

end Stashden.Api
