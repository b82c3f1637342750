import Stashden.Api.Address
import Stashden.Api.Bequest
import Stashden.Api.Within

/-!
# What an administrator's requests leave alone (`api/src/routes/users.rs`)

`Administers` are the transactions of the handlers that write accounts. `Spares` says that the nodes of
an account are as they were, and that no grant lets anybody write there who was let by none before;
`administers_spares` is that these requests spare every account but the one they remove and the one
they hand its files to.
-/

namespace Stashden.Api

open Lib Stashden.Core Tx

variable {db db' m : Db} {s s' : Store} {ownerId id recipientId k : Uuid} {row node : Node}
  {user : User} {email new : Str} {quota : Int} {u : Unit} {receiver : Option Uuid}

/-- A transaction of `create`, `disable`, `enable`, `set_role`, `set_email`, `set_quota` or `delete`,
where the account that goes is not `ownerId`, nor the one that is given its files. -/
inductive Administers (ownerId : Uuid) : Db → Db → Prop
  | createUser {db db' : Db} {email displayName : Str} {mayWriteRole : Bool} {user : User}
      (hx : (createUser email displayName mayWriteRole).Returns db user db') :
      Administers ownerId db db'
  | setDisabled {db db' : Db} {id : Uuid} {disabled : Bool} {user : User}
      (hx : (setDisabled id disabled).Returns db user db') : Administers ownerId db db'
  | setRole {db db' : Db} {id : Uuid} {mayWriteRole : Bool} {user : User}
      (hx : (setRole id mayWriteRole).Returns db user db') : Administers ownerId db db'
  | setEmail {db db' : Db} {id : Uuid} {email : Str} {user : User}
      (hx : (setEmail id email).Returns db user db') : Administers ownerId db db'
  | setQuota {db db' : Db} {id : Uuid} {bytesMax : Int}
      (hx : (setQuota id bytesMax).Returns db () db') : Administers ownerId db db'
  | removeAccount {db db' : Db} {id : Uuid} {receiver : Option Uuid} {quota : Int}
      (hleaving : id ≠ ownerId) (hreceiver : receiver ≠ some ownerId) (hother : receiver ≠ some id)
      (hx : (removeAccount id receiver quota).Returns db () db') : Administers ownerId db db'

/-- Each is a step of the service. -/
theorem Administers.step (h : Administers ownerId db db') : Step db db' := by
  cases h with
  | createUser hx => exact .createUser hx
  | setDisabled hx => exact .setDisabled hx
  | setRole hx => exact .setRole hx
  | setEmail hx => exact .setEmail hx
  | setQuota hx => exact .setQuota hx
  | removeAccount _ _ hother hx => exact .removeAccount hother hx

/-- The nodes of an account are as they were, and no node of it comes to be lent for writing. -/
structure Spares (ownerId : Uuid) (s s' : Store) : Prop where
  rows : ∀ {k row}, row.ownerId = ownerId → (s.nodes.find k = some row ↔ s'.nodes.find k = some row)
  lends : ∀ g' ∈ s'.grants.rows, g'.access.mayWrite = true →
    ∀ row, s'.nodes.find g'.nodeId = some row → row.ownerId = ownerId →
      ∃ g ∈ s.grants.rows, g.nodeId = g'.nodeId ∧ g.access.mayWrite = true

/-- Nodes and grants are the same. -/
structure Untouched (s s' : Store) : Prop where
  nodes : s'.nodes = s.nodes
  grants : s'.grants = s.grants

instance : IsPreorder Store Untouched where
  refl _ := ⟨rfl, rfl⟩
  trans _ _ _ h h' := ⟨h'.nodes.trans h.nodes, h'.grants.trans h.grants⟩

theorem Untouched.spares (h : Untouched s s') : Spares ownerId s s' where
  rows _ := by rw [h.nodes]
  lends := fun g hg hwrite _ _ _ => ⟨g, h.grants ▸ hg, rfl, hwrite⟩

theorem untouched_createUser {displayName : Str} {mayWriteRole : Bool} :
    Keeps Untouched (createUser email displayName mayWriteRole) := by
  refine keeps_bind (keeps_fresh fun _ => ⟨rfl, rfl⟩) fun id =>
    keeps_bind (keeps_mapViolated ?_) fun _ => keeps_pure
  refine keeps_insertRow fun s s' h => ?_
  obtain ⟨users, -, rfl⟩ := Option.map_eq_some_iff.mp h
  exact ⟨rfl, rfl⟩

theorem untouched_setDisabled {disabled : Bool} : Keeps Untouched (setDisabled id disabled) :=
  keeps_bind (keeps_execute fun _ => ⟨rfl, rfl⟩) fun _ => keeps_bind keeps_query fun _ => keeps_orFail

theorem untouched_setRole {mayWriteRole : Bool} : Keeps Untouched (setRole id mayWriteRole) :=
  keeps_bind (keeps_execute fun _ => ⟨rfl, rfl⟩) fun _ => keeps_bind keeps_query fun _ => keeps_orFail

theorem untouched_setQuota {bytesMax : Int} : Keeps Untouched (setQuota id bytesMax) :=
  keeps_ite keeps_fail (keeps_mapViolated (keeps_execute fun _ => ⟨rfl, rfl⟩))

theorem untouched_remember {source thumbnail : BlobHash} {edge : Nat} :
    Keeps Untouched (remember source edge thumbnail) :=
  keeps_bind keeps_query fun _ => keeps_bind (keeps_execute fun _ => ⟨rfl, rfl⟩) fun _ =>
    keeps_ite (keeps_execute fun _ => ⟨rfl, rfl⟩) keeps_pure

/-! ## An address changes -/

/-- A node some grant lets somebody write. -/
def Store.Writable (s : Store) (nodeId : Uuid) : Prop :=
  ∃ g ∈ s.grants.rows, g.nodeId = nodeId ∧ g.access.mayWrite = true

/-- A round of `reassign` lets nobody write but what its grant let write, or some other one. -/
theorem writable_reassignOne {r : Grant} (h : (reassignOne new r).Returns db u db')
    (hwritable : db'.Writable k) : db.Writable k ∨ r.nodeId = k ∧ r.access.mayWrite = true := by
  obtain ⟨g, hg, rfl, hwrite⟩ := hwritable
  obtain ⟨existing, hex, hrows⟩ | ⟨-, mountName, hrows⟩ := reassignOne_cases h
  · obtain ⟨-, g₀, hg₀, rfl⟩ := (hrows g).mp hg
    obtain ⟨hmem, -, hnode⟩ := grantTo_eq_some_iff.mp hex
    split_ifs at hwrite ⊢ with hid
    · cases hr : r.access with
      | write =>
        refine Or.inr ⟨?_, rfl⟩
        rw [← hnode, Table.eq_of_key hg₀ hmem hid]
      | read =>
        rw [hr] at hwrite
        refine Or.inl ⟨existing, hmem, ?_, hwrite⟩
        rw [Table.eq_of_key hg₀ hmem hid]
    · exact Or.inl ⟨g₀, hg₀, rfl, hwrite⟩
  · obtain ⟨g₀, hg₀, rfl⟩ := (hrows g).mp hg
    refine Or.inl ⟨g₀, hg₀, ?_, ?_⟩
    · split_ifs <;> rfl
    · split_ifs at hwrite <;> exact hwrite

theorem writable_reassign {previous : Str} (h : (reassign previous new).Returns db u db')
    (hwritable : db'.Writable k) : db.Writable k := by
  have hloop := reassign_returns.mp h
  have hfrom : ∀ r ∈ moving db.toStore previous, r ∈ db.grants.rows := fun r hr => (mem_moving.mp hr).1
  have key : ∀ (moving : List Grant) {m : Db}, (∀ r ∈ moving, r ∈ db.grants.rows) →
      (forEach (reassignOne new) moving).Returns m u db' → m.Writable k ∨ db.Writable k := by
    intro moving
    induction moving with
    | nil =>
      intro m _ h
      rw [forEach_nil_returns.mp h]
      exact Or.inl hwritable
    | cons r moving ih =>
      intro m hmem h
      obtain ⟨m₁, hone, hrest⟩ := forEach_cons_returns.mp h
      rcases ih (fun k hk => hmem k (List.mem_cons_of_mem r hk)) hrest with hw | hw
      · rcases writable_reassignOne hone hw with hw | ⟨hnode, hwrite⟩
        · exact Or.inl hw
        · exact Or.inr ⟨r, hmem r List.mem_cons_self, hnode, hwrite⟩
      · exact Or.inr hw
  exact (key _ hfrom hloop).elim id id

theorem setEmail_spares (h : (setEmail id email).Returns db user db') :
    Spares ownerId db.toStore db'.toStore := by
  obtain ⟨account, m, -, hgrants, hre⟩ := setEmail_cases h
  refine ⟨fun _ => by rw [(aside_setEmail h).nodes], fun g hg hwrite _ _ _ => ?_⟩
  obtain ⟨g₀, hg₀, hnode, hwrite'⟩ := writable_reassign hre ⟨g, hg, rfl, hwrite⟩
  exact ⟨g₀, hgrants ▸ hg₀, hnode, hwrite'⟩

/-! ## An account goes -/

/-- A hand-over, or none, gives nobody a grant. -/
theorem Handled.grants {leaving : User} (h : Handled leaving quota receiver db db')
    (hs : Sane db.toStore) (hother : receiver ≠ some leaving.id) : db'.grants = db.grants := by
  cases h with
  | nobody => rfl
  | nothing => rfl
  | tree hfind htop hx =>
    obtain ⟨htop, howner, hnone⟩ := oldRootOf_eq_some htop
    obtain ⟨root, folder, m, hhost, -, -, hsettled⟩ := handOverTree_returns hs htop hnone howner
      (fun hsame => hother (by rw [hsame])) hx
    rw [hsettled.rest]
    exact hhost.rest.steady.grants

/-- Nobody is given a grant when an account goes. -/
theorem removeAccount_grants (hs : Sane db.toStore) (hother : receiver ≠ some id)
    (hx : (removeAccount id receiver quota).Returns db u db') :
    ∀ g ∈ db'.grants.rows, g ∈ db.grants.rows := by
  obtain ⟨leaving, purged, m₁, m₂, -, rfl, hempty, hhand, hend⟩ := removeAccount_returns hx
  have hs₁ := emptyTrash_sane hs hempty
  have hpurges := emptyTrash_purges hempty
  have hhandled := handOverTo_returns hhand
  have hleft : Left leaving.id m₂.toStore db'.toStore := by
    cases hhandled with
    | nobody => exact (hend 0 hs₁.toLeaving).2
    | nothing => exact (hend 0 hs₁.toLeaving).2
    | tree hfind htop hx =>
      obtain ⟨htop, howner, hnone⟩ := oldRootOf_eq_some htop
      obtain ⟨root, folder, m, -, hs₂, hhanding, hsettled⟩ := handOverTree_returns hs₁ htop hnone
        howner (fun hsame => hother (by rw [hsame])) hx
      exact (hend _ (hsettled.toLeaving hhanding hs₂)).2
  intro g hg
  have hmid := hleft.grants g hg
  rw [hhandled.grants hs₁ hother] at hmid
  exact ((hpurges.grants hs.forest g).mp hmid).1

/-- Where nobody is given the files, the nodes of the others are as they were. -/
theorem removeAccount_nobody (hs : Sane db.toStore) (howner : row.ownerId ≠ id)
    (hx : (removeAccount id none quota).Returns db u db') :
    db.nodes.find k = some row ↔ db'.nodes.find k = some row := by
  obtain ⟨leaving, purged, m₁, m₂, -, rfl, hempty, hhand, hend⟩ := removeAccount_returns hx
  have hs₁ := emptyTrash_sane hs hempty
  cases handOverTo_returns hhand with
  | nobody =>
    rw [(hend 0 hs₁.toLeaving).2.nodes, deleteUser_find hs₁.forest,
      (emptyTrash_cleared hs.forest hempty).nodes]
    exact ⟨fun hrow => ⟨⟨hrow, fun ho => absurd ho howner⟩, howner⟩, fun hrow => hrow.1.1⟩

/-- Nor is a node of a third account written where somebody is. -/
theorem Bequeathed.third (h : Bequeathed id recipientId s s') (howner : row.ownerId ≠ id)
    (hthird : row.ownerId ≠ recipientId) :
    s.nodes.find k = some row ↔ s'.nodes.find k = some row := by
  refine ⟨fun hrow => h.others k row hrow howner, fun hrow => ?_⟩
  cases htop : s.oldRootOf id with
  | none =>
    rw [← h.rootless htop]
    exact hrow
  | some top =>
    obtain ⟨root, folder, ⟨-, hroot, -⟩, ⟨-, -, hfolder, -⟩, -, hmoved, hnew⟩ := h.moved top htop
    cases hold : s.nodes.find k with
    | none =>
      rcases hnew k row hrow hold with rfl | rfl
      · exact absurd hfolder hthird
      · exact absurd hroot hthird
    | some old =>
      by_cases ho : old.ownerId = id
      · by_cases hstays : old.live = true ∧ old.parentId ≠ none
        · rw [hmoved k old hold ho hstays.1 hstays.2] at hrow
          cases hrow
          exact absurd rfl hthird
        · rw [not_and_or, Bool.not_eq_true, not_not] at hstays
          rw [h.gone k old hold ho hstays] at hrow
          cases hrow
      · rw [h.others k old hold ho] at hrow
        exact hrow

theorem removeAccount_spares (hs : Sane db.toStore) (hleaving : id ≠ ownerId)
    (hreceiver : receiver ≠ some ownerId) (hother : receiver ≠ some id)
    (hx : (removeAccount id receiver quota).Returns db u db') :
    Spares ownerId db.toStore db'.toStore := by
  refine ⟨fun {k row} howner => ?_, fun g hg hwrite _ _ _ =>
    ⟨g, removeAccount_grants hs hother hx g hg, rfl, hwrite⟩⟩
  have hforeign : row.ownerId ≠ id := fun ho => hleaving (ho.symm.trans howner)
  cases receiver with
  | none => exact removeAccount_nobody hs hforeign hx
  | some recipientId =>
    exact (removeAccount_bequeathed hs (fun hsame => hother (congrArg some hsame)) hx).third hforeign
      fun ho => hreceiver (congrArg some (ho.symm.trans howner))

/-- **An administrator's requests** spare every account they do not name. -/
theorem administers_spares (hs : Sane db.toStore) (h : Administers ownerId db db') :
    Spares ownerId db.toStore db'.toStore := by
  cases h with
  | createUser hx => exact (untouched_createUser hx).spares
  | setDisabled hx => exact (untouched_setDisabled hx).spares
  | setRole hx => exact (untouched_setRole hx).spares
  | setEmail hx => exact setEmail_spares hx
  | setQuota hx => exact (untouched_setQuota hx).spares
  | removeAccount hleaving hreceiver hother hx =>
    exact removeAccount_spares hs hleaving hreceiver hother hx

end Stashden.Api
