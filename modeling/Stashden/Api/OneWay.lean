import Stashden.Api.Access
import Stashden.Api.Address
import Stashden.Api.Purge
import Stashden.Api.Restore

/-!
# One way in per address (`grants::give`, `grants::withdraw`)

`OneWay` is what `give` refuses nesting for: no address has been granted two nodes of which one
contains the other, nobody has been granted a node of their own, and the mounts of an address have
names of their own. `give`, `withdraw`, `send`, `restore` and `purge` keep it; `set_email` keeps it
exactly when the shares of the two addresses are `Separate` (`setEmail_oneWay_iff`), for `reassign`
compares the node of a grant it moves with the nodes the new address has, and not what contains them.

`oneWay_kept` is the run of them all, and `nested_after_setEmail` a run that ends nested.
-/

namespace Stashden.Api

open Lib Stashden.Core Tx

/-! ## Giving and taking back -/

/-- `Given`, of a node that is not in the trash. -/
structure Given where
  id : Uuid
  nodeId : Uuid
  name : Str
  isDirectory : Bool
  email : Str
  access : Access
  inTrash : Bool
  createdAt : Nat
  deriving DecidableEq

/-- `reached_by`. -/
def Store.reachedBy (s : Store) (ownerId : Uuid) (grantee : Str) : List Node :=
  s.nodes.select fun n => n.ownerId = ownerId &&
    s.grants.rows.any fun g => g.grantee = grantee && g.nodeId = n.id

/-- The body of the loop of `give`. -/
def refuseNested (node reached : Node) : Tx Unit := do
  let above ← contains reached node
  if above then fail .alreadyGranted
  else do
    let below ← contains node reached
    if below then fail .alreadyGranted else pure ()

/-- `INSERT INTO grants`, under an id of its own. -/
def insertGrant (nodeId : Uuid) (grantee : Str) (access : Access) (mountName : Str)
    (createdBy : Uuid) : Tx Grant := do
  let id ← fresh
  let s ← read
  let grant : Grant := ⟨id, nodeId, grantee, access, mountName, createdBy, s.now⟩
  insertRow fun s => (s.grants.insert grant).map fun grants => { s with grants }
  pure grant

/-- `give`. -/
def give (owner : User) (node : Node) (grantee : Str) (access : Access) : Tx Given :=
  if grantee = owner.email then fail (.wrongKind "different address from your own")
  else do
    let reached ← query fun s => s.reachedBy node.ownerId grantee
    forEach (refuseNested node) reached
    let mountName ← freeMountName grantee node.name
    let grant ← mapViolated
      (fun c => if c = .grantsOncePerAddress then .alreadyGranted else .database c)
      (insertGrant node.id grantee access mountName owner.id)
    pure ⟨grant.id, node.id, node.name, node.isDirectory, grantee, access, false, grant.createdAt⟩

/-- `id = $1 AND (grantee_email = $2 OR node_id IN (SELECT id FROM nodes WHERE owner_id = $3))`. -/
def Store.withdrawable (s : Store) (caller : User) (id : Uuid) (g : Grant) : Bool :=
  g.id = id && (g.grantee = caller.email ||
    (s.nodes.find g.nodeId).any fun n => n.ownerId = caller.id)

/-- `withdraw`. -/
def withdraw (caller : User) (id : Uuid) : Tx Unit := do
  let removed ← query fun s => s.grants.select (s.withdrawable caller id)
  execute fun s => { s with grants := s.grants.delete (s.withdrawable caller id) }
  if removed = [] then fail .notFound else pure ()

/-! ## One way in -/

/-- What holds of the grants of one address, and of an account's own nodes. -/
structure OneWay (s : Store) : Prop where
  apart : ∀ g ∈ s.grants.rows, ∀ h ∈ s.grants.rows, g.grantee = h.grantee →
    AtOrBelow s.nodes g.nodeId h.nodeId → g = h
  foreign : ∀ u ∈ s.users.rows, ∀ g ∈ s.grants.rows, g.grantee = u.email →
    ∀ n, s.nodes.find g.nodeId = some n → n.ownerId ≠ u.id
  names : ∀ g ∈ s.grants.rows, ∀ h ∈ s.grants.rows, g.grantee = h.grantee →
    g.mountName = h.mountName → g = h

variable {s s' : Store} {db db' m : Db} {owner caller user account : User} {node row reached : Node}
  {grantee previous new email : Str} {access : Access} {given : Given} {id ownerId n : Uuid}
  {g : Grant} {u : Unit}

/-- A grant's mount name is the constraint's. -/
theorem names_of_sound (db : Db) : ∀ g ∈ db.grants.rows, ∀ h ∈ db.grants.rows,
    g.grantee = h.grantee → g.mountName = h.mountName → g = h := fun g hg h hh he hm =>
  Table.eq_of_key hg hh (db.sound .grantsMountNames g hg h hh he hm)

namespace OneWay

/-- **At most one grant of an address** reaches a node. -/
theorem unique (h : OneWay s) {g k : Grant} (hg : g ∈ s.grants.rows) (hk : k ∈ s.grants.rows)
    (he : g.grantee = k.grantee) (hng : AtOrBelow s.nodes n g.nodeId)
    (hnk : AtOrBelow s.nodes n k.nodeId) : g = k := by
  rcases hng.total hnk with hup | hup
  · exact h.apart g hg k hk he hup
  · exact (h.apart k hk g hg he.symm hup).symm

/-- Fewer grants, on nodes of the same owners that are contained as they were. -/
theorem of_fewer (h : OneWay s) (hgrants : ∀ g ∈ s'.grants.rows, g ∈ s.grants.rows)
    (husers : s'.users = s.users)
    (hup : ∀ a b, AtOrBelow s'.nodes a b → AtOrBelow s.nodes a b)
    (howner : ∀ k row', s'.nodes.find k = some row' →
      ∃ row, s.nodes.find k = some row ∧ row.ownerId = row'.ownerId) : OneWay s' where
  apart g hg k hk he hnest :=
    h.apart g (hgrants g hg) k (hgrants k hk) he (hup _ _ hnest)
  foreign u hu g hg he row' hrow' := by
    obtain ⟨row, hrow, hsame⟩ := howner _ row' hrow'
    rw [husers] at hu
    rw [← hsame]
    exact h.foreign u hu g (hgrants g hg) he row hrow
  names g hg k hk := h.names g (hgrants g hg) k (hgrants k hk)

end OneWay

/-! ## The trash -/

theorem OneWay.retrashed (h : OneWay s) (hsteady : Steady s s') (hre : Retrashed s.nodes s'.nodes) :
    OneWay s' := by
  refine h.of_fewer (fun g hg => hsteady.grants ▸ hg) hsteady.users (fun a b => hre.up.mp)
    fun k row' hrow' => ?_
  obtain ⟨row, hrow, hsame⟩ := hre.symm.find hrow'
  exact ⟨row, hrow, (untrashed_eq hsame).1⟩

theorem send_retrashed (h : (send node).Returns db u db') : Retrashed db.nodes db'.nodes := by
  intro k
  rw [(send_nodes h).2, Option.map_map]
  rfl

theorem send_oneWay (hone : OneWay db.toStore) (h : (send node).Returns db u db') :
    OneWay db'.toStore :=
  hone.retrashed (send_nodes h).1 (send_retrashed h)

/-- **A live node below a root** goes to the trash with what is live below it. -/
theorem send_wellFormed (hw : WellFormed db.nodes) (hnode : db.nodes.find node.id = some node)
    (hlive : node.live = true) (hchild : node.parentId ≠ none)
    (h : (send node).Returns db u db') : WellFormed db'.nodes := by
  refine hw.trash (M := fun r => r.id ∈ (db.marked node.id).map Node.id) hnode hlive hchild
    (fun {row} hrow => ?_) (send_nodes h).2
  rw [List.mem_map]
  constructor
  · rintro ⟨r, hr, hid⟩
    exact hid ▸ ((mem_marked hnode hlive).mp hr).2
  · exact fun hbelow => ⟨row, (mem_marked hnode hlive).mpr ⟨hrow, hbelow⟩, rfl⟩

theorem restore_oneWay (hw : WellFormed db.nodes) (hone : OneWay db.toStore)
    (h : (restore ownerId id).Returns db node db') : OneWay db'.toStore := by
  obtain ⟨hsteady, -, hres, -⟩ := restore_nodes hw h
  exact hone.retrashed hsteady hres.retrashed

theorem purge_oneWay (hw : WellFormed db.nodes) (hone : OneWay db.toStore)
    (h : (purge ownerId id).Returns db u db') : OneWay db'.toStore := by
  have hfind := purge_find hw h
  obtain ⟨-, m, hm, hrelease⟩ := purge_returns.mp h
  have hbooked := booked_releaseEach hrelease
  refine hone.of_fewer (fun g hg => ?_) ?_ (fun a b hup => hup.mono fun x y hxy => ?_)
    fun k row hrow => ⟨row, ((hfind k row).mp hrow).1, rfl⟩
  · rw [hbooked, hm] at hg
    exact (Table.mem_delete.mp hg).1
  · rw [hbooked, hm]
    rfl
  · obtain ⟨row, hrow, hp⟩ := find_of_parentOf hxy
    rw [parentOf_of_find ((hfind x row).mp hrow).1, hp]

/-! ## Grants given and withdrawn -/

theorem withdraw_returns (h : (withdraw user id).Returns db u db') : db'.toStore =
    { db.toStore with grants := db.grants.delete (db.withdrawable user id) } := by
  unfold withdraw at h
  obtain ⟨removed, m, hremoved, h⟩ := bind_returns.mp h
  obtain ⟨-, rfl⟩ := query_returns.mp hremoved
  obtain ⟨_, m, hdelete, h⟩ := bind_returns.mp h
  obtain ⟨-, h⟩ := of_guard h
  obtain ⟨-, rfl⟩ := pure_returns.mp h
  exact execute_returns.mp hdelete

theorem withdraw_oneWay (hone : OneWay db.toStore) (h : (withdraw user id).Returns db u db') :
    OneWay db'.toStore := by
  rw [withdraw_returns h]
  exact hone.of_fewer (fun g hg => (Table.mem_delete.mp hg).1) rfl (fun _ _ hup => hup)
    fun k row hrow => ⟨row, hrow, rfl⟩

theorem contains_returns {ancestor : Node} {b : Bool} : (contains ancestor node).Returns db b db' ↔
    (b = (db.ancestry node.id).any fun above => decide (above.id = ancestor.id)) ∧ db = db' :=
  query_returns

/-- `contains`, of two nodes of the tree. -/
theorem contains_iff {ancestor : Node} (hnode : db.nodes.find node.id = some node)
    (hancestor : ancestor ∈ db.nodes.rows) :
    ((db.ancestry node.id).any fun above => decide (above.id = ancestor.id)) = true ↔
      AtOrBelow db.nodes node.id ancestor.id := by
  rw [List.any_eq_true]
  simp only [decide_eq_true_eq, mem_ancestry_iff hnode]
  constructor
  · rintro ⟨above, ⟨-, hup⟩, hid⟩
    exact hid ▸ hup
  · exact fun hup => ⟨ancestor, ⟨hancestor, hup⟩, rfl⟩

/-- A round of `give` that goes on found the two nodes apart. -/
theorem refuseNested_returns (hnode : db.nodes.find node.id = some node)
    (hreached : db.nodes.find reached.id = some reached)
    (h : (refuseNested node reached).Returns db u db') : db = db' ∧
      ¬ AtOrBelow db.nodes node.id reached.id ∧ ¬ AtOrBelow db.nodes reached.id node.id := by
  unfold refuseNested at h
  obtain ⟨above, m, habove, h⟩ := bind_returns.mp h
  obtain ⟨rfl, rfl⟩ := contains_returns.mp habove
  obtain ⟨hno, h⟩ := of_guard h
  obtain ⟨below, m, hbelow, h⟩ := bind_returns.mp h
  obtain ⟨rfl, rfl⟩ := contains_returns.mp hbelow
  obtain ⟨hno', h⟩ := of_guard h
  obtain ⟨-, rfl⟩ := pure_returns.mp h
  exact ⟨rfl, fun hup => hno ((contains_iff hnode (Table.find_mem hreached)).mpr hup),
    fun hup => hno' ((contains_iff hreached (Table.find_mem hnode)).mpr hup)⟩

theorem refuseNested_all {list : List Node} (hnode : db.nodes.find node.id = some node)
    (hlist : ∀ r ∈ list, db.nodes.find r.id = some r)
    (h : (forEach (refuseNested node) list).Returns db u db') : db = db' ∧
      ∀ r ∈ list, ¬ AtOrBelow db.nodes node.id r.id ∧ ¬ AtOrBelow db.nodes r.id node.id := by
  induction list with
  | nil => exact ⟨forEach_nil_returns.mp h, fun r hr => absurd hr List.not_mem_nil⟩
  | cons r list ih =>
    obtain ⟨m, hone, hrest⟩ := forEach_cons_returns.mp h
    obtain ⟨rfl, hapart⟩ := refuseNested_returns hnode (hlist r List.mem_cons_self) hone
    obtain ⟨hsame, hall⟩ := ih (fun r' hr' => hlist r' (List.mem_cons_of_mem _ hr')) hrest
    exact ⟨hsame, List.forall_mem_cons.mpr ⟨hapart, hall⟩⟩

theorem mem_reachedBy : reached ∈ s.reachedBy ownerId grantee ↔ reached ∈ s.nodes.rows ∧
    reached.ownerId = ownerId ∧ ∃ g ∈ s.grants.rows, g.grantee = grantee ∧ g.nodeId = reached.id := by
  simp [Store.reachedBy, Table.mem_select]

/-- **What `give` checks and adds.** -/
theorem give_returns (hnode : db.nodes.find node.id = some node)
    (h : (give owner node grantee access).Returns db given db') : grantee ≠ owner.email ∧
      (∀ r ∈ db.reachedBy node.ownerId grantee,
        ¬ AtOrBelow db.nodes node.id r.id ∧ ¬ AtOrBelow db.nodes r.id node.id) ∧
      ∃ grant grants, grant.nodeId = node.id ∧ grant.grantee = grantee ∧
        db.grants.insert grant = some grants ∧
        db'.toStore = { db.toStore with next := db.next + 1, grants } := by
  unfold give at h
  obtain ⟨hother, h⟩ := of_guard h
  obtain ⟨reached, m, hreached, h⟩ := bind_returns.mp h
  obtain ⟨rfl, rfl⟩ := query_returns.mp hreached
  obtain ⟨_, m, hrefused, h⟩ := bind_returns.mp h
  obtain ⟨rfl, hapart⟩ := refuseNested_all hnode
    (fun r hr => Table.mem_iff_find.mp (mem_reachedBy.mp hr).1) hrefused
  obtain ⟨mountName, m, hname, h⟩ := bind_returns.mp h
  obtain ⟨rfl, -⟩ := freeMountName_returns.mp hname
  obtain ⟨grant, m, hinsert, h⟩ := bind_returns.mp h
  obtain ⟨-, rfl⟩ := pure_returns.mp h
  rw [mapViolated_returns] at hinsert
  unfold insertGrant at hinsert
  simp only [bind_returns, fresh_returns, read_returns, insertRow_returns, pure_returns] at hinsert
  obtain ⟨_, m₁, ⟨rfl, hfresh⟩, _, _, ⟨rfl, rfl⟩, _, m₂, hins, rfl, rfl⟩ := hinsert
  obtain ⟨grants, hgrants, hs⟩ := Option.map_eq_some_iff.mp hins
  rw [hfresh] at hgrants hs
  exact ⟨hother, hapart, _, grants, rfl, rfl, hgrants, hs.symm⟩

theorem mem_insert_grants {t t' : Table Grant Grant.id} {grant : Grant}
    (h : t.insert grant = some t') : g ∈ t'.rows ↔ g = grant ∨ g ∈ t.rows := by
  rw [(Table.insert_eq_some h).2, List.mem_append, List.mem_singleton, or_comm]

/-- **`give` keeps one way in**: all nodes above and below one have its owner, so `reached_by` has
every node the grant could be nested with. -/
theorem give_oneWay (hw : WellFormed db.nodes) (hone : OneWay db.toStore)
    (howner : owner ∈ db.users.rows) (hnode : db.nodes.find node.id = some node)
    (hown : node.ownerId = owner.id) (h : (give owner node grantee access).Returns db given db') :
    OneWay db'.toStore := by
  obtain ⟨hother, hapart, grant, grants, hat, hto, hinsert, hs⟩ := give_returns hnode h
  have hmem : ∀ g, g ∈ grants.rows ↔ g = grant ∨ g ∈ db.grants.rows :=
    fun g => mem_insert_grants hinsert
  have hclear : ∀ g ∈ db.grants.rows, g.grantee = grantee →
      ¬ AtOrBelow db.nodes node.id g.nodeId ∧ ¬ AtOrBelow db.nodes g.nodeId node.id := by
    intro g hg he
    obtain ⟨r, hr⟩ := Option.isSome_iff_exists.mp (db.sound .grantsForeign g hg).1
    obtain ⟨hrmem, hid⟩ := Table.find_eq_some_iff.mp hr
    have hreach : r.ownerId = node.ownerId → r ∈ db.reachedBy node.ownerId grantee := fun ho =>
      mem_reachedBy.mpr ⟨hrmem, ho, g, hg, he, hid.symm⟩
    rw [← hid]
    have hfind := Table.mem_iff_find.mp hrmem
    exact ⟨fun hup => (hapart r (hreach (hw.owner_above hnode hup hfind).symm)).1 hup,
      fun hup => (hapart r (hreach (hw.owner_above hfind hup hnode))).2 hup⟩
  refine ⟨fun g hg k hk he hup => ?_, fun v hv g hg he r hr => ?_, names_of_sound db'⟩
  · rw [hs] at hg hk hup
    rcases (hmem g).mp hg with rfl | hg <;> rcases (hmem k).mp hk with rfl | hk
    · rfl
    · rw [hat] at hup
      exact absurd hup (hclear k hk (he.symm.trans hto)).1
    · rw [hat] at hup
      exact absurd hup (hclear g hg (he.trans hto)).2
    · exact hone.apart g hg k hk he hup
  · rw [hs] at hv hg hr
    rcases (hmem g).mp hg with rfl | hg
    · rw [hat, hnode] at hr
      cases hr
      intro hid
      rw [Table.eq_of_key howner hv (hown.symm.trans hid)] at hother
      exact hother (hto.symm.trans he)
    · exact hone.foreign v hv g hg he r hr

/-! ## An address that changes -/

/-- Only grants differ. -/
def Regranted (s s' : Store) : Prop := s' = { s with grants := s'.grants }

instance : IsPreorder Store Regranted where
  refl _ := rfl
  trans _ _ _ h h' := by
    unfold Regranted at *
    rw [h', h]

theorem regranted_reassignOne {moving : Grant} : Keeps Regranted (reassignOne new moving) := by
  have hset : ∀ id a, Keeps Regranted (setAccess id a) := fun id a db _ db' h => by
    rw [setAccess_returns.mp h]
    rfl
  have hdelete : ∀ id, Keeps Regranted (deleteGrant id) := fun id db _ db' h => by
    rw [deleteGrant_returns.mp h]
    rfl
  have hmove : ∀ id name, Keeps Regranted (moveGrant id new name) := fun id name db _ db' h => by
    rw [moveGrant_returns.mp h]
    rfl
  intro db a db' h
  unfold reassignOne at h
  obtain ⟨s, m, hread, h⟩ := bind_returns.mp h
  obtain ⟨rfl, rfl⟩ := read_returns.mp hread
  split at h
  · split_ifs at h
    · exact keeps_bind (hset _ _) (fun _ => hdelete _) h
    · exact hdelete _ h
  · obtain ⟨name, m, hname, h⟩ := bind_returns.mp h
    obtain ⟨rfl, -⟩ := freeMountName_returns.mp hname
    exact hmove _ _ h

/-- Where a grant of the store `reassign` leaves comes from. -/
def ComesFrom (moved : Grant → Prop) (new : Str) (s s' : Store) : Prop :=
  ∀ g ∈ s'.grants.rows, ∃ g₀ ∈ s.grants.rows, g.id = g₀.id ∧ g.nodeId = g₀.nodeId ∧
    (g.grantee = g₀.grantee ∨ (g.grantee = new ∧ moved g₀))

theorem reassignOne_from {moving : Grant} (h : (reassignOne new moving).Returns db u db') :
    ComesFrom (fun g => g.id = moving.id) new db.toStore db'.toStore := by
  intro g hg
  obtain ⟨existing, -, hrows⟩ | ⟨-, name, hrows⟩ := reassignOne_cases h
  · obtain ⟨-, g₀, hg₀, rfl⟩ := (hrows g).mp hg
    refine ⟨g₀, hg₀, ?_⟩
    split_ifs <;> exact ⟨rfl, rfl, Or.inl rfl⟩
  · obtain ⟨g₀, hg₀, rfl⟩ := (hrows g).mp hg
    refine ⟨g₀, hg₀, ?_⟩
    split_ifs with hid
    · exact ⟨rfl, rfl, Or.inr ⟨rfl, hid⟩⟩
    · exact ⟨rfl, rfl, Or.inl rfl⟩

theorem forEach_reassignOne_from {list : List Grant}
    (h : (forEach (reassignOne new) list).Returns db u db') :
    ComesFrom (fun g => ∃ r ∈ list, g.id = r.id) new db.toStore db'.toStore := by
  induction list generalizing db with
  | nil =>
    obtain rfl := forEach_nil_returns.mp h
    exact fun g hg => ⟨g, hg, rfl, rfl, Or.inl rfl⟩
  | cons r list ih =>
    obtain ⟨m, hone, hrest⟩ := forEach_cons_returns.mp h
    intro g hg
    obtain ⟨g₁, hg₁, hid₁, hn₁, hto₁⟩ := ih hrest g hg
    obtain ⟨g₀, hg₀, hid₀, hn₀, hto₀⟩ := reassignOne_from hone g₁ hg₁
    refine ⟨g₀, hg₀, hid₁.trans hid₀, hn₁.trans hn₀, ?_⟩
    rcases hto₁ with hto₁ | ⟨hnew, r', hr', hid'⟩
    · rw [hto₁]
      exact hto₀.imp_right fun ⟨hnew, hid⟩ => ⟨hnew, r, List.mem_cons_self, hid⟩
    · exact Or.inr ⟨hnew, r', List.mem_cons_of_mem _ hr', hid₀.symm.trans hid'⟩

/-- **What `set_email` leaves of the accounts and the grants.** -/
theorem setEmail_changes (h : (setEmail id email).Returns db user db') :
    ∃ account, db.users.find id = some account ∧ db'.nodes = db.nodes ∧
      db'.users = withEmail db.toStore id email ∧
      ComesFrom (fun g => g.grantee = account.email) email db.toStore db'.toStore := by
  unfold setEmail at h
  simp only [bind_returns, read_returns, orFail_returns, mapViolated_returns, write_returns,
    pure_returns] at h
  obtain ⟨_, _, ⟨rfl, rfl⟩, account, _, ⟨hfound, rfl⟩, _, m, hm, _, _, hre, -, rfl⟩ := h
  have hloop := reassign_returns.mp hre
  have hsame := keeps_forEach (fun _ => regranted_reassignOne) _ hloop
  refine ⟨account, hfound, by rw [hsame, hm], by rw [hsame, hm]; rfl, fun g hg => ?_⟩
  obtain ⟨g₀, hg₀, hid, hn, hto⟩ := forEach_reassignOne_from hloop g hg
  refine ⟨g₀, by rwa [hm] at hg₀, hid, hn, ?_⟩
  rcases hto with hto | ⟨hnew, r, hr, hrid⟩
  · exact Or.inl hto
  refine Or.inr ⟨hnew, ?_⟩
  obtain ⟨hrmem, hrto⟩ := mem_moving.mp hr
  rw [Table.eq_of_key hg₀ hrmem hrid, hrto]

/-- The shares an account brings along when it takes an address: none of them contains, or is in,
another one of that address, and that address has none of the account's own nodes. -/
structure Separate (s : Store) (id : Uuid) (email : Str) : Prop where
  apart : ∀ account, s.users.find id = some account → ∀ g ∈ s.grants.rows, ∀ h ∈ s.grants.rows,
    g.grantee = account.email → h.grantee = email →
      AtOrBelow s.nodes g.nodeId h.nodeId ∨ AtOrBelow s.nodes h.nodeId g.nodeId →
        g.nodeId = h.nodeId
  foreign : ∀ g ∈ s.grants.rows, g.grantee = email →
    ∀ n, s.nodes.find g.nodeId = some n → n.ownerId ≠ id

theorem setEmail_oneWay (hone : OneWay db.toStore) (hsep : Separate db.toStore id email)
    (h : (setEmail id email).Returns db user db') : OneWay db'.toStore := by
  obtain ⟨account, hfound, hnodes, husers, hfrom⟩ := setEmail_changes h
  have hsame : ∀ g ∈ db'.grants.rows, ∀ k ∈ db'.grants.rows, g.grantee = k.grantee →
      g.nodeId = k.nodeId → g = k := fun g hg k hk he hn =>
    Table.eq_of_key hg hk (db'.sound .grantsOncePerAddress g hg k hk hn he)
  refine ⟨fun g hg k hk he hup => ?_, fun v hv g hg he r hr => ?_, names_of_sound db'⟩
  · obtain ⟨g₀, hg₀, -, hgn, hgto⟩ := hfrom g hg
    obtain ⟨k₀, hk₀, -, hkn, hkto⟩ := hfrom k hk
    refine hsame g hg k hk he ?_
    rw [hnodes, hgn, hkn] at hup
    rw [hgn, hkn]
    rcases hgto with hgto | ⟨hgnew, hgold⟩ <;> rcases hkto with hkto | ⟨hknew, hkold⟩
    · rw [hone.apart g₀ hg₀ k₀ hk₀ (hgto.symm.trans (he.trans hkto)) hup]
    · exact (hsep.apart account hfound k₀ hk₀ g₀ hg₀ hkold
        (hgto.symm.trans (he.trans hknew)) (Or.inr hup)).symm
    · exact hsep.apart account hfound g₀ hg₀ k₀ hk₀ hgold
        (hkto.symm.trans (he.symm.trans hgnew)) (Or.inl hup)
    · rw [hone.apart g₀ hg₀ k₀ hk₀ (hgold.trans hkold.symm) hup]
  · obtain ⟨g₀, hg₀, -, hgn, hgto⟩ := hfrom g hg
    have hv' := hv
    rw [hnodes, hgn] at hr
    rw [husers] at hv
    obtain ⟨w, hw, rfl⟩ := mem_withEmail.mp hv
    by_cases hid : w.id = id
    · rw [if_pos hid] at he ⊢
      obtain rfl := Table.eq_of_key hw (Table.find_mem hfound)
        (hid.trans (Table.find_key hfound).symm)
      rcases hgto with hgto | ⟨-, hgold⟩
      · exact hid ▸ hsep.foreign g₀ hg₀ (hgto.symm.trans he) r hr
      · exact hone.foreign w hw g₀ hg₀ hgold r hr
    · rw [if_neg hid] at he hv' ⊢
      rcases hgto with hgto | ⟨hgnew, -⟩
      · exact hone.foreign w hw g₀ hg₀ (hgto.symm.trans he) r hr
      · have hmoved : { account with email } ∈ db'.users.rows := by
          rw [husers]
          exact mem_withEmail.mpr ⟨account, Table.find_mem hfound,
            by rw [if_pos (Table.find_key hfound)]⟩
        have hkey : account.id = id := Table.find_key hfound
        have hsameId := db'.sound .usersUniqueEmail w hv' _ hmoved (he.symm.trans hgnew)
        exact absurd (hsameId.trans hkey) hid

/-- What was granted to either address is granted to the new one. -/
theorem granted_after (h : (setEmail id email).Returns db user db')
    (hfound : db.users.find id = some account) (hne : account.email ≠ email)
    (hg : g ∈ db.grants.rows) (hto : g.grantee = account.email ∨ g.grantee = email) :
    ∃ k ∈ db'.grants.rows, k.grantee = email ∧ k.nodeId = g.nodeId := by
  obtain ⟨account', m, hfound', hgrants, hre⟩ := setEmail_cases h
  obtain rfl : account = account' := Option.some.inj (hfound.symm.trans hfound')
  have hmerged := (reassign_spec hne hre).2 g.nodeId
  have hbefore : granted m.toStore g.grantee g.nodeId = some g.access :=
    granted_eq_some_iff.mpr ⟨g, hgrants ▸ hg, rfl, rfl, rfl⟩
  obtain ⟨a, ha⟩ : ∃ a, granted db'.toStore email g.nodeId = some a := by
    rw [hmerged]
    rcases hto with hto | hto
    · rw [← hto, hbefore]
      cases granted m.toStore email g.nodeId <;> exact ⟨_, rfl⟩
    · rw [← hto, hbefore]
      cases granted m.toStore account.email g.nodeId <;> exact ⟨_, rfl⟩
  obtain ⟨k, hk, hkto, hkn, -⟩ := granted_eq_some_iff.mp ha
  exact ⟨k, hk, hkto, hkn⟩

/-- **`set_email` keeps one way in iff the shares of the two addresses are separate.** -/
theorem setEmail_oneWay_iff (hone : OneWay db.toStore) (h : (setEmail id email).Returns db user db') :
    OneWay db'.toStore ↔ Separate db.toStore id email := by
  refine ⟨fun hone' => ?_, fun hsep => setEmail_oneWay hone hsep h⟩
  obtain ⟨account, hfound, hnodes, husers, -⟩ := setEmail_changes h
  have hmem := Table.find_mem hfound
  have hkey := Table.find_key hfound
  refine ⟨fun account' hfound' g hg k hk hgto hkto hup => ?_, fun g hg hto r hr => ?_⟩
  · obtain rfl : account = account' := Option.some.inj (hfound.symm.trans hfound')
    by_cases hne : account.email = email
    · have he : g.grantee = k.grantee := hgto.trans (hne.trans hkto.symm)
      rcases hup with hup | hup
      · rw [hone.apart g hg k hk he hup]
      · rw [hone.apart k hk g hg he.symm hup]
    · obtain ⟨g', hg', hgto', hgn⟩ := granted_after h hfound hne hg (Or.inl hgto)
      obtain ⟨k', hk', hkto', hkn⟩ := granted_after h hfound hne hk (Or.inr hkto)
      rw [← hgn, ← hkn, ← hnodes] at hup
      have he : g'.grantee = k'.grantee := hgto'.trans hkto'.symm
      rw [← hgn, ← hkn]
      rcases hup with hup | hup
      · rw [hone'.apart g' hg' k' hk' he hup]
      · rw [hone'.apart k' hk' g' hg' he.symm hup]
  · by_cases hne : account.email = email
    · exact hkey ▸ hone.foreign account hmem g hg (hto.trans hne.symm) r hr
    · obtain ⟨k, hk, hkto, hkn⟩ := granted_after h hfound hne hg (Or.inr hto)
      have hmoved : { account with email } ∈ db'.users.rows := by
        rw [husers]
        exact mem_withEmail.mpr ⟨account, hmem, by rw [if_pos hkey]⟩
      have hother := hone'.foreign _ hmoved k hk hkto r (by rw [hnodes, hkn, hr])
      exact fun hid => hother (hid.trans hkey.symm)

/-! ## The paths of the shelf -/

theorem mount_returns {name : NodeName} {top : Mount × Node}
    (h : (mount grantee name).Returns db top db') : db = db' ∧ ∃ g ∈ db.grants.rows,
      g.grantee = grantee ∧ g.mountName = name.str ∧
      top.1 = ⟨g.id, g.nodeId, g.access, g.mountName⟩ ∧
      db.nodes.find g.nodeId = some top.2 ∧ top.2.live = true := by
  unfold mount liveNode at h
  simp only [bind_returns, query_returns, orFail_returns, pure_returns] at h
  obtain ⟨_, _, ⟨rfl, rfl⟩, g, _, ⟨hg, rfl⟩, _, _, ⟨rfl, rfl⟩, node, _, ⟨hnode, rfl⟩, rfl, rfl⟩ := h
  have hp := List.find?_some hg
  simp only [Bool.and_eq_true, decide_eq_true_eq] at hp
  obtain ⟨hfind, hlive⟩ := liveNode_eq_some.mp hnode
  exact ⟨rfl, g, List.mem_of_find?_eq_some hg, hp.1, hp.2, rfl, hfind, hlive⟩

/-- `resolve` goes down. -/
theorem resolve_up {root : Node} {segments : List NodeName}
    (h : (resolve root segments).Returns db node db') :
    db = db' ∧ AtOrBelow db.nodes node.id root.id := by
  induction segments generalizing root with
  | nil =>
    obtain ⟨rfl, rfl⟩ := pure_returns.mp h
    exact ⟨rfl, .refl⟩
  | cons segment segments ih =>
    unfold resolve at h
    obtain ⟨found, m, hfound, h⟩ := bind_returns.mp h
    obtain ⟨hchild, rfl⟩ := child_returns.mp hfound
    obtain ⟨next, m, hnext, h⟩ := bind_returns.mp h
    obtain ⟨hsome, rfl⟩ := orFail_returns.mp hnext
    obtain ⟨hmem, hp, -⟩ := child_eq_some (hchild.symm.trans hsome)
    obtain ⟨hsame, hup⟩ := ih h
    exact ⟨hsame, hup.tail (by rw [parentOf_of_mem hmem, hp])⟩

/-- **What is reached through the shelf** is at or below the node of the mount's grant. -/
theorem locate_shared {segments : List NodeName} {quota : Int} {way : Mount} {atMount : Bool}
    (h : (locate user segments quota).Returns db (.shared node way atMount) db') :
    ∃ g ∈ db.grants.rows, g.grantee = user.email ∧ way = ⟨g.id, g.nodeId, g.access, g.mountName⟩ ∧
      AtOrBelow db.nodes node.id g.nodeId := by
  unfold locate at h
  split at h
  · obtain ⟨root, m, -, h⟩ := bind_returns.mp h
    cases (pure_returns.mp h).1
  · split_ifs at h
    · split at h
      · cases (pure_returns.mp h).1
      · obtain ⟨top, m, htop, h⟩ := bind_returns.mp h
        obtain ⟨rfl, g, hg, hto, -, hway, hfind, -⟩ := mount_returns htop
        obtain ⟨found, m, hfound, h⟩ := bind_returns.mp h
        obtain ⟨rfl, hup⟩ := resolve_up hfound
        obtain ⟨hplace, rfl⟩ := pure_returns.mp h
        cases hplace
        exact ⟨g, hg, hto, hway, Table.find_key hfind ▸ hup⟩
    · obtain ⟨root, m, -, h⟩ := bind_returns.mp h
      obtain ⟨found, m, -, h⟩ := bind_returns.mp h
      cases (pure_returns.mp h).1

/-- The right on a path of the shelf comes from one grant. -/
def OneRight (s : Store) (address : Str) (node : Node) (way : Mount) : Prop :=
  ∃ g ∈ s.grants.rows, g.id = way.id ∧ g.access = way.access ∧
    ∀ k ∈ s.grants.rows, k.grantee = address → AtOrBelow s.nodes node.id k.nodeId → k = g

theorem OneWay.oneRight (hone : OneWay db.toStore) {segments : List NodeName} {quota : Int}
    {way : Mount} {atMount : Bool}
    (h : (locate user segments quota).Returns db (.shared node way atMount) db') :
    OneRight db.toStore user.email node way := by
  obtain ⟨g, hg, hto, rfl, hup⟩ := locate_shared h
  exact ⟨g, hg, rfl, rfl, fun k hk hkto hkup => hone.unique hk hg (hkto.trans hto.symm) hkup hup⟩

/-! ## Runs -/

/-- The operations on grants, and those of the trash. -/
inductive ShareOp where
  | give (owner : User) (node : Node) (grantee : Str) (access : Access)
  | withdraw (caller : User) (id : Uuid)
  | setEmail (id : Uuid) (email : Str)
  | send (node : Node)
  | restore (ownerId id : Uuid)
  | purge (ownerId id : Uuid)

namespace ShareOp

/-- What the routes hand over: a live node that was looked up, of the caller to be given, and below
a root to be sent to the trash. -/
def Called (db : Db) : ShareOp → Prop
  | give owner node _ _ => owner ∈ db.users.rows ∧ db.liveNode node.id = some node ∧
      node.ownerId = owner.id
  | send node => db.liveNode node.id = some node ∧ node.parentId ≠ none
  | _ => True

/-- The operation answers. -/
def Answers (db db' : Db) : ShareOp → Prop
  | give owner node grantee access =>
    ∃ given, (Api.give owner node grantee access).Returns db given db'
  | withdraw caller id => (Api.withdraw caller id).Returns db () db'
  | setEmail id email => ∃ user, (Api.setEmail id email).Returns db user db'
  | send node => (Api.send node).Returns db () db'
  | restore ownerId id => ∃ node, (Api.restore ownerId id).Returns db node db'
  | purge ownerId id => (Api.purge ownerId id).Returns db () db'

/-- No shares meet that are not `Separate`. -/
def Unmixed (db : Db) : ShareOp → Prop
  | setEmail id email => Separate db.toStore id email
  | _ => True

end ShareOp

/-- One operation. -/
def ShareStep (db db' : Db) : Prop := ∃ op : ShareOp, op.Called db ∧ op.Answers db db'

/-- One operation that mixes no shares. -/
def UnmixedStep (db db' : Db) : Prop :=
  ∃ op : ShareOp, op.Called db ∧ op.Unmixed db ∧ op.Answers db db'

theorem unmixedStep_keeps (h : UnmixedStep db db') (hw : WellFormed db.nodes)
    (hone : OneWay db.toStore) : WellFormed db'.nodes ∧ OneWay db'.toStore := by
  obtain ⟨op, hcalled, hunmixed, hanswers⟩ := h
  cases op with
  | give owner node grantee access =>
    obtain ⟨howner, hnode, hown⟩ := hcalled
    obtain ⟨given, hgive⟩ := hanswers
    have hfind := (liveNode_eq_some.mp hnode).1
    obtain ⟨-, -, -, grants, -, -, -, hs⟩ := give_returns hfind hgive
    exact ⟨by rw [hs]; exact hw, give_oneWay hw hone howner hfind hown hgive⟩
  | withdraw caller id =>
    exact ⟨by rw [withdraw_returns hanswers]; exact hw, withdraw_oneWay hone hanswers⟩
  | setEmail id email =>
    obtain ⟨user, hset⟩ := hanswers
    obtain ⟨-, -, hnodes, -⟩ := setEmail_changes hset
    exact ⟨by rw [hnodes]; exact hw, setEmail_oneWay hone hunmixed hset⟩
  | send node =>
    obtain ⟨hnode, hchild⟩ := hcalled
    obtain ⟨hfind, hlive⟩ := liveNode_eq_some.mp hnode
    exact ⟨send_wellFormed hw hfind hlive hchild hanswers, send_oneWay hone hanswers⟩
  | restore ownerId id =>
    obtain ⟨node, hrestore⟩ := hanswers
    exact ⟨(restore_nodes hw hrestore).2.1, restore_oneWay hw hone hrestore⟩
  | purge ownerId id =>
    exact ⟨purge_wellFormed hw hanswers, purge_oneWay hw hone hanswers⟩

theorem unmixedRun_keeps (h : Relation.ReflTransGen UnmixedStep db db') (hw : WellFormed db.nodes)
    (hone : OneWay db.toStore) : WellFormed db'.nodes ∧ OneWay db'.toStore := by
  induction h with
  | refl => exact ⟨hw, hone⟩
  | tail _ hstep ih => exact unmixedStep_keeps hstep ih.1 ih.2

/-- **One way in, after every run that mixes no shares**: and the right on each path through the
shelf comes from one grant. -/
theorem oneWay_kept (hw : WellFormed db.nodes) (hone : OneWay db.toStore)
    (h : Relation.ReflTransGen UnmixedStep db db') : OneWay db'.toStore ∧
      ∀ (caller : User) (segments : List NodeName) (quota : Int) (node : Node) (way : Mount)
        (atMount : Bool) (m : Db),
        (locate caller segments quota).Returns db' (.shared node way atMount) m →
          OneRight db'.toStore caller.email node way := by
  have hone' := (unmixedRun_keeps h hw hone).2
  exact ⟨hone', fun _ _ _ _ _ _ _ hlocate => hone'.oneRight hlocate⟩

/-! ## Two folders, one in the other -/

def ben : User := ⟨2, "ben@x.io".toList, "Ben".toList, true, true⟩

def bensRoot : Node := ⟨3, 2, none, [], .directory, .directory 3, none⟩

def photos : Node := ⟨4, 2, some 3, "Photos".toList, .directory, .directory 4, none⟩

def summer : Node := ⟨5, 2, some 4, "Summer".toList, .directory, .directory 5, none⟩

/-- Accounts of `ada@x.io` and `ben@x.io`, and a folder of his in another one. -/
def unshared : Db where
  users := ⟨[⟨1, "ada@x.io".toList, "Ada".toList, true, true⟩, ben], by decide⟩
  nodes := ⟨[bensRoot, photos, summer], by decide⟩
  blobs := .empty
  versions := .empty
  thumbnails := .empty
  quotas := .empty
  grants := .empty
  locks := .empty
  now := 1
  next := 6
  sound := by
    intro c
    cases c <;> decide +kernel

/-- The outer folder granted to `ada@x.io`. -/
def outerShared : Db where
  toStore := { unshared.toStore with
    grants := ⟨[⟨6, 4, "ada@x.io".toList, .read, "Photos".toList, 2, 1⟩], by decide⟩, next := 7 }
  sound := by
    intro c
    cases c <;> decide +kernel

/-- The inner one granted to an address nobody has. -/
def bothShared : Db where
  toStore := { unshared.toStore with
    grants := ⟨[⟨6, 4, "ada@x.io".toList, .read, "Photos".toList, 2, 1⟩,
      ⟨7, 5, "cy@x.io".toList, .write, "Summer".toList, 2, 1⟩], by decide⟩, next := 8 }
  sound := by
    intro c
    cases c <;> decide +kernel

theorem wellFormed_unshared : WellFormed unshared.nodes := by
  have hroot : WellFormed (⟨[bensRoot], by decide⟩ : Table Node Node.id) :=
    wellFormed_empty.insert (show Table.empty.insert bensRoot = _ by decide) rfl
      (fun p hp => nomatch hp) fun _ => rfl
  have hphotos : WellFormed (⟨[bensRoot, photos], by decide⟩ : Table Node Node.id) :=
    hroot.insert (show Table.insert _ photos = _ by decide +kernel) rfl
      (fun p hp => ⟨bensRoot, by cases hp; decide +kernel, rfl, rfl, rfl⟩) fun hp => nomatch hp
  exact hphotos.insert (show Table.insert _ summer = _ by decide +kernel) rfl
    (fun p hp => ⟨photos, by cases hp; decide +kernel, rfl, rfl, rfl⟩) fun hp => nomatch hp

theorem outer_given : ∃ given,
    (give ben photos "ada@x.io".toList .read).Returns unshared given outerShared :=
  ⟨⟨6, 4, "Photos".toList, true, "ada@x.io".toList, .read, false, 1⟩, by
    unfold Returns; decide +kernel⟩

theorem inner_given : ∃ given,
    (give ben summer "cy@x.io".toList .write).Returns outerShared given bothShared :=
  ⟨⟨7, 5, "Summer".toList, true, "cy@x.io".toList, .write, false, 1⟩, by
    unfold Returns; decide +kernel⟩

theorem oneWay_unshared : OneWay unshared.toStore where
  apart _ hg := absurd hg List.not_mem_nil
  foreign _ _ _ hg := absurd hg List.not_mem_nil
  names _ hg := absurd hg List.not_mem_nil

/-- `ben` gives the outer folder. -/
theorem give_outer : ShareStep unshared outerShared ∧ UnmixedStep unshared outerShared := by
  have hcalled : (ShareOp.give ben photos "ada@x.io".toList .read).Called unshared :=
    ⟨by decide +kernel, by decide +kernel, rfl⟩
  exact ⟨⟨_, hcalled, outer_given⟩, ⟨_, hcalled, trivial, outer_given⟩⟩

/-- He gives the inner one to the other address. -/
theorem give_inner : ShareStep outerShared bothShared ∧ UnmixedStep outerShared bothShared := by
  have hcalled : (ShareOp.give ben summer "cy@x.io".toList .write).Called outerShared :=
    ⟨by decide +kernel, by decide +kernel, rfl⟩
  exact ⟨⟨_, hcalled, inner_given⟩, ⟨_, hcalled, trivial, inner_given⟩⟩

theorem oneWay_kept_given : Relation.ReflTransGen UnmixedStep unshared bothShared ∧
    OneWay bothShared.toStore := by
  have hrun : Relation.ReflTransGen UnmixedStep unshared bothShared :=
    (Relation.ReflTransGen.single give_outer.2).tail give_inner.2
  exact ⟨hrun, (oneWay_kept wellFormed_unshared oneWay_unshared hrun).1⟩

/-- **Then `ada@x.io` becomes `cy@x.io`**, who has been granted a folder and one inside it. -/
theorem nested_after_setEmail : ¬ ∀ db db' : Db, WellFormed db.nodes → OneWay db.toStore →
    Relation.ReflTransGen ShareStep db db' → OneWay db'.toStore := by
  intro hall
  obtain ⟨user, db', hset⟩ := setEmail_returns_iff.mpr
    ⟨⟨1, "ada@x.io".toList, "Ada".toList, true, true⟩, by decide +kernel,
      (by decide +kernel : ∀ u ∈ bothShared.users.rows, u.email = "cy@x.io".toList → u.id = 1)⟩
  have hrun : Relation.ReflTransGen ShareStep unshared db' :=
    ((Relation.ReflTransGen.single give_outer.1).tail give_inner.1).tail
      ⟨.setEmail 1 "cy@x.io".toList, trivial, user, hset⟩
  have hbefore : OneWay bothShared.toStore :=
    (unmixedRun_keeps ((Relation.ReflTransGen.single give_outer.2).tail give_inner.2)
      wellFormed_unshared oneWay_unshared).2
  have hsep := (setEmail_oneWay_iff hbefore hset).mp
    (hall unshared db' wellFormed_unshared oneWay_unshared hrun)
  have hnested : AtOrBelow bothShared.nodes 5 4 := .single (by decide +kernel)
  have hsame := hsep.apart ⟨1, "ada@x.io".toList, "Ada".toList, true, true⟩ (by decide +kernel)
    ⟨6, 4, "ada@x.io".toList, .read, "Photos".toList, 2, 1⟩ (by decide +kernel)
    ⟨7, 5, "cy@x.io".toList, .write, "Summer".toList, 2, 1⟩ (by decide +kernel) rfl rfl
    (Or.inr hnested)
  exact absurd hsame (by decide)

end Stashden.Api
