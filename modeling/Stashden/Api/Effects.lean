import Stashden.Api.Access
import Stashden.Api.Forest

/-!
# What the functions do to the tables

`Steady` is what every function of the tree leaves alone: accounts, grants, locks and the clock.
`Beside` leaves the nodes alone as well, which is all that charging, counting references and keeping
versions do: `Counting` is what a relation needs for that, and `keeps_*` what follows. With it
`putFile_nodes`, `createDirectories_nodes`, `copyTree_nodes`, `rename_nodes`, `send_nodes` say what the
others do to the nodes.
-/

namespace Stashden.Api

open Lib Stashden.Core Tx

/-- What no function of the tree touches. -/
structure Steady (s s' : Store) : Prop where
  users : s'.users = s.users
  grants : s'.grants = s.grants
  locks : s'.locks = s.locks
  now : s'.now = s.now
  next : s.next ≤ s'.next

/-- Nor the nodes, nor a row of a blob or a quota. -/
structure Beside (s s' : Store) : Prop extends Steady s s' where
  nodes : s'.nodes = s.nodes
  blobs : ∀ hash, (s.blobs.find hash).isSome = true → (s'.blobs.find hash).isSome = true
  quotas : ∀ id, (s.quotas.find id).isSome = true → (s'.quotas.find id).isSome = true

instance : IsPreorder Store Steady where
  refl _ := ⟨rfl, rfl, rfl, rfl, le_rfl⟩
  trans _ _ _ h h' := ⟨h'.users.trans h.users, h'.grants.trans h.grants, h'.locks.trans h.locks,
    h'.now.trans h.now, h.next.trans h'.next⟩

instance : IsPreorder Store Beside where
  refl _ := ⟨refl _, rfl, fun _ h => h, fun _ h => h⟩
  trans _ _ _ h h' := ⟨IsTrans.trans _ _ _ h.toSteady h'.toSteady, h'.nodes.trans h.nodes,
    fun hash hb => h'.blobs hash (h.blobs hash hb), fun id hq => h'.quotas id (h.quotas id hq)⟩

variable {α : Type} {db db' m : Db} {ownerId nodeId : Uuid} {parent node source : Node}
  {name : NodeName} {hash : BlobHash} {size : Nat} {delta versionsKept : Int} {u : Unit}

/-! ## Functions that count -/

/-- A relation the statements of charging, counting references and dropping versions keep. -/
class Counting (R : Store → Store → Prop) : Prop extends IsPreorder Store R where
  fresh : Keeps R fresh
  acquire : ∀ hash, Keeps R (acquireBlob hash)
  release : ∀ hash, Keeps R (releaseBlob hash)
  charge : ∀ ownerId delta, Keeps R (charged ownerId delta)
  drop : ∀ ids, Keeps R (deleteVersions ids)

section Counting

variable {R : Store → Store → Prop} [Counting R]

theorem keeps_etagForDirectory : Keeps R etagForDirectory :=
  keeps_bind Counting.fresh fun _ => keeps_pure

theorem keeps_tryCharge : Keeps R (tryCharge ownerId delta) := by
  unfold tryCharge
  split_ifs
  · exact keeps_pure
  · exact Counting.charge _ _

theorem keeps_chargeQuota : Keeps R (chargeQuota ownerId delta) := by
  refine keeps_bind keeps_tryCharge fun ok => ?_
  cases ok
  · exact keeps_fail
  · exact keeps_pure

theorem keeps_release {held : List Version} : Keeps R (release held) :=
  keeps_bind (keeps_forEach (fun _ => Counting.release _) held) fun _ => keeps_pure

theorem keeps_dropOldest : Keeps R (dropOldest ownerId nodeId) := by
  refine keeps_bind keeps_query fun dropped => ?_
  cases dropped with
  | none => exact keeps_pure
  | some oldest =>
    exact keeps_bind (Counting.drop _) fun _ => keeps_bind keeps_release fun _ =>
      keeps_bind keeps_chargeQuota fun _ => keeps_pure

theorem keeps_chargeInstead {size previous : Int} :
    Keeps R (chargeInstead ownerId size previous) :=
  keeps_bind keeps_chargeQuota fun _ => keeps_pure

theorem keeps_makeRoomIn {size previous : Int} (rounds : Nat) :
    Keeps R (makeRoomIn ownerId nodeId size previous rounds) := by
  induction rounds with
  | zero => exact keeps_chargeInstead
  | succ rounds ih =>
    refine keeps_bind keeps_tryCharge fun fits => ?_
    cases fits
    · refine keeps_bind keeps_dropOldest fun dropped => ?_
      cases dropped
      · exact keeps_chargeInstead
      · exact ih
    · exact keeps_pure

theorem keeps_makeRoom {size previous : Int} :
    Keeps R (makeRoom ownerId nodeId size previous) :=
  keeps_bind keeps_query fun _ => keeps_makeRoomIn _

theorem keeps_pruneBeyond : Keeps R (pruneBeyond ownerId nodeId versionsKept) :=
  keeps_bind keeps_query fun _ => keeps_bind (Counting.drop _) fun _ =>
    keeps_bind keeps_release fun _ => keeps_chargeQuota

theorem keeps_take {id : Uuid} : Keeps R (take ownerId nodeId id) :=
  keeps_bind keeps_query fun _ => keeps_bind keeps_orFail fun _ =>
    keeps_bind (Counting.drop _) fun _ => keeps_bind (Counting.release _) fun _ =>
      keeps_bind keeps_chargeQuota fun _ => keeps_pure

theorem keeps_chargeForPut {previous : Option (Uuid × BlobHash × Int)} :
    Keeps R (chargeForPut ownerId previous hash size versionsKept) := by
  unfold chargeForPut
  split
  · split_ifs
    · exact keeps_makeRoom
    · exact keeps_bind keeps_chargeQuota fun _ => keeps_pure
  · exact keeps_bind keeps_chargeQuota fun _ => keeps_pure

theorem keeps_acquireOf {o : Option BlobHash} : Keeps R (acquireOf o) := by
  cases o with
  | none => exact keeps_pure
  | some hash => exact Counting.acquire _

/-- A version of one file added. -/
def KeepsVersion (R : Store → Store → Prop) (nodeId : Uuid) : Prop :=
  ∀ id hash size, Keeps R (insertRow fun s =>
    (s.versions.insert ⟨id, nodeId, hash, size⟩).map fun versions => { s with versions })

theorem keeps_retire {previous : Option (Uuid × BlobHash × Int)} {versioned : Bool}
    (hinsert : ∀ p ∈ previous, KeepsVersion R p.1) :
    Keeps R (retire ownerId previous versioned versionsKept) := by
  cases previous with
  | none => exact keeps_pure
  | some p =>
    refine keeps_bind ?_ fun _ => keeps_pruneBeyond
    unfold keepOrRelease
    split_ifs
    · exact keeps_bind Counting.fresh fun id => hinsert p rfl id _ _
    · exact Counting.release _

end Counting

theorem isSome_find_update {ρ κ : Type} {key : ρ → κ} [DecidableEq κ] {t : Table ρ key}
    {p : ρ → Bool} {g : ρ → ρ} (hg : ∀ r, key (g r) = key r) {k : κ}
    (h : (t.find k).isSome = true) : ((t.update p g hg).find k).isSome = true := by
  rw [Table.find_update, Option.isSome_map]
  exact h

theorem isSome_find_insert {ρ κ : Type} {key : ρ → κ} [DecidableEq κ] {t : Table ρ key} {r : ρ}
    {k : κ} (h : (t.find k).isSome = true) : (((t.insert r).getD t).find k).isSome = true := by
  cases hins : t.insert r with
  | none => exact h
  | some t' =>
    rw [Option.getD_some, Table.find_insert hins]
    split_ifs
    · rfl
    · exact h

theorem beside_insertBlob : Keeps Beside (insertBlob hash size) :=
  keeps_execute fun _ => ⟨⟨rfl, rfl, rfl, rfl, le_rfl⟩, rfl, fun _ => isSome_find_insert,
    fun _ h => h⟩

theorem beside_registerBlob : Keeps Beside (registerBlob hash size) :=
  keeps_execute fun _ => ⟨⟨rfl, rfl, rfl, rfl, le_rfl⟩, rfl, fun _ => isSome_find_insert,
    fun _ h => h⟩

theorem beside_insertVersion : KeepsVersion Beside nodeId := by
  intro id hash size
  refine keeps_insertRow fun s s' h => ?_
  obtain ⟨versions, -, rfl⟩ := Option.map_eq_some_iff.mp h
  exact ⟨⟨rfl, rfl, rfl, rfl, le_rfl⟩, rfl, fun _ h => h, fun _ h => h⟩

instance : Counting Beside where
  fresh := keeps_fresh fun _ => ⟨⟨rfl, rfl, rfl, rfl, Nat.le_succ _⟩, rfl, fun _ h => h, fun _ h => h⟩
  acquire _ := keeps_execute fun _ => ⟨⟨rfl, rfl, rfl, rfl, le_rfl⟩, rfl,
    fun _ => isSome_find_update (by intro _; rfl), fun _ h => h⟩
  release _ := keeps_execute fun _ => ⟨⟨rfl, rfl, rfl, rfl, le_rfl⟩, rfl,
    fun _ => isSome_find_update (by intro _; rfl), fun _ h => h⟩
  charge _ _ := keeps_bind keeps_query fun _ => keeps_bind (keeps_execute fun _ =>
    ⟨⟨rfl, rfl, rfl, rfl, le_rfl⟩, rfl, fun _ h => h, fun _ => isSome_find_update (by intro _; rfl)⟩)
      fun _ => keeps_pure
  drop _ := keeps_execute fun _ => ⟨⟨rfl, rfl, rfl, rfl, le_rfl⟩, rfl, fun _ h => h, fun _ h => h⟩

/-! ## What a node's rows become -/

/-- Rows, one of them changed. -/
theorem find_update_id {t : Table Node Node.id} {id : Uuid} {f : Node → Node}
    {hf : ∀ n, (f n).id = n.id} (k : Uuid) :
    (t.update (·.id = id) f hf).find k = (t.find k).map fun r => if r.id = id then f r else r := by
  rw [Table.find_update]
  simp only [decide_eq_true_eq]

theorem child_returns {o : Option Node} : (child nodeId name).Returns db o db' ↔
    o = db.child nodeId name.str ∧ db = db' := query_returns

/-- What `child` finds. -/
theorem child_eq_some {s : Store} {id : Uuid} {str : Str} (h : s.child id str = some node) :
    node ∈ s.nodes.rows ∧ node.parentId = some id ∧ node.name = str ∧ node.live = true := by
  have hmem := List.mem_of_find?_eq_some h
  have hp := List.find?_some h
  simp only [Bool.and_eq_true, decide_eq_true_eq] at hp
  exact ⟨hmem, hp.1.1, hp.1.2, hp.2⟩

theorem child_eq_none {s : Store} {id : Uuid} {str : Str} (h : s.child id str = none) :
    ∀ n ∈ s.nodes.rows, n.parentId = some id → n.name = str → n.live = false := by
  intro n hn hp hname
  have hno := List.find?_eq_none.mp h n hn
  simp only [Bool.and_eq_true, decide_eq_true_eq] at hno
  by_contra hl
  exact hno ⟨⟨hp, hname⟩, by simpa using hl⟩

theorem insertNode_returns {parentId : Option Uuid} {str : Str} {body : Body} {etag : Etag}
    (h : (insertNode ownerId parentId str body etag).Returns db node db') :
    node = ⟨db.next, ownerId, parentId, str, body, etag, none⟩ ∧
      ∃ nodes, db.nodes.insert node = some nodes ∧
        db'.toStore = { db.toStore with next := db.next + 1, nodes } := by
  unfold insertNode at h
  simp only [bind_returns, fresh_returns, insertRow_returns, pure_returns] at h
  obtain ⟨id, m, ⟨rfl, hm⟩, -, m', hins, rfl, rfl⟩ := h
  obtain ⟨nodes, hn, hs⟩ := Option.map_eq_some_iff.mp hins
  rw [hm] at hn hs
  exact ⟨rfl, nodes, hn, hs.symm⟩

theorem updateNode_returns {id : Uuid} {f : Node → Node} {hf : ∀ n, (f n).id = n.id}
    (h : (updateNode id f hf).Returns db node db') :
    db'.toStore = { db.toStore with nodes := db.nodes.update (·.id = id) f hf } ∧
      ∃ old, db.nodes.find id = some old ∧ node = f old := by
  unfold updateNode at h
  simp only [bind_returns, execute_returns, query_returns, orFail_returns] at h
  obtain ⟨-, m, hm, -, m', ⟨rfl, rfl⟩, hfind, rfl⟩ := h
  refine ⟨hm, ?_⟩
  rw [hm, find_update_id] at hfind
  obtain ⟨old, hold, rfl⟩ := Option.map_eq_some_iff.mp hfind
  exact ⟨old, hold, by rw [if_pos (Table.find_key hold)]⟩

theorem ensureRoot_returns {quota : Int} (h : (ensureRoot ownerId quota).Returns db node db') :
    Steady db.toStore db'.toStore ∧ node.ownerId = ownerId ∧ node.parentId = none ∧
      node.live = true ∧ ((db.rootOf ownerId = some node ∧ db'.nodes = db.nodes) ∨
        (db.rootOf ownerId = none ∧ db.nodes.insert node = some db'.nodes ∧
          node.isDirectory = true ∧ node.trashed = none)) := by
  unfold ensureRoot at h
  simp only [bind_returns, execute_returns, query_returns] at h
  obtain ⟨-, m, hm, -, m', ⟨rfl, rfl⟩, h⟩ := h
  have hsteady : Beside db.toStore m.toStore := by
    rw [hm]
    exact ⟨⟨rfl, rfl, rfl, rfl, le_rfl⟩, rfl, fun _ h => h, fun _ => isSome_find_insert⟩
  have hroots : m.rootOf ownerId = db.rootOf ownerId := by
    unfold Store.rootOf
    rw [hsteady.nodes]
  cases hroot : m.rootOf ownerId with
  | some root =>
    rw [hroot] at h
    obtain ⟨rfl, rfl⟩ := pure_returns.mp h
    have hp := List.find?_some hroot
    simp only [Bool.and_eq_true, decide_eq_true_eq] at hp
    exact ⟨hsteady.toSteady, hp.1.1, hp.1.2, hp.2, Or.inl ⟨hroots ▸ hroot, hsteady.nodes⟩⟩
  | none =>
    rw [hroot] at h
    obtain ⟨etag, m₁, hetag, hins⟩ := bind_returns.mp h
    obtain ⟨id, m₂, hfresh, htag⟩ := bind_returns.mp hetag
    obtain ⟨-, rfl⟩ := pure_returns.mp htag
    have hbeside : Beside db.toStore m₂.toStore := IsTrans.trans _ _ _ hsteady (Counting.fresh hfresh)
    obtain ⟨hnode, nodes, hinsert, hs⟩ := insertNode_returns hins
    refine ⟨?_, ?_, ?_, ?_, Or.inr ⟨hroots ▸ hroot, ?_, ?_, ?_⟩⟩
    · have hlast : Steady m₂.toStore db'.toStore := by
        rw [hs]
        exact ⟨rfl, rfl, rfl, rfl, Nat.le_succ _⟩
      exact IsTrans.trans _ _ _ hbeside.toSteady hlast
    · rw [hnode]
    · rw [hnode]
    · rw [hnode]
      rfl
    · rw [← hbeside.nodes, hinsert, hs]
    · rw [hnode]
      rfl
    · rw [hnode]

/-! ## Nodes added one by one -/

/-- A live folder of an account. -/
def Folder (t : Table Node Node.id) (ownerId id : Uuid) : Prop :=
  ∃ row, t.find id = some row ∧ row.live = true ∧ row.isDirectory = true ∧ row.ownerId = ownerId

/-- Every node below a root has a name `NodeName` accepts. -/
def Named (t : Table Node Node.id) : Prop :=
  ∀ {id row}, t.find id = some row → row.parentId ≠ none → NodeName.check row.name = none

/-- A live node to be added in a live folder of its owner, at or below `top`. -/
def Planted (ownerId top : Uuid) (t : Table Node Node.id) (node : Node) : Prop :=
  node.trashed = none ∧ node.ownerId = ownerId ∧ NodeName.check node.name = none ∧
    ∃ p, node.parentId = some p ∧ Folder t ownerId p ∧ AtOrBelow t p top

/-- One statement that adds a node `P` holds of, or leaves the nodes alone. -/
def Plants (P : Table Node Node.id → Node → Prop) (s s' : Store) : Prop :=
  Beside s s' ∨ (Steady s s' ∧ ∃ node, P s.nodes node ∧ s.nodes.insert node = some s'.nodes)

/-- Statements that add nodes `P` holds of. -/
def Grown (P : Table Node Node.id → Node → Prop) : Store → Store → Prop :=
  Relation.ReflTransGen (Plants P)

section Grown

variable {P Q : Table Node Node.id → Node → Prop} {s s' : Store} {id top : Uuid} {row : Node}

instance : IsPreorder Store (Grown P) where
  refl _ := .refl
  trans _ _ _ h h' := h.trans h'

theorem Grown.of_beside (h : Beside s s') : Grown P s s' := .single (Or.inl h)

theorem Grown.mono (hPQ : ∀ t n, P t n → Q t n) (h : Grown P s s') : Grown Q s s' := by
  refine h.lift id fun a b hab => ?_
  rcases hab with hb | ⟨hs, n, hn, hins⟩
  · exact Or.inl hb
  · exact Or.inr ⟨hs, n, hPQ _ _ hn, hins⟩

/-- What holds of the nodes and is kept by every addition. -/
theorem Grown.induct {I : Table Node Node.id → Prop} (h : Grown P s s') (hs : I s.nodes)
    (hstep : ∀ t t' n, I t → P t n → t.insert n = some t' → I t') : I s'.nodes := by
  induction h with
  | refl => exact hs
  | tail _ hab ih =>
    rcases hab with hb | ⟨-, n, hn, hins⟩
    · rw [hb.nodes]
      exact ih
    · exact hstep _ _ _ ih hn hins

theorem Grown.steady (h : Grown P s s') : Steady s s' := by
  induction h with
  | refl => exact refl _
  | tail _ hab ih =>
    rcases hab with hb | ⟨hs, -⟩
    · exact IsTrans.trans _ _ _ ih hb.toSteady
    · exact IsTrans.trans _ _ _ ih hs

theorem find_of_insert {t t' : Table Node Node.id} {n : Node} (h : t.insert n = some t')
    (hrow : t.find id = some row) : t'.find id = some row := by
  rw [Table.find_insert h, if_neg, hrow]
  intro e
  rw [e, (Table.insert_eq_some h).1] at hrow
  cases hrow

theorem Grown.find (h : Grown P s s') (hrow : s.nodes.find id = some row) :
    s'.nodes.find id = some row :=
  h.induct (I := fun t => t.find id = some row) hrow fun _ _ _ hI _ hins => find_of_insert hins hI

theorem wellFormed_planted {t t' : Table Node Node.id} {n : Node} (h : WellFormed t)
    (hP : Planted ownerId top t n) (hins : t.insert n = some t') : WellFormed t' := by
  obtain ⟨htrashed, howner, -, p, hp, ⟨row, hrow, hlive, hdir, hrowner⟩, -⟩ := hP
  refine h.insert hins htrashed (fun q hq => ?_) fun hnone => ?_
  · rw [hp] at hq
    cases hq
    exact ⟨row, hrow, hdir, hrowner.trans howner.symm, hlive⟩
  · rw [hp] at hnone
    cases hnone

theorem Grown.wellFormed (h : Grown (Planted ownerId top) s s') (hs : WellFormed s.nodes) :
    WellFormed s'.nodes :=
  h.induct hs fun _ _ _ hI hP hins => wellFormed_planted hI hP hins

/-- What a row is, that is not new. -/
theorem Grown.find_back (h : Grown (Planted ownerId top) s s')
    (hrow : s'.nodes.find id = some row) : s.nodes.find id = some row ∨ s.nodes.find id = none ∧
      row.trashed = none ∧ row.ownerId = ownerId ∧ row.parentId ≠ none := by
  -- an id that is new is not an old one, which is still there
  have key := h.induct (I := fun t => (∀ k r, s.nodes.find k = some r → t.find k = some r) ∧
    ∀ k r, t.find k = some r → s.nodes.find k = some r ∨ s.nodes.find k = none ∧
      r.trashed = none ∧ r.ownerId = ownerId ∧ r.parentId ≠ none)
    ⟨fun _ _ hr => hr, fun _ _ hr => Or.inl hr⟩ fun t t' n hI hP hins => by
      refine ⟨fun k r hr => find_of_insert hins (hI.1 k r hr), fun k r hr => ?_⟩
      rw [Table.find_insert hins] at hr
      split_ifs at hr with hid
      · cases hr
        obtain ⟨htrashed, howner, -, p, hp, -⟩ := hP
        refine Or.inr ⟨?_, htrashed, howner, by rw [hp]; exact Option.some_ne_none p⟩
        rw [Option.eq_none_iff_forall_ne_some]
        intro old hold
        have hkept := hI.1 k old hold
        rw [hid, (Table.insert_eq_some hins).1] at hkept
        cases hkept
      · exact hI.2 k r hr
  exact key.2 id row hrow

theorem Grown.named (h : Grown (Planted ownerId top) s s') (hn : Named s.nodes) :
    Named s'.nodes := by
  refine h.induct (I := Named) hn fun t t' n hI hP hins {id row} hrow hp => ?_
  rw [Table.find_insert hins] at hrow
  split_ifs at hrow
  · cases hrow
    exact hP.2.2.1
  · exact hI hrow hp

theorem parentOf_of_insert {t t' : Table Node Node.id} {n : Node} (h : t.insert n = some t')
    {a b : Uuid} (hab : parentOf t a = some b) : parentOf t' a = some b := by
  obtain ⟨row, hrow, hp⟩ := find_of_parentOf hab
  rw [parentOf_of_find (find_of_insert h hrow), hp]

/-- What is above a row is above it still once a node is added. -/
theorem up_of_insert {t t' : Table Node Node.id} {n : Node} {a b : Uuid} (h : t.insert n = some t')
    (hup : AtOrBelow t a b) : AtOrBelow t' a b := hup.mono fun _ _ => parentOf_of_insert h

theorem Grown.up (h : Grown P s s') {a b : Uuid} (hup : AtOrBelow s.nodes a b) :
    AtOrBelow s'.nodes a b :=
  h.induct (I := fun t => AtOrBelow t a b) hup fun _ _ _ hI _ hins => up_of_insert hins hI

end Grown

/-- A live folder at or below `top`. -/
def FolderBelow (t : Table Node Node.id) (ownerId top id : Uuid) : Prop :=
  Folder t ownerId id ∧ AtOrBelow t id top

/-- A node put in a folder at or below `top`, and what it is then. -/
theorem insertNode_grown {parentId top : Uuid} {str : Str} {body : Body} {etag : Etag}
    (hinto : FolderBelow db.nodes ownerId top parentId) (hname : NodeName.check str = none)
    (h : (insertNode ownerId (some parentId) str body etag).Returns db node db') :
    Grown (Planted ownerId top) db.toStore db'.toStore ∧
      node = ⟨db.next, ownerId, some parentId, str, body, etag, none⟩ ∧
      db.nodes.insert node = some db'.nodes ∧ AtOrBelow db'.nodes node.id top := by
  obtain ⟨hnode, nodes, hins, hs⟩ := insertNode_returns h
  have hnodes : db.nodes.insert node = some db'.nodes := by rw [hs, hins]
  refine ⟨.single (Or.inr ⟨?_, node, ?_, hnodes⟩), hnode, hnodes, ?_⟩
  · rw [hs]
    exact ⟨rfl, rfl, rfl, rfl, Nat.le_succ _⟩
  · rw [hnode]
    exact ⟨rfl, rfl, hname, parentId, rfl, hinto⟩
  · refine (up_of_insert hnodes hinto.2).head ?_
    have hfind := Table.find_insert hnodes node.id
    rw [if_pos rfl] at hfind
    rw [parentOf_of_find hfind, hnode]

theorem FolderBelow.of_beside {s s' : Store} {top id : Uuid} (h : Beside s s')
    (hf : FolderBelow s.nodes ownerId top id) : FolderBelow s'.nodes ownerId top id := by
  rw [h.nodes]
  exact hf

theorem find_insert_self {t t' : Table Node Node.id} {n : Node} (h : t.insert n = some t') :
    t'.find n.id = some n := by
  rw [Table.find_insert h, if_pos rfl]

/-- A live child of a folder is in the tree of the same owner. -/
theorem child_below {parentId top : Uuid} {str : Str} (hw : WellFormed db.nodes)
    (hinto : FolderBelow db.nodes ownerId top parentId) (h : db.child parentId str = some node) :
    db.nodes.find node.id = some node ∧ node.live = true ∧ node.ownerId = ownerId ∧
      AtOrBelow db.nodes node.id top := by
  obtain ⟨hmem, hp, -, hlive⟩ := child_eq_some h
  have hfind := Table.mem_iff_find.mp hmem
  obtain ⟨above, habove, -, howner, -⟩ := hw.parent hfind hp
  obtain ⟨⟨row, hrow, -, -, hrowner⟩, hup⟩ := hinto
  rw [habove] at hrow
  cases hrow
  exact ⟨hfind, hlive, howner.symm.trans hrowner, hup.head (by rw [parentOf_of_find hfind, hp])⟩

theorem insertDirectory_grown {parentId top : Uuid} (hw : WellFormed db.nodes)
    (hinto : FolderBelow db.nodes ownerId top parentId)
    (h : (insertDirectory ownerId parentId name).Returns db node db') :
    Grown (Planted ownerId top) db.toStore db'.toStore ∧ db'.nodes.find node.id = some node ∧
      FolderBelow db'.nodes ownerId top node.id := by
  unfold insertDirectory at h
  obtain ⟨existing, m, hchild, h⟩ := bind_returns.mp h
  obtain ⟨rfl, rfl⟩ := child_returns.mp hchild
  cases hex : db.child parentId name.str with
  | some existing =>
    rw [hex] at h
    simp only at h
    split_ifs at h with hdir
    · obtain ⟨rfl, rfl⟩ := pure_returns.mp h
      obtain ⟨hfind, hlive, howner, hup⟩ := child_below hw hinto hex
      exact ⟨refl _, hfind, ⟨_, hfind, hlive, hdir, howner⟩, hup⟩
    · exact absurd h fail_returns
  | none =>
    rw [hex] at h
    obtain ⟨etag, m, hetag, hins⟩ := bind_returns.mp h
    have hbeside := keeps_etagForDirectory (R := Beside) hetag
    obtain ⟨hgrown, hnode, hnodes, hup⟩ :=
      insertNode_grown (hinto.of_beside hbeside) name.valid hins
    have hfind := find_insert_self hnodes
    refine ⟨(Grown.of_beside hbeside).trans hgrown, hfind, ⟨node, hfind, ?_⟩, hup⟩
    rw [hnode]
    exact ⟨rfl, rfl, rfl⟩

theorem createBelow_grown {top : Uuid} {current : Node} {segments : List NodeName}
    (hw : WellFormed db.nodes) (hfind : db.nodes.find current.id = some current)
    (hinto : segments ≠ [] → FolderBelow db.nodes ownerId top current.id)
    (h : (createBelow ownerId current segments).Returns db node db') :
    Grown (Planted ownerId top) db.toStore db'.toStore ∧ db'.nodes.find node.id = some node ∧
      (segments = [] ∧ node = current ∨ FolderBelow db'.nodes ownerId top node.id) := by
  induction segments generalizing current db with
  | nil =>
    obtain ⟨rfl, rfl⟩ := pure_returns.mp h
    exact ⟨refl _, hfind, Or.inl ⟨rfl, rfl⟩⟩
  | cons segment segments ih =>
    have hfolder := hinto (List.cons_ne_nil _ _)
    rw [createBelow] at h
    obtain ⟨existing, m, hchild, h⟩ := bind_returns.mp h
    obtain ⟨rfl, rfl⟩ := child_returns.mp hchild
    -- the folder of that name, found or made, is where the rest is created
    have key : ∀ {m next}, Grown (Planted ownerId top) db.toStore m.toStore →
        m.nodes.find next.id = some next → FolderBelow m.nodes ownerId top next.id →
        (createBelow ownerId next segments).Returns m node db' →
        Grown (Planted ownerId top) db.toStore db'.toStore ∧ db'.nodes.find node.id = some node ∧
          (segment :: segments = [] ∧ node = current ∨ FolderBelow db'.nodes ownerId top node.id) := by
      intro m next hgrown hnext hbelow hrest
      obtain ⟨hgrown', hfind', hlast⟩ := ih (hgrown.wellFormed hw) hnext (fun _ => hbelow) hrest
      refine ⟨hgrown.trans hgrown', hfind', Or.inr ?_⟩
      rcases hlast with ⟨-, rfl⟩ | hlast
      · exact ⟨⟨_, hfind', by
          obtain ⟨⟨row, hrow, hrest⟩, -⟩ := hbelow
          rw [hnext] at hrow
          cases hrow
          exact hrest⟩, hgrown'.up hbelow.2⟩
      · exact hlast
    cases hex : db.child current.id segment.str with
    | some existing =>
      rw [hex] at h
      simp only at h
      split_ifs at h with hdir
      · obtain ⟨hf, hlive, howner, hup⟩ := child_below hw hfolder hex
        exact key (refl _) hf ⟨⟨_, hf, hlive, hdir, howner⟩, hup⟩ h
      · exact absurd h fail_returns
    | none =>
      rw [hex] at h
      obtain ⟨created, m, hcreated, h⟩ := bind_returns.mp h
      obtain ⟨hgrown, hf, hbelow⟩ := insertDirectory_grown hw hfolder hcreated
      exact key hgrown hf hbelow h

theorem createDirectories_grown {top : Uuid} {root : Node} {segments : List NodeName}
    (hw : WellFormed db.nodes) (hfind : db.nodes.find root.id = some root)
    (hlive : root.live = true) (howner : root.ownerId = ownerId)
    (htop : AtOrBelow db.nodes root.id top)
    (h : (createDirectories ownerId root segments).Returns db node db') :
    Grown (Planted ownerId top) db.toStore db'.toStore ∧ db'.nodes.find node.id = some node ∧
      (segments = [] ∧ node = root ∨ FolderBelow db'.nodes ownerId top node.id) := by
  unfold createDirectories at h
  split_ifs at h with hbad
  · exact absurd h fail_returns
  · refine createBelow_grown hw hfind (fun hne => ⟨⟨root, hfind, hlive, ?_, howner⟩, htop⟩) h
    by_contra hdir
    exact hbad ⟨hne, by simpa using hdir⟩

/-! ## Putting, copying, moving, trashing -/

/-- **What `put_file` does to the nodes**: a file's content, or a new file. -/
theorem putFile_nodes (h : (putFile ownerId parent name hash size versionsKept).Returns db node db') :
    Steady db.toStore db'.toStore ∧
    ((∃ old, db.child parent.id name.str = some old ∧ old.isDirectory = false ∧
        node = { old with body := .file hash size, etag := .file hash } ∧
        ∀ k, db'.nodes.find k = (db.nodes.find k).map fun r =>
          if r.id = old.id then { r with body := .file hash size, etag := .file hash } else r) ∨
      (db.child parent.id name.str = none ∧ db.nodes.insert node = some db'.nodes ∧
        ∃ id, node = ⟨id, ownerId, some parent.id, name.str, .file hash size, .file hash, none⟩)) := by
  unfold putFile at h
  obtain ⟨_, m₁, hblob, h⟩ := bind_returns.mp h
  obtain ⟨existing, m₂, hchild, h⟩ := bind_returns.mp h
  obtain ⟨hex, rfl⟩ := child_returns.mp hchild
  have hb₁ : Beside db.toStore m₁.toStore := beside_insertBlob hblob
  have hchildren : m₁.child parent.id name.str = db.child parent.id name.str := by
    unfold Store.child
    rw [hb₁.nodes]
  rw [hchildren] at hex
  split_ifs at h with hdir
  · exact absurd h fail_returns
  obtain ⟨versioned, m₂, hcharge, h⟩ := bind_returns.mp h
  obtain ⟨_, m₃, hacquire, h⟩ := bind_returns.mp h
  obtain ⟨_, m₄, hretire, h⟩ := bind_returns.mp h
  have hb : Beside db.toStore m₄.toStore :=
    IsTrans.trans _ _ _ hb₁ (IsTrans.trans _ _ _ (keeps_chargeForPut (R := Beside) hcharge)
      (IsTrans.trans _ _ _ (Counting.acquire _ hacquire)
        (keeps_retire (fun _ _ => beside_insertVersion) hretire)))
  subst hex
  cases hold : db.child parent.id name.str with
  | some old =>
    rw [hold] at h hdir
    obtain ⟨hs, was, hwas, hnode⟩ := updateNode_returns h
    have hmem := (child_eq_some hold).1
    rw [hb.nodes, Table.mem_iff_find.mp hmem] at hwas
    cases hwas
    refine ⟨?_, Or.inl ⟨old, rfl, by simpa using hdir, hnode, fun k => ?_⟩⟩
    · refine IsTrans.trans _ _ _ hb.toSteady ?_
      rw [hs]
      exact ⟨rfl, rfl, rfl, rfl, le_rfl⟩
    · rw [hs, find_update_id, hb.nodes]
  | none =>
    rw [hold] at h
    obtain ⟨hnode, nodes, hins, hs⟩ := insertNode_returns h
    refine ⟨?_, Or.inr ⟨rfl, ?_, m₄.next, hnode⟩⟩
    · refine IsTrans.trans _ _ _ hb.toSteady ?_
      rw [hs]
      exact ⟨rfl, rfl, rfl, rfl, Nat.le_succ _⟩
    · rw [← hb.nodes, hins, hs]

theorem copyOne_grown {top into : Uuid} {str : Str} {original copy : Node}
    (hinto : FolderBelow db.nodes ownerId top into) (hname : NodeName.check str = none)
    (h : (copyOne ownerId into str original).Returns db copy db') :
    Grown (Planted ownerId top) db.toStore db'.toStore ∧ db'.nodes.find copy.id = some copy ∧
      copy.parentId = some into ∧ copy.name = str ∧ copy.body = original.body ∧
      copy.ownerId = ownerId ∧ copy.trashed = none ∧ AtOrBelow db'.nodes copy.id top ∧
      db.nodes.insert copy = some db'.nodes := by
  unfold copyOne at h
  obtain ⟨tag, m₁, htag, h⟩ := bind_returns.mp h
  obtain ⟨made, m₂, hmade, h⟩ := bind_returns.mp h
  obtain ⟨_, m₃, hacquire, h⟩ := bind_returns.mp h
  obtain ⟨rfl, rfl⟩ := pure_returns.mp h
  have hb := keeps_etagForDirectory (R := Beside) htag
  have hb' := keeps_acquireOf (R := Beside) hacquire
  obtain ⟨hgrown, hnode, hnodes, hup⟩ :=
    insertNode_grown (hinto.of_beside hb) hname (mapViolated_returns.mp hmade)
  refine ⟨(Grown.of_beside hb).trans (hgrown.trans (Grown.of_beside hb')), ?_, ?_, ?_, ?_, ?_, ?_,
    ?_, ?_⟩
  · rw [hb'.nodes]
    exact find_insert_self hnodes
  · rw [hnode]
  · rw [hnode]
  · rw [hnode]
  · rw [hnode]
  · rw [hnode]
  · rw [hb'.nodes]
    exact hup
  · rw [hb'.nodes, ← hb.nodes, hnodes]

/-- **What `rename` does to the nodes**: one of them has another parent and another name. -/
theorem rename_nodes {moved : Node} (h : (rename node parent name).Returns db moved db') :
    Steady db.toStore db'.toStore ∧ parent.isDirectory = true ∧
      db.child parent.id name.str = none ∧
      (node.isDirectory = true → ((db.ancestry parent.id).any fun a => a.id = node.id) = false) ∧
      ∃ etag, (∀ k, db'.nodes.find k = (db.nodes.find k).map fun r =>
        if r.id = node.id then { r with parentId := some parent.id, name := name.str, etag }
        else r) ∧ ∃ old, db.nodes.find node.id = some old ∧
          moved = { old with parentId := some parent.id, name := name.str, etag } := by
  unfold rename at h
  obtain ⟨hdir, h⟩ := of_guard h
  obtain ⟨inside, m, hinside, h⟩ := bind_returns.mp h
  obtain ⟨rfl, rfl⟩ := query_returns.mp hinside
  obtain ⟨hin, h⟩ := of_guard h
  obtain ⟨taken, m, htaken, h⟩ := bind_returns.mp h
  obtain ⟨rfl, rfl⟩ := child_returns.mp htaken
  obtain ⟨hsome, h⟩ := of_guard h
  obtain ⟨tag, m, htag, h⟩ := bind_returns.mp h
  have hb := keeps_etagForDirectory (R := Beside) htag
  obtain ⟨hs, old, hold, hmoved⟩ := updateNode_returns (mapViolated_returns.mp h)
  refine ⟨?_, by simpa using hdir, by simpa using hsome, fun hd => ?_, _, fun k => ?_, old, ?_,
    hmoved⟩
  · refine IsTrans.trans _ _ _ hb.toSteady ?_
    rw [hs]
    exact ⟨rfl, rfl, rfl, rfl, le_rfl⟩
  · by_contra hyes
    exact hin ⟨hd, by simpa using hyes⟩
  · rw [hs, find_update_id, hb.nodes]
  · rw [← hb.nodes]
    exact hold

/-- **What `send` does to the nodes.** -/
theorem send_nodes (h : (send node).Returns db u db') : Steady db.toStore db'.toStore ∧
    ∀ k, db'.nodes.find k = (db.nodes.find k).map fun r =>
      { r with trashed := if r.id ∈ (db.marked node.id).map Node.id then some ⟨db.now, node.id⟩
        else r.trashed } := by
  unfold send at h
  obtain ⟨marked, m, hmarked, h⟩ := bind_returns.mp h
  obtain ⟨rfl, rfl⟩ := query_returns.mp hmarked
  obtain ⟨_, m, hupdate, h⟩ := bind_returns.mp h
  obtain ⟨versions, m', hversions, hcharge⟩ := bind_returns.mp h
  obtain ⟨rfl, rfl⟩ := query_returns.mp hversions
  have hs := execute_returns.mp hupdate
  have hb := keeps_chargeQuota (R := Beside) hcharge
  refine ⟨IsTrans.trans _ _ _ ?_ hb.toSteady, fun k => ?_⟩
  · rw [hs]
    exact ⟨rfl, rfl, rfl, rfl, le_rfl⟩
  · rw [hb.nodes, hs, Table.find_update]
    refine congrArg (fun f => (db.nodes.find k).map f) (funext fun r => ?_)
    simp only [decide_eq_true_eq]
    split_ifs <;> rfl

theorem isDirectory_congr {a b : Node} (h : a.body = b.body) : a.isDirectory = b.isDirectory := by
  rw [Node.isDirectory, Node.isDirectory, h]

theorem Grown.folderBelow {P : Table Node Node.id → Node → Prop} {s s' : Store} {top id : Uuid}
    (h : Grown P s s') (hf : FolderBelow s.nodes ownerId top id) :
    FolderBelow s'.nodes ownerId top id := by
  obtain ⟨⟨row, hrow, hrest⟩, hup⟩ := hf
  exact ⟨⟨row, h.find hrow, hrest⟩, h.up hup⟩

theorem copyChildren_grown {top into : Uuid} {originals : List Node}
    {copied : List (Uuid × Uuid) × Int}
    (hinto : originals ≠ [] → FolderBelow db.nodes ownerId top into)
    (hnames : ∀ original ∈ originals, NodeName.check original.name = none)
    (h : (copyChildren ownerId into originals).Returns db copied db') :
    Grown (Planted ownerId top) db.toStore db'.toStore ∧
      ∀ pair ∈ copied.1, (∃ original ∈ originals, pair.1 = original.id) ∧
        FolderBelow db'.nodes ownerId top pair.2 := by
  induction originals generalizing db copied with
  | nil =>
    obtain ⟨rfl, rfl⟩ := pure_returns.mp h
    exact ⟨refl _, fun pair hpair => absurd hpair List.not_mem_nil⟩
  | cons original originals ih =>
    rw [copyChildren] at h
    obtain ⟨copy, m, hcopy, h⟩ := bind_returns.mp h
    obtain ⟨rest, m', hrest, h⟩ := bind_returns.mp h
    obtain ⟨rfl, rfl⟩ := pure_returns.mp h
    have hfolder := hinto (List.cons_ne_nil _ _)
    obtain ⟨hgrown, hfind, -, -, hbody, howner, htrashed, hup, -⟩ :=
      copyOne_grown hfolder (hnames original List.mem_cons_self) hcopy
    obtain ⟨hgrown', hpairs⟩ := ih (fun _ => hgrown.folderBelow hfolder)
      (fun o ho => hnames o (List.mem_cons_of_mem _ ho)) hrest
    have hlater : ∀ pair ∈ rest.1, (∃ o ∈ original :: originals, pair.1 = o.id) ∧
        FolderBelow m'.nodes ownerId top pair.2 := by
      intro pair hpair
      obtain ⟨⟨o, ho, hid⟩, hf⟩ := hpairs pair hpair
      exact ⟨⟨o, List.mem_cons_of_mem _ ho, hid⟩, hf⟩
    refine ⟨hgrown.trans hgrown', fun pair hpair => ?_⟩
    split_ifs at hpair with hdir
    · rcases List.mem_append.mp hpair with hpair | hpair
      · exact hlater pair hpair
      · rw [List.mem_singleton.mp hpair]
        refine ⟨⟨original, List.mem_cons_self, rfl⟩,
          hgrown'.folderBelow ⟨⟨copy, hfind, ?_, ?_, howner⟩, hup⟩⟩
        · rw [Node.live, htrashed]
          rfl
        · rw [isDirectory_congr hbody, hdir]
    · exact hlater pair hpair

/-- A live child of a node: that node is a folder. -/
theorem folder_of_childrenIn {id : Uuid} {row : Node} (hw : WellFormed db.nodes)
    (hrow : db.nodes.find id = some row) (h : db.childrenIn id ≠ []) : row.isDirectory = true := by
  obtain ⟨n, hn⟩ := List.exists_mem_of_ne_nil _ h
  obtain ⟨hmem, hp⟩ := Table.mem_select.mp hn
  simp only [Bool.and_eq_true, decide_eq_true_eq] at hp
  obtain ⟨above, habove, hdir, -⟩ := hw.parent (Table.mem_iff_find.mp hmem) hp.1
  rw [hrow] at habove
  cases habove
  exact hdir

theorem copyPending_grown {top : Uuid} {rounds : Nat} {pending : List (Uuid × Uuid)} {bytes : Int}
    (hw : WellFormed db.nodes) (hn : Named db.nodes)
    (hinto : ∀ pair ∈ pending, ∃ row, db.nodes.find pair.1 = some row ∧
      (row.isDirectory = true → FolderBelow db.nodes ownerId top pair.2))
    (h : (copyPending ownerId rounds pending).Returns db bytes db') :
    Grown (Planted ownerId top) db.toStore db'.toStore := by
  induction rounds generalizing db pending bytes with
  | zero =>
    cases pending with
    | nil =>
      obtain ⟨-, rfl⟩ := pure_returns.mp h
      exact refl _
    | cons pair pending => exact absurd h fail_returns
  | succ rounds ih =>
    cases pending with
    | nil =>
      obtain ⟨-, rfl⟩ := pure_returns.mp h
      exact refl _
    | cons pair pending =>
      rw [copyPending] at h
      obtain ⟨originals, m, horiginals, h⟩ := bind_returns.mp h
      obtain ⟨rfl, rfl⟩ := query_returns.mp horiginals
      obtain ⟨copied, m, hcopied, h⟩ := bind_returns.mp h
      obtain ⟨rest, m', hrest, h⟩ := bind_returns.mp h
      obtain ⟨-, rfl⟩ := pure_returns.mp h
      obtain ⟨row, hrow, hfolder⟩ := hinto pair List.mem_cons_self
      have hnames : ∀ o ∈ db.childrenIn pair.1, NodeName.check o.name = none := by
        intro o ho
        obtain ⟨hmem, hp⟩ := Table.mem_select.mp ho
        simp only [Bool.and_eq_true, decide_eq_true_eq] at hp
        exact hn (Table.mem_iff_find.mp hmem) (by rw [hp.1]; exact Option.some_ne_none _)
      obtain ⟨hgrown, hpairs⟩ := copyChildren_grown
        (fun hne => hfolder (folder_of_childrenIn hw hrow hne)) hnames hcopied
      refine hgrown.trans (ih (hgrown.wellFormed hw) (hgrown.named hn) (fun pair' hpair' => ?_)
        hrest)
      rcases List.mem_append.mp hpair' with hpair' | hpair'
      · obtain ⟨⟨original, horiginal, hid⟩, hf⟩ := hpairs pair' hpair'
        have hmem := (Table.mem_select.mp horiginal).1
        exact ⟨original, hgrown.find (hid ▸ Table.mem_iff_find.mp hmem), fun _ => hf⟩
      · obtain ⟨row', hrow', hf⟩ := hinto pair' (List.mem_cons_of_mem _ hpair')
        exact ⟨row', hgrown.find hrow', fun hd => hgrown.folderBelow (hf hd)⟩

/-- **What `copy_tree` does to the nodes**: new ones, the copies, below the destination. -/
theorem copyTree_grown {top : Uuid} {copy : Node} (hw : WellFormed db.nodes)
    (hn : Named db.nodes) (hsource : ∃ row, db.nodes.find source.id = some row ∧ row.body = source.body)
    (hlive : LiveAt db.nodes parent.id)
    (hfind : ∀ row, db.nodes.find parent.id = some row → row.isDirectory = parent.isDirectory ∧
      row.ownerId = ownerId) (htop : AtOrBelow db.nodes parent.id top)
    (h : (copyTree ownerId source parent name).Returns db copy db') :
    Grown (Planted ownerId top) db.toStore db'.toStore := by
  unfold copyTree at h
  obtain ⟨hdir, h⟩ := of_guard h
  obtain ⟨inside, m, hinside, h⟩ := bind_returns.mp h
  obtain ⟨-, rfl⟩ := query_returns.mp hinside
  obtain ⟨-, h⟩ := of_guard h
  obtain ⟨taken, m, htaken, h⟩ := bind_returns.mp h
  obtain ⟨-, rfl⟩ := child_returns.mp htaken
  obtain ⟨-, h⟩ := of_guard h
  obtain ⟨rounds, m, hrounds, h⟩ := bind_returns.mp h
  obtain ⟨-, rfl⟩ := query_returns.mp hrounds
  obtain ⟨root, m₁, hroot, h⟩ := bind_returns.mp h
  obtain ⟨bytes, m₂, hbytes, h⟩ := bind_returns.mp h
  obtain ⟨_, m₃, hcharge, h⟩ := bind_returns.mp h
  obtain ⟨rfl, rfl⟩ := pure_returns.mp h
  obtain ⟨row, hrow, hrlive⟩ := hlive
  obtain ⟨hrdir, hrowner⟩ := hfind row hrow
  have hinto : FolderBelow db.nodes ownerId top parent.id :=
    ⟨⟨row, hrow, hrlive, hrdir.trans (by simpa using hdir), hrowner⟩, htop⟩
  obtain ⟨hgrown, hcopy, -, -, hbody, howner, htrashed, hup, -⟩ :=
    copyOne_grown hinto name.valid hroot
  obtain ⟨from_, hfrom, hsame⟩ := hsource
  refine hgrown.trans (IsTrans.trans _ _ _ ?_ (Grown.of_beside (keeps_chargeQuota (R := Beside) hcharge)))
  refine copyPending_grown (hgrown.wellFormed hw) (hgrown.named hn) (fun pair hpair => ?_) hbytes
  rw [List.mem_singleton.mp hpair]
  refine ⟨from_, hgrown.find hfrom, fun hd => ⟨⟨copy, hcopy, ?_, ?_, howner⟩, hup⟩⟩
  · rw [Node.live, htrashed]
    rfl
  · rw [isDirectory_congr (hbody.trans hsame.symm), hd]

end Stashden.Api
