import Stashden.Api.Listing

/-!
# What a caller can find (`api/src/access.rs`, `grants::mount`, `db::resolve`)

A caller is admitted to its own live nodes, and to what stands at or below a live node granted to its
address. `locate_confined` says that `locate` finds nothing else, lets a write through only by a grant
that has it, and answers the same in any two databases that agree on what the caller is admitted to,
whatever else they hold.
-/

namespace Stashden.Api

open Lib Stashden.Core Tx

/-- A node at or below a live node, and the grant of that node to an address. -/
structure Store.Granted (s : Store) (grantee : Str) (g : Grant) (node : Node) : Prop where
  grant : g ∈ s.grants.rows
  address : g.grantee = grantee
  top : LiveAt s.nodes g.nodeId
  row : node ∈ s.nodes.rows
  below : LiveBelow s.nodes node.id g.nodeId

/-- A live node of an account. -/
structure Store.Owned (s : Store) (ownerId : Uuid) (node : Node) : Prop where
  row : node ∈ s.nodes.rows
  live : node.live = true
  owner : node.ownerId = ownerId

/-- Two databases that agree on what a caller is admitted to. -/
structure SameView (caller : User) (s s' : Store) : Prop where
  own : ∀ node, s.Owned caller.id node ↔ s'.Owned caller.id node
  granted : ∀ g node, s.Granted caller.email g node ↔ s'.Granted caller.email g node

variable {s s' : Store} {db db' m : Db} {grantee str : Str} {g : Grant} {node root row top : Node}
  {caller : User} {name : NodeName} {segments : List NodeName} {quota quota' : Int} {place : Place}
  {parentId id : Uuid}

theorem SameView.symm (h : SameView caller s s') : SameView caller s' s :=
  ⟨fun node => (h.own node).symm, fun g node => (h.granted g node).symm⟩

/-- The recursive query `subtree` finds what is granted. -/
theorem granted_iff : db.Granted grantee g node ↔ g ∈ db.grants.rows ∧ g.grantee = grantee ∧
    (db.liveNode g.nodeId).isSome = true ∧ node ∈ db.subtree g.nodeId := by
  constructor
  · rintro ⟨hmem, hto, htop, hrow, hbelow⟩
    obtain ⟨top, hfind, -⟩ := id htop
    exact ⟨hmem, hto, liveNode_isSome.mpr htop, (mem_subtree_iff hfind).mpr ⟨hrow, hbelow⟩⟩
  · rintro ⟨hmem, hto, htop, hnode⟩
    have htop := liveNode_isSome.mp htop
    obtain ⟨top, hfind, -⟩ := id htop
    obtain ⟨hrow, hbelow⟩ := (mem_subtree_iff hfind).mp hnode
    exact ⟨hmem, hto, htop, hrow, hbelow⟩

/-! ## One name further -/

theorem Store.Granted.live (h : s.Granted grantee g node) : node.live = true := by
  obtain ⟨row, hrow, hlive⟩ := WellFormed.live_of_liveBelow h.top h.below
  rw [Table.mem_iff_find.mp h.row] at hrow
  cases hrow
  exact hlive

theorem Store.Granted.child (h : s.Granted grantee g node) (hchild : s.child node.id str = some row) :
    s.Granted grantee g row := by
  obtain ⟨hmem, hp, -, hlive⟩ := child_eq_some hchild
  refine ⟨h.grant, h.address, h.top, hmem, .head ⟨liveAt_of_mem hmem hlive, ?_⟩ h.below⟩
  rw [parentOf_of_mem hmem, hp]

/-- Below a node that is granted stands another one. -/
theorem Store.Granted.child_ne (hw : WellFormed s.nodes) (h : s.Granted grantee g node)
    (hchild : s.child node.id str = some row) : row.id ≠ g.nodeId := by
  obtain ⟨hmem, hp, -, -⟩ := child_eq_some hchild
  intro hid
  refine (hw.grounded row.id).not_up_parent ((parentOf_of_mem hmem).trans hp) ?_
  rw [hid]
  exact h.below.atOrBelow

theorem Store.Owned.child (hw : WellFormed s.nodes) (h : s.Owned id node)
    (hchild : s.child node.id str = some row) : s.Owned id row := by
  obtain ⟨hmem, hp, -, hlive⟩ := child_eq_some hchild
  obtain ⟨above, habove, -, howner, -⟩ := hw.parent (Table.mem_iff_find.mp hmem) hp
  rw [Table.mem_iff_find.mp h.row] at habove
  cases habove
  exact ⟨hmem, hlive, howner.symm.trans h.owner⟩

/-- What `descend` keeps from one node to the next holds where it ends. -/
theorem descend_keeps {P : Node → Prop} (hchild : ∀ {node row : Node} {str : Str}, P node →
    s.child node.id str = some row → P row) (hroot : P root)
    (h : s.descend root segments = some node) : P node := by
  induction segments generalizing root with
  | nil =>
    rw [Store.descend, Option.some.injEq] at h
    exact h ▸ hroot
  | cons segment segments ih =>
    obtain ⟨next, hnext, h⟩ := Option.bind_eq_some_iff.mp h
    exact ih (hchild hroot hnext) h

/-- Where a grant leads. -/
theorem mem_mountsOf {top : Mount × Node} : top ∈ s.mountsOf grantee ↔
    ∃ g, s.Granted grantee g top.2 ∧ g.nodeId = top.2.id ∧
      top.1 = ⟨g.id, top.2.id, g.access, g.mountName⟩ := by
  unfold Store.mountsOf
  rw [List.mem_filterMap]
  simp only [Table.mem_select, decide_eq_true_eq, Option.map_eq_some_iff]
  constructor
  · rintro ⟨g, ⟨hmem, hto⟩, node, hnode, rfl⟩
    obtain ⟨hfind, hlive⟩ := liveNode_eq_some.mp hnode
    have hkey : node.id = g.nodeId := Table.find_key hfind
    refine ⟨g, ⟨hmem, hto, ⟨node, hfind, hlive⟩, Table.find_mem hfind, ?_⟩, hkey.symm, rfl⟩
    rw [hkey]
    exact .refl
  · rintro ⟨g, hg, hid, hmount⟩
    refine ⟨g, ⟨hg.grant, hg.address⟩, top.2, ?_, by rw [← hmount]⟩
    rw [hid]
    exact liveNode_eq_some.mpr ⟨Table.mem_iff_find.mp hg.row, hg.live⟩

/-! ## Two databases -/

/-- A child whose row is in the other database is its child there. -/
theorem child_where_row (h : db.child parentId str = some row) (hrow : row ∈ db'.nodes.rows) :
    db'.child parentId str = some row := by
  obtain ⟨-, hp, hname, hlive⟩ := child_eq_some h
  refine child_iff.mpr ⟨Table.mem_select.mpr ⟨hrow, ?_⟩, hname⟩
  rw [hp, hlive, decide_eq_true rfl]
  rfl

/-- Two databases in which the same rows are below what is reached are gone down alike. -/
theorem descend_congr {P : Store → Node → Prop} (hsame : ∀ node, P db.toStore node ↔ P db'.toStore node)
    (hrow : ∀ {m : Db} {node}, P m.toStore node → node ∈ m.nodes.rows)
    (hchild : ∀ {node row : Node} {str : Str}, P db.toStore node →
      db.child node.id str = some row → P db.toStore row)
    (hchild' : ∀ {node row : Node} {str : Str}, P db'.toStore node →
      db'.child node.id str = some row → P db'.toStore row)
    (hroot : P db.toStore root) : db.descend root segments = db'.descend root segments := by
  induction segments generalizing root with
  | nil => rfl
  | cons segment segments ih =>
    have hnext : db.child root.id segment.str = db'.child root.id segment.str := by
      refine Option.ext fun row => ⟨fun h => ?_, fun h => ?_⟩
      · exact child_where_row h (hrow ((hsame row).mp (hchild hroot h)))
      · exact child_where_row h (hrow ((hsame row).mpr (hchild' ((hsame root).mp hroot) h)))
    unfold Store.descend
    rw [← hnext]
    cases hfound : db.child root.id segment.str with
    | none => rfl
    | some next => exact ih (hchild hroot hfound)

namespace SameView

variable (h : SameView caller db.toStore db'.toStore)

include h in
theorem mountedAt : db.mountedAt caller.email str = db'.mountedAt caller.email str := by
  refine Option.ext fun top => ?_
  rw [mountedAt_iff, mountedAt_iff, mem_mountsOf, mem_mountsOf]
  simp only [h.granted]

include h in
theorem rootOf (hroot : db.rootOf caller.id = some root) : db'.rootOf caller.id = some root := by
  obtain ⟨hrow, howner, hp, hlive⟩ := mem_rootOf hroot
  have hrow' := (h.own root).mp ⟨Table.find_mem hrow, hlive, howner⟩
  exact rootOf_eq (Table.mem_iff_find.mp hrow'.row) howner hp hlive

include h in
/-- **The same places** are reached. -/
theorem reach (hw : WellFormed db.nodes) (hw' : WellFormed db'.nodes)
    (hroot : db.Owned caller.id root) :
    db.reach caller root segments = db'.reach caller root segments := by
  cases segments with
  | nil => rfl
  | cons first rest =>
    unfold Store.reach
    dsimp only
    split_ifs with hshelf
    · cases rest with
      | nil => rfl
      | cons mountName below =>
        dsimp only
        rw [← h.mountedAt]
        cases htop : db.mountedAt caller.email mountName.str with
        | none => rfl
        | some top =>
          obtain ⟨g, hg, -, -⟩ := mem_mountsOf.mp (mountedAt_iff.mp htop).1
          rw [Option.bind_some, Option.bind_some, descend_congr (P := fun s => s.Granted _ g)
            (h.granted g) (fun hg => hg.row) (fun hg => hg.child) (fun hg => hg.child) hg]
    · rw [descend_congr (P := fun s => s.Owned caller.id) h.own (fun ho => ho.row)
        (fun ho => ho.child hw) (fun ho => ho.child hw') hroot]

end SameView

/-! ## What is answered -/

theorem resolve_eq : resolve root segments db =
    (db.descend root segments).elim (.error .notFound) fun node => .ok (node, db) := by
  induction segments generalizing root with
  | nil => rfl
  | cons segment segments ih =>
    unfold resolve Store.descend
    rw [bind_of_returns (child_returns.mpr ⟨rfl, rfl⟩)]
    cases hfound : db.child root.id segment.str with
    | none => rfl
    | some next =>
      rw [bind_of_returns (orFail_returns.mpr ⟨rfl, rfl⟩), ih]
      rfl

theorem mount_eq : mount grantee name db =
    (db.mountedAt grantee name.str).elim (.error .notFound) fun top => .ok (top, db) := by
  cases htop : db.mountedAt grantee name.str with
  | some top => exact mount_returns_iff.mpr ⟨htop, rfl⟩
  | none =>
    unfold mount liveNode
    rw [bind_of_returns (query_returns.mpr ⟨rfl, rfl⟩)]
    cases hg : db.mountOf grantee name.str with
    | none => rfl
    | some g =>
      rw [bind_of_returns (orFail_returns.mpr ⟨rfl, rfl⟩),
        bind_of_returns (query_returns.mpr ⟨rfl, rfl⟩)]
      cases hnode : db.liveNode g.nodeId with
      | none => rfl
      | some node =>
        unfold Store.mountedAt at htop
        rw [hg, Option.bind_some, hnode] at htop
        cases htop

/-- **`locate`**, once the caller has a root: what is reached, or a 404. -/
theorem locate_eq (hroot : (ensureRoot caller.id quota).Returns db root db) :
    locate caller segments quota db =
      (db.reach caller root segments).elim (.error .notFound) fun place => .ok (place, db) := by
  cases hreach : db.reach caller root segments with
  | some place => exact (locate_returns_iff hroot).mpr ⟨hreach, rfl⟩
  | none =>
    unfold Store.reach at hreach
    unfold locate
    cases segments with
    | nil => cases hreach
    | cons first rest =>
      dsimp only at hreach ⊢
      split_ifs at hreach ⊢ with hshelf
      · cases rest with
        | nil => cases hreach
        | cons mountName below =>
          dsimp only at hreach ⊢
          cases htop : db.mountedAt caller.email mountName.str with
          | none => exact bind_of_error (mount_eq.trans (by rw [htop]; rfl))
          | some top =>
            rw [htop, Option.bind_some, Option.map_eq_none_iff] at hreach
            rw [bind_of_returns (mount_returns_iff.mpr ⟨htop, rfl⟩)]
            exact bind_of_error (resolve_eq.trans (by rw [hreach]; rfl))
      · rw [Option.map_eq_none_iff] at hreach
        rw [bind_of_returns hroot]
        exact bind_of_error (resolve_eq.trans (by rw [hreach]; rfl))

/-- An account that has a root has its quota: `ensure_root` only looks the root up. -/
theorem ensureRoot_of_rooted (hs : Sane db.toStore) (hroot : db.rootOf id = some root) :
    (ensureRoot id quota).Returns db root db := by
  obtain ⟨hrow, howner, -, -⟩ := mem_rootOf hroot
  have hsame : db.quotas.insert ⟨id, 0, quota⟩ = none := by
    by_contra hsome
    obtain ⟨quotas, hins⟩ := Option.ne_none_iff_exists'.mp hsome
    have hheld := hs.backed.quota hrow
    rw [howner, (Table.insert_eq_some hins).1] at hheld
    cases hheld
  refine bind_returns.mpr ⟨(), db, execute_returns.mpr ?_, bind_returns.mpr ⟨some root, db,
    query_returns.mpr ⟨hroot.symm, rfl⟩, pure_returns.mpr ⟨rfl, rfl⟩⟩⟩
  rw [hsame]
  rfl

/-! ## Containment -/

theorem owned_of_ensureRoot (h : (ensureRoot id quota).Returns db root m) : m.Owned id root := by
  obtain ⟨hlive, howner, -⟩ := ensureRoot_live h
  obtain ⟨hfind, hl⟩ := liveNode_eq_some.mp hlive
  exact ⟨Table.find_mem hfind, hl, howner⟩

/-- What a place is to a caller: its own, or at or below what it was granted. -/
def Place.Admitted (s : Store) (caller : User) : Place → Prop
  | own node => s.Owned caller.id node
  | sharedWithMe => True
  | shared node mount atMount => ∃ g, s.Granted caller.email g node ∧
      mount = ⟨g.id, g.nodeId, g.access, g.mountName⟩ ∧ (atMount = true ↔ node.id = g.nodeId)

theorem locate_admitted (hw : WellFormed m.nodes)
    (h : (locate caller segments quota).Returns db place m) : place.Admitted m.toStore caller := by
  unfold locate at h
  cases segments with
  | nil =>
    obtain ⟨root, m, hroot, h⟩ := bind_returns.mp h
    obtain ⟨rfl, rfl⟩ := pure_returns.mp h
    exact owned_of_ensureRoot hroot
  | cons first rest =>
    dsimp only at h
    split_ifs at h with hshelf
    · cases rest with
      | nil =>
        obtain ⟨rfl, rfl⟩ := pure_returns.mp h
        trivial
      | cons mountName below =>
        obtain ⟨top, m, hmount, h⟩ := bind_returns.mp h
        obtain ⟨node, m, hnode, h⟩ := bind_returns.mp h
        obtain ⟨rfl, rfl⟩ := pure_returns.mp h
        obtain ⟨hfound, rfl⟩ := resolve_returns_iff.mp hnode
        obtain ⟨htop, rfl⟩ := mount_returns_iff.mp hmount
        obtain ⟨g, hg, hid, hsame⟩ := mem_mountsOf.mp (mountedAt_iff.mp htop).1
        refine ⟨g, descend_keeps (fun hg => hg.child) hg hfound, by rw [hsame, hid], ?_⟩
        cases below with
        | nil =>
          cases hfound
          exact iff_of_true rfl hid.symm
        | cons segment below =>
          obtain ⟨next, hnext, hfound⟩ := Option.bind_eq_some_iff.mp hfound
          have hbelow : node.id ≠ g.nodeId :=
            (descend_keeps (P := fun n => db.Granted caller.email g n ∧ n.id ≠ g.nodeId)
              (fun hn hchild => ⟨hn.1.child hchild, hn.1.child_ne hw hchild⟩)
              ⟨hg.child hnext, hg.child_ne hw hnext⟩ hfound).2
          exact iff_of_false Bool.false_ne_true hbelow
    · obtain ⟨root, m, hroot, h⟩ := bind_returns.mp h
      obtain ⟨node, m, hnode, h⟩ := bind_returns.mp h
      obtain ⟨rfl, rfl⟩ := pure_returns.mp h
      obtain ⟨hfound, rfl⟩ := resolve_returns_iff.mp hnode
      exact descend_keeps (fun ho => ho.child hw) (owned_of_ensureRoot hroot) hfound

/-- **What a caller can find.** After every run, what `locate` answers is the caller's own, or stands
at or below a live node granted to its address, the mount itself being that node; and any database
the service can reach that agrees on these nodes answers every path of an account with a root
alike, be it with a place or with an error. -/
theorem locate_confined (h : Reached db) :
    (∀ segments quota place m, (locate caller segments quota).Returns db place m →
      place.Admitted m.toStore caller) ∧
    ∀ root db', db.rootOf caller.id = some root → Reached db' →
      SameView caller db.toStore db'.toStore → ∀ segments quota quota',
        (locate caller segments quota db).map Prod.fst =
          (locate caller segments quota' db').map Prod.fst := by
  refine ⟨fun segments quota place m hx => ?_, fun root db' hroot h' hsame segments quota quota' => ?_⟩
  · exact locate_admitted (keeps_locate sane_ensureRoot hx h.sane).forest hx
  · have hopen : (ensureRoot caller.id quota).Returns db root db :=
      ensureRoot_of_rooted h.sane hroot
    have hopen' : (ensureRoot caller.id quota').Returns db' root db' :=
      ensureRoot_of_rooted h'.sane (hsame.rootOf hroot)
    rw [locate_eq hopen, locate_eq hopen',
      hsame.reach h.sane.forest h'.sane.forest (owned_of_ensureRoot hopen)]
    cases db'.reach caller root segments <;> rfl

def bensAccount : User := ⟨8, "ben@x.io".toList, "Ben".toList, true, true⟩

def bensHome : Node := ⟨10, 8, none, [], .directory, .directory 9, none⟩

/-- A second account was given the folder of the first. -/
def lent : Db :=
  ran (give adasUser adasFolder "ben@x.io".toList .write) <|
    ran (ensureRoot 8 100) <| ran (createUser "ben@x.io".toList "Ben".toList true) written

def otherName : NodeName := ⟨"b".toList, by decide⟩

def shelfName : NodeName := ⟨sharedWithMe, by decide⟩

/-- The first one has written a file beside it. -/
def lentLater : Db := ran (putFile 1 adasRoot otherName firstBytes 4 2) lent

theorem reached_lent : Reached lent := by
  have hnode : (ran (ensureRoot 8 100) <| ran (createUser "ben@x.io".toList "Ben".toList true)
      written).liveNode adasFolder.id = some adasFolder := by decide +kernel
  exact ((reached_written.ran (by decide +kernel) .createUser).ran (by decide +kernel)
    .ensureRoot).ran (by decide +kernel) (.give hnode)

theorem reached_lentLater : Reached lentLater := by
  have hroot : lent.liveNode adasRoot.id = some adasRoot := by decide +kernel
  exact reached_lent.ran (by decide +kernel) (.putFile hroot rfl)

/-- What is written beside a folder is nothing to whom the folder was given. -/
theorem locate_confined_lent : (locate bensAccount [shelfName, docsName] 100 lent).map Prod.fst =
    (locate bensAccount [shelfName, docsName] 100 lentLater).map Prod.fst := by
  have hroot : lent.rootOf bensAccount.id = some bensHome := by decide +kernel
  have hown : ∀ node : Node, node.ownerId = 8 →
      (node ∈ lent.nodes.rows ↔ node ∈ lentLater.nodes.rows) := by
    have h : ∀ node ∈ lent.nodes.rows, node ∈ lentLater.nodes.rows := by decide +kernel
    have h' : ∀ node ∈ lentLater.nodes.rows, node.ownerId = 8 → node ∈ lent.nodes.rows := by
      decide +kernel
    exact fun node howner => ⟨h node, fun hmem => h' node hmem howner⟩
  have hgrants : lent.grants.rows = lentLater.grants.rows := by decide +kernel
  have hbelow : ∀ g ∈ lent.grants.rows, (lent.liveNode g.nodeId).isSome =
      (lentLater.liveNode g.nodeId).isSome ∧ lent.subtree g.nodeId = lentLater.subtree g.nodeId := by
    decide +kernel
  refine (locate_confined reached_lent).2 bensHome lentLater hroot reached_lentLater
    ⟨fun node => ?_, fun g node => ?_⟩ _ _ _
  · exact ⟨fun h => ⟨(hown node h.owner).mp h.row, h.live, h.owner⟩,
      fun h => ⟨(hown node h.owner).mpr h.row, h.live, h.owner⟩⟩
  · rw [granted_iff, granted_iff, ← hgrants]
    refine and_congr_right fun hmem => ?_
    rw [(hbelow g hmem).1, (hbelow g hmem).2]

end Stashden.Api
