import Stashden.Api.Located
import Stashden.Api.History
import Stashden.Sync.Remote

/-!
# What a caller is listed (`list`, `list_root` in `api/src/routes/files.rs`, `access::shelf`)

A folder is listed by what is in it, the root with the shelf where something is mounted there, and the
shelf by its mounts. `walk_exact` puts the two ends together: the client's walk of these listings ends,
and gathers exactly what `locate` finds for the same caller, path by path.

`Store.reach` is `locate` as a function of the tables (`locate_returns_iff`), and `reach_concat` goes
one name further.
-/

namespace Stashden.Api

open Lib Stashden.Core Tx
open Sync (RelPath Entry Snapshot)

/-! ## The answers -/

/-- The hashes `shelf` takes of what it is made of: `shelf_id`, and the fingerprint of the mounts. -/
structure ShelfHash where
  id : Uuid → Uuid
  etag : List (Mount × Node) → Etag

/-- The rows of `grants::mounts`. -/
def Store.mountsOf (s : Store) (grantee : Str) : List (Mount × Node) :=
  (s.grants.select fun g => g.grantee = grantee).filterMap fun g =>
    (s.liveNode g.nodeId).map fun node => (⟨g.id, node.id, g.access, g.mountName⟩, node)

/-- `grants::mounts`. -/
def mounts (grantee : Str) : Tx (List (Mount × Node)) := query fun s => s.mountsOf grantee

/-- The folder `shelf` makes of the mounts, and its entries. -/
def shelfOf (hash : ShelfHash) (caller : User) (root : Node) (mounted : List (Mount × Node)) :
    Option (Node × List (Node × Access)) :=
  if mounted = [] then none
  else
    let id := hash.id caller.id
    let entries := mounted.map fun top =>
      ({ top.2 with name := top.1.mountName, parentId := some id }, top.1.access)
    some (⟨id, caller.id, some root.id, sharedWithMe, .directory, hash.etag mounted, none⟩, entries)

/-- `shelf`. -/
def shelf (hash : ShelfHash) (caller : User) (root : Node) :
    Tx (Option (Node × List (Node × Access))) := do
  let mounted ← mounts caller.email
  pure (shelfOf hash caller root mounted)

/-- `list_children`. -/
def listChildren (parentId : Uuid) : Tx (List Node) := query fun s => s.childrenIn parentId

/-- `list`, of a place that was located. -/
def listPlace (hash : ShelfHash) (caller : User) (quota : Int) : Place → Tx (List Node)
  | .sharedWithMe => do
    let root ← ensureRoot caller.id quota
    let mounted ← shelf hash caller root
    pure (mounted.elim [] fun top => top.2.map Prod.fst)
  | place => do
    let node ← place.intoNode
    if node.isDirectory then listChildren node.id else fail (.wrongKind "directory")

/-- `list`. -/
def listFolder (hash : ShelfHash) (caller : User) (segments : List NodeName) (quota : Int) :
    Tx (List Node) := do
  let place ← locate caller segments quota
  listPlace hash caller quota place

/-- `list_root`. -/
def listRoot (hash : ShelfHash) (caller : User) (quota : Int) : Tx (List Node) := do
  let root ← ensureRoot caller.id quota
  let shelf ← shelf hash caller root
  let children ← listChildren root.id
  pure ((shelf.map Prod.fst).toList ++ children)

/-- What the client reads of a node, with the text of its tag. -/
def Node.entry (tagText : Etag → Str) (node : Node) : Entry :=
  match node.body with
  | .directory => .directory
  | .file _ size => .file (tagText node.etag) size

/-- A node as it is listed. -/
def Node.listed (tagText : Etag → Str) (node : Node) : Sync.Listed :=
  ⟨node.name, node.entry tagText⟩

/-- `GET /v1/folders`, or a folder below it. -/
def requested (hash : ShelfHash) (caller : User) (quota : Int) : Option RelPath → Tx (List Node)
  | none => listRoot hash caller quota
  | some path =>
    match parsePath path.str with
    | .error e => fail (.invalidPath e)
    | .ok segments => listFolder hash caller segments quota

/-- `Remote::list`, answered. -/
def remoteList (hash : ShelfHash) (tagText : Etag → Str) (caller : User) (quota : Int)
    (directory : Option RelPath) : Tx (List Sync.Listed) := do
  let nodes ← requested hash caller quota directory
  pure (nodes.map (Node.listed tagText))

variable {s s' : Store} {db db' m : Db} {ownerId parentId id k : Uuid} {node root row : Node}
  {name mountName : NodeName} {str grantee : Str} {quota : Int} {caller : User}
  {segments below : List NodeName} {place : Place} {hash : ShelfHash} {tagText : Etag → Str}

/-! ## The root -/

/-- The first statement of `ensure_root` adds a row an account may have. -/
theorem insertQuota_succeeds (huser : (db.users.find ownerId).isSome = true) (hquota : 0 < quota) :
    ∃ m, (execute fun s => { s with
      quotas := (s.quotas.insert ⟨ownerId, 0, quota⟩).getD s.quotas }).Returns db () m := by
  refine execute_succeeds (holds_quotas fun q hq => ?_)
  cases hins : db.quotas.insert ⟨ownerId, 0, quota⟩ with
  | none =>
    rw [hins] at hq
    exact db.sound .quotasCheck q hq
  | some quotas =>
    rw [hins, Option.getD_some, (Table.insert_eq_some hins).2] at hq
    rcases List.mem_append.mp hq with hq | hq
    · exact db.sound .quotasCheck q hq
    · rw [List.mem_singleton.mp hq]
      exact ⟨huser, le_rfl, hquota⟩

theorem insertRoot_succeeds (huser : (db.users.find ownerId).isSome = true)
    (hnone : db.rootOf ownerId = none) (etag : Etag) :
    ∃ root m, (insertNode ownerId none [] .directory etag).Returns db root m := by
  have hkeys := (db.sound .primaryKey).1
  obtain ⟨nodes, hins⟩ := Table.insert_isSome (t := db.nodes)
    (r := ⟨db.next, ownerId, none, [], .directory, etag, none⟩)
    (Table.find_eq_none_iff.mpr fun n hn => (hkeys n hn).ne)
  have hmem : ∀ n ∈ nodes.rows, n ∈ db.nodes.rows ∨
      n = ⟨db.next, ownerId, none, [], .directory, etag, none⟩ := by
    intro n hn
    rw [(Table.insert_eq_some hins).2, List.mem_append, List.mem_singleton] at hn
    exact hn
  have hstays : ∀ {k}, (db.nodes.find k).isSome = true → (nodes.find k).isSome = true := by
    intro k hk
    rw [Table.find_insert hins]
    split_ifs
    · rfl
    · exact hk
  have hfree : ∀ n ∈ db.nodes.rows, n.live = true → n.parentId = none → n.ownerId ≠ ownerId := by
    intro n hn hlive hp howner
    have hno := List.find?_eq_none.mp hnone n hn
    simp [hlive, hp, howner] at hno
  have hholds : ∀ c, ({ db.toStore with next := db.next + 1, nodes } : Store).Holds c := by
    intro c
    cases c with
    | primaryKey =>
      obtain ⟨-, hv, hg, hl⟩ := db.sound .primaryKey
      refine ⟨fun n hn => ?_, fun v h => (hv v h).trans (Nat.lt_succ_self _),
        fun g h => (hg g h).trans (Nat.lt_succ_self _),
        fun l h => (hl l h).trans (Nat.lt_succ_self _)⟩
      rcases hmem n hn with hn | rfl
      · exact (hkeys n hn).trans (Nat.lt_succ_self _)
      · exact Nat.lt_succ_self _
    | nodesUniqueNamePerParent =>
      intro n hn k hk hnlive hklive hp hsame hname
      rcases hmem n hn with hn | rfl
      · rcases hmem k hk with hk | rfl
        · exact db.sound .nodesUniqueNamePerParent n hn k hk hnlive hklive hp hsame hname
        · rw [hsame] at hp
          cases hp
      · cases hp
    | nodesSingleRootPerOwner =>
      intro n hn k hk hnlive hklive hp hp' howner
      rcases hmem n hn with hn | rfl <;> rcases hmem k hk with hk | rfl
      · exact db.sound .nodesSingleRootPerOwner n hn k hk hnlive hklive hp hp' howner
      · exact absurd howner (hfree n hn hnlive hp)
      · exact absurd howner.symm (hfree k hk hklive hp')
      · rfl
    | nodesNameCheck =>
      intro n hn
      rcases hmem n hn with hn | rfl
      · exact db.sound .nodesNameCheck n hn
      · rfl
    | nodesForeign =>
      intro n hn
      rcases hmem n hn with hn | rfl
      · obtain ⟨hu, hp, hr, hb⟩ := db.sound .nodesForeign n hn
        exact ⟨hu, fun q hq => hstays (hp q hq), fun r hroot => hstays (hr r hroot), hb⟩
      · exact ⟨huser, fun q hq => absurd hq (Option.not_mem_none q),
          fun r hr => absurd hr (Option.not_mem_none r), fun b hb => absurd hb (Option.not_mem_none b)⟩
    | versionsForeign =>
      intro v hv
      obtain ⟨hn, hrest⟩ := db.sound .versionsForeign v hv
      exact ⟨hstays hn, hrest⟩
    | grantsForeign =>
      intro g hg
      obtain ⟨hn, hrest⟩ := db.sound .grantsForeign g hg
      exact ⟨hstays hn, hrest⟩
    | locksForeign =>
      intro l hl
      obtain ⟨hn, hrest⟩ := db.sound .locksForeign l hl
      exact ⟨hstays hn, hrest⟩
    | usersUniqueEmail => exact db.sound .usersUniqueEmail
    | blobsCheck => exact db.sound .blobsCheck
    | thumbnailsForeign => exact db.sound .thumbnailsForeign
    | quotasCheck => exact db.sound .quotasCheck
    | grantsOncePerAddress => exact db.sound .grantsOncePerAddress
    | grantsMountNames => exact db.sound .grantsMountNames
    | grantsMountNameCheck => exact db.sound .grantsMountNameCheck
    | locksOnePerNode => exact db.sound .locksOnePerNode
  refine ⟨_, ⟨_, hholds⟩, bind_returns.mpr ⟨db.next, ⟨_, holds_next (Nat.le_succ db.next)⟩,
    fresh_returns.mpr ⟨rfl, rfl⟩, bind_returns.mpr ⟨(), ⟨_, hholds⟩, insertRow_returns.mpr ?_,
      pure_returns.mpr ⟨rfl, rfl⟩⟩⟩⟩
  show (db.nodes.insert _).map _ = _
  rw [hins]
  rfl

/-- **`ensure_root` answers** for every account. -/
theorem ensureRoot_succeeds (huser : (db.users.find ownerId).isSome = true) (hquota : 0 < quota) :
    ∃ root db', (ensureRoot ownerId quota).Returns db root db' := by
  obtain ⟨m, hm⟩ := insertQuota_succeeds huser hquota
  have hs := execute_returns.mp hm
  have huser' : (m.users.find ownerId).isSome = true := by rw [hs]; exact huser
  unfold ensureRoot
  cases hroot : m.rootOf ownerId with
  | some root =>
    exact ⟨root, m, bind_returns.mpr ⟨(), m, hm, bind_returns.mpr ⟨some root, m,
      query_returns.mpr ⟨hroot.symm, rfl⟩, pure_returns.mpr ⟨rfl, rfl⟩⟩⟩⟩
  | none =>
    obtain ⟨m₁, hnext, huser₁, hroot₁⟩ : ∃ m₁ : Db,
        (etagForDirectory).Returns m (.directory m.next) m₁ ∧
          (m₁.users.find ownerId).isSome = true ∧ m₁.rootOf ownerId = none :=
      ⟨⟨_, holds_next (Nat.le_succ m.next)⟩, bind_returns.mpr ⟨m.next, _,
        fresh_returns.mpr ⟨rfl, rfl⟩, pure_returns.mpr ⟨rfl, rfl⟩⟩, huser', hroot⟩
    obtain ⟨root, db', hins⟩ := insertRoot_succeeds huser₁ hroot₁ (.directory m.next)
    exact ⟨root, db', bind_returns.mpr ⟨(), m, hm, bind_returns.mpr ⟨none, m,
      query_returns.mpr ⟨hroot.symm, rfl⟩, bind_returns.mpr ⟨_, _, hnext, hins⟩⟩⟩⟩

/-- The root of an account is one. -/
theorem rootOf_eq (hroot : db.nodes.find root.id = some root) (howner : root.ownerId = ownerId)
    (hp : root.parentId = none) (hlive : root.live = true) : db.rootOf ownerId = some root := by
  cases hfound : db.rootOf ownerId with
  | none =>
    have hno := List.find?_eq_none.mp hfound root (Table.find_mem hroot)
    simp [howner, hp, hlive] at hno
  | some other =>
    obtain ⟨hother, howner', hp', hlive'⟩ := mem_rootOf hfound
    have hid := db.sound .nodesSingleRootPerOwner other (Table.find_mem hother) root
      (Table.find_mem hroot) hlive' hlive hp' hp (howner'.trans howner.symm)
    rw [Table.eq_of_key (Table.find_mem hother) (Table.find_mem hroot) hid]

/-- **`ensure_root` once more** answers the same root and changes nothing. -/
theorem ensureRoot_again {quota' : Int} (h : (ensureRoot ownerId quota).Returns db root m) :
    (ensureRoot ownerId quota').Returns m root m := by
  obtain ⟨hlive, howner, hp⟩ := ensureRoot_live h
  obtain ⟨hfind, hl⟩ := liveNode_eq_some.mp hlive
  have hroot := rootOf_eq hfind howner hp hl
  have hsame : m.quotas.insert ⟨ownerId, 0, quota'⟩ = none := by
    by_contra hsome
    obtain ⟨quotas, hins⟩ := Option.ne_none_iff_exists'.mp hsome
    have hfree := (Table.insert_eq_some hins).1
    have hheld := ensureRoot_quota h
    rw [hfree] at hheld
    cases hheld
  refine bind_returns.mpr ⟨(), m, execute_returns.mpr ?_, bind_returns.mpr ⟨some root, m,
    query_returns.mpr ⟨hroot.symm, rfl⟩, pure_returns.mpr ⟨rfl, rfl⟩⟩⟩
  rw [hsame]
  rfl

/-! ## `locate` as a function of the tables -/

namespace Store

/-- `resolve`. -/
def descend (s : Store) (root : Node) : List NodeName → Option Node
  | [] => some root
  | segment :: segments => (s.child root.id segment.str).bind fun next => s.descend next segments

/-- `grants::mount`. -/
def mountedAt (s : Store) (grantee name : Str) : Option (Mount × Node) :=
  (s.mountOf grantee name).bind fun g =>
    (s.liveNode g.nodeId).map fun node => (⟨g.id, g.nodeId, g.access, g.mountName⟩, node)

/-- `locate`, for an account with this root. -/
def reach (s : Store) (caller : User) (root : Node) : List NodeName → Option Place
  | [] => some (.own root)
  | first :: rest =>
    if isShelf first then
      match rest with
      | [] => some .sharedWithMe
      | mountName :: below => (s.mountedAt caller.email mountName.str).bind fun top =>
          (s.descend top.2 below).map fun node => .shared node top.1 below.isEmpty
    else (s.descend root (first :: rest)).map .own

/-- One name further. -/
def further (s : Store) (caller : User) (name : NodeName) : Place → Option Place
  | .own node => (s.child node.id name.str).map .own
  | .sharedWithMe =>
    (s.mountedAt caller.email name.str).map fun top => .shared top.2 top.1 true
  | .shared node mount _ => (s.child node.id name.str).map fun below => .shared below mount false

end Store

theorem resolve_returns_iff : (resolve root segments).Returns db node db' ↔
    db.descend root segments = some node ∧ db = db' := by
  induction segments generalizing root with
  | nil =>
    show (pure root : Tx Node).Returns db node db' ↔ _
    rw [pure_returns, Store.descend, Option.some.injEq, eq_comm (a := node)]
  | cons segment segments ih =>
    unfold resolve Store.descend
    simp only [bind_returns, child_returns, orFail_returns]
    constructor
    · rintro ⟨_, _, ⟨rfl, rfl⟩, next, _, ⟨hnext, rfl⟩, h⟩
      rw [hnext]
      exact ih.mp h
    · rintro ⟨h, rfl⟩
      obtain ⟨next, hnext, h⟩ := Option.bind_eq_some_iff.mp h
      exact ⟨_, _, ⟨rfl, rfl⟩, next, _, ⟨hnext, rfl⟩, ih.mpr ⟨h, rfl⟩⟩

theorem mount_returns_iff {top : Mount × Node} : (mount grantee name).Returns db top db' ↔
    db.mountedAt grantee name.str = some top ∧ db = db' := by
  unfold mount liveNode Store.mountedAt
  simp only [bind_returns, query_returns, orFail_returns, pure_returns]
  constructor
  · rintro ⟨_, _, ⟨rfl, rfl⟩, g, _, ⟨hg, rfl⟩, _, _, ⟨rfl, rfl⟩, node, _, ⟨hnode, rfl⟩, rfl, rfl⟩
    rw [hg, Option.bind_some, hnode]
    exact ⟨rfl, rfl⟩
  · rintro ⟨h, rfl⟩
    obtain ⟨g, hg, h⟩ := Option.bind_eq_some_iff.mp h
    obtain ⟨node, hnode, rfl⟩ := Option.map_eq_some_iff.mp h
    exact ⟨_, _, ⟨rfl, rfl⟩, g, _, ⟨hg, rfl⟩, _, _, ⟨rfl, rfl⟩, node, _, ⟨hnode, rfl⟩, rfl, rfl⟩

/-- **`locate` answers what the tables hold at the path**, once the caller has a root. -/
theorem locate_returns_iff (hroot : (ensureRoot caller.id quota).Returns m root m) :
    (locate caller segments quota).Returns m place db' ↔
      m.reach caller root segments = some place ∧ m = db' := by
  have hopen : ∀ {α : Type} {f : Node → Tx α} {a : α},
      (ensureRoot caller.id quota >>= f).Returns m a db' ↔ (f root).Returns m a db' := by
    intro α f a
    rw [bind_returns]
    constructor
    · rintro ⟨_, _, hx, h⟩
      obtain ⟨rfl, rfl⟩ := hx.unique hroot
      exact h
    · exact fun h => ⟨root, m, hroot, h⟩
  unfold locate Store.reach
  cases segments with
  | nil =>
    refine hopen.trans ?_
    rw [pure_returns, Option.some.injEq, eq_comm (a := place)]
  | cons first rest =>
    dsimp only
    split_ifs with hshelf
    · cases rest with
      | nil => exact pure_returns.trans (by rw [Option.some.injEq, eq_comm (a := place)])
      | cons mountName below =>
        simp only [bind_returns, mount_returns_iff, resolve_returns_iff, pure_returns]
        constructor
        · rintro ⟨top, _, ⟨htop, rfl⟩, node, _, ⟨hnode, rfl⟩, rfl, rfl⟩
          rw [htop, Option.bind_some, hnode]
          exact ⟨rfl, rfl⟩
        · rintro ⟨h, rfl⟩
          obtain ⟨top, htop, h⟩ := Option.bind_eq_some_iff.mp h
          obtain ⟨node, hnode, rfl⟩ := Option.map_eq_some_iff.mp h
          exact ⟨top, _, ⟨htop, rfl⟩, node, _, ⟨hnode, rfl⟩, rfl, rfl⟩
    · refine hopen.trans ?_
      simp only [bind_returns, resolve_returns_iff, pure_returns]
      constructor
      · rintro ⟨node, _, ⟨hnode, rfl⟩, rfl, rfl⟩
        rw [hnode]
        exact ⟨rfl, rfl⟩
      · rintro ⟨h, rfl⟩
        obtain ⟨node, hnode, rfl⟩ := Option.map_eq_some_iff.mp h
        exact ⟨node, _, ⟨hnode, rfl⟩, rfl, rfl⟩

theorem descend_concat : s.descend root (segments ++ [name]) =
    (s.descend root segments).bind fun node => s.child node.id name.str := by
  induction segments generalizing root with
  | nil =>
    show (s.child root.id name.str).bind some = _
    rw [Option.bind_fun_some]
    rfl
  | cons segment segments ih =>
    rw [List.cons_append, Store.descend, Store.descend, Option.bind_assoc]
    exact congrArg _ (funext fun next => ih)

theorem reach_single : s.reach caller root [name] =
    if isShelf name then some .sharedWithMe else (s.child root.id name.str).map .own := by
  show (if isShelf name then some Place.sharedWithMe
    else ((s.child root.id name.str).bind some).map .own) = _
  rw [Option.bind_fun_some]

/-- **One name further** than what is reached. -/
theorem reach_concat (hne : segments ≠ []) : s.reach caller root (segments ++ [name]) =
    (s.reach caller root segments).bind (s.further caller name) := by
  cases segments with
  | nil => exact absurd rfl hne
  | cons first rest =>
    rw [List.cons_append]
    unfold Store.reach
    dsimp only
    split_ifs with hshelf
    · cases rest with
      | nil =>
        show ((s.mountedAt caller.email name.str).bind fun top =>
          (some top.2).map fun node => Place.shared node top.1 true) = _
        rw [Option.bind_some, Store.further]
        cases s.mountedAt caller.email name.str <;> rfl
      | cons mountName below =>
        rw [List.cons_append]
        dsimp only
        rw [Option.bind_assoc]
        refine congrArg _ (funext fun top => ?_)
        have hmore : (below ++ [name]).isEmpty = false := by simp
        rw [descend_concat, hmore]
        cases s.descend top.2 below <;> rfl
    · have hcons : first :: (rest ++ [name]) = (first :: rest) ++ [name] := rfl
      rw [hcons, descend_concat]
      cases s.descend root (first :: rest) <;> rfl

/-! ## What stands at a path -/

/-- The names of a path. -/
def namesOf (p : RelPath) : List NodeName := p.segments.attach.map fun s => ⟨s.1, p.valid s.1 s.2⟩

/-- The names of a directory, the root having none. -/
def namesUpTo (directory : Option RelPath) : List NodeName := directory.elim [] namesOf

/-- What a place looks like to the client: the shelf is there where something is mounted. -/
def Place.shows (s : Store) (tagText : Etag → Str) (caller : User) : Place → Option Entry
  | .own node => some (node.entry tagText)
  | .shared node _ _ => some (node.entry tagText)
  | .sharedWithMe => if s.mountsOf caller.email = [] then none else some .directory

/-- What stands at a path. -/
def Store.standsAt (s : Store) (tagText : Etag → Str) (caller : User) (root : Node) (p : RelPath) :
    Option Entry :=
  (s.reach caller root (namesOf p)).bind (Place.shows s tagText caller)

/-- What a request is answered with. -/
def Store.answers (s : Store) (tagText : Etag → Str) (caller : User) (root : Node) :
    Option RelPath → List Sync.Listed
  | none =>
    (if s.mountsOf caller.email = [] then [] else [⟨sharedWithMe, .directory⟩]) ++
      (s.childrenIn root.id).map (Node.listed tagText)
  | some p =>
    match s.reach caller root (namesOf p) with
    | some .sharedWithMe =>
      (s.mountsOf caller.email).map fun top => ⟨top.1.mountName, top.2.entry tagText⟩
    | some (.own node) | some (.shared node _ _) =>
      if node.isDirectory then (s.childrenIn node.id).map (Node.listed tagText) else []
    | none => []

theorem names_str (p : RelPath) : (namesOf p).map NodeName.str = p.segments := by
  unfold namesOf
  rw [List.map_map]
  exact List.attach_map_subtype_val _

theorem str_injective : Function.Injective NodeName.str := by
  intro a b h
  cases a
  cases b
  cases h
  rfl

theorem namesOf_ne_nil (p : RelPath) : namesOf p ≠ [] := by
  intro h
  have hnil := names_str p
  rw [h] at hnil
  exact List.splitOn_ne_nil '/' p.str hnil.symm

theorem parsePath_str (p : RelPath) : parsePath p.str = .ok (namesOf p) := by
  obtain ⟨names, hparse, hstr⟩ := parsePath_of_segments p.valid
  rw [hparse, List.map_injective_iff.mpr str_injective (hstr.trans (names_str p).symm)]

theorem namesUpTo_str (directory : Option RelPath) :
    (namesUpTo directory).map NodeName.str = Sync.levels directory := by
  cases directory with
  | none => rfl
  | some d => exact names_str d

/-- A path in a directory, by its names. -/
theorem segments_iff {directory : Option RelPath} {p : RelPath} {str : Str} :
    p.segments = Sync.levels directory ++ [str] ↔
      ∃ name : NodeName, name.str = str ∧ namesOf p = namesUpTo directory ++ [name] := by
  constructor
  · intro h
    have hmem : str ∈ p.segments := by
      rw [h]
      exact List.mem_append_right _ (List.mem_singleton_self str)
    have hvalid : NodeName.check str = none := p.valid str hmem
    refine ⟨⟨str, hvalid⟩, rfl, List.map_injective_iff.mpr str_injective ?_⟩
    rw [names_str, List.map_append, namesUpTo_str, h]
    rfl
  · rintro ⟨name, rfl, h⟩
    rw [← names_str, h, List.map_append, namesUpTo_str]
    rfl

/-! ## One listing -/

/-- The child of a name is one. -/
theorem child_iff {str : Str} : db.child parentId str = some node ↔
    node ∈ db.childrenIn parentId ∧ node.name = str := by
  unfold Store.childrenIn
  rw [Table.mem_select, Bool.and_eq_true, decide_eq_true_eq]
  constructor
  · intro h
    obtain ⟨hmem, hp, hname, hlive⟩ := child_eq_some h
    exact ⟨⟨hmem, hp, hlive⟩, hname⟩
  · rintro ⟨⟨hmem, hp, hlive⟩, rfl⟩
    cases hfound : db.child parentId node.name with
    | none => rw [child_eq_none hfound node hmem hp rfl] at hlive; cases hlive
    | some other =>
      obtain ⟨hmem', hp', hname', hlive'⟩ := child_eq_some hfound
      have hid := db.sound .nodesUniqueNamePerParent other hmem' node hmem hlive' hlive
        (by rw [hp']; rfl) (hp'.trans hp.symm) hname'
      rw [Table.eq_of_key hmem' hmem hid]

/-- The mount of a name is one. -/
theorem mountedAt_iff {top : Mount × Node} {str : Str} : db.mountedAt grantee str = some top ↔
    top ∈ db.mountsOf grantee ∧ top.1.mountName = str := by
  unfold Store.mountedAt Store.mountsOf Store.mountOf
  rw [Option.bind_eq_some_iff, List.mem_filterMap]
  simp only [Table.mem_select, decide_eq_true_eq, Option.map_eq_some_iff]
  constructor
  · rintro ⟨g, hg, node, hnode, rfl⟩
    have hp := List.find?_some hg
    simp only [Bool.and_eq_true, decide_eq_true_eq] at hp
    refine ⟨⟨g, ⟨List.mem_of_find?_eq_some hg, hp.1⟩, node, hnode, ?_⟩, hp.2⟩
    rw [← (Table.find_key (liveNode_eq_some.mp hnode).1 : node.id = g.nodeId)]
  · rintro ⟨⟨g, ⟨hmem, hto⟩, node, hnode, rfl⟩, rfl⟩
    have hkey : node.id = g.nodeId := Table.find_key (liveNode_eq_some.mp hnode).1
    cases hfound : db.grants.rows.find? fun k => k.grantee = grantee && k.mountName = g.mountName with
    | none =>
      have hno := List.find?_eq_none.mp hfound g hmem
      simp [hto] at hno
    | some k =>
      have hp := List.find?_some hfound
      simp only [Bool.and_eq_true, decide_eq_true_eq] at hp
      have hk := List.mem_of_find?_eq_some hfound
      have hid := db.sound .grantsMountNames k hk g hmem (hp.1.trans hto.symm) hp.2
      obtain rfl := Table.eq_of_key hk hmem hid
      exact ⟨k, rfl, node, hnode, by rw [hkey]⟩

section Answers

variable {directory : Option RelPath} {p : RelPath} {e : Entry}

/-- The shelf's name is free in the root of an account. -/
def Unreserved (s : Store) (root : Node) : Prop := s.child root.id sharedWithMe = none

/-- A folder that can be listed: the root, or a path at which a folder stands. -/
def Listable (s : Store) (tagText : Etag → Str) (caller : User) (root : Node)
    (directory : Option RelPath) : Prop :=
  ∀ p, directory = some p → s.standsAt tagText caller root p = some .directory

theorem entry_isDirectory : node.entry tagText = .directory ↔ node.isDirectory = true := by
  unfold Node.entry Node.isDirectory
  cases node.body <;> simp

/-- The children of a folder, as they are listed. -/
theorem mem_children_iff {x : Sync.Listed} :
    x ∈ (db.childrenIn parentId).map (Node.listed tagText) ↔
      ∃ node, db.child parentId x.name = some node ∧ node.entry tagText = x.entry := by
  simp only [List.mem_map, child_iff]
  constructor
  · rintro ⟨node, hmem, rfl⟩
    exact ⟨node, ⟨hmem, rfl⟩, rfl⟩
  · rintro ⟨node, ⟨hmem, hname⟩, hentry⟩
    refine ⟨node, hmem, ?_⟩
    unfold Node.listed
    rw [hname, hentry]

/-- **What a folder is answered with** is what stands one name further. -/
theorem mem_answers_iff (hfree : Unreserved db.toStore root)
    (hdir : Listable db.toStore tagText caller root directory)
    (hp : namesOf p = namesUpTo directory ++ [name]) :
    (⟨name.str, e⟩ : Sync.Listed) ∈ db.answers tagText caller root directory ↔
      db.standsAt tagText caller root p = some e := by
  unfold Store.standsAt
  rw [hp]
  cases directory with
  | none =>
    show _ ∈ _ ++ _ ↔ (db.reach caller root [name]).bind _ = _
    rw [reach_single, List.mem_append, mem_children_iff]
    by_cases hshelf : isShelf name = true
    · have hname : name.str = sharedWithMe := of_decide_eq_true hshelf
      rw [if_pos hshelf, Option.bind_some, Place.shows, hname, hfree]
      split_ifs <;> simp [eq_comm]
    · have hname : name.str ≠ sharedWithMe := fun h => hshelf (decide_eq_true h)
      rw [if_neg hshelf, Option.bind_map]
      have hnot : (⟨name.str, e⟩ : Sync.Listed) ∉
          (if db.mountsOf caller.email = [] then [] else [⟨sharedWithMe, Entry.directory⟩]) := by
        split_ifs <;> simp [hname]
      rw [or_iff_right hnot, Option.bind_eq_some_iff]
      refine exists_congr fun node => and_congr_right fun _ => ?_
      show _ ↔ some (node.entry tagText) = some e
      rw [Option.some.injEq]
  | some d =>
    have hstands := hdir d rfl
    unfold Store.standsAt at hstands
    obtain ⟨place, hplace, hshows⟩ := Option.bind_eq_some_iff.mp hstands
    have hup : namesUpTo (some d) = namesOf d := rfl
    rw [hup, reach_concat (namesOf_ne_nil d), Store.answers, hplace, Option.bind_some]
    cases place with
    | own node =>
      have hd : node.isDirectory = true := entry_isDirectory.mp (Option.some.inj hshows)
      dsimp only
      rw [if_pos hd, mem_children_iff, Store.further, Option.bind_map, Option.bind_eq_some_iff]
      refine exists_congr fun node => and_congr_right fun _ => ?_
      show _ ↔ some (node.entry tagText) = some e
      rw [Option.some.injEq]
    | shared node mount atMount =>
      have hd : node.isDirectory = true := entry_isDirectory.mp (Option.some.inj hshows)
      dsimp only
      rw [if_pos hd, mem_children_iff, Store.further, Option.bind_map, Option.bind_eq_some_iff]
      refine exists_congr fun node => and_congr_right fun _ => ?_
      show _ ↔ some (node.entry tagText) = some e
      rw [Option.some.injEq]
    | sharedWithMe =>
      dsimp only
      rw [Store.further, Option.bind_map, Option.bind_eq_some_iff, List.mem_map]
      simp only [mountedAt_iff, and_assoc]
      refine exists_congr fun top => and_congr_right fun _ => ?_
      rw [Sync.Listed.mk.injEq]
      refine and_congr_right fun _ => ?_
      rw [← Option.some.injEq]
      exact Iff.rfl

theorem mem_answers_name {x : Sync.Listed} (hx : x ∈ db.answers tagText caller root directory) :
    x.name ≠ [] ∧ '/' ∉ x.name := by
  have hchildren : ∀ {parentId : Uuid},
      x ∈ (db.childrenIn parentId).map (Node.listed tagText) → x.name ≠ [] ∧ '/' ∉ x.name := by
    intro parentId hx
    obtain ⟨node, hnode, -⟩ := mem_children_iff.mp hx
    obtain ⟨hmem, hp, hname, -⟩ := child_eq_some hnode
    have hcheck := db.sound .nodesNameCheck node hmem
    unfold Store.nameCheck at hcheck
    rw [hp, Bool.and_eq_true, decide_eq_true_eq, decide_eq_true_eq, hname] at hcheck
    exact hcheck
  cases directory with
  | none =>
    rcases List.mem_append.mp hx with hx | hx
    · split_ifs at hx
      · exact absurd hx List.not_mem_nil
      · rw [List.mem_singleton.mp hx]
        decide
    · exact hchildren hx
  | some d =>
    rw [Store.answers] at hx
    split at hx
    · obtain ⟨top, htop, rfl⟩ := List.mem_map.mp hx
      obtain ⟨g, hg, hmount⟩ := List.mem_filterMap.mp htop
      obtain ⟨node, -, rfl⟩ := Option.map_eq_some_iff.mp hmount
      exact db.sound .grantsMountNameCheck g (Table.mem_select.mp hg).1
    · split_ifs at hx
      · exact hchildren hx
      · exact absurd hx List.not_mem_nil
    · split_ifs at hx
      · exact hchildren hx
      · exact absurd hx List.not_mem_nil
    · exact absurd hx List.not_mem_nil

/-- **What is listed in a folder** is what stands one name further. -/
theorem lists_iff (hfree : Unreserved db.toStore root)
    (hdir : Listable db.toStore tagText caller root directory) :
    Sync.Remote.Lists (db.answers tagText caller root) directory p e ↔
      (∃ name, namesOf p = namesUpTo directory ++ [name]) ∧
        db.standsAt tagText caller root p = some e := by
  constructor
  · rintro ⟨x, hx, hp, rfl⟩
    obtain ⟨hne, hs⟩ := mem_answers_name hx
    obtain ⟨name, hname, hnames⟩ := segments_iff.mp ((Sync.Remote.childOf_ok_iff hne hs).mp hp)
    refine ⟨⟨name, hnames⟩, (mem_answers_iff hfree hdir hnames).mp ?_⟩
    rw [hname]
    exact hx
  · rintro ⟨⟨name, hnames⟩, hstands⟩
    have hx := (mem_answers_iff hfree hdir hnames).mpr hstands
    obtain ⟨hne, hs⟩ := mem_answers_name hx
    exact ⟨_, hx, (Sync.Remote.childOf_ok_iff hne hs).mpr (segments_iff.mpr ⟨name, rfl, hnames⟩), rfl⟩

theorem listable_of_inside {c : Option RelPath} (hfree : Unreserved db.toStore root)
    (hdir : Listable db.toStore tagText caller root directory)
    (h : Sync.Remote.Inside (db.answers tagText caller root) c directory) :
    Listable db.toStore tagText caller root c := by
  obtain ⟨p, rfl, hlists⟩ := h
  intro q hq
  cases hq
  exact ((lists_iff hfree hdir).mp hlists).2

theorem listable_of_reach (hfree : Unreserved db.toStore root)
    (h : Relation.ReflTransGen (Sync.Remote.Inside (db.answers tagText caller root)) directory none) :
    Listable db.toStore tagText caller root directory := by
  induction h using Relation.ReflTransGen.head_induction_on with
  | refl => exact fun p hp => absurd hp (Option.some_ne_none p).symm
  | head hstep _ ih => exact listable_of_inside hfree ih hstep

theorem tree_answers (hfree : Unreserved db.toStore root) :
    Sync.Remote.Tree (db.answers tagText caller root) where
  name _ _ _ hx := mem_answers_name hx
  once d hd x hx y hy hname := by
    have hchildren : ∀ {parentId : Uuid},
        x ∈ (db.childrenIn parentId).map (Node.listed tagText) →
          y ∈ (db.childrenIn parentId).map (Node.listed tagText) → x.entry = y.entry := by
      intro parentId hx hy
      obtain ⟨node, hnode, hentry⟩ := mem_children_iff.mp hx
      obtain ⟨node', hnode', hentry'⟩ := mem_children_iff.mp hy
      rw [hname, hnode'] at hnode
      cases hnode
      exact hentry.symm.trans hentry'
    have hchild : ∀ {z : Sync.Listed}, z ∈ (db.childrenIn root.id).map (Node.listed tagText) →
        z.name ≠ sharedWithMe := by
      intro z hz hshelf
      obtain ⟨node, hnode, -⟩ := mem_children_iff.mp hz
      rw [hshelf, hfree] at hnode
      cases hnode
    cases d with
    | none =>
      rcases List.mem_append.mp hx with hx | hx <;> rcases List.mem_append.mp hy with hy | hy
      · split_ifs at hx hy
        · exact absurd hx List.not_mem_nil
        · rw [List.mem_singleton.mp hx, List.mem_singleton.mp hy]
      · split_ifs at hx
        · exact absurd hx List.not_mem_nil
        · rw [List.mem_singleton.mp hx] at hname
          exact absurd hname.symm (hchild hy)
      · split_ifs at hy
        · exact absurd hy List.not_mem_nil
        · rw [List.mem_singleton.mp hy] at hname
          exact absurd hname (hchild hx)
      · exact hchildren hx hy
    | some d =>
      rw [Store.answers] at hx hy
      cases hplace : db.reach caller root (namesOf d) with
      | none =>
        rw [hplace] at hx
        exact absurd hx List.not_mem_nil
      | some place =>
        rw [hplace] at hx hy
        cases place with
        | sharedWithMe =>
          obtain ⟨top, htop, rfl⟩ := List.mem_map.mp hx
          obtain ⟨top', htop', rfl⟩ := List.mem_map.mp hy
          have hsame := (mountedAt_iff.mpr ⟨htop, hname⟩).symm.trans
            (mountedAt_iff.mpr ⟨htop', rfl⟩)
          rw [Option.some.inj hsame]
        | own node =>
          dsimp only at hx hy
          split_ifs at hx hy
          · exact hchildren hx hy
          · exact absurd hx List.not_mem_nil
        | shared node mount atMount =>
          dsimp only at hx hy
          split_ifs at hx hy
          · exact hchildren hx hy
          · exact absurd hx List.not_mem_nil

/-! ## The tree that is listed -/

section Standing

variable (hroot : (ensureRoot caller.id quota).Returns m root m) (hw : WellFormed m.nodes)
  (hfree : Unreserved m.toStore root)

include hroot in
theorem reach_find (h : m.reach caller root segments = some place)
    (hnode : place.reached = some node) : m.nodes.find node.id = some node :=
  (liveNode_eq_some.mp (locate_live ((locate_returns_iff hroot).mpr ⟨h, rfl⟩) hnode).1).1

include hw in
/-- What has a child is a folder. -/
theorem isDirectory_of_child (hnode : m.nodes.find node.id = some node)
    (hchild : m.child node.id str = some row) : node.isDirectory = true := by
  obtain ⟨hmem, hp, -, -⟩ := child_eq_some hchild
  obtain ⟨above, habove, hdir, -⟩ := hw.parent (Table.mem_iff_find.mp hmem) hp
  rw [hnode] at habove
  cases habove
  exact hdir

include hroot hw in
/-- What something is reached in is listed as a folder. -/
theorem shows_of_further {place' : Place} (h : m.reach caller root segments = some place)
    (hfurther : m.further caller name place = some place') :
    place.shows m.toStore tagText caller = some .directory := by
  cases place with
  | own node =>
    obtain ⟨row, hrow, -⟩ := Option.map_eq_some_iff.mp hfurther
    exact congrArg some (entry_isDirectory.mpr (isDirectory_of_child hw (reach_find hroot h rfl) hrow))
  | shared node mount atMount =>
    obtain ⟨row, hrow, -⟩ := Option.map_eq_some_iff.mp hfurther
    exact congrArg some (entry_isDirectory.mpr (isDirectory_of_child hw (reach_find hroot h rfl) hrow))
  | sharedWithMe =>
    obtain ⟨top, htop, -⟩ := Option.map_eq_some_iff.mp hfurther
    have hmem := (mountedAt_iff.mp htop).1
    refine if_neg fun hnil => ?_
    rw [hnil] at hmem
    exact List.not_mem_nil hmem

include hroot hw hfree in
/-- **What stands at a path is listed**, from the root down. -/
theorem gathered_of_stands (h : m.standsAt tagText caller root p = some e) :
    Sync.Remote.Gathered (m.answers tagText caller root) none p e := by
  induction hn : (namesOf p).length using Nat.strong_induction_on generalizing p e with
  | _ n ih =>
    obtain ⟨init, name, hnames⟩ :=
      (List.eq_nil_or_concat (namesOf p)).resolve_left (namesOf_ne_nil p)
    rw [List.concat_eq_append] at hnames
    by_cases hinit : init = []
    · subst hinit
      have htop : Listable m.toStore tagText caller root none :=
        fun q hq => absurd hq (Option.some_ne_none q).symm
      exact ⟨none, .refl, (lists_iff hfree htop).mpr ⟨⟨name, hnames⟩, h⟩⟩
    · let d : RelPath := ⟨['/'].intercalate (init.map NodeName.str), RelPath.valid_names hinit⟩
      have hd : namesOf d = init := by
        refine List.map_injective_iff.mpr str_injective ?_
        rw [names_str]
        exact splitOn_intercalate_names hinit
      obtain ⟨place, hplace, -⟩ := Option.bind_eq_some_iff.mp h
      rw [hnames, reach_concat hinit] at hplace
      obtain ⟨above, habove, hfurther⟩ := Option.bind_eq_some_iff.mp hplace
      have hstands : m.standsAt tagText caller root d = some .directory := by
        unfold Store.standsAt
        rw [hd, habove, Option.bind_some]
        exact shows_of_further hroot hw habove hfurther
      have hlist : Listable m.toStore tagText caller root (some d) := by
        intro q hq
        cases hq
        exact hstands
      obtain ⟨c, hc, hlists⟩ := ih _ (by rw [← hn, hd, hnames]; simp) hstands rfl
      refine ⟨some d, .head ⟨d, rfl, hlists⟩ hc, (lists_iff hfree hlist).mpr ⟨⟨name, ?_⟩, h⟩⟩
      rw [hnames, ← hd]
      rfl

include hroot hw hfree in
theorem gathered_iff_stands : Sync.Remote.Gathered (m.answers tagText caller root) none p e ↔
    m.standsAt tagText caller root p = some e := by
  refine ⟨?_, gathered_of_stands hroot hw hfree⟩
  rintro ⟨d, hd, hlists⟩
  exact ((lists_iff hfree (listable_of_reach hfree hd)).mp hlists).2

include hw hfree in
/-- Directories end below a path at which a node stands. -/
theorem acc_of_reached (k : Uuid) : ∀ (d : RelPath) (place : Place) (node : Node),
    m.reach caller root (namesOf d) = some place → place.reached = some node → node.id = k →
      Acc (Sync.Remote.Inside (m.answers tagText caller root)) (some d) := by
  induction k using Grounded.descend hw.grounded (m.nodes.rows.map Node.id) with
  | hall x y hxy => ?_
  | below k ih => ?_
  · obtain ⟨row, hrow, -⟩ := find_of_parentOf hxy
    obtain ⟨hmem, rfl⟩ := Table.find_eq_some_iff.mp hrow
    exact List.mem_map_of_mem hmem
  · rintro d place node hplace hnode rfl
    refine .intro _ fun c hc => ?_
    obtain ⟨p, rfl, x, hx, hp, hentry⟩ := hc
    -- a file is answered with nothing
    have hdir : node.isDirectory = true := by
      rw [Store.answers, hplace] at hx
      cases place with
      | sharedWithMe => cases hnode
      | own node' =>
        cases hnode
        dsimp only at hx
        split_ifs at hx with hdir
        · exact hdir
        · exact absurd hx List.not_mem_nil
      | shared node' mount atMount =>
        cases hnode
        dsimp only at hx
        split_ifs at hx with hdir
        · exact hdir
        · exact absurd hx List.not_mem_nil
    have hlist : Listable m.toStore tagText caller root (some d) := by
      intro q hq
      cases hq
      unfold Store.standsAt
      rw [hplace, Option.bind_some]
      cases place with
      | sharedWithMe => cases hnode
      | own node' =>
        cases hnode
        exact congrArg some (entry_isDirectory.mpr hdir)
      | shared node' mount atMount =>
        cases hnode
        exact congrArg some (entry_isDirectory.mpr hdir)
    obtain ⟨⟨name, hnames⟩, hstands⟩ := (lists_iff hfree hlist).mp ⟨x, hx, hp, hentry⟩
    obtain ⟨place', hplace', -⟩ := Option.bind_eq_some_iff.mp hstands
    have hfurther := hplace'
    rw [hnames] at hfurther
    rw [show namesUpTo (some d) = namesOf d from rfl, reach_concat (namesOf_ne_nil d), hplace,
      Option.bind_some] at hfurther
    have hbelow : ∀ {row : Node} {str : Str}, m.child node.id str = some row →
        parentOf m.nodes row.id = some node.id := by
      intro row str hrow
      obtain ⟨hmem, hp, -, -⟩ := child_eq_some hrow
      rw [parentOf_of_mem hmem, hp]
    cases place with
    | sharedWithMe => cases hnode
    | own node' =>
      cases hnode
      obtain ⟨row, hrow, rfl⟩ := Option.map_eq_some_iff.mp hfurther
      exact ih row.id (hbelow hrow) p _ row hplace' rfl rfl
    | shared node' mount atMount =>
      cases hnode
      obtain ⟨row, hrow, rfl⟩ := Option.map_eq_some_iff.mp hfurther
      exact ih row.id (hbelow hrow) p _ row hplace' rfl rfl

include hw hfree in
theorem acc_some (d : RelPath) :
    Acc (Sync.Remote.Inside (m.answers tagText caller root)) (some d) := by
  cases hplace : m.reach caller root (namesOf d) with
  | none =>
    refine .intro _ fun c hc => ?_
    obtain ⟨p, rfl, x, hx, -⟩ := hc
    rw [Store.answers, hplace] at hx
    exact absurd hx List.not_mem_nil
  | some place =>
    cases hreached : place.reached with
    | some node => exact acc_of_reached hw hfree node.id d place node hplace hreached rfl
    | none =>
      -- the shelf: what is mounted on it is a node
      cases place with
      | own node => cases hreached
      | shared node mount atMount => cases hreached
      | sharedWithMe =>
        refine .intro _ fun c hc => ?_
        obtain ⟨p, rfl, x, hx, hp, -⟩ := hc
        obtain ⟨hne, hs⟩ := mem_answers_name hx
        obtain ⟨name, -, hnames⟩ := segments_iff.mp ((Sync.Remote.childOf_ok_iff hne hs).mp hp)
        rw [show namesUpTo (some d) = namesOf d from rfl] at hnames
        cases hplace' : m.mountedAt caller.email name.str with
        | none =>
          refine .intro _ fun c' hc' => ?_
          obtain ⟨p', rfl, x', hx', -⟩ := hc'
          rw [Store.answers, hnames, reach_concat (namesOf_ne_nil d), hplace, Option.bind_some,
            Store.further, hplace'] at hx'
          exact absurd hx' List.not_mem_nil
        | some top =>
          refine acc_of_reached hw hfree top.2.id p (.shared top.2 top.1 true) top.2 ?_ rfl rfl
          rw [hnames, reach_concat (namesOf_ne_nil d), hplace, Option.bind_some, Store.further, hplace']
          rfl

include hw hfree in
theorem acc_none : Acc (Sync.Remote.Inside (m.answers tagText caller root)) none := by
  refine .intro _ fun c hc => ?_
  obtain ⟨p, rfl, -⟩ := hc
  exact acc_some hw hfree p

/-! ## The requests -/

/-- What `shelf` answers, as it is listed. -/
theorem shelf_returns (hash : ShelfHash) (tagText : Etag → Str) (caller : User) (root : Node) (m : Db) :
    ∃ o, (shelf hash caller root).Returns m o m ∧
      (o.map Prod.fst).toList.map (Node.listed tagText) =
        (if m.mountsOf caller.email = [] then [] else [⟨sharedWithMe, Entry.directory⟩]) ∧
      (o.elim [] fun top => top.2.map Prod.fst).map (Node.listed tagText) =
        (m.mountsOf caller.email).map fun top => ⟨top.1.mountName, top.2.entry tagText⟩ := by
  refine ⟨_, bind_returns.mpr ⟨_, m, query_returns.mpr ⟨rfl, rfl⟩, pure_returns.mpr ⟨rfl, rfl⟩⟩, ?_⟩
  unfold shelfOf
  by_cases hnil : m.mountsOf caller.email = []
  · rw [if_pos hnil, if_pos hnil, hnil]
    exact ⟨rfl, rfl⟩
  · rw [if_neg hnil, if_neg hnil, Option.elim_some, List.map_map, List.map_map]
    exact ⟨rfl, rfl⟩

/-- **`list_root`**, as it is answered. -/
theorem remoteList_root (hash : ShelfHash) (tagText : Etag → Str)
    (hroot : (ensureRoot caller.id quota).Returns db root m) :
    (remoteList hash tagText caller quota none).Returns db (m.answers tagText caller root none) m := by
  obtain ⟨o, hshelf, hlisted, -⟩ := shelf_returns hash tagText caller root m
  refine bind_returns.mpr ⟨_, m, bind_returns.mpr ⟨root, m, hroot, bind_returns.mpr ⟨o, m, hshelf,
    bind_returns.mpr ⟨_, m, query_returns.mpr ⟨rfl, rfl⟩, pure_returns.mpr ⟨rfl, rfl⟩⟩⟩⟩, ?_⟩
  refine pure_returns.mpr ⟨?_, rfl⟩
  rw [List.map_append, hlisted]
  rfl

include hroot in
/-- **`list`**, as it is answered where a folder stands. -/
theorem remoteList_folder (hash : ShelfHash)
    (hstands : m.standsAt tagText caller root p = some .directory) :
    (remoteList hash tagText caller quota (some p)).Returns m
      (m.answers tagText caller root (some p)) m := by
  obtain ⟨place, hplace, hshows⟩ := Option.bind_eq_some_iff.mp hstands
  have hlocated := (locate_returns_iff hroot).mpr ⟨hplace, rfl⟩
  have hlisting : ∀ {node : Node}, node.isDirectory = true →
      (if node.isDirectory then listChildren node.id else fail (.wrongKind "directory")).Returns m
        (m.childrenIn node.id) m := by
    intro node hdir
    rw [if_pos hdir]
    exact query_returns.mpr ⟨rfl, rfl⟩
  unfold remoteList requested Store.answers
  dsimp only
  rw [hplace, parsePath_str]
  cases place with
  | sharedWithMe =>
    obtain ⟨o, hshelf, -, hlisted⟩ := shelf_returns hash tagText caller root m
    refine bind_returns.mpr ⟨_, m, bind_returns.mpr ⟨_, m, hlocated, bind_returns.mpr
      ⟨root, m, hroot, bind_returns.mpr ⟨o, m, hshelf, pure_returns.mpr ⟨rfl, rfl⟩⟩⟩⟩, ?_⟩
    exact pure_returns.mpr ⟨hlisted.symm, rfl⟩
  | own node =>
    have hdir : node.isDirectory = true := entry_isDirectory.mp (Option.some.inj hshows)
    dsimp only
    rw [if_pos hdir]
    exact bind_returns.mpr ⟨_, m, bind_returns.mpr ⟨_, m, hlocated, bind_returns.mpr
      ⟨node, m, pure_returns.mpr ⟨rfl, rfl⟩, hlisting hdir⟩⟩, pure_returns.mpr ⟨rfl, rfl⟩⟩
  | shared node mount atMount =>
    have hdir : node.isDirectory = true := entry_isDirectory.mp (Option.some.inj hshows)
    dsimp only
    rw [if_pos hdir]
    refine bind_returns.mpr ⟨_, m, bind_returns.mpr ⟨_, m, hlocated, bind_returns.mpr
      ⟨_, m, pure_returns.mpr ⟨rfl, rfl⟩, ?_⟩⟩, pure_returns.mpr ⟨rfl, rfl⟩⟩
    -- a mount goes by another name, and is the folder it was
    cases atMount with
    | true => exact @hlisting { node with name := mount.mountName } hdir
    | false => exact hlisting hdir

include hroot in
/-- **The loop**, over requests that are all answered. -/
theorem walkFrom_returns (hash : ShelfHash) (hfree : Unreserved m.toStore root) :
    ∀ (turns : Nat) (pending : List (Option RelPath)) (snapshot : Snapshot),
      (∀ d ∈ pending, Listable m.toStore tagText caller root d) →
        (Sync.Remote.walkFrom (remoteList hash tagText caller quota) turns pending snapshot).Returns m
          (Sync.Remote.turnsOf (m.answers tagText caller root) turns pending snapshot) m := by
  intro turns
  induction turns with
  | zero =>
    intro pending snapshot _
    cases pending <;> exact pure_returns.mpr ⟨rfl, rfl⟩
  | succ turns ih =>
    intro pending snapshot hpending
    cases pending with
    | nil => exact pure_returns.mpr ⟨rfl, rfl⟩
    | cons d pending =>
      have hlist : (remoteList hash tagText caller quota d).Returns m
          (m.answers tagText caller root d) m := by
        cases d with
        | none => exact remoteList_root hash tagText hroot
        | some p => exact remoteList_folder hroot hash (hpending (some p) List.mem_cons_self p rfl)
      refine bind_returns.mpr ⟨_, m, hlist, ih _ _ fun c hc => ?_⟩
      rw [Sync.Remote.note_eq] at hc
      rcases List.mem_append.mp hc with hc | hc
      · exact listable_of_inside hfree (hpending d List.mem_cons_self)
          (Sync.Remote.mem_directoriesOf.mp (List.mem_reverse.mp hc))
      · exact hpending c (List.mem_cons_of_mem _ hc)

/-- The root that was looked up has the shelf's name free where the root there was has. -/
theorem unreserved_of_opens (hroot : (ensureRoot caller.id quota).Returns db root m)
    (hfree : ∀ root, db.rootOf caller.id = some root → Unreserved db.toStore root) :
    Unreserved m.toStore root := by
  have hopens := opens_ensureRoot hroot
  show m.child root.id sharedWithMe = none
  rw [hopens.child]
  obtain ⟨-, -, -, -, ⟨hold, -⟩ | ⟨-, hins, -, -⟩⟩ := ensureRoot_returns hroot
  · exact hfree root hold
  · -- nothing is in a root that is new
    cases hchild : db.child root.id sharedWithMe with
    | none => rfl
    | some row =>
      obtain ⟨hmem, hp, -, -⟩ := child_eq_some hchild
      have hheld := (db.sound .nodesForeign row hmem).2.1 root.id hp
      rw [(Table.insert_eq_some hins).1] at hheld
      cases hheld

/-- **The client is listed exactly what its paths lead to.** After every run, an account that walks
its listing, with nothing else going on, comes to an end, and has each path at which `locate` finds
something, but for a shelf with nothing mounted, with what it finds there, and no other. -/
theorem walk_exact (h : Reached db) (huser : (db.users.find caller.id).isSome = true)
    (hquota : 0 < quota)
    (hfree : ∀ root, db.rootOf caller.id = some root → Unreserved db.toStore root) :
    ∃ turns snapshot m, (∀ more, (Sync.Remote.walk (remoteList hash tagText caller quota)
        (turns + more)).Returns db (some snapshot) m) ∧
      Opens caller.id db.toStore m.toStore ∧ snapshot.TreeShaped ∧
      ∀ p e, snapshot.get p = some e ↔ ∃ place,
        (locate caller (namesOf p) quota).Returns m place m ∧
          place.shows m.toStore tagText caller = some e := by
  obtain ⟨root, m, hroot⟩ := ensureRoot_succeeds huser hquota
  have hw : WellFormed m.nodes := (ensureRoot_sane h.sane hroot).forest
  have hfree' := unreserved_of_opens hroot hfree
  have hagain : (ensureRoot caller.id quota).Returns m root m := ensureRoot_again hroot
  have htree : Sync.Remote.Tree (m.answers tagText caller root) := tree_answers hfree'
  obtain ⟨turns, snapshot, hwalk, hget⟩ :=
    Sync.Remote.walk_spec htree (acc_none hw hfree')
  refine ⟨turns + 1, snapshot, m, fun more => ?_, opens_ensureRoot hroot,
    Sync.Remote.treeShaped_of_gathered htree hget, fun p e => ?_⟩
  · -- the first request makes the root, the others find it
    have hnone : ∀ d ∈ [none], Listable m.toStore tagText caller root d := by
      intro d hd q hq
      rw [List.mem_singleton.mp hd] at hq
      cases hq
    have hturns : turns + 1 + more = turns + more + 1 := by omega
    have hrun := walkFrom_returns hagain hash hfree' (turns + more + 1) [none] OrdMap.empty hnone
    have hsame := hwalk (more + 1)
    rw [show turns + (more + 1) = turns + more + 1 from rfl] at hsame
    rw [hturns]
    obtain ⟨listed, m₁, hlist, hrest⟩ := bind_returns.mp hrun
    obtain ⟨rfl, rfl⟩ := (remoteList_root hash tagText hagain).unique hlist
    refine bind_returns.mpr ⟨_, m, remoteList_root hash tagText hroot, ?_⟩
    rw [← hsame]
    exact hrest
  · rw [hget, gathered_iff_stands hagain hw hfree']
    unfold Store.standsAt
    rw [Option.bind_eq_some_iff]
    refine exists_congr fun place => and_congr_left fun _ => ?_
    rw [locate_returns_iff hagain]
    exact (and_iff_left rfl).symm

/-- An account with a file and a folder, and nothing on its shelf. -/
theorem walk_exact_written : ∃ turns snapshot m,
    (∀ more, (Sync.Remote.walk (remoteList ⟨fun k => k, fun _ => .directory 0⟩ (fun _ => []) adasUser 100)
      (turns + more)).Returns written (some snapshot) m) ∧
      Opens 1 written.toStore m.toStore ∧ snapshot.TreeShaped ∧
      ∀ p e, snapshot.get p = some e ↔ ∃ place,
        (locate adasUser (namesOf p) 100).Returns m place m ∧
          place.shows m.toStore (fun _ => []) adasUser = some e := by
  have huser : (written.users.find adasUser.id).isSome = true := by decide +kernel
  have hquota : (0 : Int) < 100 := by decide
  refine walk_exact reached_written huser hquota fun root hroot => ?_
  have hada : written.rootOf adasUser.id = some adasRoot := by decide +kernel
  rw [hada] at hroot
  rw [← Option.some.inj hroot]
  show written.child adasRoot.id sharedWithMe = none
  decide +kernel

end Standing

end Answers

end Stashden.Api
