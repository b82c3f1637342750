import Stashden.Api.Confined
import Stashden.Api.Mounts
import Stashden.Api.Search

/-!
# What a search finds (`by_name` in `api/src/search.rs`)

The query walks down from every mount (`shared`), keeps the nearest mount of each node, matches names,
and climbs from each hit it shows to the mount, or to the root of the caller (`lineage`), for its path.
`search_exact` says that the paths are those `locate` resolves, each to the very node it stands with,
and that the pages together list what the caller is admitted to, once.

The trail of a row keeps the recursions off cycles (`CYCLE id`). In a forest there are none, so a trail
never grows as long as the table, and neither recursion stops short (`Trailing`, `Walking`).
-/

namespace Stashden.Api

open Lib Like Stashden.Core Tx

/-! ## The query -/

/-- How the database folds the case of text, and orders it. -/
structure Collation where
  lower : Char → Char
  le : Str → Str → Bool
  wild : ∀ c ∈ ['\\', '%', '_'], ∀ d, lower d = c ↔ d = c

/-- `name ILIKE pattern ESCAPE '\'`. -/
def Collation.ilike (collation : Collation) (name pattern : Str) : Bool :=
  like (pattern.map collation.lower) (name.map collation.lower) = some true

/-- A row of `shared`, with its `trail`. -/
structure Walked where
  mountId : Uuid
  id : Uuid
  depth : Nat
  trail : List Uuid
  deriving DecidableEq

/-- A row of `matched`: a node, and the mount it was found through. -/
abbrev Match := Node × Option Uuid

/-- `Hit`. -/
structure Hit where
  node : Node
  path : Str
  deriving DecidableEq

def DEFAULT_LIMIT : Int := 50

def MAX_LIMIT : Int := 200

namespace Store

/-- What the recursive term of `shared` joins a row with. -/
def below (s : Store) (row : Walked) : List Walked :=
  if row.id ∈ row.trail then []
  else (s.childrenIn row.id).map fun below =>
    ⟨row.mountId, below.id, row.depth + 1, row.id :: row.trail⟩

/-- The rows of `shared` at one depth. -/
def level (s : Store) (grantee : Str) : Nat → List Walked
  | 0 => (s.mountsOf grantee).map fun top => ⟨top.2.id, top.2.id, 0, []⟩
  | depth + 1 => (s.level grantee depth).flatMap s.below

/-- `shared`. -/
def shared (s : Store) (grantee : Str) : List Walked :=
  (List.range (s.nodes.rows.length + 1)).flatMap (s.level grantee)

/-- `nearest`. -/
def nearest (s : Store) (grantee : Str) : List Walked :=
  ((s.shared grantee).map Walked.id).dedup.filterMap fun id =>
    ((s.shared grantee).filter (·.id = id)).argmin Walked.depth

variable (s : Store) (collation : Collation) (caller : User) (escaped : Str)

/-- `matched`. -/
def matched : List Match :=
  (s.nodes.select fun n => n.ownerId = caller.id && n.live && n.parentId.isSome &&
    collation.ilike n.name ("%".toList ++ escaped ++ "%".toList)).map (·, none) ++
  (s.nearest caller.email).filterMap fun row =>
    ((s.nodes.find row.id).filter fun n => n.ownerId ≠ caller.id &&
      collation.ilike n.name ("%".toList ++ escaped ++ "%".toList)).map (·, some row.mountId)

/-- `ORDER BY (name ILIKE $3 || '%' ESCAPE '\') DESC, lower(name), id`. -/
def comesFirst (collation : Collation) (escaped : Str) (a b : Match) : Bool :=
  let starts (n : Node) := collation.ilike n.name (escaped ++ "%".toList)
  if starts a.1 ≠ starts b.1 then starts a.1
  else if a.1.name.map collation.lower ≠ b.1.name.map collation.lower then
    collation.le (a.1.name.map collation.lower) (b.1.name.map collation.lower)
  else decide (a.1.id ≤ b.1.id)

/-- What the recursive term of `lineage` joins a row with. -/
def above (callerId : Uuid) (mountId : Option Uuid) (trail : List Uuid) (node : Node) :
    Option Node :=
  if node.id ∈ trail ∨ mountId = some node.id then none
  else (node.parentId.bind s.nodes.find).filter fun above =>
    above.parentId.isSome && (mountId.isSome || above.ownerId = callerId)

/-- `lineage` of one node, from the node up. -/
def lineage (callerId : Uuid) (mountId : Option Uuid) : Nat → List Uuid → Node → List Node
  | 0, _, node => [node]
  | rounds + 1, trail, node =>
    node :: (s.above callerId mountId trail node).elim [] (lineage callerId mountId rounds
      (node.id :: trail))

/-- `string_agg(name, '/' ORDER BY climbed DESC)`. -/
def joined (climbed : List Node) : Option Str :=
  if climbed = [] then none else some (['/'].intercalate (climbed.map Node.name).reverse)

/-- `mount_name` of the mount a row was found through. -/
def mountNameOf (mountId : Uuid) : Option Str :=
  ((s.mountsOf caller.email).find? fun top => top.2.id = mountId).map fun top => top.1.mountName

/-- What is answered of a row. -/
def hit (row : Match) : Hit :=
  let climbed := s.lineage caller.id row.2 s.nodes.rows.length [] row.1
  match row.2 with
  | none => ⟨row.1, (joined climbed).getD []⟩
  | some mountId =>
    ⟨if row.1.id = mountId then { row.1 with name := (s.mountNameOf caller mountId).getD row.1.name }
        else row.1,
      ['/'].intercalate (sharedWithMe :: ((s.mountNameOf caller mountId).toList ++
        (joined (climbed.filter fun n => n.id ≠ mountId)).toList))⟩

/-- The rows of `found`, and what is answered of them. -/
def page (limit offset : Int) : List Hit :=
  ((((s.matched collation caller escaped).mergeSort (comesFirst collation escaped)).drop
    (max offset 0).toNat).take (min (max limit 1) MAX_LIMIT).toNat).map (s.hit caller)

end Store

/-- `by_name`. -/
def byName (collation : Collation) (caller : User) (query : Str) (limit offset : Int) :
    Tx (List Hit) :=
  if trim query = [] then fail (.wrongKind "search term")
  else Tx.query fun s => s.page collation caller (likeEscape (trim query)) limit offset

/-- `GET /v1/search`. -/
def search (collation : Collation) (caller : User) (query : Str) (limit offset : Option Int) :
    Tx (List Hit) :=
  byName collation caller query (limit.getD DEFAULT_LIMIT) (offset.getD 0)

variable {s : Store} {db db' m : Db} {grantee str q : Str} {g : Grant} {node root row top : Node}
  {caller : User} {collation : Collation} {names : List NodeName} {quota : Int} {walked w : Walked}
  {ownerId id callerId : Uuid} {mountId : Option Uuid} {trail : List Uuid} {rounds : Nat}

/-! ## Names that match -/

/-- What is literal stays literal when its case is folded. -/
theorem map_lower_likeEscape :
    (likeEscape q).map collation.lower = likeEscape (q.map collation.lower) := by
  have hone : ∀ c d : Char, c ∈ ['\\', '%', '_'] → (collation.lower d = c ↔ d = c) :=
    fun c d hc => collation.wild c hc d
  unfold likeEscape
  rw [List.map_flatMap, List.flatMap_map]
  refine List.flatMap_congr fun c _ => ?_
  simp only [hone '\\' c (by decide), hone '%' c (by decide), hone '_' c (by decide)]
  split_ifs
  · rw [List.map_cons, (hone '\\' '\\' (by decide)).mpr rfl]
    rfl
  · rfl

/-- **A name matches** where it contains the query, whatever the case of either. -/
theorem ilike_iff : collation.ilike str ("%".toList ++ likeEscape q ++ "%".toList) = true ↔
    q.map collation.lower <:+: str.map collation.lower := by
  have hwild : ("%".toList).map collation.lower = "%".toList := by
    show [collation.lower '%'] = ['%']
    rw [(collation.wild '%' (by decide) '%').mpr rfl]
  unfold Collation.ilike
  rw [List.map_append, List.map_append, hwild, map_lower_likeEscape, (likeEscape_literal _ _).1,
    decide_eq_true_eq, Option.some.injEq, decide_eq_true_eq]

/-! ## Trails -/

/-- Nodes a recursion has come through: all different, none of them the one it is at, and with rounds
left for all others. -/
structure Trailing (s : Store) (id : Uuid) (trail : List Uuid) (rounds : Nat) : Prop where
  nodup : trail.Nodup
  rows : ∀ t ∈ trail, (s.nodes.find t).isSome = true
  fresh : id ∉ trail
  left : s.nodes.rows.length ≤ trail.length + rounds

theorem trailing_start (s : Store) (id : Uuid) : Trailing s id [] s.nodes.rows.length :=
  ⟨List.nodup_nil, fun _ h => absurd h List.not_mem_nil, List.not_mem_nil, by simp⟩

/-- A recursion that is at a node has a round left. -/
theorem Trailing.rounds_pos (h : Trailing s id trail rounds) (hid : (s.nodes.find id).isSome = true) :
    ∃ left, rounds = left + 1 := by
  have hsub : id :: trail ⊆ s.nodes.rows.map Node.id := by
    intro t ht
    have hrow : (s.nodes.find t).isSome = true := by
      rcases List.mem_cons.mp ht with rfl | ht
      · exact hid
      · exact h.rows t ht
    obtain ⟨row, hrow⟩ := Option.isSome_iff_exists.mp hrow
    exact List.mem_map.mpr ⟨row, Table.find_mem hrow, Table.find_key hrow⟩
  have hlen := ((List.nodup_cons.mpr ⟨h.fresh, h.nodup⟩).subperm hsub).length_le
  rw [List.length_cons, List.length_map] at hlen
  have hleft := h.left
  exact ⟨rounds - 1, by omega⟩

/-- It goes on to a node it has not come through. -/
theorem Trailing.go (h : Trailing s id trail (rounds + 1)) (hid : (s.nodes.find id).isSome = true)
    {next : Uuid} (hne : next ≠ id) (hfresh : next ∉ trail) :
    Trailing s next (id :: trail) rounds where
  nodup := List.nodup_cons.mpr ⟨h.fresh, h.nodup⟩
  rows t ht := by
    rcases List.mem_cons.mp ht with rfl | ht
    · exact hid
    · exact h.rows t ht
  fresh hmem := (List.mem_cons.mp hmem).elim hne hfresh
  left := by
    have hleft := h.left
    rw [List.length_cons]
    omega

/-! ## Down from the mounts -/

/-- A row of `shared` stands for a node that is granted, below all of its trail. -/
structure Walking (s : Store) (grantee : Str) (depth : Nat) (w : Walked) : Prop where
  node : ∃ g node, s.Granted grantee g node ∧ node.id = w.id ∧ g.nodeId = w.mountId
  trailing : Trailing s w.id w.trail (s.nodes.rows.length - depth)
  above : ∀ t ∈ w.trail, AtOrBelow s.nodes w.id t
  depth : w.trail.length = depth

theorem walking_of_level (hw : WellFormed s.nodes) {depth : Nat}
    (h : w ∈ s.level grantee depth) : Walking s grantee depth w := by
  induction depth generalizing w with
  | zero =>
    obtain ⟨top, htop, rfl⟩ := List.mem_map.mp h
    obtain ⟨g, hg, hid, -⟩ := mem_mountsOf.mp htop
    exact ⟨⟨g, top.2, hg, rfl, hid⟩, trailing_start s _, fun _ ht => absurd ht List.not_mem_nil, rfl⟩
  | succ depth ih =>
    obtain ⟨row, hrow, hbelow⟩ := List.mem_flatMap.mp h
    obtain ⟨⟨g, node, hg, hid, hmount⟩, htrail, habove, hdepth⟩ := ih hrow
    have hnode : (s.nodes.find row.id).isSome = true := by
      rw [← hid, Table.mem_iff_find.mp hg.row]
      rfl
    unfold Store.below at hbelow
    rw [if_neg htrail.fresh] at hbelow
    obtain ⟨child, hchild, rfl⟩ := List.mem_map.mp hbelow
    obtain ⟨hmem, hjoin⟩ := Table.mem_select.mp hchild
    rw [Bool.and_eq_true, decide_eq_true_eq, ← hid] at hjoin
    have hup : parentOf s.nodes child.id = some node.id := (parentOf_of_mem hmem).trans hjoin.1
    have hnot := (hw.grounded child.id).not_up_parent hup
    obtain ⟨left, hleft⟩ := htrail.rounds_pos hnode
    rw [hleft] at htrail
    have hrounds : left = s.nodes.rows.length - (depth + 1) := by omega
    refine ⟨⟨g, child, ⟨hg.grant, hg.address, hg.top, hmem,
      .head ⟨liveAt_of_mem hmem hjoin.2, hup⟩ hg.below⟩, rfl, hmount⟩, ?_, fun t ht => ?_, ?_⟩
    · rw [← hrounds]
      refine htrail.go hnode (fun heq => hnot ?_) fun ht => hnot (hid ▸ habove _ ht)
      have hsame : child.id = node.id := heq.trans hid.symm
      rw [hsame]
      exact .refl
    · rw [← hid] at ht habove
      rcases List.mem_cons.mp ht with rfl | ht
      · exact .single hup
      · exact (habove t ht).head hup
    · rw [List.length_cons, hdepth]

theorem Walking.lt {depth : Nat} (h : Walking s grantee depth w) : depth < s.nodes.rows.length := by
  obtain ⟨g, node, hg, hid, -⟩ := h.node
  obtain ⟨left, hleft⟩ := h.trailing.rounds_pos (by rw [← hid, Table.mem_iff_find.mp hg.row]; rfl)
  omega

/-- **Every node that is granted is come upon**, through that grant. -/
theorem exists_shared (hw : WellFormed s.nodes) (h : s.Granted grantee g node) :
    ∃ w ∈ s.shared grantee, w.id = node.id ∧ w.mountId = g.nodeId := by
  suffices key : ∃ depth, ∃ w ∈ s.level grantee depth, w.id = node.id ∧ w.mountId = g.nodeId by
    obtain ⟨depth, w, hlevel, hsame⟩ := key
    have hlt := (walking_of_level hw hlevel).lt
    exact ⟨w, List.mem_flatMap.mpr ⟨depth, List.mem_range.mpr (by omega), hlevel⟩, hsame⟩
  -- from the mount down, one level after the other
  have hbelow := h.below
  generalize node.id = id at hbelow
  induction hbelow using Relation.ReflTransGen.head_induction_on with
  | refl =>
    obtain ⟨top, hfind, hlive⟩ := h.top
    have hid : top.id = g.nodeId := Table.find_key hfind
    have htop : s.Granted grantee g top :=
      ⟨h.grant, h.address, h.top, Table.find_mem hfind, by rw [hid]; exact .refl⟩
    exact ⟨0, _, List.mem_map.mpr ⟨(⟨g.id, top.id, g.access, g.mountName⟩, top),
      mem_mountsOf.mpr ⟨g, htop, hid.symm, rfl⟩, rfl⟩, hid, hid⟩
  | @head id p hlink _ ih =>
    obtain ⟨⟨row, hrow, hlive⟩, hp⟩ := hlink
    obtain ⟨depth, w, hlevel, rfl, hmount⟩ := ih
    have hwalking := walking_of_level hw hlevel
    have hkey : row.id = id := Table.find_key hrow
    rw [parentOf_of_find hrow] at hp
    refine ⟨depth + 1, ⟨w.mountId, row.id, w.depth + 1, w.id :: w.trail⟩,
      List.mem_flatMap.mpr ⟨w, hlevel, ?_⟩, hkey, hmount⟩
    unfold Store.below
    rw [if_neg hwalking.trailing.fresh]
    refine List.mem_map.mpr ⟨row, Table.mem_select.mpr ⟨Table.find_mem hrow, ?_⟩, rfl⟩
    rw [hp, hlive, decide_eq_true rfl]
    rfl

/-- **`nearest`** has one row for each node that is granted, of a grant it was come upon through. -/
theorem mem_nearest (hw : WellFormed s.nodes) (h : w ∈ s.nearest grantee) :
    ∃ g node, s.Granted grantee g node ∧ node.id = w.id ∧ g.nodeId = w.mountId := by
  obtain ⟨id, -, hmin⟩ := List.mem_filterMap.mp h
  have hmem := (List.mem_filter.mp (List.argmin_mem hmin)).1
  obtain ⟨depth, -, hlevel⟩ := List.mem_flatMap.mp hmem
  exact (walking_of_level hw hlevel).node

theorem exists_nearest (hw : WellFormed s.nodes) (h : s.Granted grantee g node) :
    ∃ w ∈ s.nearest grantee, w.id = node.id := by
  obtain ⟨w, hmem, hid, -⟩ := exists_shared hw h
  have hrow : w ∈ (s.shared grantee).filter (·.id = node.id) :=
    List.mem_filter.mpr ⟨hmem, decide_eq_true hid⟩
  cases hmin : ((s.shared grantee).filter (·.id = node.id)).argmin Walked.depth with
  | none =>
    rw [List.argmin_eq_none] at hmin
    rw [hmin] at hrow
    exact absurd hrow List.not_mem_nil
  | some found =>
    have hfound := (List.mem_filter.mp (List.argmin_mem hmin)).2
    refine ⟨found, List.mem_filterMap.mpr ⟨node.id, List.mem_dedup.mpr ?_, hmin⟩,
      of_decide_eq_true hfound⟩
    exact List.mem_map.mpr ⟨w, hmem, hid⟩

theorem nearest_nodup : ((s.nearest grantee).map Walked.id).Nodup := by
  unfold Store.nearest
  rw [List.map_filterMap]
  have hsame : ∀ id w, (((s.shared grantee).filter (·.id = id)).argmin Walked.depth).map
      Walked.id = some w → w = id := by
    intro id k h
    obtain ⟨w, hmin, rfl⟩ := Option.map_eq_some_iff.mp h
    exact of_decide_eq_true (List.mem_filter.mp (List.argmin_mem hmin)).2
  refine List.Nodup.filterMap (fun a b c ha hb => ?_) (List.nodup_dedup _)
  exact (hsame a c ha).symm.trans (hsame b c hb)

/-! ## Up to the mount, or to the root -/

theorem child_self (hnode : node ∈ db.nodes.rows) (hlive : node.live = true)
    (hp : node.parentId = some id) : db.child id node.name = some node := by
  refine child_iff.mpr ⟨Table.mem_select.mpr ⟨hnode, ?_⟩, rfl⟩
  rw [hp, hlive, decide_eq_true rfl]
  rfl

/-- One more name down. -/
theorem descend_name (h : db.descend root names = some top) (hnode : node ∈ db.nodes.rows)
    (hlive : node.live = true) (hp : node.parentId = some top.id)
    (hname : NodeName.check node.name = none) :
    db.descend root (names ++ [⟨node.name, hname⟩]) = some node := by
  rw [descend_concat, h, Option.bind_some]
  exact child_self hnode hlive hp

/-- A climb that goes on, or stops at what has no row to show. -/
theorem lineage_step {rounds : Nat} (hw : WellFormed s.nodes) (hnode : node ∈ s.nodes.rows)
    (htrail : Trailing s node.id trail rounds) (hbelow : ∀ t ∈ trail, AtOrBelow s.nodes t node.id)
    (hp : node.parentId = some top.id) :
    ∃ left, rounds = left + 1 ∧ Trailing s top.id (node.id :: trail) left ∧
      ∀ t ∈ node.id :: trail, AtOrBelow s.nodes t top.id := by
  have hfind := Table.mem_iff_find.mp hnode
  have hrow : (s.nodes.find node.id).isSome = true := by rw [hfind]; rfl
  have hup : parentOf s.nodes node.id = some top.id := (parentOf_of_find hfind).trans hp
  have hnot := (hw.grounded node.id).not_up_parent hup
  obtain ⟨left, rfl⟩ := htrail.rounds_pos hrow
  refine ⟨left, rfl, htrail.go hrow (fun heq => hnot (by rw [heq]; exact .refl))
    fun ht => hnot (hbelow _ ht), fun t ht => ?_⟩
  rcases List.mem_cons.mp ht with rfl | ht
  · exact .single hup
  · exact (hbelow t ht).tail hup

/-- **A climb to a mount** says the names below it. -/
theorem lineage_shared (hw : WellFormed db.nodes) (hn : Named db.nodes)
    (htop : db.nodes.find g.nodeId = some top) (hg : db.Granted grantee g node)
    (htrail : Trailing db.toStore node.id trail rounds)
    (hbelow : ∀ t ∈ trail, AtOrBelow db.nodes t node.id) :
    ∃ names, db.descend top names = some node ∧
      (((db.lineage callerId (some g.nodeId) rounds trail node).filter
        fun n => n.id ≠ g.nodeId).map Node.name).reverse = names.map NodeName.str := by
  have hkey : top.id = g.nodeId := Table.find_key htop
  have hlink := hg.below
  generalize hid : node.id = id at hlink
  induction hlink using Relation.ReflTransGen.head_induction_on generalizing node trail rounds with
  | refl =>
    have hsame : node = top := Table.eq_of_key hg.row (Table.find_mem htop) (hid.trans hkey.symm)
    subst hsame
    refine ⟨[], rfl, ?_⟩
    obtain ⟨left, rfl⟩ := htrail.rounds_pos (by rw [hid, htop]; rfl)
    unfold Store.lineage Store.above
    rw [if_pos (Or.inr (congrArg some hid.symm)), Option.elim_none, List.filter_singleton, hid]
    simp
  | @head id p hstep hrest ih =>
    subst hid
    obtain ⟨⟨row, hrow, hlive⟩, hp⟩ := hstep
    have hfind := Table.mem_iff_find.mp hg.row
    rw [hfind] at hrow
    cases hrow
    have hup := hp
    rw [parentOf_of_find hfind] at hp
    obtain ⟨above, habove, -, -, hlives⟩ := hw.parent hfind hp
    have hkey' : above.id = p := Table.find_key habove
    subst hkey'
    have hname := hn hfind (by rw [hp]; exact Option.some_ne_none _)
    have hne : node.id ≠ g.nodeId := fun heq =>
      (hw.grounded node.id).not_up_parent hup (by rw [heq]; exact LiveBelow.atOrBelow hrest)
    have hgranted : db.Granted grantee g above :=
      ⟨hg.grant, hg.address, hg.top, Table.find_mem habove, hrest⟩
    obtain ⟨left, rfl, hgo, hgone⟩ := lineage_step hw hg.row htrail hbelow hp
    have hjoin : node.parentId.bind db.nodes.find = some above := by
      rw [hp, Option.bind_some, habove]
    unfold Store.lineage Store.above
    rw [if_neg (not_or.mpr ⟨htrail.fresh, fun heq => hne (Option.some.inj heq).symm⟩), hjoin,
      Option.filter_some]
    by_cases hroot : above.parentId = none
    · -- a root is the mount itself, which is not shown
      have hmount : above.id = g.nodeId :=
        (LiveBelow.atOrBelow hrest).eq_of_none ((parentOf_of_find habove).trans hroot)
      have hsame : top = above :=
        Table.eq_of_key (Table.find_mem htop) (Table.find_mem habove) (hkey.trans hmount.symm)
      have hstart : db.descend top [] = some above := congrArg some hsame
      refine ⟨[] ++ [⟨node.name, hname⟩], descend_name hstart hg.row hlive hp hname, ?_⟩
      rw [hroot, if_neg (by simp), Option.elim_none, List.filter_singleton, decide_eq_true hne]
      rfl
    · obtain ⟨names, hnames, hclimb⟩ := ih hgranted hgo hgone rfl
      refine ⟨names ++ [⟨node.name, hname⟩], descend_name hnames hg.row hlive hp hname, ?_⟩
      rw [if_pos (by simpa [Option.isSome_iff_ne_none] using hroot), Option.elim_some,
        List.filter_cons_of_pos (by simpa using hne), List.map_cons, List.reverse_cons, hclimb,
        List.map_append]
      rfl

/-- The names a climb found lead from the root of an account to a node. -/
def LeadsTo (db : Db) (callerId : Uuid) (node : Node) (climbed : List Node) : Prop :=
  ∃ root names, db.rootOf callerId = some root ∧ names ≠ [] ∧ db.descend root names = some node ∧
    (climbed.map Node.name).reverse = names.map NodeName.str

/-- **A climb without a mount** says the names below the root. -/
theorem lineage_own (hw : WellFormed db.nodes) (hn : Named db.nodes)
    (ho : db.Owned callerId node) (hchild : node.parentId ≠ none)
    (htrail : Trailing db.toStore node.id trail rounds)
    (hbelow : ∀ t ∈ trail, AtOrBelow db.nodes t node.id) :
    LeadsTo db callerId node (db.lineage callerId none rounds trail node) := by
  refine (hw.grounded node.id).induction (motive := fun start => ∀ node rounds trail,
    node.id = start → db.Owned callerId node → node.parentId ≠ none →
      Trailing db.toStore node.id trail rounds → (∀ t ∈ trail, AtOrBelow db.nodes t node.id) →
        LeadsTo db callerId node (db.lineage callerId none rounds trail node))
    ?_ ?_ node rounds trail rfl ho hchild htrail hbelow
  · intro x hx node rounds trail hid ho hchild
    rw [← hid, parentOf_of_mem ho.row] at hx
    exact absurd hx hchild
  · intro x y hxy ih node rounds trail hid ho hchild htrail hbelow
    subst hid
    rw [parentOf_of_mem ho.row] at hxy
    have hfind := Table.mem_iff_find.mp ho.row
    obtain ⟨above, habove, -, howner, hlives⟩ := hw.parent hfind hxy
    have hkey : above.id = y := Table.find_key habove
    subst hkey
    have hname := hn hfind hchild
    have hown : db.Owned callerId above :=
      ⟨Table.find_mem habove, hlives ho.live, howner.trans ho.owner⟩
    obtain ⟨left, rfl, hgo, hgone⟩ := lineage_step hw ho.row htrail hbelow hxy
    have hjoin : node.parentId.bind db.nodes.find = some above := by
      rw [hxy, Option.bind_some, habove]
    unfold Store.lineage Store.above
    rw [if_neg (not_or.mpr ⟨htrail.fresh, Option.some_ne_none _ ∘ Eq.symm⟩), hjoin,
      Option.filter_some]
    by_cases hroot : above.parentId = none
    · have hstart : db.descend above [] = some above := rfl
      refine ⟨above, [] ++ [⟨node.name, hname⟩], rootOf_eq habove hown.owner hroot hown.live,
        List.cons_ne_nil _ _, descend_name hstart ho.row ho.live hxy hname, ?_⟩
      rw [hroot, if_neg (by simp), Option.elim_none]
      rfl
    · obtain ⟨root, names, hrootOf, -, hnames, hclimb⟩ :=
        ih above _ _ rfl hown hroot hgo hgone
      refine ⟨root, names ++ [⟨node.name, hname⟩], hrootOf, List.append_ne_nil_of_right_ne_nil _
        (List.cons_ne_nil _ _), descend_name hnames ho.row ho.live hxy hname, ?_⟩
      have hjoins : above.parentId.isSome = true := Option.isSome_iff_ne_none.mpr hroot
      rw [if_pos (by rw [hjoins, hown.owner]; simp), Option.elim_some, List.map_cons,
        List.reverse_cons, hclimb, List.map_append]
      rfl

/-! ## The hits -/

/-- What a search looks through: the caller's nodes below its root, and the nodes of others that are
granted to it. -/
def Store.Searched (s : Store) (caller : User) (node : Node) : Prop :=
  s.Owned caller.id node ∧ node.parentId ≠ none ∨
    node.ownerId ≠ caller.id ∧ ∃ g, s.Granted caller.email g node

/-- A row of `matched` is what a search looks through, found through a grant where it is not the
caller's own. -/
theorem mem_matched (hw : WellFormed db.nodes) {row : Match}
    (h : row ∈ db.matched collation caller (likeEscape q)) :
    q.map collation.lower <:+: row.1.name.map collation.lower ∧
    (row.2 = none ∧ db.Owned caller.id row.1 ∧ row.1.parentId ≠ none ∨
      row.1.ownerId ≠ caller.id ∧ ∃ g, row.2 = some g.nodeId ∧ db.Granted caller.email g row.1) := by
  rcases List.mem_append.mp h with h | h
  · obtain ⟨node, hnode, rfl⟩ := List.mem_map.mp h
    obtain ⟨hmem, hp⟩ := Table.mem_select.mp hnode
    simp only [Bool.and_eq_true, decide_eq_true_eq, ilike_iff] at hp
    exact ⟨hp.2, Or.inl ⟨rfl, ⟨hmem, hp.1.1.2, hp.1.1.1⟩, Option.isSome_iff_ne_none.mp hp.1.2⟩⟩
  · obtain ⟨w, hwalked, hrow⟩ := List.mem_filterMap.mp h
    obtain ⟨node, hnode, rfl⟩ := Option.map_eq_some_iff.mp hrow
    obtain ⟨hfind, hp⟩ := Option.filter_eq_some_iff.mp hnode
    simp only [Bool.and_eq_true, decide_eq_true_eq, ilike_iff] at hp
    obtain ⟨g, granted, hg, hid, hmount⟩ := mem_nearest hw hwalked
    have hsame : granted = node :=
      Table.eq_of_key hg.row (Table.find_mem hfind) (hid.trans (Table.find_key hfind).symm)
    exact ⟨hp.2, Or.inr ⟨hp.1, g, by rw [hmount], hsame ▸ hg⟩⟩

theorem exists_matched (hw : WellFormed db.nodes) (h : db.Searched caller node)
    (hname : q.map collation.lower <:+: node.name.map collation.lower) :
    ∃ row ∈ db.matched collation caller (likeEscape q), row.1.id = node.id := by
  rcases h with ⟨ho, hchild⟩ | ⟨hother, g, hg⟩
  · refine ⟨(node, none), List.mem_append_left _ (List.mem_map.mpr ⟨node,
      Table.mem_select.mpr ⟨ho.row, ?_⟩, rfl⟩), rfl⟩
    simp only [Bool.and_eq_true, decide_eq_true_eq, ilike_iff]
    exact ⟨⟨⟨ho.owner, ho.live⟩, Option.isSome_iff_ne_none.mpr hchild⟩, hname⟩
  · obtain ⟨w, hwalked, hid⟩ := exists_nearest hw hg
    refine ⟨(node, some w.mountId), List.mem_append_right _ (List.mem_filterMap.mpr ⟨w, hwalked,
      Option.map_eq_some_iff.mpr ⟨node, Option.filter_eq_some_iff.mpr ⟨?_, ?_⟩, rfl⟩⟩), rfl⟩
    · rw [hid]
      exact Table.mem_iff_find.mp hg.row
    · simp only [Bool.and_eq_true, decide_eq_true_eq, ilike_iff]
      exact ⟨hother, hname⟩

theorem matched_nodup :
    ((db.matched collation caller (likeEscape q)).map fun row => row.1.id).Nodup := by
  have hshared : (fun row : Walked => (((db.nodes.find row.id).filter fun n =>
      n.ownerId ≠ caller.id && collation.ilike n.name ("%".toList ++ likeEscape q ++ "%".toList)).map
        (·, some row.mountId)).map fun m : Match => m.1.id) =
      (fun id => ((db.nodes.find id).filter fun n => n.ownerId ≠ caller.id &&
        collation.ilike n.name ("%".toList ++ likeEscape q ++ "%".toList)).map Node.id) ∘
          Walked.id := by
    funext row
    rw [Option.map_map]
    rfl
  unfold Store.matched
  rw [List.map_append, List.map_map, List.map_filterMap, hshared, ← List.filterMap_map]
  refine List.Nodup.append ?_ ?_ ?_
  · exact (List.Nodup.filter _ db.nodes.nodup.of_map).map_on fun a ha b hb hid =>
      Table.eq_of_key (List.mem_filter.mp ha).1 (List.mem_filter.mp hb).1 hid
  · refine List.Nodup.filterMap (fun a b c ha hb => ?_) nearest_nodup
    obtain ⟨n, hn, rfl⟩ := Option.map_eq_some_iff.mp ha
    obtain ⟨k, hk, hid⟩ := Option.map_eq_some_iff.mp hb
    rw [← Table.find_key (Option.filter_eq_some_iff.mp hn).1,
      ← Table.find_key (Option.filter_eq_some_iff.mp hk).1, hid]
  · intro id hown hother
    obtain ⟨n, hn, rfl⟩ := List.mem_map.mp hown
    obtain ⟨hmem, hp⟩ := Table.mem_select.mp hn
    obtain ⟨k, -, hk⟩ := List.mem_filterMap.mp hother
    obtain ⟨row, hrow, hid⟩ := Option.map_eq_some_iff.mp hk
    obtain ⟨hfind, hq⟩ := Option.filter_eq_some_iff.mp hrow
    have hsame : row = n := Table.eq_of_key (Table.find_mem hfind) hmem hid
    simp only [Bool.and_eq_true, decide_eq_true_eq] at hp hq
    exact hq.1 (hsame ▸ hp.1.1.1)

/-! ## Their paths -/

theorem parsePath_names (h : names ≠ []) :
    parsePath (['/'].intercalate (names.map NodeName.str)) = .ok names := by
  have hsplit := splitOn_intercalate_names h
  obtain ⟨parsed, hparse, hstr⟩ := parsePath_of_segments
    (s := ['/'].intercalate (names.map NodeName.str)) fun seg hseg => by
      rw [hsplit] at hseg
      obtain ⟨name, -, rfl⟩ := List.mem_map.mp hseg
      exact name.valid
  rw [hparse, List.map_injective_iff.mpr str_injective (hstr.trans hsplit)]

/-- The name of a mount, looked up by its node. -/
theorem mountNameOf_eq (hg : db.Granted caller.email g node) :
    db.mountNameOf caller g.nodeId = some g.mountName := by
  obtain ⟨top, hfind, hlive⟩ := hg.top
  have hid : top.id = g.nodeId := Table.find_key hfind
  have hmem : ((⟨g.id, top.id, g.access, g.mountName⟩, top) : Mount × Node) ∈
      db.mountsOf caller.email := mem_mountsOf.mpr ⟨g, ⟨hg.grant, hg.address, hg.top,
        Table.find_mem hfind, by rw [hid]; exact .refl⟩, hid.symm, rfl⟩
  unfold Store.mountNameOf
  cases hfound : (db.mountsOf caller.email).find? fun top => top.2.id = g.nodeId with
  | none =>
    have hno := List.find?_eq_none.mp hfound _ hmem
    simp [hid] at hno
  | some found =>
    have hsame := List.find?_some hfound
    rw [decide_eq_true_eq] at hsame
    obtain ⟨k, hk, hkid, hmount⟩ := mem_mountsOf.mp (List.mem_of_find?_eq_some hfound)
    have hgrant := db.sound .grantsOncePerAddress k hk.grant g hg.grant (hkid.trans hsame)
      (hk.address.trans hg.address.symm)
    rw [Table.eq_of_key hk.grant hg.grant hgrant] at hmount
    rw [Option.map_some, hmount]

theorem hit_id (row : Match) : (db.hit caller row).node.id = row.1.id := by
  obtain ⟨node, mountId⟩ := row
  cases mountId with
  | none => rfl
  | some mountId =>
    unfold Store.hit
    dsimp only
    split_ifs <;> rfl

/-- **The path of a hit of one's own** is where `locate` finds it. -/
theorem hit_own (hs : Sane db.toStore)
    (hfree : ∀ root, db.rootOf caller.id = some root → Unreserved db.toStore root)
    (ho : db.Owned caller.id node) (hchild : node.parentId ≠ none) :
    ∃ names, parsePath (db.hit caller (node, none)).path = .ok names ∧
      (locate caller names quota >>= Place.intoNode).Returns db
        (db.hit caller (node, none)).node db := by
  obtain ⟨root, names, hroot, hne, hdown, hclimb⟩ := lineage_own hs.forest hs.named ho hchild
    (trailing_start db.toStore node.id) fun _ ht => absurd ht List.not_mem_nil
  have hsome : db.lineage caller.id none db.nodes.rows.length [] node ≠ [] := by
    intro hnil
    rw [hnil] at hclimb
    exact hne (List.map_eq_nil_iff.mp hclimb.symm)
  have hpath : (db.hit caller (node, none)).path = ['/'].intercalate (names.map NodeName.str) := by
    unfold Store.hit Store.joined
    dsimp only
    rw [if_neg hsome, Option.getD_some, hclimb]
  refine ⟨names, by rw [hpath]; exact parsePath_names hne, bind_returns.mpr
    ⟨.own node, db, (locate_returns_iff (ensureRoot_of_rooted hs hroot)).mpr ⟨?_, rfl⟩,
      pure_returns.mpr ⟨rfl, rfl⟩⟩⟩
  obtain ⟨first, rest, rfl⟩ := List.exists_cons_of_ne_nil hne
  obtain ⟨next, hnext, -⟩ := Option.bind_eq_some_iff.mp hdown
  have hshelf : isShelf first = false := by
    by_contra hshelf
    rw [Bool.not_eq_false, isShelf, decide_eq_true_eq] at hshelf
    have hnone : db.child root.id sharedWithMe = none := hfree root hroot
    rw [hshelf, hnone] at hnext
    cases hnext
  unfold Store.reach
  dsimp only
  rw [hshelf, if_neg Bool.false_ne_true, hdown]
  rfl

/-- **The path of a hit of somebody else's** goes through the mount it was found through. -/
theorem hit_shared (hs : Sane db.toStore) (hnamed : MountsNamed db.toStore)
    (hg : db.Granted caller.email g node) :
    ∃ names, parsePath (db.hit caller (node, some g.nodeId)).path = .ok names ∧
      (locate caller names quota >>= Place.intoNode).Returns db
        (db.hit caller (node, some g.nodeId)).node db := by
  obtain ⟨top, htop, -⟩ := id hg.top
  have hid : top.id = g.nodeId := Table.find_key htop
  have hmounted : db.Granted caller.email g top :=
    ⟨hg.grant, hg.address, hg.top, Table.find_mem htop, by rw [hid]; exact .refl⟩
  obtain ⟨names, hdown, hclimb⟩ : ∃ names, db.descend top names = some node ∧
      (((db.lineage caller.id (some g.nodeId) db.nodes.rows.length [] node).filter
        fun n => n.id ≠ g.nodeId).map Node.name).reverse = names.map NodeName.str :=
    lineage_shared hs.forest hs.named htop hg (trailing_start db.toStore node.id) fun _ ht =>
      absurd ht List.not_mem_nil
  let mountName : NodeName := ⟨g.mountName, hnamed g hg.grant⟩
  have hjoined : (Store.joined ((db.lineage caller.id (some g.nodeId) db.nodes.rows.length [] node).filter
      fun n => n.id ≠ g.nodeId)).toList =
        if names = [] then [] else [['/'].intercalate (names.map NodeName.str)] := by
    unfold Store.joined
    rw [hclimb]
    by_cases hnil : names = []
    · rw [hnil, List.map_nil, List.reverse_eq_nil_iff, List.map_eq_nil_iff] at hclimb
      rw [if_pos hclimb, if_pos hnil]
      rfl
    · have hsome : (db.lineage caller.id (some g.nodeId) db.nodes.rows.length [] node).filter
          (fun n => n.id ≠ g.nodeId) ≠ [] := by
        intro hempty
        rw [hempty] at hclimb
        exact hnil (List.map_eq_nil_iff.mp hclimb.symm)
      rw [if_neg hsome, if_neg hnil]
      rfl
  have hpath : (db.hit caller (node, some g.nodeId)).path =
      ['/'].intercalate ((shelfName :: mountName :: names).map NodeName.str) := by
    unfold Store.hit
    dsimp only
    rw [hjoined, mountNameOf_eq hg]
    cases names with
    | nil => rfl
    | cons name names =>
      rw [if_neg (List.cons_ne_nil _ _)]
      show ['/'].intercalate [sharedWithMe, g.mountName, _] =
        ['/'].intercalate (sharedWithMe :: g.mountName :: name.str :: names.map NodeName.str)
      rw [List.intercalate_cons_cons, List.intercalate_cons_cons, List.intercalate_singleton,
        List.intercalate_cons_cons, List.intercalate_cons_cons]
      rfl
  have hat : db.mountedAt caller.email mountName.str =
      some (⟨g.id, top.id, g.access, g.mountName⟩, top) :=
    mountedAt_iff.mpr ⟨mem_mountsOf.mpr ⟨g, hmounted, hid.symm, rfl⟩, rfl⟩
  have hlocated : (locate caller (shelfName :: mountName :: names) quota).Returns db
      (.shared node ⟨g.id, top.id, g.access, g.mountName⟩ names.isEmpty) db := by
    unfold locate
    dsimp only
    rw [if_pos (by decide)]
    exact bind_returns.mpr ⟨_, db, mount_returns_iff.mpr ⟨hat, rfl⟩, bind_returns.mpr
      ⟨node, db, resolve_returns_iff.mpr ⟨hdown, rfl⟩, pure_returns.mpr ⟨rfl, rfl⟩⟩⟩
  refine ⟨_, by rw [hpath]; exact parsePath_names (List.cons_ne_nil _ _),
    bind_returns.mpr ⟨_, db, hlocated, pure_returns.mpr ⟨?_, rfl⟩⟩⟩
  obtain ⟨k, hk, hmount, hatMount⟩ := locate_admitted hs.forest hlocated
  have hsame : top.id = k.nodeId := congrArg Mount.nodeId hmount
  unfold Store.hit
  dsimp only
  rw [mountNameOf_eq hg, Option.getD_some]
  by_cases hnil : names.isEmpty = true
  · rw [if_pos hnil, if_pos ((hatMount.mp hnil).trans (hsame.symm.trans hid))]
  · rw [if_neg hnil, if_neg fun heq => hnil (hatMount.mpr (heq.trans (hid.symm.trans hsame)))]

/-- **Search agrees with `locate`.** After every run that did not use its ids up, the pages of a
search cut up one list: each of its paths is parsed and located, for the same caller, to the very node
it stands with; no node is in it twice; and it has every node of the caller below its root, and every
node of others that is granted to the caller, whose name contains the query, and nothing else. -/
theorem search_exact (h : Reached db) (hids : db.next ≤ MAX_IDS) (hquery : trim q ≠ [])
    (hfree : ∀ root, db.rootOf caller.id = some root → Unreserved db.toStore root) :
    ∃ hits : List Hit,
      (∀ limit offset, (byName collation caller q limit offset).Returns db
        ((hits.drop (max offset 0).toNat).take (min (max limit 1) MAX_LIMIT).toNat) db) ∧
      (hits.map fun hit => hit.node.id).Nodup ∧
      (∀ hit ∈ hits, ∃ names, parsePath hit.path = .ok names ∧
        (locate caller names quota >>= Place.intoNode).Returns db hit.node db) ∧
      ∀ node ∈ db.nodes.rows, (∃ hit ∈ hits, hit.node.id = node.id) ↔
        db.Searched caller node ∧
          (trim q).map collation.lower <:+: node.name.map collation.lower := by
  have hw := h.sane.forest
  have hperm := List.mergeSort_perm (db.matched collation caller (likeEscape (trim q)))
    (Store.comesFirst collation (likeEscape (trim q)))
  have hids' : ∀ rows : List Match, (rows.map (db.hit caller)).map (fun hit => hit.node.id) =
      rows.map fun row => row.1.id := by
    intro rows
    rw [List.map_map]
    exact List.map_congr_left fun row _ => hit_id row
  refine ⟨((db.matched collation caller (likeEscape (trim q))).mergeSort
    (Store.comesFirst collation (likeEscape (trim q)))).map (db.hit caller),
    fun limit offset => ?_, ?_, fun hit hhit => ?_, fun node hnode => ?_⟩
  · unfold byName
    rw [if_neg hquery, ← List.map_drop, ← List.map_take]
    exact query_returns.mpr ⟨rfl, rfl⟩
  · rw [hids']
    exact (hperm.map _).nodup_iff.mpr matched_nodup
  · obtain ⟨row, hrow, rfl⟩ := List.mem_map.mp hhit
    obtain ⟨-, ⟨hnone, ho, hchild⟩ | ⟨-, g, hsome, hg⟩⟩ := mem_matched hw (hperm.mem_iff.mp hrow)
    · obtain ⟨node, mountId⟩ := row
      cases hnone
      exact hit_own h.sane hfree ho hchild
    · obtain ⟨node, mountId⟩ := row
      cases hsome
      exact hit_shared h.sane (h.mounts_named hids) hg
  · constructor
    · rintro ⟨hit, hhit, hid⟩
      obtain ⟨row, hrow, rfl⟩ := List.mem_map.mp hhit
      rw [hit_id] at hid
      obtain ⟨hname, ⟨-, ho, hchild⟩ | ⟨hother, g, -, hg⟩⟩ :=
        mem_matched hw (hperm.mem_iff.mp hrow)
      · rw [← Table.eq_of_key ho.row hnode hid]
        exact ⟨Or.inl ⟨ho, hchild⟩, hname⟩
      · rw [← Table.eq_of_key hg.row hnode hid]
        exact ⟨Or.inr ⟨hother, g, hg⟩, hname⟩
    · rintro ⟨hsearched, hname⟩
      obtain ⟨row, hrow, hid⟩ := exists_matched hw hsearched hname
      exact ⟨_, List.mem_map.mpr ⟨row, hperm.mem_iff.mpr hrow, rfl⟩, (hit_id row).trans hid⟩

/-- The one letter the folder's name has, in both cases. -/
def oneLetter : Collation where
  lower c := if c = 'D' then 'd' else c
  le a b := decide (a ≤ b)
  wild c hc d := by
    have hne : c ≠ 'd' ∧ c ≠ 'D' := by
      simp only [List.mem_cons, List.not_mem_nil, or_false] at hc
      rcases hc with rfl | rfl | rfl
      · exact ⟨by decide, by decide⟩
      · exact ⟨by decide, by decide⟩
      · exact ⟨by decide, by decide⟩
    split_ifs with hd
    · exact iff_of_false hne.1.symm (hd ▸ hne.2.symm)
    · exact Iff.rfl

/-- The account that was given a folder looks for it. -/
theorem search_exact_lent : ∃ hits : List Hit,
    (∀ limit offset, (byName oneLetter bensAccount "D".toList limit offset).Returns lent
      ((hits.drop (max offset 0).toNat).take (min (max limit 1) MAX_LIMIT).toNat) lent) ∧
    (hits.map fun hit => hit.node.id).Nodup ∧
    (∀ hit ∈ hits, ∃ names, parsePath hit.path = .ok names ∧
      (locate bensAccount names 100 >>= Place.intoNode).Returns lent hit.node lent) ∧
    ∀ node ∈ lent.nodes.rows, (∃ hit ∈ hits, hit.node.id = node.id) ↔
      lent.Searched bensAccount node ∧
        (trim "D".toList).map oneLetter.lower <:+: node.name.map oneLetter.lower := by
  have hids : lent.next ≤ MAX_IDS := by decide +kernel
  refine search_exact reached_lent hids (by decide) fun root hroot => ?_
  have hben : lent.rootOf bensAccount.id = some bensHome := by decide +kernel
  rw [hben] at hroot
  rw [← Option.some.inj hroot]
  show lent.child bensHome.id sharedWithMe = none
  decide +kernel

/-- It is the mount, under the name of the mount. -/
example : (lent.page oneLetter bensAccount (likeEscape "D".toList) 50 0).map Hit.path =
    ["Shared with me/d".toList] := by
  decide +kernel

end Stashden.Api
