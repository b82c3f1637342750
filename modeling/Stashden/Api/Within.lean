import Stashden.Api.Confined

/-!
# What a write may touch

A caller may write its own nodes, and what it was lent: what stands at or below a live node of another
account that a grant of its address lets it write. `Within` says that statements kept to that. A row of
another account is as it was; or it was lent, and has other content; or it was beneath a mount, and is
still at or below one. What is new is the caller's own, or at or below a mount.

`Within.trans` puts statements together, and the lemmas after it are one for each function that writes
nodes.
-/

namespace Stashden.Api

open Lib Stashden.Core Tx

/-- A grant that lets a caller write in another account. -/
structure Store.Lends (s : Store) (caller : User) (g : Grant) : Prop where
  grant : g ∈ s.grants.rows
  address : g.grantee = caller.email
  write : g.access.mayWrite = true
  top : ∃ row, s.nodes.find g.nodeId = some row ∧ row.live = true ∧ row.ownerId ≠ caller.id

namespace Store

/-- Live, and at or below what a grant lets the caller write. -/
def Lent (s : Store) (caller : User) (id : Uuid) : Prop :=
  ∃ g, s.Lends caller g ∧ LiveBelow s.nodes id g.nodeId

/-- Lent, and not the mount itself. -/
def Beneath (s : Store) (caller : User) (id : Uuid) : Prop :=
  ∃ g, s.Lends caller g ∧ LiveBelow s.nodes id g.nodeId ∧ id ≠ g.nodeId

/-- At or below, among the nodes `t`, what a grant let the caller write. -/
def Tethered (s : Store) (caller : User) (t : Table Node Node.id) (id : Uuid) : Prop :=
  ∃ g, s.Lends caller g ∧ AtOrBelow t id g.nodeId

end Store

/-- What became of a row of another account, among the nodes `t`. -/
inductive Change (s : Store) (caller : User) (t : Table Node Node.id) (row : Node) : Prop
  | kept (hrow : t.find row.id = some row)
  | content (hlent : s.Lent caller row.id) (body : Body) (etag : Etag)
      (hrow : t.find row.id = some { row with body, etag })
  | moved (hbeneath : s.Beneath caller row.id) (now : Node) (hrow : t.find row.id = some now)
      (howner : now.ownerId = row.ownerId) (htether : s.Tethered caller t row.id)

/-- A write of a caller kept to its own nodes and to what it was lent. -/
structure Within (caller : User) (s s' : Store) : Prop where
  others : ∀ row ∈ s.nodes.rows, row.ownerId ≠ caller.id → Change s caller s'.nodes row
  added : ∀ {id row}, s.nodes.find id = none → s'.nodes.find id = some row →
    row.ownerId = caller.id ∨ s.Tethered caller s'.nodes id

/-- No row goes, no row changes hands, and the grants are the same. -/
structure Stays (s s' : Store) : Prop where
  grants : s'.grants = s.grants
  rows : ∀ {id row}, s.nodes.find id = some row →
    ∃ now, s'.nodes.find id = some now ∧ now.ownerId = row.ownerId

instance : IsPreorder Store Stays where
  refl _ := ⟨rfl, fun hrow => ⟨_, hrow, rfl⟩⟩
  trans _ _ _ h h' := by
    refine ⟨h'.grants.trans h.grants, fun hrow => ?_⟩
    obtain ⟨now, hnow, howner⟩ := h.rows hrow
    obtain ⟨later, hlater, howner'⟩ := h'.rows hnow
    exact ⟨later, hlater, howner'.trans howner⟩

variable {s s' : Store} {db db' m : Db} {caller : User} {g : Grant} {row node parent : Node}
  {id k p ownerId top : Uuid} {t : Table Node Node.id}

/-! ## What is lent -/

theorem Store.Lends.liveAt (h : s.Lends caller g) : LiveAt s.nodes g.nodeId := by
  obtain ⟨row, hrow, hlive, -⟩ := h.top
  exact ⟨row, hrow, hlive⟩

theorem Store.Beneath.lent (h : s.Beneath caller id) : s.Lent caller id := by
  obtain ⟨g, hg, hbelow, -⟩ := h
  exact ⟨g, hg, hbelow⟩

theorem Store.Lent.liveAt (h : s.Lent caller id) : LiveAt s.nodes id := by
  obtain ⟨g, hg, hbelow⟩ := h
  exact WellFormed.live_of_liveBelow hg.liveAt hbelow

theorem Store.Lent.tethered (h : s.Lent caller id) : s.Tethered caller s.nodes id := by
  obtain ⟨g, hg, hbelow⟩ := h
  exact ⟨g, hg, hbelow.atOrBelow⟩

/-- What stands in a folder that is lent is beneath a mount. -/
theorem Store.Lent.beneath (hw : WellFormed s.nodes) (h : s.Lent caller p)
    (hrow : s.nodes.find id = some row) (hlive : row.live = true) (hp : row.parentId = some p) :
    s.Beneath caller id := by
  obtain ⟨g, hg, hbelow⟩ := h
  have hparent : parentOf s.nodes id = some p := (parentOf_of_find hrow).trans hp
  refine ⟨g, hg, hbelow.head ⟨⟨row, hrow, hlive⟩, hparent⟩, ?_⟩
  rintro rfl
  exact (hw.grounded g.nodeId).not_up_parent hparent hbelow.atOrBelow

/-- What is lent is not the caller's. -/
theorem Store.Lent.foreign (hw : WellFormed s.nodes) (h : s.Lent caller id)
    (hrow : s.nodes.find id = some row) : row.ownerId ≠ caller.id := by
  obtain ⟨g, hg, hbelow⟩ := h
  obtain ⟨top, htop, -, howner⟩ := hg.top
  rw [hw.owner_above hrow hbelow.atOrBelow htop]
  exact howner

section Kept

variable (hgrants : s'.grants = s.grants)
  (hrows : ∀ {x row}, AtOrBelow s.nodes id x → s.nodes.find x = some row →
    s'.nodes.find x = some row)

include hgrants hrows in
theorem Store.Lends.kept (h : s.Lends caller g) (hup : AtOrBelow s.nodes id g.nodeId) :
    s'.Lends caller g := by
  obtain ⟨top, htop, hrest⟩ := h.top
  exact ⟨hgrants ▸ h.grant, h.address, h.write, top, hrows hup htop, hrest⟩

include hrows in
theorem liveBelow_kept (h : LiveBelow s.nodes id p) : LiveBelow s'.nodes id p := by
  induction h using Relation.ReflTransGen.head_induction_on with
  | refl => exact .refl
  | @head x y hstep _ ih =>
    obtain ⟨⟨row, hrow, hlive⟩, hxy⟩ := hstep
    refine (ih fun hup hr => hrows (hup.head hxy) hr).head ⟨⟨row, hrows .refl hrow, hlive⟩, ?_⟩
    rw [parentOf_of_find hrow] at hxy
    rw [parentOf_of_find (hrows .refl hrow), hxy]

include hgrants hrows in
/-- What is lent is so where the rows above it are. -/
theorem Store.Lent.kept (h : s.Lent caller id) : s'.Lent caller id := by
  obtain ⟨g, hg, hbelow⟩ := h
  exact ⟨g, hg.kept hgrants hrows hbelow.atOrBelow, liveBelow_kept hrows hbelow⟩

include hgrants hrows in
theorem Store.Beneath.kept (h : s.Beneath caller id) : s'.Beneath caller id := by
  obtain ⟨g, hg, hbelow, hne⟩ := h
  exact ⟨g, hg.kept hgrants hrows hbelow.atOrBelow, liveBelow_kept hrows hbelow, hne⟩

end Kept

/-! ## One thing after the other -/

section Trans

variable (hstay : Stays db.toStore m.toStore) (h : Within caller db.toStore m.toStore)

include hstay h in
/-- What lends after a write did so before. -/
theorem lends_back (hg : m.Lends caller g) : db.Lends caller g := by
  have hgrant : g ∈ db.grants.rows := hstay.grants ▸ hg.grant
  obtain ⟨row, hrow⟩ := Option.isSome_iff_exists.mp (db.sound .grantsForeign g hgrant).1
  obtain ⟨now, hnow, hlive, hforeign⟩ := hg.top
  obtain ⟨now', hnow', howner⟩ := hstay.rows hrow
  rw [hnow] at hnow'
  cases hnow'
  have hkey : row.id = g.nodeId := Table.find_key hrow
  refine ⟨hgrant, hg.address, hg.write, row, hrow, ?_, howner ▸ hforeign⟩
  cases h.others row (Table.find_mem hrow) (howner ▸ hforeign) with
  | kept hsame =>
    rw [hkey, hnow] at hsame
    exact Option.some.inj hsame ▸ hlive
  | content hlent body etag hsame =>
    rw [hkey, hnow] at hsame
    cases hsame
    exact hlive
  | moved hbeneath =>
    obtain ⟨r, hr, hl⟩ := hbeneath.lent.liveAt
    rw [hkey, hrow] at hr
    exact Option.some.inj hr ▸ hl

variable (hw : WellFormed db.nodes)

include hstay h hw in
/-- What is lent after a write was lent before, unless it is new or the caller's. -/
theorem lent_back (hrow : db.nodes.find id = some row) (hforeign : row.ownerId ≠ caller.id)
    (hlent : m.Lent caller id) : db.Lent caller id := by
  obtain ⟨g, hg, hbelow⟩ := hlent
  induction hbelow using Relation.ReflTransGen.head_induction_on generalizing row with
  | refl => exact ⟨g, lends_back hstay h hg, .refl⟩
  | @head x y hstep _ ih =>
    obtain ⟨⟨now, hnow, hlive⟩, hparent⟩ := hstep
    have hkey : row.id = x := Table.find_key hrow
    cases h.others row (Table.find_mem hrow) hforeign with
    | kept hsame =>
      rw [hkey, hnow] at hsame
      cases hsame
      rw [parentOf_of_find hnow] at hparent
      obtain ⟨above, habove, -, howner, -⟩ := hw.parent hrow hparent
      exact ((ih habove (howner ▸ hforeign)).beneath hw hrow hlive hparent).lent
    | content hlent => exact hkey ▸ hlent
    | moved hbeneath => exact hkey ▸ hbeneath.lent

include hstay h hw in
/-- What is beneath a mount after a write was so before. -/
theorem beneath_back (hrow : db.nodes.find id = some row) (hforeign : row.ownerId ≠ caller.id)
    (hbeneath : m.Beneath caller id) : db.Beneath caller id := by
  obtain ⟨g, hg, hbelow, hne⟩ := hbeneath
  have hkey : row.id = id := Table.find_key hrow
  obtain rfl | ⟨y, ⟨⟨now, hnow, hlive⟩, hparent⟩, hup⟩ := Relation.ReflTransGen.cases_head hbelow
  · exact absurd rfl hne
  have hfrom : ∀ q, row.parentId = some q → row.live = true → q = y → db.Beneath caller id := by
    rintro q hq hl rfl
    obtain ⟨above, habove, -, howner, -⟩ := hw.parent hrow hq
    exact (lent_back hstay h hw habove (howner ▸ hforeign) ⟨g, hg, hup⟩).beneath hw hrow hl hq
  rw [parentOf_of_find hnow] at hparent
  cases h.others row (Table.find_mem hrow) hforeign with
  | kept hsame =>
    rw [hkey, hnow] at hsame
    cases hsame
    exact hfrom y hparent hlive rfl
  | content hlent body etag hsame =>
    rw [hkey, hnow] at hsame
    cases hsame
    exact hfrom y hparent hlive rfl
  | moved hbeneath => exact hkey ▸ hbeneath

include hstay h in
/-- What holds a node to a mount after two writes held it there before them. -/
theorem tethered_back (htether : m.Tethered caller t id) : db.Tethered caller t id := by
  obtain ⟨g, hg, hup⟩ := htether
  exact ⟨g, lends_back hstay h hg, hup⟩

variable (h' : Within caller m.toStore db'.toStore) (hw' : WellFormed m.nodes)

include hstay h h' hw' in
/-- A node at or below a mount is so after another write. -/
theorem tethered_on (hrow : m.nodes.find id = some row) (hforeign : row.ownerId ≠ caller.id)
    (htether : db.Tethered caller m.nodes id) : db.Tethered caller db'.nodes id := by
  obtain ⟨g, hg, hup⟩ := htether
  induction hup using Relation.ReflTransGen.head_induction_on generalizing row with
  | refl => exact ⟨g, hg, .refl⟩
  | @head x y hxy _ ih =>
    have hkey : row.id = x := Table.find_key hrow
    rw [parentOf_of_find hrow] at hxy
    obtain ⟨above, habove, -, howner, -⟩ := hw'.parent hrow hxy
    obtain ⟨g', hg', hup'⟩ := ih habove (howner ▸ hforeign)
    cases h'.others row (Table.find_mem hrow) hforeign with
    | kept hsame =>
      rw [hkey] at hsame
      exact ⟨g', hg', hup'.head ((parentOf_of_find hsame).trans hxy)⟩
    | content hlent body etag hsame =>
      rw [hkey] at hsame
      exact ⟨g', hg', hup'.head ((parentOf_of_find hsame).trans hxy)⟩
    | moved hbeneath now hnow howner' htether =>
      exact hkey ▸ tethered_back hstay h htether

include hstay h hw h' hw' in
/-- **Two writes** that kept to it, one after the other. -/
theorem Within.trans (hstay' : Stays m.toStore db'.toStore) : Within caller db.toStore db'.toStore := by
  refine ⟨fun row hmem hforeign => ?_, fun {id row} hno hrow => ?_⟩
  · have hrow := Table.mem_iff_find.mp hmem
    have hfurther : ∀ now : Node, m.nodes.find row.id = some now → now.ownerId = row.ownerId →
        Change m.toStore caller db'.nodes now := fun now hnow howner =>
      h'.others now (Table.find_mem hnow) (howner ▸ hforeign)
    cases h.others row hmem hforeign with
    | kept hsame =>
      cases hfurther row hsame rfl with
      | kept hsame' => exact .kept hsame'
      | content hlent body etag hsame' =>
        exact .content (lent_back hstay h hw hrow hforeign hlent) body etag hsame'
      | moved hbeneath now hnow howner htether =>
        exact .moved (beneath_back hstay h hw hrow hforeign hbeneath) now hnow howner
          (tethered_back hstay h htether)
    | content hlent body etag hsame =>
      cases hfurther _ hsame rfl with
      | kept hsame' => exact .content hlent body etag hsame'
      | content hlent' body' etag' hsame' => exact .content hlent body' etag' hsame'
      | moved hbeneath now hnow howner htether =>
        exact .moved (beneath_back hstay h hw hrow hforeign hbeneath) now hnow howner
          (tethered_back hstay h htether)
    | moved hbeneath now hnow howner htether =>
      have hon := tethered_on hstay h h' hw' hnow (howner ▸ hforeign) htether
      have hkey : now.id = row.id := Table.find_key hnow
      cases hfurther now hnow howner with
      | kept hsame' =>
        rw [hkey] at hsame'
        exact .moved hbeneath now hsame' howner hon
      | content hlent body etag hsame' =>
        rw [hkey] at hsame'
        exact .moved hbeneath _ hsame' howner hon
      | moved hbeneath' later hlater howner' htether' =>
        rw [hkey] at hlater
        exact .moved hbeneath later hlater (howner'.trans howner) hon
  · cases hmid : m.nodes.find id with
    | none => exact (h'.added hmid hrow).imp_right (tethered_back hstay h)
    | some now =>
      by_cases hown : now.ownerId = caller.id
      · obtain ⟨later, hlater, howner⟩ := hstay'.rows hmid
        rw [hrow] at hlater
        cases hlater
        exact Or.inl (howner.trans hown)
      · exact Or.inr (tethered_on hstay h h' hw' hmid hown ((h.added hno hmid).resolve_left hown))

end Trans

/-! ## The functions that write nodes -/

section Functions

variable {name : NodeName} {hash : BlobHash} {size : Nat} {versionsKept : Int} {u : Unit}

/-- Rows stay as they are, and what is new is admitted. -/
theorem within_of_kept (hgrants : s'.grants = s.grants)
    (hrows : ∀ {id row}, s.nodes.find id = some row → s'.nodes.find id = some row)
    (hadded : ∀ {id row}, s.nodes.find id = none → s'.nodes.find id = some row →
      row.ownerId = caller.id ∨ s.Tethered caller s'.nodes id) :
    Stays s s' ∧ Within caller s s' :=
  ⟨⟨hgrants, fun hrow => ⟨_, hrows hrow, rfl⟩⟩,
    fun _ hmem _ => .kept (hrows (Table.mem_iff_find.mp hmem)), hadded⟩

theorem within_same (hgrants : s'.grants = s.grants) (hnodes : s'.nodes = s.nodes) :
    Stays s s' ∧ Within caller s s' := by
  refine within_of_kept hgrants (fun hrow => hnodes ▸ hrow) fun hno hrow => ?_
  rw [hnodes, hno] at hrow
  cases hrow

theorem within_opens (h : Opens caller.id s s') : Stays s s' ∧ Within caller s s' := by
  refine within_of_kept h.grants h.find fun hno hrow => ?_
  rcases h.find_back hrow with hold | ⟨-, -, howner, -⟩
  · rw [hno] at hold
    cases hold
  · exact Or.inl howner

/-- Rows that are changed, each by itself. -/
theorem stays_of_map {f : Node → Node} (hsteady : Steady s s')
    (hnodes : ∀ k, s'.nodes.find k = (s.nodes.find k).map f) (hf : ∀ r, (f r).ownerId = r.ownerId) :
    Stays s s' :=
  ⟨hsteady.grants, fun hrow => ⟨_, by rw [hnodes, hrow, Option.map_some], hf _⟩⟩

/-- Nodes added one by one, in a tree of the caller's or below a mount. -/
theorem within_grown (h : Grown (Planted ownerId top) s s')
    (htop : ownerId = caller.id ∨ s.Tethered caller s.nodes top) :
    Stays s s' ∧ Within caller s s' := by
  have hbelow := h.induct
    (I := fun t => ∀ k r, t.find k = some r → s.nodes.find k = some r ∨ AtOrBelow t k top)
    (fun _ _ hr => Or.inl hr) fun t t' n hI hP hins k r hr => by
      rw [Table.find_insert hins] at hr
      split_ifs at hr with hid
      · cases hr
        obtain ⟨-, -, -, p, hp, -, hup⟩ := hP
        refine Or.inr ((up_of_insert hins hup).head ?_)
        rw [hid, parentOf_of_find (find_insert_self hins), hp]
      · exact (hI k r hr).imp_right (up_of_insert hins)
  refine within_of_kept h.steady.grants h.find fun {id row} hno hrow => ?_
  rcases h.find_back hrow with hold | ⟨-, -, howner, -⟩
  · rw [hno] at hold
    cases hold
  rcases htop with hown | ⟨g, hg, hup⟩
  · exact Or.inl (howner.trans hown)
  · rcases hbelow id row hrow with hold | hunder
    · rw [hno] at hold
      cases hold
    · exact Or.inr ⟨g, hg, hunder.trans (h.up hup)⟩

/-- **`put_file`**, of a file or in a folder that is the caller's or lent to it. -/
theorem within_putFile
    (hold : ∀ old, db.child parent.id name.str = some old →
      old.ownerId = caller.id ∨ db.Lent caller old.id)
    (hnew : db.child parent.id name.str = none →
      ownerId = caller.id ∨ db.Tethered caller db.nodes parent.id)
    (hx : (putFile ownerId parent name hash size versionsKept).Returns db node db') :
    Stays db.toStore db'.toStore ∧ Within caller db.toStore db'.toStore := by
  obtain ⟨hsteady, ⟨old, hchild, -, hnode, hfind⟩ | ⟨hchild, hins, id, hnode⟩⟩ := putFile_nodes hx
  · have hmem := (child_eq_some hchild).1
    refine ⟨stays_of_map hsteady hfind fun r => by split_ifs <;> rfl,
      fun row hrow hforeign => ?_, fun {k row} hno hrow => ?_⟩
    · have hnow := hfind row.id
      rw [Table.mem_iff_find.mp hrow, Option.map_some] at hnow
      split_ifs at hnow with hid
      · obtain rfl := Table.eq_of_key hrow hmem hid
        exact .content ((hold _ hchild).resolve_left hforeign) _ _ hnow
      · exact .kept hnow
    · rw [hfind, hno] at hrow
      cases hrow
  · refine within_of_kept hsteady.grants (find_of_insert hins) fun {k row} hno hrow => ?_
    rw [Table.find_insert hins] at hrow
    split_ifs at hrow with hid
    · cases hrow
      have hnone : node.parentId = some parent.id := by rw [hnode]
      refine (hnew hchild).imp (fun hown => by rw [hnode]; exact hown) fun ⟨g, hg, hup⟩ => ?_
      refine ⟨g, hg, (up_of_insert hins hup).head ?_⟩
      rw [hid, parentOf_of_find (find_insert_self hins), hnone]
    · rw [hno] at hrow
      cases hrow

/-- **`send`**, of a node that is the caller's or beneath a mount. -/
theorem within_send (hw : WellFormed db.nodes) (hnode : db.liveNode node.id = some node)
    (hcase : node.ownerId = caller.id ∨ db.Beneath caller node.id)
    (hx : (send node).Returns db u db') :
    Stays db.toStore db'.toStore ∧ Within caller db.toStore db'.toStore := by
  obtain ⟨hfind, hlive⟩ := liveNode_eq_some.mp hnode
  obtain ⟨hsteady, hnodes⟩ := send_nodes hx
  have hparents : ∀ k, parentOf db'.nodes k = parentOf db.nodes k := fun k =>
    parentOf_congr (by rw [hnodes, Option.map_map]; rfl)
  refine ⟨stays_of_map hsteady hnodes fun _ => rfl, fun row hmem hforeign => ?_,
    fun {k row} hno hrow => ?_⟩
  · have hrow := Table.mem_iff_find.mp hmem
    have hnow := hnodes row.id
    rw [hrow, Option.map_some] at hnow
    by_cases hin : row.id ∈ (db.marked node.id).map Node.id
    · obtain ⟨r, hr, hid⟩ := List.mem_map.mp hin
      obtain ⟨-, hbelow⟩ := (mem_marked hfind hlive).mp hr
      rw [hid] at hbelow
      rcases hcase with hown | ⟨g, hg, hunder, hne⟩
      · exact absurd ((hw.owner_above hrow hbelow.atOrBelow hfind).trans hown) hforeign
      · refine .moved ⟨g, hg, hbelow.trans hunder, ?_⟩ _ hnow rfl
          ⟨g, hg, (hbelow.atOrBelow.trans hunder.atOrBelow).mono fun a b hab => (hparents a).trans hab⟩
        intro hself
        rw [hself] at hbelow
        exact hne (Up.antisymm (hw.grounded _) hunder.atOrBelow hbelow.atOrBelow)
    · rw [if_neg hin] at hnow
      exact .kept hnow
  · rw [hnodes, hno] at hrow
    cases hrow

/-- **`rename`**, of a node that is the caller's, or beneath a mount and into what is below one. -/
theorem within_rename {moved : Node} (hnode : db.liveNode node.id = some node)
    (hw' : WellFormed db'.nodes)
    (hcase : node.ownerId = caller.id ∨
      db.Beneath caller node.id ∧ db.Tethered caller db.nodes parent.id)
    (hx : (rename node parent name).Returns db moved db') :
    Stays db.toStore db'.toStore ∧ Within caller db.toStore db'.toStore := by
  obtain ⟨hfind, -⟩ := liveNode_eq_some.mp hnode
  obtain ⟨hsteady, -, -, -, etag, hnodes, -⟩ := rename_nodes hx
  have hparents : ∀ k, k ≠ node.id → parentOf db'.nodes k = parentOf db.nodes k := by
    intro k hk
    refine parentOf_congr ?_
    rw [hnodes, Option.map_map]
    refine Option.map_congr fun r hr => ?_
    rw [Function.comp_apply, if_neg fun hid => hk ((Table.find_key hr).symm.trans hid)]
  refine ⟨stays_of_map hsteady hnodes fun r => by split_ifs <;> rfl,
    fun row hmem hforeign => ?_, fun {k row} hno hrow => ?_⟩
  · have hrow := Table.mem_iff_find.mp hmem
    have hnow := hnodes row.id
    rw [hrow, Option.map_some] at hnow
    split_ifs at hnow with hid
    · obtain rfl := Table.eq_of_key hmem (Table.find_mem hfind) hid
      obtain ⟨hbeneath, g, hg, hup⟩ := hcase.resolve_left hforeign
      have hparent : parentOf db'.nodes row.id = some parent.id := parentOf_of_find hnow
      -- the way up from the new folder does not pass the node
      have hbelow : ¬ AtOrBelow db.nodes parent.id row.id := fun hup =>
        (hw'.grounded _).not_up_parent hparent (hup.congr fun x _ hx => hparents x hx)
      have hup' : AtOrBelow db'.nodes parent.id g.nodeId := hup.congr fun x hx _ =>
        hparents x fun hxid => hbelow (hxid ▸ hx)
      exact .moved hbeneath _ hnow rfl ⟨g, hg, hup'.head hparent⟩
    · exact .kept hnow
  · rw [hnodes, hno] at hrow
    cases hrow

end Functions

/-! ## The trash -/

/-- The rows of the other accounts are as they were. -/
def OthersStay (ownerId : Uuid) (s s' : Store) : Prop :=
  ∀ ⦃k row⦄, row.ownerId ≠ ownerId → (s.nodes.find k = some row ↔ s'.nodes.find k = some row)

instance : IsPreorder Store (OthersStay ownerId) where
  refl _ _ _ _ := Iff.rfl
  trans _ _ _ h h' _ _ hforeign := (h hforeign).trans (h' hforeign)

section Trash

variable {u : Unit} {batch : Uuid}

/-- Rows whose trash is written, each by itself and none of another account's. -/
theorem othersStay_of_map {f : Node → Node}
    (hnodes : ∀ k, s'.nodes.find k = (s.nodes.find k).map f)
    (howner : ∀ r, (f r).ownerId = r.ownerId)
    (hf : ∀ {k row}, s.nodes.find k = some row → row.ownerId ≠ ownerId → f row = row) :
    OthersStay ownerId s s' := by
  intro k row hforeign
  rw [hnodes]
  constructor
  · intro hrow
    rw [hrow, Option.map_some, hf hrow hforeign]
  · intro hrow
    obtain ⟨old, hold, rfl⟩ := Option.map_eq_some_iff.mp hrow
    rw [hold, hf hold (howner old ▸ hforeign)]

/-- The climb of `restore_ancestors` writes nodes of one account, and opens batches of its rows. -/
theorem reviveAbove_others {rounds : Nat} {above : Option Uuid} {opened : Int × List Uuid}
    (hparents : ∀ {k row p}, db.nodes.find k = some row → row.parentId = some p →
      ∃ r, db.nodes.find p = some r ∧ r.ownerId = row.ownerId)
    (habove : ∀ p ∈ above, ∀ r, db.nodes.find p = some r → r.ownerId = ownerId)
    (h : (reviveAbove rounds above).Returns db opened m) : OthersStay ownerId db.toStore m.toStore ∧
      ∀ b ∈ opened.2, ∃ row ∈ db.nodes.rows, row.ownerId = ownerId ∧ row.trashRoot = some b := by
  induction rounds generalizing db above opened with
  | zero =>
    obtain ⟨rfl, rfl⟩ := pure_returns.mp h
    exact ⟨refl _, fun b hb => absurd hb List.not_mem_nil⟩
  | succ rounds ih =>
    cases above with
    | none =>
      obtain ⟨rfl, rfl⟩ := pure_returns.mp h
      exact ⟨refl _, fun b hb => absurd hb List.not_mem_nil⟩
    | some p =>
      rw [reviveAbove] at h
      obtain ⟨trashed, m₁, htrashed, h⟩ := bind_returns.mp h
      obtain ⟨hread, rfl⟩ := query_returns.mp htrashed
      cases trashed with
      | none =>
        obtain ⟨rfl, rfl⟩ := pure_returns.mp h
        exact ⟨refl _, fun b hb => absurd hb List.not_mem_nil⟩
      | some ancestor =>
        obtain ⟨_, m₁, hrevive, h⟩ := bind_returns.mp h
        obtain ⟨rest, m₂, hrest, h⟩ := bind_returns.mp h
        obtain ⟨rfl, rfl⟩ := pure_returns.mp h
        obtain ⟨-, hnodes⟩ := revive_nodes (mapViolated_returns.mp hrevive)
        have hrow : db.nodes.find p = some ancestor := (Option.filter_eq_some_iff.mp hread.symm).1
        have hown : ancestor.ownerId = ownerId := habove p rfl ancestor hrow
        have hback : ∀ {k r}, m₁.nodes.find k = some r → ∃ row, db.nodes.find k = some row ∧
            r.ownerId = row.ownerId ∧ r.parentId = row.parentId ∧
              (r.trashRoot ≠ none → r = row) := by
          intro k r hr
          rw [hnodes] at hr
          obtain ⟨row, hrow, rfl⟩ := Option.map_eq_some_iff.mp hr
          refine ⟨row, hrow, ?_⟩
          split_ifs
          · exact ⟨rfl, rfl, fun hne => absurd rfl hne⟩
          · exact ⟨rfl, rfl, fun _ => rfl⟩
        have hto : ∀ {k row}, db.nodes.find k = some row → ∃ r, m₁.nodes.find k = some r ∧
            r.ownerId = row.ownerId := by
          intro k row hrow
          refine ⟨_, by rw [hnodes, hrow, Option.map_some], ?_⟩
          split_ifs <;> rfl
        have hfirst : OthersStay ownerId db.toStore m₁.toStore := by
          refine othersStay_of_map hnodes (fun r => by split_ifs <;> rfl)
            fun {k row} hk hforeign => if_neg fun hid => hforeign ?_
          rw [decide_eq_true_eq] at hid
          have hkey : row.id = k := Table.find_key hk
          rw [← hkey, hid, hrow] at hk
          exact Option.some.inj hk ▸ hown
        have hparents₁ : ∀ {k r q}, m₁.nodes.find k = some r → r.parentId = some q →
            ∃ r', m₁.nodes.find q = some r' ∧ r'.ownerId = r.ownerId := by
          intro k r q hr hq
          obtain ⟨row, hrow', howner, hparent, -⟩ := hback hr
          obtain ⟨top, htop, htowner⟩ := hparents hrow' (hparent ▸ hq)
          obtain ⟨top', htop', htowner'⟩ := hto htop
          exact ⟨top', htop', htowner'.trans (htowner.trans howner.symm)⟩
        have habove₁ : ∀ q ∈ ancestor.parentId, ∀ r, m₁.nodes.find q = some r →
            r.ownerId = ownerId := by
          intro q hq r hr
          obtain ⟨row, hrow', howner, -⟩ := hback hr
          obtain ⟨top, htop, htowner⟩ := hparents hrow hq
          rw [hrow'] at htop
          cases htop
          exact howner.trans (htowner.trans hown)
        obtain ⟨hothers, hopened⟩ := ih hparents₁ habove₁ hrest
        refine ⟨IsTrans.trans _ _ _ hfirst hothers, fun b hb => ?_⟩
        rcases List.mem_append.mp hb with hb | hb
        · exact ⟨ancestor, Table.find_mem hrow, hown, by simpa using hb⟩
        · obtain ⟨r, hr, hrown, hroot⟩ := hopened b (List.mem_of_mem_filter hb)
          obtain ⟨row, hrow', -, -, hsame⟩ := hback (Table.mem_iff_find.mp hr)
          obtain rfl := hsame (by rw [hroot]; exact Option.some_ne_none _)
          exact ⟨r, Table.find_mem hrow', hrown, hroot⟩

/-- Making batches of their own of what is left of some writes rows of these batches. -/
theorem rerootAll_others {opened : List Uuid}
    (hopened : ∀ b ∈ opened, ∀ {k row}, db.nodes.find k = some row → row.trashRoot = some b →
      row.ownerId = ownerId)
    (h : (forEach rerootSurvivors opened).Returns db u m) :
    OthersStay ownerId db.toStore m.toStore := by
  induction opened generalizing db with
  | nil =>
    rw [← forEach_nil_returns.mp h]
    exact refl _
  | cons b opened ih =>
    obtain ⟨m₁, hone, hrest⟩ := forEach_cons_returns.mp h
    obtain ⟨-, hre, hrows⟩ := rerootSurvivors_nodes hone
    -- a row the statement writes was in the batch
    have hfirst : OthersStay ownerId db.toStore m₁.toStore := by
      intro k row hforeign
      have hto : ∀ {row}, db.nodes.find k = some row → row.ownerId ≠ ownerId →
          m₁.nodes.find k = some row := by
        intro row hrow hforeign
        obtain ⟨row', hrow', ⟨survivor, hsurvivor, hbelow, -⟩ | ⟨rfl, -⟩⟩ := hrows hrow
        · refine absurd (hopened b List.mem_cons_self hrow ?_) hforeign
          obtain rfl | ⟨c, ⟨⟨r, hr, hb⟩, -⟩, -⟩ := Relation.ReflTransGen.cases_head hbelow
          · exact hsurvivor.trashRoot hrow
          · rw [hrow] at hr
            exact Option.some.inj hr ▸ hb
        · exact hrow'
      refine ⟨fun hrow => hto hrow hforeign, fun hrow => ?_⟩
      obtain ⟨old, hold, hsame, -⟩ := hre.symm.find hrow
      have hkept := hto hold ((untrashed_eq hsame).1 ▸ hforeign)
      rw [hrow] at hkept
      rw [hold, Option.some.inj hkept]
    refine IsTrans.trans _ m₁.toStore _ hfirst (ih (fun b' hb' k row hrow hroot => ?_) hrest)
    by_contra hforeign
    exact hforeign (hopened b' (List.mem_cons_of_mem _ hb') ((hfirst hforeign).mpr hrow) hroot)

/-- A batch is of one account. -/
theorem WellFormed.batch_owner {row' : Node} (hw : WellFormed t) (hrow : t.find k = some row)
    (hroot : row.trashRoot = some batch) (hrow' : t.find id = some row')
    (hroot' : row'.trashRoot = some batch) : row'.ownerId = row.ownerId := by
  obtain ⟨-, top, htop, -⟩ := hw.inBatch hrow hroot
  rw [hw.owner_above hrow (hw.up_trashRoot hrow hroot) htop,
    hw.owner_above hrow' (hw.up_trashRoot hrow' hroot') htop]

/-- **`restore` writes the nodes of one account.** -/
theorem restore_others (hw : WellFormed db.nodes)
    (h : (restore ownerId id).Returns db node m) : OthersStay ownerId db.toStore m.toStore := by
  unfold restore at h
  obtain ⟨root, m₀, hroot, h⟩ := bind_returns.mp h
  obtain ⟨rfl, hfind, howner, hbatch⟩ := trashRoot_returns hroot
  obtain ⟨above, m₁, habove, h⟩ := bind_returns.mp h
  obtain ⟨restored, m₂, hrestored, h⟩ := bind_returns.mp h
  obtain ⟨-, rfl⟩ := query_returns.mp hrestored
  obtain ⟨_, m₂, hrevive, h⟩ := bind_returns.mp h
  obtain ⟨versions, m₃, hversions, h⟩ := bind_returns.mp h
  obtain ⟨-, rfl⟩ := query_returns.mp hversions
  obtain ⟨_, m₃, hreroot, h⟩ := bind_returns.mp h
  obtain ⟨_, m₄, hcharge, h⟩ := bind_returns.mp h
  obtain ⟨found, m₅, hfound, h⟩ := bind_returns.mp h
  obtain ⟨-, rfl⟩ := query_returns.mp hfound
  obtain ⟨-, rfl⟩ := orFail_returns.mp h
  unfold restoreAncestors at habove
  obtain ⟨rounds, m₅, hrounds, habove⟩ := bind_returns.mp habove
  obtain ⟨-, rfl⟩ := query_returns.mp hrounds
  have habroad : ∀ p ∈ root.parentId, ∀ r, db.nodes.find p = some r → r.ownerId = ownerId := by
    intro p hp r hr
    obtain ⟨top, htop, -, htowner, -⟩ := hw.parent hfind hp
    rw [hr] at htop
    cases htop
    exact htowner.trans howner
  obtain ⟨hclimb, hopened⟩ := reviveAbove_others (fun {k row p} hrow hp => by
    obtain ⟨r, hr, -, hrowner, -⟩ := hw.parent hrow hp
    exact ⟨r, hr, hrowner⟩) habroad habove
  obtain ⟨-, hnodes⟩ := revive_nodes (mapViolated_returns.mp hrevive)
  have hid : root.id = id := Table.find_key hfind
  have hbatchOf : OthersStay ownerId m₁.toStore m₂.toStore := by
    refine othersStay_of_map hnodes (fun r => by split_ifs <;> rfl) fun {k row} hrow hforeign =>
      if_neg fun hroot => hforeign ?_
    rw [decide_eq_true_eq, hid] at hroot
    exact (hw.batch_owner hfind hbatch ((hclimb hforeign).mpr hrow) hroot).trans howner
  have hboth : OthersStay ownerId db.toStore m₂.toStore := IsTrans.trans _ _ _ hclimb hbatchOf
  have hrest : OthersStay ownerId m₂.toStore m₃.toStore := by
    refine rerootAll_others (fun b hb k row hrow hroot => ?_) hreroot
    by_contra hforeign
    obtain ⟨r, hr, hrown, hrb⟩ := hopened b hb
    exact hforeign ((hw.batch_owner (Table.mem_iff_find.mp hr) hrb ((hboth hforeign).mpr hrow)
      hroot).trans hrown)
  refine IsTrans.trans _ _ _ hboth (IsTrans.trans _ _ _ hrest ?_)
  intro k row hforeign
  rw [(keeps_chargeQuota (R := Beside) hcharge).nodes]

theorem within_othersStay (h : OthersStay caller.id s s') : Within caller s s' := by
  refine ⟨fun row hmem hforeign => .kept ((h hforeign).mp (Table.mem_iff_find.mp hmem)),
    fun {id row} hno hrow => ?_⟩
  by_contra hcase
  rw [not_or] at hcase
  rw [(h hcase.1).mpr hrow] at hno
  cases hno

/-- The grants that are left where nodes are purged. -/
theorem Purges.grants {dues : List (Uuid × Uuid)} (h : Purges dues db db')
    (hw : WellFormed db.nodes) (g : Grant) : g ∈ db'.grants.rows ↔
      g ∈ db.grants.rows ∧ (db'.nodes.find g.nodeId).isSome = true := by
  have held : ∀ {m : Db} {g}, g ∈ m.grants.rows → (m.nodes.find g.nodeId).isSome = true :=
    fun {m g} hg => (m.sound .grantsForeign g hg).1
  induction h with
  | nil => exact ⟨fun hg => ⟨hg, held hg⟩, And.left⟩
  | skip _ _ ih => exact ih hw
  | @purge ownerId id rest db m db' hone hrest ih =>
    refine Iff.trans (@ih (purge_wellFormed hw hone)) (and_congr_left fun hleft => ?_)
    obtain ⟨row, hrow⟩ := Option.isSome_iff_exists.mp hleft
    have hmid := ((hrest.find (purge_wellFormed hw hone) _ _).mp hrow).1
    have hstays := ((purge_find hw hone _ _).mp hmid).2
    obtain ⟨⟨root, hroot, -⟩, m', hm', hrelease⟩ := purge_returns.mp hone
    have hgrants : m.grants = (db.deleteNodes (·.id = id)).grants := by
      rw [booked_releaseEach hrelease, hm']
    rw [hgrants, Store.deleteNodes, Table.mem_delete, decide_eq_false_iff_not, mem_cascade_iff hw hroot]
    exact and_iff_left fun hgone => hstays hgone.2

/-- **What purges of one account's trash leave** of the others. -/
theorem Purges.others {dues : List (Uuid × Uuid)} (h : Purges dues db db')
    (hw : WellFormed db.nodes) (hdues : ∀ due ∈ dues, due.1 = ownerId) :
    OthersStay ownerId db.toStore db'.toStore := by
  intro k row hforeign
  rw [h.find hw]
  refine (and_iff_left_of_imp fun hrow due hdue hlisted hbelow => hforeign ?_).symm
  obtain ⟨root, hroot, howner, -⟩ := hlisted
  rw [hw.owner_above hrow hbelow hroot, howner, hdues due hdue]

end Trash

end Stashden.Api
