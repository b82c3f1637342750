import Stashden.Api.Trash
import Stashden.Lib.Forest

/-!
# The forest of nodes

`AtOrBelow nodes n top` follows `parent_id` up from `n`, whether the nodes on the way are trashed or
not; `mem_ancestry_iff`, `mem_subtree_iff`, `mem_buried_iff` read the recursive queries with it.

`WellFormed` is what holds of the nodes between two transactions: parents end, at a live folder without
a parent, and a node stands in a folder of its owner, live where the node is, and in its parent's
batch where it is trashed and no trash root itself. The lemmas `WellFormed.*` are the changes that
keep it.
-/

namespace Stashden.Api

open Lib Stashden.Core Tx

/-! ## Up the tree -/

/-- `parent_id`, by id. -/
def parentOf (nodes : Table Node Node.id) (id : Uuid) : Option Uuid :=
  (nodes.find id).bind Node.parentId

/-- Following parents up from `n` leads to `top`. -/
abbrev AtOrBelow (nodes : Table Node Node.id) (n top : Uuid) : Prop := Up (parentOf nodes) n top

/-- The live row of this id. -/
def LiveAt (nodes : Table Node Node.id) (id : Uuid) : Prop :=
  ∃ row, nodes.find id = some row ∧ row.live = true

/-- A chain of live nodes leads from `n` up to `top`, which may be trashed itself. -/
def LiveBelow (nodes : Table Node Node.id) (n top : Uuid) : Prop :=
  Relation.ReflTransGen (fun n p => LiveAt nodes n ∧ parentOf nodes n = some p) n top

variable {s : Store} {db : Db} {t t' : Table Node Node.id} {n m p top id : Uuid}
  {row node start : Node}

theorem parentOf_of_find (h : t.find n = some row) : parentOf t n = row.parentId := by
  rw [parentOf, h]
  rfl

theorem parentOf_of_mem (h : row ∈ t.rows) : parentOf t row.id = row.parentId :=
  parentOf_of_find (Table.mem_iff_find.mp h)

theorem find_of_parentOf (h : parentOf t n = some p) :
    ∃ row, t.find n = some row ∧ row.parentId = some p := Option.bind_eq_some_iff.mp h

theorem parentOf_congr (h : (t'.find n).map Node.parentId = (t.find n).map Node.parentId) :
    parentOf t' n = parentOf t n := by
  unfold parentOf
  cases ht : t.find n <;> cases ht' : t'.find n <;> simp_all

theorem liveNode_eq_some : s.liveNode id = some row ↔ s.nodes.find id = some row ∧ row.live = true := by
  simp [Store.liveNode, Option.filter_eq_some_iff]

theorem liveNode_isSome : (s.liveNode id).isSome = true ↔ LiveAt s.nodes id := by
  rw [Option.isSome_iff_exists]
  simp only [liveNode_eq_some, LiveAt]

theorem liveAt_of_mem (h : row ∈ t.rows) (hlive : row.live = true) : LiveAt t row.id :=
  ⟨row, Table.mem_iff_find.mp h, hlive⟩

theorem LiveBelow.atOrBelow (h : LiveBelow t n top) : AtOrBelow t n top :=
  h.lift id fun _ _ h => h.2

/-! ## The recursive queries -/

/-- The chain of rows that follows a chain of ids. -/
theorem rows_of_chain {joins : Node → Node → Bool} {link : Uuid → Uuid → Prop}
    (hlink : ∀ {a b : Node}, a ∈ t.rows → b ∈ t.rows → link a.id b.id → joins a b = true)
    (hrow : ∀ {a b : Uuid}, link a b → (t.find a).isSome = true)
    {start last : Node} (hstart : start ∈ t.rows) (hlast : last ∈ t.rows)
    (h : Relation.ReflTransGen link start.id last.id) :
    Relation.ReflTransGen (fun a b => a ∈ t.rows ∧ b ∈ t.rows ∧ joins a b = true) start last := by
  generalize hid : last.id = b at h
  induction h generalizing last with
  | refl => rw [Table.eq_of_key hlast hstart hid]
  | tail _ hstep ih =>
    obtain ⟨mid, hmid⟩ := Option.isSome_iff_exists.mp (hrow hstep)
    obtain ⟨hmem, rfl⟩ := Table.find_eq_some_iff.mp hmid
    exact (ih hmem rfl).tail ⟨hmem, hlast, hlink hmem hlast (hid ▸ hstep)⟩

/-- A recursive query from one row finds the rows a chain of ids leads to. -/
theorem mem_query_iff {joins : Node → Node → Bool} (link : Uuid → Uuid → Prop)
    (hlink : ∀ {a b : Node}, a ∈ t.rows → b ∈ t.rows → (joins a b = true ↔ link a.id b.id))
    (hrow : ∀ {a b : Uuid}, link a b → (t.find a).isSome = true) (hstart : start ∈ t.rows) :
    row ∈ recursive t.rows joins [start] ↔
      row ∈ t.rows ∧ Relation.ReflTransGen link start.id row.id := by
  rw [mem_recursive_of_subset fun a ha => by rw [List.mem_singleton.mp ha]; exact hstart]
  simp only [List.mem_singleton, exists_eq_left]
  constructor
  · intro hreach
    refine ⟨?_, hreach.lift Node.id fun a b h => (hlink h.1 h.2.1).mp h.2.2⟩
    rcases Relation.ReflTransGen.cases_tail hreach with rfl | ⟨_, _, h⟩
    · exact hstart
    · exact h.2.1
  · rintro ⟨hmem, hreach⟩
    exact rows_of_chain (fun ha hb h => (hlink ha hb).mpr h) hrow hstart hmem hreach

theorem select_id (hstart : t.find id = some start) : t.select (fun n => n.id = id) = [start] := by
  obtain ⟨hmem, hid⟩ := Table.find_eq_some_iff.mp hstart
  have hnodup : (t.select fun n => n.id = id).Nodup := (List.Nodup.of_map _ t.nodup).filter _
  refine List.perm_singleton.mp (List.perm_of_nodup_nodup_toFinset_eq hnodup
    (List.nodup_singleton start) ?_)
  ext a
  rw [List.mem_toFinset, List.mem_toFinset, List.mem_singleton, Table.mem_select,
    decide_eq_true_eq]
  constructor
  · rintro ⟨ha, haid⟩
    exact Table.eq_of_key ha hmem (haid.trans hid.symm)
  · rintro rfl
    exact ⟨hmem, hid⟩

/-- **The recursive query `ancestry`** finds a row iff it is above. -/
theorem mem_ancestry_iff (hstart : s.nodes.find id = some start) :
    row ∈ s.ancestry id ↔ row ∈ s.nodes.rows ∧ AtOrBelow s.nodes id row.id := by
  obtain ⟨hmem, hid⟩ := Table.find_eq_some_iff.mp hstart
  unfold Store.ancestry
  rw [select_id hstart, mem_query_iff fun a b => parentOf s.nodes a = some b, hid]
  · rfl
  · intro a b ha hb
    rw [parentOf_of_mem ha, decide_eq_true_eq]
  · intro a b h
    obtain ⟨r, hr, -⟩ := find_of_parentOf h
    rw [hr]
    rfl
  · exact hmem

/-- **The recursive query `subtree`** finds a row iff a chain of live rows leads from it up to the
node it starts from. -/
theorem mem_subtree_iff (hstart : db.nodes.find id = some start) :
    row ∈ db.subtree id ↔ row ∈ db.nodes.rows ∧ LiveBelow db.nodes row.id id := by
  obtain ⟨hmem, hid⟩ := Table.find_eq_some_iff.mp hstart
  unfold Store.subtree LiveBelow
  rw [select_id hstart, ← Relation.reflTransGen_swap,
    mem_query_iff (Function.swap fun n p => LiveAt db.nodes n ∧ parentOf db.nodes n = some p), hid]
  · intro a b ha hb
    show _ ↔ LiveAt db.nodes b.id ∧ parentOf db.nodes b.id = some a.id
    rw [parentOf_of_mem hb, Bool.and_eq_true, decide_eq_true_eq, and_comm]
    refine and_congr_left fun _ => ⟨fun h => liveAt_of_mem hb h, ?_⟩
    rintro ⟨r, hr, hlive⟩
    rw [Table.mem_iff_find.mp hb] at hr
    cases hr
    exact hlive
  · rintro a b ⟨-, hp⟩
    obtain ⟨r, hr, hp⟩ := find_of_parentOf hp
    exact (db.sound .nodesForeign r (Table.find_mem hr)).2.1 a hp
  · exact hmem

/-- **The recursive query `buried`** finds a row iff it is below. -/
theorem mem_buried_iff (hstart : db.nodes.find id = some start) :
    row ∈ db.buried id ↔ row ∈ db.nodes.rows ∧ AtOrBelow db.nodes row.id id := by
  obtain ⟨hmem, hid⟩ := Table.find_eq_some_iff.mp hstart
  unfold Store.buried AtOrBelow Up
  rw [select_id hstart, ← Relation.reflTransGen_swap,
    mem_query_iff (Function.swap fun n p => parentOf db.nodes n = some p), hid]
  · intro a b ha hb
    show _ ↔ parentOf db.nodes b.id = some a.id
    rw [parentOf_of_mem hb, decide_eq_true_eq]
  · rintro a b hp
    obtain ⟨r, hr, hp⟩ := find_of_parentOf hp
    exact (db.sound .nodesForeign r (Table.find_mem hr)).2.1 a hp
  · exact hmem

/-! ## What holds of the nodes -/

/-- The nodes between two transactions. -/
structure WellFormed (t : Table Node Node.id) : Prop where
  grounded : ∀ id, Grounded (parentOf t) id
  parent : ∀ {id row p}, t.find id = some row → row.parentId = some p → ∃ above,
    t.find p = some above ∧ above.isDirectory = true ∧ above.ownerId = row.ownerId ∧
      (row.live = true → above.live = true)
  batch : ∀ {id row b}, t.find id = some row → row.trashRoot = some b → b = id ∨
    ∃ p above, row.parentId = some p ∧ t.find p = some above ∧ above.trashRoot = some b
  root : ∀ {id row}, t.find id = some row → row.parentId = none →
    row.live = true ∧ row.isDirectory = true

theorem wellFormed_empty : WellFormed Table.empty where
  grounded := fun id => ⟨id, .refl, rfl⟩
  parent := fun h => absurd (Table.find_mem h) List.not_mem_nil
  batch := fun h => absurd (Table.find_mem h) List.not_mem_nil
  root := fun h => absurd (Table.find_mem h) List.not_mem_nil

namespace WellFormed

/-- What of a node the forest is made of. -/
def shape (n : Node) : Uuid × Option Uuid × Bool × Option Trashed :=
  (n.ownerId, n.parentId, n.isDirectory, n.trashed)

theorem shape_eq_iff {a b : Node} : shape a = shape b ↔ a.ownerId = b.ownerId ∧
    a.parentId = b.parentId ∧ a.isDirectory = b.isDirectory ∧ a.trashed = b.trashed := by
  simp [shape, Prod.ext_iff]

/-- **What a node holds besides** does not matter. -/
theorem reshape (h : WellFormed t)
    (hshape : ∀ id, (t'.find id).map shape = (t.find id).map shape) : WellFormed t' := by
  have back : ∀ {id row'}, t'.find id = some row' → ∃ row, t.find id = some row ∧
      shape row' = shape row := by
    intro id row' hrow'
    have hs := hshape id
    rw [hrow'] at hs
    obtain ⟨row, hrow, hsame⟩ := Option.map_eq_some_iff.mp hs.symm
    exact ⟨row, hrow, hsame.symm⟩
  have forth : ∀ {id row}, t.find id = some row → ∃ row', t'.find id = some row' ∧
      shape row' = shape row := by
    intro id row hrow
    have hs := hshape id
    rw [hrow] at hs
    exact Option.map_eq_some_iff.mp hs
  refine ⟨fun id => grounded_shrink (fun x => Or.inl (parentOf_congr ?_)) (h.grounded id),
    fun hrow' hp => ?_, fun hrow' hb => ?_, fun hrow' hp => ?_⟩
  · have hs := congrArg (Option.map fun s => s.2.1) (hshape x)
    rwa [Option.map_map, Option.map_map] at hs
  · obtain ⟨row, hrow, hsame⟩ := back hrow'
    obtain ⟨ho, hpar, -, ht⟩ := shape_eq_iff.mp hsame
    obtain ⟨above, habove, hdir, howner, hlive⟩ := h.parent hrow (hpar ▸ hp)
    obtain ⟨above', habove', hsame'⟩ := forth habove
    obtain ⟨ho', -, hd', ht'⟩ := shape_eq_iff.mp hsame'
    refine ⟨above', habove', hd'.trans hdir, ho'.trans (howner.trans ho.symm), fun hl => ?_⟩
    rw [Node.live, ht']
    exact hlive (by rw [Node.live, ← ht]; exact hl)
  · obtain ⟨row, hrow, hsame⟩ := back hrow'
    obtain ⟨-, hpar, -, ht⟩ := shape_eq_iff.mp hsame
    rcases h.batch hrow (by rw [Node.trashRoot, ← ht]; exact hb) with hb | ⟨p, above, hp, ha, hr⟩
    · exact Or.inl hb
    · obtain ⟨above', habove', hsame'⟩ := forth ha
      obtain ⟨-, -, -, ht'⟩ := shape_eq_iff.mp hsame'
      exact Or.inr ⟨p, above', hpar.trans hp, habove', by rw [Node.trashRoot, ht']; exact hr⟩
  · obtain ⟨row, hrow, hsame⟩ := back hrow'
    obtain ⟨-, hpar, hd, ht⟩ := shape_eq_iff.mp hsame
    obtain ⟨hlive, hdir⟩ := h.root hrow (hpar ▸ hp)
    exact ⟨by rw [Node.live, ht]; exact hlive, hd.trans hdir⟩

/-- Nothing stands below an id that is not given out. -/
theorem not_up_of_missing (h : WellFormed t) (hno : t.find n = none) (hne : m ≠ n) :
    ¬ AtOrBelow t m n := by
  intro hup
  obtain rfl | ⟨c, -, hc⟩ := hup.cases_tail
  · exact hne rfl
  · obtain ⟨row, hrow, hp⟩ := find_of_parentOf hc
    obtain ⟨above, habove, -⟩ := h.parent hrow hp
    rw [hno] at habove
    cases habove

/-- **A new node** in a live folder of its owner, or a folder without a parent. -/
theorem insert (h : WellFormed t) (hins : t.insert node = some t') (hlive : node.trashed = none)
    (hparent : ∀ p, node.parentId = some p → ∃ above, t.find p = some above ∧
      above.isDirectory = true ∧ above.ownerId = node.ownerId ∧ above.live = true)
    (hroot : node.parentId = none → node.isDirectory = true) : WellFormed t' := by
  have hno := (Table.insert_eq_some hins).1
  have hfind := Table.find_insert hins
  have hold : ∀ {id row}, t.find id = some row → t'.find id = some row := by
    intro id row hrow
    rw [hfind, if_neg (fun e => by rw [e, hno] at hrow; cases hrow)]
    exact hrow
  refine ⟨fun id => ?_, fun {id row p} hrow hp => ?_, fun {id row b} hrow hb => ?_,
    fun {id row} hrow hp => ?_⟩
  · have hsame : ∀ x, x ≠ node.id → parentOf t' x = parentOf t x := fun x hx => by
      rw [parentOf, parentOf, hfind, if_neg hx]
    have hself : parentOf t' node.id = node.parentId :=
      parentOf_of_find (by rw [hfind, if_pos rfl])
    cases hp : node.parentId with
    | none =>
      refine grounded_shrink (fun x => ?_) (h.grounded id)
      by_cases hx : x = node.id
      · exact Or.inr (hx ▸ hself.trans hp)
      · exact Or.inl (hsame x hx)
    | some p =>
      obtain ⟨above, habove, -⟩ := hparent p hp
      refine grounded_reparent (fun x => x = node.id) hsame
        (fun x hx => hx ▸ hself.trans hp) (h.grounded p) (fun x hx hxn => ?_) (h.grounded id)
      refine h.not_up_of_missing hno (fun e => ?_) (hxn ▸ hx)
      rw [e, hno] at habove
      cases habove
  · rw [hfind] at hrow
    split_ifs at hrow with hid
    · cases hrow
      obtain ⟨above, habove, hdir, howner, hl⟩ := hparent p hp
      exact ⟨above, hold habove, hdir, howner, fun _ => hl⟩
    · obtain ⟨above, habove, hrest⟩ := h.parent hrow hp
      exact ⟨above, hold habove, hrest⟩
  · rw [hfind] at hrow
    split_ifs at hrow with hid
    · cases hrow
      rw [Node.trashRoot, hlive] at hb
      cases hb
    · rcases h.batch hrow hb with hb | ⟨p, above, hp, ha, hr⟩
      · exact Or.inl hb
      · exact Or.inr ⟨p, above, hp, hold ha, hr⟩
  · rw [hfind] at hrow
    split_ifs at hrow with hid
    · cases hrow
      exact ⟨by rw [Node.live, hlive]; rfl, hroot hp⟩
    · exact h.root hrow hp

/-- **A live node below no other place than its parent's** may stand in another live folder of its
owner. -/
theorem move (h : WellFormed t) (hnode : t.find n = some node) (hlive : node.live = true)
    (hp : t.find p = some row) (hplive : row.live = true) (hpdir : row.isDirectory = true)
    (howner : row.ownerId = node.ownerId) (hbelow : ¬ AtOrBelow t p n)
    (hfind : ∀ id, (t'.find id).map shape = (t.find id).map fun r =>
      if id = n then (r.ownerId, some p, r.isDirectory, r.trashed) else shape r) :
    WellFormed t' := by
  have back : ∀ {id row'}, t'.find id = some row' → ∃ row, t.find id = some row ∧
      shape row' = if id = n then (row.ownerId, some p, row.isDirectory, row.trashed)
        else shape row := by
    intro id row' hrow'
    have hs := hfind id
    rw [hrow'] at hs
    obtain ⟨row, hrow, hsame⟩ := Option.map_eq_some_iff.mp hs.symm
    exact ⟨row, hrow, hsame.symm⟩
  have forth : ∀ {id row}, t.find id = some row → ∃ row', t'.find id = some row' ∧
      row'.ownerId = row.ownerId ∧ row'.isDirectory = row.isDirectory ∧
        row'.trashed = row.trashed := by
    intro id row hrow
    have hs := hfind id
    rw [hrow] at hs
    obtain ⟨row', hrow', hsame⟩ := Option.map_eq_some_iff.mp hs
    refine ⟨row', hrow', ?_⟩
    split_ifs at hsame
    · simp only [shape, Prod.mk.injEq] at hsame
      exact ⟨hsame.1, hsame.2.2⟩
    · obtain ⟨ho, -, hd, ht⟩ := shape_eq_iff.mp hsame
      exact ⟨ho, hd, ht⟩
  have hparents : ∀ x, parentOf t' x = if x = n then some p else parentOf t x := by
    intro x
    have hs := congrArg (Option.map fun s => s.2.1) (hfind x)
    rw [Option.map_map, Option.map_map] at hs
    by_cases hx : x = n
    · subst hx
      rw [hnode] at hs
      obtain ⟨row', hrow', hsame⟩ := Option.map_eq_some_iff.mp hs
      rw [parentOf_of_find hrow', if_pos rfl]
      simpa [shape] using hsame
    · simp only [Function.comp_def, if_neg hx] at hs
      rw [if_neg hx]
      exact parentOf_congr hs
  refine ⟨fun id => ?_, fun {id row' q} hrow' hq => ?_, fun {id row' b} hrow' hb => ?_,
    fun {id row'} hrow' hq => ?_⟩
  · refine grounded_reparent (fun x => x = n) (fun x hx => by rw [hparents, if_neg hx])
      (fun x hx => by rw [hparents, if_pos hx]) (h.grounded p) (fun x hx hxn => ?_) (h.grounded id)
    exact hbelow (hxn ▸ hx)
  · obtain ⟨r, hr, hsame⟩ := back hrow'
    split_ifs at hsame with hid
    · subst hid
      rw [hnode] at hr
      cases hr
      simp only [shape, Prod.mk.injEq] at hsame
      rw [hsame.2.1] at hq
      cases hq
      obtain ⟨above', habove', ho, hd, ht⟩ := forth hp
      refine ⟨above', habove', hd.trans hpdir, ho.trans (howner.trans hsame.1.symm), fun _ => ?_⟩
      rw [Node.live, ht]
      exact hplive
    · obtain ⟨ho, hpar, -, ht⟩ := shape_eq_iff.mp hsame
      obtain ⟨above, habove, hdir, hown, hl⟩ := h.parent hr (hpar ▸ hq)
      obtain ⟨above', habove', ho', hd', ht'⟩ := forth habove
      refine ⟨above', habove', hd'.trans hdir, ho'.trans (hown.trans ho.symm), fun hlive' => ?_⟩
      rw [Node.live, ht']
      exact hl (by rw [Node.live, ← ht]; exact hlive')
  · obtain ⟨r, hr, hsame⟩ := back hrow'
    split_ifs at hsame with hid
    · subst hid
      rw [hnode] at hr
      cases hr
      simp only [shape, Prod.mk.injEq] at hsame
      rw [Node.trashRoot, hsame.2.2.2] at hb
      rw [Node.live, Option.isNone_iff_eq_none] at hlive
      rw [hlive] at hb
      cases hb
    · obtain ⟨-, hpar, -, ht⟩ := shape_eq_iff.mp hsame
      rcases h.batch hr (by rw [Node.trashRoot, ← ht]; exact hb) with hb | ⟨q, above, hq, ha, hrt⟩
      · exact Or.inl hb
      · obtain ⟨above', habove', -, -, ht'⟩ := forth ha
        exact Or.inr ⟨q, above', hpar.trans hq, habove', by rw [Node.trashRoot, ht']; exact hrt⟩
  · obtain ⟨r, hr, hsame⟩ := back hrow'
    split_ifs at hsame with hid
    · simp only [shape, Prod.mk.injEq] at hsame
      rw [hsame.2.1] at hq
      cases hq
    · obtain ⟨-, hpar, hd, ht⟩ := shape_eq_iff.mp hsame
      obtain ⟨hl, hdir⟩ := h.root hr (hpar ▸ hq)
      exact ⟨by rw [Node.live, ht]; exact hl, hd.trans hdir⟩

/-- **Trashing and reviving** change neither parents nor owners. -/
theorem retrash (h : WellFormed t) {g : Node → Option Trashed}
    (hfind : ∀ id, t'.find id = (t.find id).map fun r => { r with trashed := g r })
    (hlive : ∀ {row above : Node}, t.find row.id = some row → t.find above.id = some above →
      row.parentId = some above.id → g row = none → g above = none)
    (hbatch : ∀ {row : Node} {d : Trashed}, t.find row.id = some row → g row = some d →
      d.root = row.id ∨ ∃ above : Node, t.find above.id = some above ∧
        row.parentId = some above.id ∧ ∃ d', g above = some d' ∧ d'.root = d.root)
    (hroot : ∀ {row : Node}, t.find row.id = some row → row.parentId = none → g row = none) :
    WellFormed t' := by
  have back : ∀ {id row'}, t'.find id = some row' → ∃ row, t.find id = some row ∧ row.id = id ∧
      row' = { row with trashed := g row } := by
    intro id row' hrow'
    rw [hfind] at hrow'
    obtain ⟨row, hrow, rfl⟩ := Option.map_eq_some_iff.mp hrow'
    exact ⟨row, hrow, Table.find_key hrow, rfl⟩
  have forth : ∀ {id row}, t.find id = some row →
      t'.find id = some { row with trashed := g row } := by
    intro id row hrow
    rw [hfind, hrow]
    rfl
  refine ⟨fun id => grounded_shrink (fun x => Or.inl (parentOf_congr ?_)) (h.grounded id),
    fun {id row' p} hrow' hp => ?_, fun {id row' b} hrow' hb => ?_, fun {id row'} hrow' hp => ?_⟩
  · rw [hfind, Option.map_map]
    rfl
  · obtain ⟨row, hrow, rfl, rfl⟩ := back hrow'
    obtain ⟨above, habove, hdir, howner, -⟩ := h.parent hrow hp
    obtain rfl := Table.find_key habove
    refine ⟨_, forth habove, hdir, howner, fun hl => ?_⟩
    have hl' : g row = none := Option.isNone_iff_eq_none.mp hl
    exact Option.isNone_iff_eq_none.mpr (hlive hrow habove hp hl')
  · obtain ⟨row, hrow, rfl, rfl⟩ := back hrow'
    obtain ⟨d, hd, rfl⟩ := Option.map_eq_some_iff.mp hb
    rcases hbatch hrow hd with hroot | ⟨above, habove, hp, d', hd', hsame⟩
    · exact Or.inl hroot
    · refine Or.inr ⟨above.id, _, hp, forth habove, ?_⟩
      show (g above).map Trashed.root = some d.root
      rw [hd', Option.map_some, hsame]
  · obtain ⟨row, hrow, rfl, rfl⟩ := back hrow'
    exact ⟨Option.isNone_iff_eq_none.mpr (hroot hrow hp), (h.root hrow hp).2⟩

theorem live_iff {n : Node} : n.live = true ↔ n.trashed = none := Option.isNone_iff_eq_none

theorem trashRoot_eq_some {n : Node} {b : Uuid} :
    n.trashRoot = some b ↔ ∃ d, n.trashed = some d ∧ d.root = b := Option.map_eq_some_iff

/-- What is live below a live node. -/
theorem live_of_liveBelow (htop : LiveAt t top) (h : LiveBelow t n top) : LiveAt t n := by
  obtain rfl | ⟨c, hc, -⟩ := Relation.ReflTransGen.cases_head h
  · exact htop
  · exact hc.1

/-- **Sending a node to the trash**, with what is live below it. -/
theorem trash (h : WellFormed t) {now : Nat} {M : Node → Prop} [DecidablePred M]
    (hnode : t.find top = some node) (hlive : node.live = true) (hchild : node.parentId ≠ none)
    (hM : ∀ {row : Node}, t.find row.id = some row → (M row ↔ LiveBelow t row.id top))
    (hfind : ∀ id, t'.find id = (t.find id).map fun r =>
      { r with trashed := if M r then some ⟨now, top⟩ else r.trashed }) : WellFormed t' := by
  have htop : LiveAt t top := ⟨node, hnode, hlive⟩
  refine h.retrash hfind (fun {row above} hrow habove hp hg => ?_) (fun {row d} hrow hg => ?_)
    fun {row} hrow hp => ?_
  · split_ifs at hg with hm
    obtain ⟨above', habove', -, -, hl⟩ := h.parent hrow hp
    rw [habove] at habove'
    cases habove'
    have hal := hl (live_iff.mpr hg)
    rw [if_neg, live_iff.mp hal]
    intro hma
    refine hm ((hM hrow).mpr (((hM habove).mp hma).head ⟨⟨row, hrow, live_iff.mpr hg⟩, ?_⟩))
    rw [parentOf_of_find hrow, hp]
  · split_ifs at hg with hm
    · cases hg
      obtain hid | ⟨c, ⟨hrl, hc⟩, hbelow⟩ := Relation.ReflTransGen.cases_head ((hM hrow).mp hm)
      · exact Or.inl hid.symm
      · rw [parentOf_of_find hrow] at hc
        obtain ⟨above, habove, -⟩ := h.parent hrow hc
        obtain rfl := Table.find_key habove
        exact Or.inr ⟨above, habove, hc, _, if_pos ((hM habove).mpr hbelow), rfl⟩
    · rcases h.batch hrow (trashRoot_eq_some.mpr ⟨d, hg, rfl⟩) with hid | ⟨p, above, hp, ha, hr⟩
      · exact Or.inl hid
      · obtain rfl := Table.find_key ha
        obtain ⟨d', hd', hroot⟩ := trashRoot_eq_some.mp hr
        refine Or.inr ⟨above, ha, hp, d', ?_, hroot⟩
        rw [if_neg, hd']
        intro hma
        obtain ⟨r, hr', hrl⟩ := live_of_liveBelow htop ((hM ha).mp hma)
        rw [ha] at hr'
        cases hr'
        rw [live_iff.mp hrl] at hd'
        cases hd'
  · have hl := live_iff.mp (h.root hrow hp).1
    rw [if_neg, hl]
    intro hm
    obtain hid | ⟨c, ⟨-, hc⟩, -⟩ := Relation.ReflTransGen.cases_head ((hM hrow).mp hm)
    · rw [← hid, hrow] at hnode
      cases hnode
      exact hchild hp
    · rw [parentOf_of_find hrow, hp] at hc
      cases hc

/-- **Deleting nodes** with all that is below them. -/
theorem shrink (h : WellFormed t) {gone : Uuid → Prop}
    (hclosed : ∀ {id p : Uuid}, parentOf t id = some p → gone p → gone id)
    (hfind : ∀ id row, t'.find id = some row ↔ t.find id = some row ∧ ¬ gone id) :
    WellFormed t' := by
  have hkeep : ∀ {id row p}, t'.find id = some row → row.parentId = some p → ¬ gone p := by
    intro id row p hrow hp hg
    obtain ⟨hrow, hno⟩ := (hfind id row).mp hrow
    exact hno (hclosed (by rw [parentOf_of_find hrow, hp]) hg)
  refine ⟨fun id => grounded_shrink (fun x => ?_) (h.grounded id),
    fun {id row p} hrow hp => ?_, fun {id row b} hrow hb => ?_, fun {id row} hrow hp => ?_⟩
  · cases hx : t'.find x with
    | none => exact Or.inr (by rw [parentOf, hx]; rfl)
    | some row =>
      exact Or.inl (by rw [parentOf_of_find hx, parentOf_of_find ((hfind x row).mp hx).1])
  · obtain ⟨above, habove, hrest⟩ := h.parent ((hfind id row).mp hrow).1 hp
    exact ⟨above, (hfind p above).mpr ⟨habove, hkeep hrow hp⟩, hrest⟩
  · rcases h.batch ((hfind id row).mp hrow).1 hb with hb | ⟨p, above, hp, ha, hr⟩
    · exact Or.inl hb
    · exact Or.inr ⟨p, above, hp, (hfind p above).mpr ⟨ha, hkeep hrow hp⟩, hr⟩
  · exact h.root ((hfind id row).mp hrow).1 hp

/-- A batch is below its root. -/
theorem up_trashRoot (h : WellFormed t) {b : Uuid} (hrow : t.find id = some row)
    (hb : row.trashRoot = some b) : AtOrBelow t id b := by
  have key : ∀ row, t.find id = some row → row.trashRoot = some b → AtOrBelow t id b := by
    refine (h.grounded id).induction (motive := fun id => ∀ row, t.find id = some row →
      row.trashRoot = some b → AtOrBelow t id b) (fun x hx row hrow hb => ?_)
      fun x y hxy ih row hrow hb => ?_
    · rw [parentOf_of_find hrow] at hx
      have hl := live_iff.mp (h.root hrow hx).1
      rw [Node.trashRoot, hl] at hb
      cases hb
    · rcases h.batch hrow hb with rfl | ⟨p, above, hp, ha, hr⟩
      · exact .refl
      · rw [parentOf_of_find hrow, hp] at hxy
        cases hxy
        exact (ih above ha hr).head (by rw [parentOf_of_find hrow, hp])
  exact key row hrow hb

/-- What is above a live node is live. -/
theorem live_above (h : WellFormed t) (hrow : t.find id = some row) (hlive : row.live = true)
    (hup : AtOrBelow t id top) (htop : t.find top = some node) : node.live = true := by
  induction hup using Relation.ReflTransGen.head_induction_on generalizing row with
  | refl =>
    rw [hrow] at htop
    cases htop
    exact hlive
  | @head x y hxy _ ih =>
    rw [parentOf_of_find hrow] at hxy
    obtain ⟨above, habove, -, -, hl⟩ := h.parent hrow hxy
    exact ih habove (hl hlive)

/-- One owner all the way up. -/
theorem owner_above (h : WellFormed t) (hrow : t.find id = some row) (hup : AtOrBelow t id top)
    (htop : t.find top = some node) : row.ownerId = node.ownerId := by
  induction hup using Relation.ReflTransGen.head_induction_on generalizing row with
  | refl =>
    rw [hrow] at htop
    cases htop
    rfl
  | @head x y hxy _ ih =>
    rw [parentOf_of_find hrow] at hxy
    obtain ⟨above, habove, -, howner, -⟩ := h.parent hrow hxy
    exact howner.symm.trans (ih habove)

/-- What is below a trashed node is trashed. -/
theorem trashed_below (h : WellFormed t) (hrow : t.find id = some row) (hup : AtOrBelow t id top)
    (htop : t.find top = some node) (hdead : node.live = false) : row.live = false := by
  by_contra hl
  rw [h.live_above hrow (by simpa using hl) hup htop] at hdead
  cases hdead

end WellFormed

end Stashden.Api
