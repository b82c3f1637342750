import Stashden.Api.Reserved
import Stashden.Api.Routes

/-!
# What the handlers do (`api/src/routes/*.rs`, `api/src/dav/*.rs`, `api/src/access.rs`)

A handler's transaction is steps of the service (`Steps`) that keep to the caller's nodes and to what it
was lent (`Within`), and leave the shelf's name free (`ShelfFree`): `Goes` is all three.
`directoryForWrite_goes` and `fileTarget_goes` say where `access.rs` lets a caller write, and the
lemmas after them are one for each handler.
-/

namespace Stashden.Api

open Lib Stashden.Core Tx

/-- Steps of the service, one after the other. -/
abbrev Steps : Db → Db → Prop := Relation.ReflTransGen Step

/-- Steps that keep to what a caller may write, and leave the shelf's name free. -/
structure Goes (caller : User) (db db' : Db) : Prop where
  steps : Steps db db'
  stays : Stays db.toStore db'.toStore
  within : Within caller db.toStore db'.toStore
  free : ShelfFree db.toStore → ShelfFree db'.toStore

/-- A live node that is the caller's, or was lent to it. -/
structure Store.Admits (s : Store) (caller : User) (node : Node) : Prop where
  row : node ∈ s.nodes.rows
  live : node.live = true
  theirs : node.ownerId = caller.id ∨ s.Lent caller node.id

variable {app : AppState} {tagText : Etag → Str} {caller : User} {db db' m : Db} {s : Store}
  {node parent root row : Node} {name mountName : NodeName} {segments path : List NodeName}
  {quota versionsKept : Int} {place : Place} {str : Str} {hash : BlobHash} {size : Nat} {u : Unit}

theorem Reached.steps (h : Reached db) (hs : Steps db db') : Reached db' := by
  induction hs with
  | refl => exact h
  | tail _ hstep ih => exact ih.step hstep

theorem Sane.steps (h : Sane db.toStore) (hs : Steps db db') : Sane db'.toStore := by
  induction hs with
  | refl => exact h
  | tail _ hstep ih => exact step_sane hstep ih

namespace Goes

theorem rfl' : Goes caller db db := ⟨.refl, refl _, (within_same rfl rfl).2, id⟩

theorem single (hstep : Step db db') (hfree : ShelfFree db.toStore → ShelfFree db'.toStore)
    (h : Stays db.toStore db'.toStore ∧ Within caller db.toStore db'.toStore) : Goes caller db db' :=
  ⟨.single hstep, h.1, h.2, hfree⟩

/-- What writes no node and no grant. -/
theorem aside (hstep : Step db db') (hgrants : db'.grants = db.grants)
    (hnodes : db'.nodes = db.nodes) : Goes caller db db' :=
  .single hstep (fun hfree => hfree.of_same hgrants hnodes) (within_same hgrants hnodes)

theorem trans (hs : Sane db.toStore) (h : Goes caller db m) (h' : Goes caller m db') :
    Goes caller db db' :=
  ⟨h.steps.trans h'.steps, IsTrans.trans _ _ _ h.stays h'.stays,
    h.within.trans h.stays hs.forest h'.within (hs.steps h.steps).forest h'.stays,
    fun hfree => h'.free (h.free hfree)⟩

end Goes

theorem Store.Admits.liveNode (h : s.Admits caller node) : s.liveNode node.id = some node :=
  liveNode_eq_some.mpr ⟨Table.mem_iff_find.mp h.row, h.live⟩

theorem Store.Admits.child (hw : WellFormed s.nodes) (h : s.Admits caller node)
    (hchild : s.child node.id str = some row) : s.Admits caller row := by
  obtain ⟨hmem, hp, -, hlive⟩ := child_eq_some hchild
  have hrow := Table.mem_iff_find.mp hmem
  refine ⟨hmem, hlive, h.theirs.imp (fun hown => ?_) fun hlent => (hlent.beneath hw hrow hlive hp).lent⟩
  obtain ⟨above, habove, -, howner, -⟩ := hw.parent hrow hp
  rw [Table.mem_iff_find.mp h.row] at habove
  cases habove
  exact howner.symm.trans hown

theorem Store.Admits.kept {s' : Store} (h : s.Admits caller node) (hgrants : s'.grants = s.grants)
    (hrows : ∀ {x row}, AtOrBelow s.nodes node.id x → s.nodes.find x = some row →
      s'.nodes.find x = some row) : s'.Admits caller node :=
  ⟨Table.find_mem (hrows .refl (Table.mem_iff_find.mp h.row)), h.live,
    h.theirs.imp_right (Store.Lent.kept hgrants hrows)⟩

/-! ## Looking paths up -/

theorem goes_ensureRoot (h : (ensureRoot caller.id quota).Returns db root m) : Goes caller db m :=
  .single (.ensureRoot h) (fun hfree => hfree.opens (opens_ensureRoot h))
    (within_opens (opens_ensureRoot h))

theorem admits_of_ensureRoot (h : (ensureRoot caller.id quota).Returns db root m) :
    m.Admits caller root := by
  obtain ⟨hmem, hlive, howner⟩ := owned_of_ensureRoot h
  exact ⟨hmem, hlive, Or.inl howner⟩

/-- What a grant for writing leads to is the caller's own, or the grant lends it. -/
theorem lends_of_granted {g : Grant} (hw : WellFormed s.nodes) (hg : s.Granted caller.email g node)
    (hwrite : g.access.mayWrite = true) : node.ownerId = caller.id ∨ s.Lends caller g := by
  obtain ⟨top, htop, hlive⟩ := hg.top
  refine or_iff_not_imp_left.mpr fun hforeign =>
    ⟨hg.grant, hg.address, hwrite, top, htop, hlive, fun hown => hforeign ?_⟩
  exact (hw.owner_above (Table.mem_iff_find.mp hg.row) hg.below.atOrBelow htop).trans hown

/-- What a mount that may be written leads to. -/
theorem admits_of_mount {top : Mount × Node} (hw : WellFormed db.nodes)
    (h : (mount caller.email mountName).Returns db top m)
    (hwrite : top.1.access.mayWrite = true) : db = m ∧ db.Admits caller top.2 ∧
      (ShelfFree db.toStore → top.2.parentId ≠ none) := by
  obtain ⟨htop, rfl⟩ := mount_returns_iff.mp h
  obtain ⟨g, hg, hat, hsame⟩ := mem_mountsOf.mp (mountedAt_iff.mp htop).1
  rw [hsame] at hwrite
  exact ⟨rfl, ⟨hg.row, hg.live, (lends_of_granted hw hg hwrite).imp_right fun hg' =>
    ⟨g, hg', hg.below⟩⟩, fun hfree => hfree.shared g hg.grant (hat ▸ Table.mem_iff_find.mp hg.row)⟩

theorem goes_locate (h : (locate caller segments quota).Returns db place m) : Goes caller db m := by
  unfold locate at h
  cases segments with
  | nil =>
    obtain ⟨root, m, hroot, h⟩ := bind_returns.mp h
    obtain ⟨-, rfl⟩ := pure_returns.mp h
    exact goes_ensureRoot hroot
  | cons first rest =>
    dsimp only at h
    split_ifs at h
    · cases rest with
      | nil =>
        obtain ⟨-, rfl⟩ := pure_returns.mp h
        exact .rfl'
      | cons mountName below =>
        obtain ⟨top, m, hmount, h⟩ := bind_returns.mp h
        obtain ⟨node, m, hnode, h⟩ := bind_returns.mp h
        obtain ⟨-, rfl⟩ := pure_returns.mp h
        obtain ⟨-, rfl⟩ := resolve_returns_iff.mp hnode
        obtain ⟨-, rfl⟩ := mount_returns_iff.mp hmount
        exact .rfl'
    · obtain ⟨root, m, hroot, h⟩ := bind_returns.mp h
      obtain ⟨node, m, hnode, h⟩ := bind_returns.mp h
      obtain ⟨-, rfl⟩ := pure_returns.mp h
      obtain ⟨-, rfl⟩ := resolve_returns_iff.mp hnode
      exact goes_ensureRoot hroot

/-- **A place that may be written** is the caller's, or was lent to it. -/
theorem admits_of_writable (hw : WellFormed s.nodes) (h : place.Admitted s caller)
    (hwrite : place.writable = true) (hnode : place.reached = some node) : s.Admits caller node := by
  cases place with
  | own node =>
    cases hnode
    exact ⟨h.row, h.live, Or.inl h.owner⟩
  | sharedWithMe => cases hnode
  | shared node way atMount =>
    cases hnode
    obtain ⟨g, hg, rfl, -⟩ := h
    exact ⟨hg.row, hg.live, (lends_of_granted hw hg hwrite).imp_right fun hg' =>
      ⟨g, hg', hg.below⟩⟩

/-- **A place that may be moved** is the caller's, or stands beneath a mount. -/
theorem beneath_of_movable (hw : WellFormed db.nodes) (h : place.Admitted db.toStore caller)
    (hwrite : place.writable = true) (hnode : place.intoMovable.Returns db node m) :
    db = m ∧ db.liveNode node.id = some node ∧
      (node.ownerId = caller.id ∨ db.Beneath caller node.id) := by
  cases place with
  | own n =>
    obtain ⟨rfl, rfl⟩ := pure_returns.mp hnode
    exact ⟨rfl, liveNode_eq_some.mpr ⟨Table.mem_iff_find.mp h.row, h.live⟩, Or.inl h.owner⟩
  | sharedWithMe => exact absurd hnode fail_returns
  | shared n way atMount =>
    cases atMount with
    | true => exact absurd hnode fail_returns
    | false =>
      obtain ⟨rfl, rfl⟩ := pure_returns.mp hnode
      obtain ⟨g, hg, rfl, hat⟩ := h
      refine ⟨rfl, liveNode_eq_some.mpr ⟨Table.mem_iff_find.mp hg.row, hg.live⟩,
        (lends_of_granted hw hg hwrite).imp_right fun hg' => ⟨g, hg', hg.below, fun hid => ?_⟩⟩
      exact Bool.false_ne_true (hat.mpr hid)

theorem locateWritable_returns (h : (locateWritable caller segments quota).Returns db place m) :
    (locate caller segments quota).Returns db place m ∧ place.writable = true := by
  obtain ⟨found, m, hfound, h⟩ := bind_returns.mp h
  split_ifs at h with hwrite
  · obtain ⟨rfl, rfl⟩ := pure_returns.mp h
    exact ⟨hfound, hwrite⟩
  · exact absurd h fail_returns

/-- What stands below what is admitted. -/
theorem admits_of_resolve (hw : WellFormed db.nodes) (hroot : db.Admits caller root)
    (h : (resolve root segments).Returns db node m) : db = m ∧ db.Admits caller node := by
  obtain ⟨hfound, rfl⟩ := resolve_returns_iff.mp h
  exact ⟨rfl, descend_keeps (P := fun n => db.Admits caller n) (fun hn => hn.child hw) hroot hfound⟩

/-- A live row at or below a live one has a live way up to it. -/
theorem liveBelow_of_up {t : Table Node Node.id} {id top : Uuid} (hw : WellFormed t)
    (hrow : t.find id = some row) (hlive : row.live = true) (hup : AtOrBelow t id top) :
    LiveBelow t id top := by
  induction hup using Relation.ReflTransGen.head_induction_on generalizing row with
  | refl => exact .refl
  | @head x y hxy _ ih =>
    have hp := hxy
    rw [parentOf_of_find hrow] at hp
    obtain ⟨above, habove, -, -, hl⟩ := hw.parent hrow hp
    exact (ih habove (hl hlive)).head ⟨⟨row, hrow, hlive⟩, hxy⟩

/-- **`create_directories`**, in what is admitted. -/
theorem goes_createDirectories (hs : Sane db.toStore) (hroot : db.Admits caller root)
    (hfirst : ShelfFree db.toStore → ∀ first ∈ segments.head?, MayHold root first.str)
    (h : (createDirectories root.ownerId root segments).Returns db node m) :
    Goes caller db m ∧ m.Admits caller node := by
  have hw := hs.forest
  have hfind := Table.mem_iff_find.mp hroot.row
  obtain ⟨hgrown, hnode, hcase⟩ := createDirectories_grown hw hfind hroot.live rfl .refl h
  have hgoes : Goes caller db m := .single (.createDirectories hroot.liveNode h)
    (fun hfree => hfree.createDirectories hfind (hfirst hfree) h)
    (within_grown hgrown (hroot.theirs.imp_right Store.Lent.tethered))
  have hadmits : ∀ n, m.nodes.find n.id = some n → n.live = true → n.ownerId = root.ownerId →
      AtOrBelow m.nodes n.id root.id → m.Admits caller n := by
    intro n hn hlive howner hup
    refine ⟨Table.find_mem hn, hlive, hroot.theirs.imp (howner.trans ·) fun ⟨g, hg, hbelow⟩ => ?_⟩
    exact ⟨g, hg.kept hgrown.steady.grants (fun _ => hgrown.find) hbelow.atOrBelow,
      liveBelow_of_up (hgrown.wellFormed hw) hn
      hlive (hup.trans (hgrown.up hbelow.atOrBelow))⟩
  rcases hcase with ⟨-, rfl⟩ | ⟨⟨row, hrow, hlive, -, howner⟩, hup⟩
  · exact ⟨hgoes, hadmits node hnode hroot.live rfl .refl⟩
  · rw [hnode] at hrow
    cases hrow
    exact ⟨hgoes, hadmits node hnode hlive howner hup⟩

theorem topForWrite_goes (hs : Sane db.toStore) {top : Node × List NodeName}
    (h : (topForWrite caller segments quota).Returns db top m) :
    Goes caller db m ∧ m.Admits caller top.1 ∧
      (ShelfFree m.toStore → ∀ first ∈ top.2.head?, MayHold top.1 first.str) := by
  unfold topForWrite at h
  cases segments with
  | nil =>
    obtain ⟨root, m, hroot, h⟩ := bind_returns.mp h
    obtain ⟨rfl, rfl⟩ := pure_returns.mp h
    exact ⟨goes_ensureRoot hroot, admits_of_ensureRoot hroot, fun _ _ h => by cases h⟩
  | cons first rest =>
    dsimp only at h
    split_ifs at h
    · cases rest with
      | nil => exact absurd h fail_returns
      | cons mountName below =>
        obtain ⟨found, m, hmount, h⟩ := bind_returns.mp h
        split_ifs at h with hwrite
        · obtain ⟨rfl, rfl⟩ := pure_returns.mp h
          obtain ⟨rfl, hadmits, hchild⟩ := admits_of_mount hs.forest hmount hwrite
          exact ⟨.rfl', hadmits, fun hfree _ _ hnone => absurd hnone (hchild hfree)⟩
        · exact absurd h fail_returns
    · rename_i hshelf
      obtain ⟨root, m, hroot, h⟩ := bind_returns.mp h
      obtain ⟨rfl, rfl⟩ := pure_returns.mp h
      refine ⟨goes_ensureRoot hroot, admits_of_ensureRoot hroot, fun _ name hname _ hsame => ?_⟩
      cases hname
      exact hshelf (decide_eq_true hsame)

theorem directoryForWrite_create_eq : directoryForWrite caller segments true quota =
    topForWrite caller segments quota >>= fun top =>
      createDirectories top.1.ownerId top.1 top.2 >>= fun directory =>
        if directory.isDirectory then pure directory else fail (.wrongKind "directory") := rfl

/-- **Where `directory_for_write` leads** is a folder of the caller's, or one it was lent. -/
theorem directoryForWrite_goes {create : Bool} (hs : Sane db.toStore)
    (h : (directoryForWrite caller segments create quota).Returns db parent m) :
    Goes caller db m ∧ m.Admits caller parent ∧ parent.isDirectory = true := by
  have hlast : ∀ {directory : Node} {m₁ : Db}, (if directory.isDirectory then pure directory
      else fail (.wrongKind "directory") : Tx Node).Returns m₁ parent m →
        parent = directory ∧ m₁ = m ∧ parent.isDirectory = true := by
    intro directory m₁ h
    split_ifs at h with hdir
    · obtain ⟨rfl, rfl⟩ := pure_returns.mp h
      exact ⟨rfl, rfl, hdir⟩
    · exact absurd h fail_returns
  cases create with
  | true =>
    rw [directoryForWrite_create_eq] at h
    obtain ⟨top, m₁, htop, h⟩ := bind_returns.mp h
    obtain ⟨directory, m₂, hdirectory, h⟩ := bind_returns.mp h
    obtain ⟨rfl, rfl, hdir⟩ := hlast h
    obtain ⟨hgoes, hadmits, hfirst⟩ := topForWrite_goes hs htop
    obtain ⟨hgoes', hadmits'⟩ :=
      goes_createDirectories (hs.steps hgoes.steps) hadmits hfirst hdirectory
    exact ⟨hgoes.trans hs hgoes', hadmits', hdir⟩
  | false =>
    rw [directoryForWrite_eq] at h
    obtain ⟨top, m₁, htop, h⟩ := bind_returns.mp h
    obtain ⟨directory, m₂, hdirectory, h⟩ := bind_returns.mp h
    obtain ⟨rfl, rfl, hdir⟩ := hlast h
    obtain ⟨hgoes, hadmits, -⟩ := topForWrite_goes hs htop
    obtain ⟨rfl, hadmits'⟩ :=
      admits_of_resolve (hs.steps hgoes.steps).forest hadmits hdirectory
    exact ⟨hgoes, hadmits', hdir⟩

/-- What is put in a folder under a name keeps to what the caller may write. -/
structure Store.Takes (s : Store) (caller : User) (parent : Node) (name : NodeName) : Prop where
  old : ∀ old, s.child parent.id name.str = some old →
    old.ownerId = caller.id ∨ s.Lent caller old.id
  new : s.child parent.id name.str = none →
    (parent.ownerId = caller.id ∨ s.Tethered caller s.nodes parent.id) ∧ MayHold parent name.str

theorem Store.Takes.putFile_goes (h : db.Takes caller parent name)
    (hparent : db.liveNode parent.id = some parent) (hdir : parent.isDirectory = true)
    (hx : (putFile parent.ownerId parent name hash size versionsKept).Returns db node db') :
    Goes caller db db' :=
  .single (.putFile hparent hdir hx) (fun hfree => hfree.putFile (liveNode_eq_some.mp hparent).1
    (fun hno => (h.new hno).2) hx) (within_putFile h.old (fun hno => (h.new hno).1) hx)

theorem Store.Admits.takes (hw : WellFormed s.nodes) (h : s.Admits caller parent)
    (hname : MayHold parent name.str) : s.Takes caller parent name :=
  ⟨fun _ hchild => (h.child hw hchild).theirs,
    fun _ => ⟨h.theirs.imp_right Store.Lent.tethered, hname⟩⟩

/-- A mount that is a file is put where it stands, under its own name. -/
theorem mountedFile_goes (hs : Sane db.toStore) {into : Node × NodeName}
    (h : (mountedFile caller mountName).Returns db into m) : db = m ∧
      m.liveNode into.1.id = some into.1 ∧ into.1.isDirectory = true ∧
        m.Takes caller into.1 into.2 := by
  have hw := hs.forest
  obtain ⟨top, m₁, hmount, h⟩ := bind_returns.mp h
  obtain ⟨hwrite, h⟩ := of_guard h
  obtain ⟨-, h⟩ := of_guard h
  obtain ⟨rfl, hadmits, -⟩ := admits_of_mount hw hmount (by simpa using hwrite)
  obtain ⟨parentId, m₂, hparentId, h⟩ := bind_returns.mp h
  obtain ⟨hp, rfl⟩ := orFail_returns.mp hparentId
  obtain ⟨live, m₂, hlive, h⟩ := bind_returns.mp h
  obtain ⟨hread, rfl⟩ := query_returns.mp hlive
  obtain ⟨parent, m₂, hparent, h⟩ := bind_returns.mp h
  obtain ⟨hsome, rfl⟩ := orFail_returns.mp hparent
  rw [hread] at hsome
  obtain ⟨hfind, hplive⟩ := liveNode_eq_some.mp hsome
  have hkey : parent.id = parentId := Table.find_key hfind
  cases hname : NodeName.fromStr top.2.name with
  | error e =>
    rw [hname] at h
    exact absurd h fail_returns
  | ok name =>
    rw [hname] at h
    obtain ⟨rfl, rfl⟩ := pure_returns.mp h
    have hchild : db.child parent.id name.str = some top.2 := by
      refine child_iff.mpr ⟨Table.mem_select.mpr ⟨hadmits.row, ?_⟩, (NodeName.fromStr_eq_ok hname).symm⟩
      rw [hp, hkey, hadmits.live, decide_eq_true rfl]
      rfl
    refine ⟨rfl, by rw [hkey]; exact hsome, ?_, fun old hold => ?_, fun hno => ?_⟩
    · obtain ⟨above, habove, hdir, -⟩ := hw.parent (Table.mem_iff_find.mp hadmits.row) hp
      rw [hfind] at habove
      exact Option.some.inj habove ▸ hdir
    · rw [hchild] at hold
      exact Option.some.inj hold ▸ hadmits.theirs
    · rw [hchild] at hno
      cases hno

/-- **Where `file_target` leads** is where the caller may put a file. -/
theorem fileTarget_goes {create : Bool} (hs : Sane db.toStore) {into : Node × NodeName}
    (h : (fileTarget caller path create quota).Returns db into m) : Goes caller db m ∧
      m.liveNode into.1.id = some into.1 ∧ into.1.isDirectory = true ∧
        m.Takes caller into.1 into.2 := by
  have hin : ∀ {segments}, (targetIn caller segments create quota).Returns db into m →
      Goes caller db m ∧ m.liveNode into.1.id = some into.1 ∧ into.1.isDirectory = true ∧
        m.Takes caller into.1 into.2 := by
    intro segments h
    obtain ⟨name, m₁, hname, h⟩ := bind_returns.mp h
    obtain ⟨-, rfl⟩ := orFail_returns.mp hname
    obtain ⟨parent, m₁, hparent, h⟩ := bind_returns.mp h
    obtain ⟨_, m₂, hreserved, h⟩ := bind_returns.mp h
    have hname := mayHold_of_refuseReserved hreserved
    obtain rfl := refuseReserved_returns hreserved
    obtain ⟨rfl, rfl⟩ := pure_returns.mp h
    obtain ⟨hgoes, hadmits, hdir⟩ := directoryForWrite_goes hs hparent
    exact ⟨hgoes, hadmits.liveNode, hdir, hadmits.takes (hs.steps hgoes.steps).forest hname⟩
  unfold fileTarget at h
  split at h
  · split_ifs at h
    · obtain ⟨rfl, hrest⟩ := mountedFile_goes hs h
      exact ⟨.rfl', hrest⟩
    · exact hin h
  · exact hin h

/-! ## The handlers -/

section Handlers

variable {precondition : Precondition} {headers : Headers} {source destination : List NodeName}
  {submitted : List Uuid} {id : Uuid} {overwrite moving deep : Bool} {seconds : Nat}

theorem writer_returns (h : (Dav.writer caller).Returns db u m) : db = m := by
  unfold Dav.writer at h
  split_ifs at h
  · exact (pure_returns.mp h).2
  · exact absurd h fail_returns

theorem check_returns {existing : Option Node}
    (h : (precondition.check tagText existing).Returns db u m) :
    db = m ∧ precondition.holds tagText existing = true := by
  unfold Precondition.check at h
  split_ifs at h with hholds
  · exact ⟨(pure_returns.mp h).2, hholds⟩
  · exact absurd h fail_returns

theorem intoNode_returns (h : place.intoNode.Returns db node m) :
    db = m ∧ ∃ row, place.reached = some row ∧ node = { row with name := node.name } := by
  cases place with
  | own n =>
    obtain ⟨rfl, rfl⟩ := pure_returns.mp h
    exact ⟨rfl, _, rfl, rfl⟩
  | sharedWithMe => exact absurd h fail_returns
  | shared n way atMount =>
    obtain ⟨rfl, rfl⟩ := pure_returns.mp h
    refine ⟨rfl, n, rfl, ?_⟩
    split_ifs <;> rfl

/-- What `locate_writable` and `into_movable` find together. -/
theorem movable_goes (hs : Sane db.toStore)
    (hfound : (locateWritable caller path quota).Returns db place m)
    (hnode : place.intoMovable.Returns m node db') : Goes caller db db' ∧
      db'.liveNode node.id = some node ∧ (node.ownerId = caller.id ∨ db'.Beneath caller node.id) := by
  obtain ⟨hlocate, hwrite⟩ := locateWritable_returns hfound
  have hgoes := goes_locate hlocate
  have hw := (hs.steps hgoes.steps).forest
  obtain ⟨rfl, hlive, hcase⟩ := beneath_of_movable hw (locate_admitted hw hlocate) hwrite hnode
  exact ⟨hgoes, hlive, hcase⟩

/-- **`rename`**, of what may be moved into a folder the caller may write in. -/
theorem moved_goes (hs : Sane db.toStore) (hnode : db.liveNode node.id = some node)
    (hcase : node.ownerId = caller.id ∨ db.Beneath caller node.id) (hparent : db.Admits caller parent)
    (howner : parent.ownerId = node.ownerId) (hname : MayHold parent name.str) {now : Node}
    (h : (rename node parent name).Returns db now db') : Goes caller db db' := by
  have hstep : Step db db' := .rename hnode hparent.liveNode howner h
  refine .single hstep (fun hfree => hfree.rename (Table.mem_iff_find.mp hparent.row) hname h)
    (within_rename hnode (step_sane hstep hs).forest ?_ h)
  by_cases hown : node.ownerId = caller.id
  · exact Or.inl hown
  · exact Or.inr ⟨hcase.resolve_left hown,
      (hparent.theirs.resolve_left fun hp => hown (howner.symm.trans hp)).tethered⟩

theorem place_goes (hs : Sane db.toStore)
    (h : (Routes.place app tagText caller precondition path hash size).Returns db node db') :
    Goes caller db db' := by
  obtain ⟨into, m, hinto, h⟩ := bind_returns.mp h
  obtain ⟨existing, m₁, hexisting, h⟩ := bind_returns.mp h
  obtain ⟨-, rfl⟩ := child_returns.mp hexisting
  obtain ⟨_, m₁, hcheck, h⟩ := bind_returns.mp h
  obtain ⟨rfl, -⟩ := check_returns hcheck
  obtain ⟨hgoes, hlive, hdir, htakes⟩ := fileTarget_goes hs hinto
  exact hgoes.trans hs (htakes.putFile_goes hlive hdir h)

theorem rename_goes (hs : Sane db.toStore)
    (h : (Routes.rename app caller source destination).Returns db node db') :
    Goes caller db db' := by
  obtain ⟨_, m, hwriter, h⟩ := bind_returns.mp h
  obtain rfl := writer_returns hwriter
  obtain ⟨name, m, hname, h⟩ := bind_returns.mp h
  obtain ⟨-, rfl⟩ := orFail_returns.mp hname
  obtain ⟨-, h⟩ := of_guard h
  obtain ⟨found, m₁, hfound, h⟩ := bind_returns.mp h
  obtain ⟨moved, m₂, hmoved, h⟩ := bind_returns.mp h
  obtain ⟨parent, m₃, hparent, h⟩ := bind_returns.mp h
  obtain ⟨_, m₄, hreserved, h⟩ := bind_returns.mp h
  have hname := mayHold_of_refuseReserved hreserved
  obtain rfl := refuseReserved_returns hreserved
  obtain ⟨howner, hrename⟩ := of_guard h
  obtain ⟨hgoes, hlive, hcase⟩ := movable_goes hs hfound hmoved
  have hs₂ := hs.steps hgoes.steps
  obtain ⟨hgoes', hadmits, -⟩ := directoryForWrite_goes hs₂ hparent
  have hopens : Opens caller.id m₂.toStore m₃.toStore :=
    keeps_directoryForWrite opens_ensureRoot hparent
  have hs₃ := hs₂.steps hgoes'.steps
  refine (hgoes.trans hs hgoes').trans hs (moved_goes hs₃ (hopens.liveNode hlive)
    (hcase.imp_right (Store.Beneath.kept hopens.grants fun _ => hopens.find)) hadmits
    (by simpa using howner) hname hrename)

/-- **`send`**, of what may be moved. -/
theorem sent_goes (hw : WellFormed db.nodes) (hnode : db.liveNode node.id = some node)
    (hchild : node.parentId ≠ none)
    (hcase : node.ownerId = caller.id ∨ db.Beneath caller node.id)
    (h : (send node).Returns db u db') : Goes caller db db' :=
  .single (.send hnode hchild h) (fun hfree => hfree.send h) (within_send hw hnode hcase h)

/-- What a path that is not empty finds has a parent. -/
theorem movable_child (hpath : path ≠ [])
    (hfound : (locate caller path quota).Returns db place m)
    (hnode : place.intoMovable.Returns m node db') : node.parentId ≠ none := by
  unfold locate at hfound
  cases path with
  | nil => exact absurd rfl hpath
  | cons first rest =>
    dsimp only at hfound
    split_ifs at hfound
    · cases rest with
      | nil =>
        obtain ⟨rfl, -⟩ := pure_returns.mp hfound
        exact absurd hnode fail_returns
      | cons mountName below =>
        obtain ⟨top, m₁, hmount, h⟩ := bind_returns.mp hfound
        obtain ⟨found, m₂, hbelow, h⟩ := bind_returns.mp h
        obtain ⟨rfl, -⟩ := pure_returns.mp h
        obtain ⟨htop, rfl⟩ := mount_returns_iff.mp hmount
        obtain ⟨g, hg, -, -⟩ := mem_mountsOf.mp (mountedAt_iff.mp htop).1
        have hlive := liveNode_eq_some.mpr ⟨Table.mem_iff_find.mp hg.row, hg.live⟩
        cases below with
        | nil => exact absurd hnode fail_returns
        | cons _ _ =>
          obtain ⟨rfl, -⟩ := pure_returns.mp hnode
          exact (resolve_live hlive hbelow).2.2 (List.cons_ne_nil _ _)
    · obtain ⟨root, m₁, hroot, h⟩ := bind_returns.mp hfound
      obtain ⟨found, m₂, hbelow, h⟩ := bind_returns.mp h
      obtain ⟨rfl, -⟩ := pure_returns.mp h
      obtain ⟨rfl, -⟩ := pure_returns.mp hnode
      exact (resolve_live (ensureRoot_live hroot).1 hbelow).2.2 (List.cons_ne_nil _ _)

theorem delete_goes (hs : Sane db.toStore)
    (h : (Routes.delete app caller path).Returns db u db') : Goes caller db db' := by
  obtain ⟨_, m, hwriter, h⟩ := bind_returns.mp h
  obtain rfl := writer_returns hwriter
  obtain ⟨hpath, h⟩ := of_guard h
  obtain ⟨found, m₁, hfound, h⟩ := bind_returns.mp h
  obtain ⟨moved, m₂, hmoved, hsend⟩ := bind_returns.mp h
  obtain ⟨hgoes, hlive, hcase⟩ := movable_goes hs hfound hmoved
  have hw := (hs.steps hgoes.steps).forest
  exact hgoes.trans hs (sent_goes hw hlive (movable_child hpath
    (locateWritable_returns hfound).1 hmoved) hcase hsend)

/-- A folder is made under a name that is let through. -/
theorem first_of_refuseReserved (h : (refuseReserved parent name).Returns db u db') :
    ∀ first ∈ [name].head?, MayHold parent first.str := by
  rintro _ ⟨⟩
  exact mayHold_of_refuseReserved h

theorem createFolder_goes (hs : Sane db.toStore)
    (h : (Routes.createFolder app caller path).Returns db node db') : Goes caller db db' := by
  obtain ⟨_, m, hwriter, h⟩ := bind_returns.mp h
  obtain rfl := writer_returns hwriter
  obtain ⟨name, m, hname, h⟩ := bind_returns.mp h
  obtain ⟨-, rfl⟩ := orFail_returns.mp hname
  obtain ⟨parent, m₁, hparent, h⟩ := bind_returns.mp h
  obtain ⟨_, m₂, hreserved, h⟩ := bind_returns.mp h
  have hfirst := first_of_refuseReserved hreserved
  obtain rfl := refuseReserved_returns hreserved
  obtain ⟨existing, m₂, hexisting, h⟩ := bind_returns.mp h
  obtain ⟨-, rfl⟩ := child_returns.mp hexisting
  obtain ⟨-, hcreate⟩ := of_guard h
  obtain ⟨hgoes, hadmits, -⟩ := directoryForWrite_goes hs hparent
  exact hgoes.trans hs
    (goes_createDirectories (hs.steps hgoes.steps) hadmits (fun _ => hfirst) hcreate).1

theorem mkcol_goes {bodyEmpty : Bool} (hs : Sane db.toStore)
    (h : (Dav.mkcol app caller path submitted bodyEmpty).Returns db node db') :
    Goes caller db db' := by
  obtain ⟨_, m, hwriter, h⟩ := bind_returns.mp h
  obtain rfl := writer_returns hwriter
  obtain ⟨-, h⟩ := of_guard h
  obtain ⟨name, m, hname, h⟩ := bind_returns.mp h
  obtain ⟨-, rfl⟩ := orFail_returns.mp hname
  obtain ⟨parent, m₁, hparent, h⟩ := bind_returns.mp h
  obtain ⟨_, m₂, hreserved, h⟩ := bind_returns.mp h
  have hfirst := first_of_refuseReserved hreserved
  obtain rfl := refuseReserved_returns hreserved
  obtain ⟨existing, m₂, hexisting, h⟩ := bind_returns.mp h
  obtain ⟨-, rfl⟩ := child_returns.mp hexisting
  obtain ⟨-, h⟩ := of_guard h
  obtain ⟨_, m₂, hallows, hcreate⟩ := bind_returns.mp h
  obtain rfl := allows_returns hallows
  obtain ⟨hgoes, hadmits, -⟩ := directoryForWrite_goes hs (mapNotFound_returns.mp hparent)
  exact hgoes.trans hs
    (goes_createDirectories (hs.steps hgoes.steps) hadmits (fun _ => hfirst) hcreate).1

theorem davPlace_goes (hs : Sane db.toStore)
    (h : (Dav.place app caller path submitted hash size).Returns db node db') :
    Goes caller db db' := by
  obtain ⟨into, m, hinto, hput⟩ := bind_returns.mp h
  obtain ⟨target, m₁, htarget, h⟩ := bind_returns.mp hinto
  obtain ⟨existing, m₂, hexisting, h⟩ := bind_returns.mp h
  obtain ⟨-, rfl⟩ := child_returns.mp hexisting
  obtain ⟨_, m₂, hallows, h⟩ := bind_returns.mp h
  obtain rfl := allows_returns hallows
  obtain ⟨rfl, rfl⟩ := pure_returns.mp h
  obtain ⟨hgoes, hlive, hdir, htakes⟩ := fileTarget_goes hs (mapNotFound_returns.mp htarget)
  exact hgoes.trans hs (htakes.putFile_goes hlive hdir hput)

theorem davDelete_goes (hs : Sane db.toStore)
    (h : (Dav.delete app caller path submitted).Returns db u db') : Goes caller db db' := by
  obtain ⟨_, m, hwriter, h⟩ := bind_returns.mp h
  obtain rfl := writer_returns hwriter
  obtain ⟨hpath, h⟩ := of_guard h
  obtain ⟨found, m₁, hfound, h⟩ := bind_returns.mp h
  obtain ⟨moved, m₂, hmoved, h⟩ := bind_returns.mp h
  obtain ⟨_, m₃, hallows, h⟩ := bind_returns.mp h
  obtain rfl := allows_returns hallows
  obtain ⟨_, m₃, hbelow, h⟩ := bind_returns.mp h
  obtain rfl := noneBelow_returns hbelow
  obtain ⟨above, m₃, habove, h⟩ := bind_returns.mp h
  obtain ⟨parent, m₄, hparent, h⟩ := bind_returns.mp h
  obtain ⟨rfl, -⟩ := intoNode_returns hparent
  obtain ⟨_, m₄, hallows', hsend⟩ := bind_returns.mp h
  obtain rfl := allows_returns hallows'
  obtain ⟨hgoes, hlive, hcase⟩ := movable_goes hs hfound hmoved
  have hopens : Opens caller.id m₂.toStore m₃.toStore := keeps_locate opens_ensureRoot habove
  have hgoes' := hgoes.trans hs (goes_locate habove)
  exact hgoes'.trans hs (sent_goes (hs.steps hgoes'.steps).forest (hopens.liveNode hlive)
    (movable_child hpath (locateWritable_returns hfound).1 hmoved)
    (hcase.imp_right (Store.Beneath.kept hopens.grants fun _ => hopens.find)) hsend)

theorem mayLeave_goes (h : (Dav.mayLeave app caller moving path submitted node).Returns db u m) :
    Goes caller db m ∧ Opens caller.id db.toStore m.toStore := by
  unfold Dav.mayLeave at h
  split_ifs at h
  · obtain ⟨_, m₁, hallows, h⟩ := bind_returns.mp h
    obtain rfl := allows_returns hallows
    obtain ⟨_, m₁, hbelow, h⟩ := bind_returns.mp h
    obtain rfl := noneBelow_returns hbelow
    obtain ⟨above, m₁, habove, h⟩ := bind_returns.mp h
    obtain ⟨leaving, m₂, hleaving, h⟩ := bind_returns.mp h
    obtain rfl := allows_returns h
    obtain ⟨rfl, -⟩ := intoNode_returns hleaving
    exact ⟨goes_locate habove, keeps_locate opens_ensureRoot habove⟩
  · obtain ⟨-, rfl⟩ := pure_returns.mp h
    exact ⟨.rfl', refl _⟩

/-- What stands at a destination may be sent to the trash. -/
theorem replace_goes (hs : Sane db.toStore) (hparent : db.Admits caller parent)
    (hsource : db.liveNode node.id = some row)
    (h : (Dav.replace app submitted overwrite node (db.child parent.id name.str)).Returns db u m) :
    Goes caller db m := by
  have hw := hs.forest
  have hthere : ∀ o ∈ db.child parent.id name.str, db.nodes.find o.id = some o := fun o ho =>
    Table.mem_iff_find.mp (child_eq_some ho).1
  rcases replace_returns (by rw [(liveNode_eq_some.mp hsource).1]; rfl) hthere h with
    ⟨-, rfl⟩ | ⟨o, ho, -, -, hsend⟩
  · exact .rfl'
  · obtain ⟨hmem, hp, -, hlive⟩ := child_eq_some ho
    refine sent_goes hw (liveNode_eq_some.mpr ⟨Table.mem_iff_find.mp hmem, hlive⟩)
      (by rw [hp]; exact Option.some_ne_none _) ?_ hsend
    rcases hparent.theirs with hown | hlent
    · obtain ⟨above, habove, -, howner, -⟩ := hw.parent (Table.mem_iff_find.mp hmem) hp
      rw [Table.mem_iff_find.mp hparent.row] at habove
      cases habove
      exact Or.inl (howner.symm.trans hown)
    · exact Or.inr (hlent.beneath hw (Table.mem_iff_find.mp hmem) hlive hp)

theorem transfer_goes (hs : Sane db.toStore)
    (h : (Dav.transfer app caller moving source destination overwrite submitted).Returns db node
      db') : Goes caller db db' := by
  unfold Dav.transfer at h
  obtain ⟨_, m, hwriter, h⟩ := bind_returns.mp h
  obtain rfl := writer_returns hwriter
  obtain ⟨hfrom, h⟩ := of_guard h
  obtain ⟨name, m, hlast, h⟩ := bind_returns.mp h
  obtain ⟨-, rfl⟩ := orFail_returns.mp hlast
  obtain ⟨found, m₁, hfound, h⟩ := bind_returns.mp h
  obtain ⟨taken, m₂, htaken, h⟩ := bind_returns.mp h
  obtain ⟨parent, m₃, hparent, h⟩ := bind_returns.mp h
  have hparent := mapNotFound_returns.mp hparent
  obtain ⟨_, m₄, hreserved, h⟩ := bind_returns.mp h
  have hname := mayHold_of_refuseReserved hreserved
  obtain rfl := refuseReserved_returns hreserved
  obtain ⟨howner, h⟩ := of_guard h
  obtain ⟨_, m₄, hleave, h⟩ := bind_returns.mp h
  obtain ⟨_, m₅, hallows, h⟩ := bind_returns.mp h
  obtain rfl := allows_returns hallows
  obtain ⟨occupant, m₅, hoccupant, h⟩ := bind_returns.mp h
  obtain ⟨rfl, rfl⟩ := child_returns.mp hoccupant
  obtain ⟨_, m₅, hreplace, hlast⟩ := bind_returns.mp h
  obtain ⟨rfl, row, hreached, hsame, hmoved⟩ := sourceOf_returns htaken
  obtain ⟨hgoes, hadmits, hdir⟩ := directoryForWrite_goes (hs.steps (goes_locate hfound).steps) hparent
  obtain ⟨hgoes', hopens'⟩ := mayLeave_goes hleave
  have hgoes₄ := ((goes_locate hfound).trans hs hgoes).trans hs hgoes'
  have hs₄ := hs.steps hgoes₄.steps
  have hopens : Opens caller.id m₁.toStore m₄.toStore :=
    IsTrans.trans _ _ _ (keeps_directoryForWrite opens_ensureRoot hparent) hopens'
  have hid : taken.id = row.id := by rw [hsame]
  have hlive : m₄.liveNode taken.id = some row :=
    hopens.liveNode (hid ▸ (locate_live hfound hreached).1)
  have hadmits₄ := hadmits.kept hopens'.grants fun _ => hopens'.find
  have hstill : Opens caller.id m₄.toStore m₄.toStore := refl _
  obtain ⟨hvacated, hapart⟩ := replace_vacates hs₄ hstill hs₄ hadmits₄.liveNode hlive
    hreplace
  have hgoes₅ := replace_goes hs₄ hadmits₄ hlive hreplace
  have hgoes := hgoes₄.trans hs hgoes₅
  have hs₅ := hs₄.steps hgoes₅.steps
  -- what is above the source, or above the new parent, is not in what is sent away
  have habove : ∀ {x r}, AtOrBelow m₄.nodes taken.id x → m₄.nodes.find x = some r →
      m₅.nodes.find x = some r := fun hup hrow => hvacated.kept _ _ hrow fun o ho hbelow =>
    hapart o ho (hup.trans hbelow.atOrBelow)
  have hfolder : ∀ {x r}, AtOrBelow m₄.nodes parent.id x → m₄.nodes.find x = some r →
      m₅.nodes.find x = some r := fun hup hrow => hvacated.kept _ _ hrow fun o ho hbelow => by
    obtain ⟨hmem, hp, -, -⟩ := child_eq_some ho
    exact (hs₄.forest.grounded o.id).not_up_parent ((parentOf_of_mem hmem).trans hp)
      (hup.trans hbelow.atOrBelow)
  have hadmits₅ := hadmits₄.kept hgoes₅.stays.grants hfolder
  obtain ⟨hsfind, hslive⟩ := liveNode_eq_some.mp hlive
  have hsource : m₅.liveNode taken.id = some row :=
    liveNode_eq_some.mpr ⟨habove .refl hsfind, hslive⟩
  split_ifs at hlast with hmoving
  · obtain rfl := hmoved hmoving
    have hw₁ := (hs.steps (goes_locate hfound).steps).forest
    have hcase : taken.ownerId = caller.id ∨ m₁.Beneath caller taken.id := by
      unfold Dav.sourceOf at htaken
      rw [if_pos hmoving] at htaken
      split_ifs at htaken with hwrite
      · exact (beneath_of_movable hw₁ (locate_admitted hw₁ hfound) hwrite htaken).2.2
      · exact absurd htaken fail_returns
    have howner' : parent.ownerId = taken.ownerId := by
      by_contra hne
      exact howner ⟨hmoving, hne⟩
    exact hgoes.trans hs (moved_goes hs₅ hsource (hcase.imp_right fun hbeneath =>
      (hbeneath.kept hopens.grants fun _ => hopens.find).kept hgoes₅.stays.grants habove)
      hadmits₅ howner' hname hlast)
  · have hlooked : LookedUp m₅ taken := ⟨row, hsource, hsame⟩
    refine hgoes.trans hs (.single (.copyTree hlooked hadmits₅.liveNode hlast) (fun hfree =>
      hfree.copyTree (Table.mem_iff_find.mp hadmits₅.row) hname hlast) (within_grown
      (copyTree_grown hs₅.forest hs₅.named ⟨row, habove .refl hsfind, by rw [hsame]⟩
        ⟨parent, Table.mem_iff_find.mp hadmits₅.row, hadmits₅.live⟩ (fun r hrow => ?_) .refl hlast)
      (hadmits₅.theirs.imp_right Store.Lent.tethered)))
    rw [Table.mem_iff_find.mp hadmits₅.row] at hrow
    cases hrow
    exact ⟨rfl, rfl⟩

/-- Without a root to open, `file_target` only looks. -/
def Still (caller : User) (s s' : Store) : Prop :=
  Sane s ∧ (∃ root, s.rootOf caller.id = some root) → s' = s

instance : IsPreorder Store (Still caller) where
  refl _ _ := rfl
  trans _ _ _ h h' hs := by
    have hsame := h hs
    rw [hsame] at h'
    exact h' hs

theorem still_ensureRoot : Keeps (Still caller) (ensureRoot caller.id quota) := by
  rintro db root m h ⟨hs, found, hfound⟩
  have hopen : (ensureRoot caller.id quota).Returns db found db := ensureRoot_of_rooted hs hfound
  unfold Returns at h hopen
  rw [hopen, Except.ok.injEq, Prod.mk.injEq] at h
  rw [h.2]

theorem keeps_targetIn {R : Store → Store → Prop} [IsPreorder Store R]
    (hroot : Keeps R (ensureRoot caller.id quota)) :
    Keeps R (targetIn caller segments false quota) := by
  refine keeps_bind keeps_orFail fun name => keeps_bind (keeps_directoryForWrite hroot) fun parent =>
    keeps_bind ?_ fun _ => keeps_pure
  unfold refuseReserved
  exact keeps_ite keeps_fail keeps_pure

/-- Below the shelf, `directory_for_write` only looks. -/
theorem directoryForWrite_shelf {first : NodeName} {below : List NodeName}
    (hshelf : isShelf first = true)
    (h : (directoryForWrite caller (first :: mountName :: below) false quota).Returns db parent m) :
    db = m := by
  rw [directoryForWrite_eq] at h
  obtain ⟨top, m₁, htop, h⟩ := bind_returns.mp h
  obtain ⟨directory, m₂, hdirectory, h⟩ := bind_returns.mp h
  obtain ⟨-, rfl⟩ := resolve_returns_iff.mp hdirectory
  unfold topForWrite at htop
  dsimp only at htop
  rw [if_pos hshelf] at htop
  obtain ⟨found, m₂, hmount, htop⟩ := bind_returns.mp htop
  obtain ⟨-, rfl⟩ := mount_returns_iff.mp hmount
  split_ifs at htop
  · obtain ⟨-, rfl⟩ := pure_returns.mp htop
    split_ifs at h
    · exact (pure_returns.mp h).2
    · exact absurd h fail_returns
  · exact absurd htop fail_returns

/-- A second look at a path that leads to a file writes nothing. -/
theorem fileTarget_still {into : Node × NodeName} (hs : Sane db.toStore)
    (hfound : (locate caller path quota).Returns db place m) (hnode : place.intoNode.Returns m node m)
    (hfile : node.isDirectory = false) {m₁ m₂ : Db} (hs₁ : Sane m₁.toStore) (hnodes : m₁.nodes = m.nodes)
    (h : (fileTarget caller path false quota).Returns m₁ into m₂) : m₁ = m₂ := by
  have hw := (hs.steps (goes_locate hfound).steps).forest
  unfold locate at hfound
  cases path with
  | nil =>
    obtain ⟨root, m, hroot, hfound⟩ := bind_returns.mp hfound
    obtain ⟨rfl, rfl⟩ := pure_returns.mp hfound
    obtain ⟨rfl, -⟩ := pure_returns.mp hnode
    obtain ⟨hlive, -, hp⟩ := ensureRoot_live hroot
    rw [(hw.root (liveNode_eq_some.mp hlive).1 hp).2] at hfile
    cases hfile
  | cons first rest =>
    dsimp only at hfound
    split_ifs at hfound with hshelf
    · cases rest with
      | nil =>
        obtain ⟨rfl, -⟩ := pure_returns.mp hfound
        exact absurd hnode fail_returns
      | cons mountName below =>
        cases below with
        | nil =>
          unfold fileTarget at h
          dsimp only at h
          rw [if_pos hshelf] at h
          exact (mountedFile_goes hs₁ h).1
        | cons segment below =>
          have h : (targetIn caller (first :: mountName :: segment :: below) false quota).Returns m₁
            into m₂ := h
          obtain ⟨name, m₃, hname, h⟩ := bind_returns.mp h
          obtain ⟨-, rfl⟩ := orFail_returns.mp hname
          obtain ⟨parent, m₃, hparent, h⟩ := bind_returns.mp h
          obtain ⟨_, m₄, hreserved, h⟩ := bind_returns.mp h
          obtain rfl := refuseReserved_returns hreserved
          obtain ⟨-, rfl⟩ := pure_returns.mp h
          exact directoryForWrite_shelf hshelf hparent
    · obtain ⟨root, m, hroot, hfound⟩ := bind_returns.mp hfound
      obtain ⟨found, m', hbelow, hfound⟩ := bind_returns.mp hfound
      obtain ⟨-, rfl⟩ := pure_returns.mp hfound
      obtain ⟨-, rfl⟩ := resolve_returns_iff.mp hbelow
      obtain ⟨hlive, howner, hp⟩ := ensureRoot_live hroot
      obtain ⟨hfind, hl⟩ := liveNode_eq_some.mp hlive
      have hrooted : m₁.rootOf caller.id = some root :=
        rootOf_eq (by rw [hnodes]; exact hfind) howner hp hl
      have hin : ∀ {segments}, (targetIn caller segments false quota).Returns m₁ into m₂ →
          m₁ = m₂ := fun h =>
        (Db.ext_store (keeps_targetIn (R := Still caller) still_ensureRoot h ⟨hs₁, _, hrooted⟩)).symm
      unfold fileTarget at h
      split at h
      · rename_i hpath
        cases hpath
        rw [if_neg hshelf] at h
        exact hin h
      · exact hin h

/-- **`restore`** of `routes/versions.rs`. -/
theorem restoreVersion_goes (hs : Sane db.toStore)
    (h : (Routes.restoreVersion app caller path id).Returns db node db') : Goes caller db db' := by
  obtain ⟨_, m, hwriter, h⟩ := bind_returns.mp h
  obtain rfl := writer_returns hwriter
  obtain ⟨found, m₁, hfound, h⟩ := bind_returns.mp h
  obtain ⟨hlocate, hwrite⟩ := locateWritable_returns hfound
  obtain ⟨located, m₂, hlocated, h⟩ := bind_returns.mp h
  obtain ⟨rfl, row, hreached, hsame⟩ := intoNode_returns hlocated
  obtain ⟨file, m₃, hfile, h⟩ := bind_returns.mp h
  obtain ⟨version, m₄, htake, h⟩ := bind_returns.mp h
  obtain ⟨into, m₅, hinto, hput⟩ := bind_returns.mp h
  unfold Routes.file at hfile
  obtain ⟨hkind, hfile⟩ := of_guard hfile
  obtain ⟨rfl, rfl⟩ := pure_returns.mp hfile
  have hgoes := goes_locate hlocate
  have hs₁ := hs.steps hgoes.steps
  have hadmits := admits_of_writable hs₁.forest (locate_admitted hs₁.forest hlocate) hwrite hreached
  have hid : file.id = row.id := by rw [hsame]
  have howner : file.ownerId = row.ownerId := by rw [hsame]
  have hdir : row.isDirectory = false := by
    rw [hsame] at hkind
    simpa [Node.isDirectory] using hkind
  rw [hid, howner] at htake
  have hbeside : Beside m₁.toStore m₄.toStore := keeps_take htake
  have hs₄ : Sane m₄.toStore :=
    take_sane hs₁ (Table.mem_iff_find.mp hadmits.row) hadmits.live htake
  obtain rfl := fileTarget_still hs hlocate hlocated (by rw [hsame]; exact hdir) hs₄ hbeside.nodes
    hinto
  obtain ⟨-, hlive, hinto, htakes⟩ := fileTarget_goes hs₄ hinto
  have hplive : m₁.liveNode into.1.id = some into.1 := by
    rw [liveNode_eq_some] at hlive ⊢
    exact hbeside.nodes ▸ hlive
  have hstep : Step m₁ db' := .restoreVersion hadmits.liveNode hplive hinto
    (bind_returns.mpr ⟨version, m₄, htake, hput⟩)
  obtain ⟨hstays, hwithin⟩ : Stays m₁.toStore m₄.toStore ∧ Within caller m₁.toStore m₄.toStore :=
    within_same hbeside.grants hbeside.nodes
  obtain ⟨hstays', hwithin'⟩ :=
    within_putFile htakes.old (fun hno => (htakes.new hno).1) hput
  refine hgoes.trans hs (.single hstep (fun hfree => ?_) ⟨IsTrans.trans _ _ _ hstays hstays',
    hwithin.trans hstays hs₁.forest hwithin' hs₄.forest hstays'⟩)
  exact (hfree.of_same hbeside.grants hbeside.nodes).putFile (liveNode_eq_some.mp hlive).1
    (fun hno => (htakes.new hno).2) hput

/-- What writes locks only. -/
def OnlyLocks (s s' : Store) : Prop := s' = { s with locks := s'.locks, next := s'.next }

instance : IsPreorder Store OnlyLocks where
  refl _ := rfl
  trans _ _ _ h h' := by
    unfold OnlyLocks at *
    rw [h', h]

theorem OnlyLocks.goes (h : OnlyLocks db.toStore db'.toStore) (hstep : Step db db') :
    Goes caller db db' :=
  .aside hstep (by rw [h]) (by rw [h])

theorem onlyLocks_takeLock {ownerId : Uuid} : Keeps OnlyLocks (takeLock node ownerId deep seconds) := by
  refine keeps_bind (keeps_execute fun _ => rfl) fun _ => keeps_bind (keeps_fresh fun _ => rfl)
    fun token => keeps_bind (keeps_mapViolated ?_) fun _ => keeps_bind keeps_query fun _ => keeps_orFail
  refine keeps_insertRow fun s s' h => ?_
  obtain ⟨locks, -, rfl⟩ := Option.map_eq_some_iff.mp h
  rfl

theorem onlyLocks_refresh {token : Uuid} : Keeps OnlyLocks (refresh token node seconds) :=
  keeps_bind keeps_query fun _ => keeps_bind (keeps_execute fun _ => rfl) fun _ => keeps_query

theorem onlyLocks_release {token : Uuid} : Keeps OnlyLocks (releaseLock node token) :=
  keeps_bind keeps_query fun _ => keeps_bind (keeps_execute fun _ => rfl) fun _ => keeps_pure

theorem lockTarget_goes (hs : Sane db.toStore)
    (h : (Dav.lockTarget app caller path).Returns db node m) : Goes caller db m := by
  rcases orElseNotFound_cases h with h | ⟨-, h⟩
  · obtain ⟨found, m₁, hfound, h⟩ := bind_returns.mp h
    obtain ⟨rfl, -⟩ := intoNode_returns h
    exact goes_locate (locateWritable_returns hfound).1
  · obtain ⟨wanted, m₁, hwanted, h⟩ := bind_returns.mp h
    obtain ⟨-, rfl⟩ := orFail_returns.mp hwanted
    obtain ⟨into, m₁, hinto, hput⟩ := bind_returns.mp h
    obtain ⟨hgoes, hlive, hdir, htakes⟩ := fileTarget_goes hs (mapNotFound_returns.mp hinto)
    exact hgoes.trans hs (htakes.putFile_goes hlive hdir hput)

theorem takeOn_goes {lock : Lock} (hs : Sane db.toStore)
    (h : (Dav.takeOn app caller path submitted deep seconds).Returns db lock db') :
    Goes caller db db' := by
  obtain ⟨_, m, hwriter, h⟩ := bind_returns.mp h
  obtain rfl := writer_returns hwriter
  obtain ⟨target, m₁, htarget, h⟩ := bind_returns.mp h
  obtain ⟨_, m₂, hallows, htake⟩ := bind_returns.mp h
  obtain rfl := allows_returns hallows
  exact (lockTarget_goes hs htarget).trans hs ((onlyLocks_takeLock htake).goes (.takeLock htake))

theorem refreshFirst_goes {tokens : List Uuid} {lock : Lock} (hs : Sane db.toStore)
    (h : (Dav.refreshFirst node seconds tokens).Returns db lock db') : Goes caller db db' := by
  induction tokens generalizing db with
  | nil => exact absurd h fail_returns
  | cons token tokens ih =>
    obtain ⟨refreshed, m, hrefresh, h⟩ := bind_returns.mp h
    have hgoes : Goes caller db m := (onlyLocks_refresh hrefresh).goes (.refresh hrefresh)
    cases refreshed with
    | none => exact hgoes.trans hs (ih (hs.steps hgoes.steps) h)
    | some lock =>
      obtain ⟨-, rfl⟩ := pure_returns.mp h
      exact hgoes

theorem davRefresh_goes {lock : Lock} (hs : Sane db.toStore)
    (h : (Dav.refresh app caller path submitted seconds).Returns db lock db') :
    Goes caller db db' := by
  obtain ⟨_, m, hwriter, h⟩ := bind_returns.mp h
  obtain rfl := writer_returns hwriter
  obtain ⟨found, m₁, hfound, h⟩ := bind_returns.mp h
  obtain ⟨target, m₂, htarget, hrefresh⟩ := bind_returns.mp h
  obtain ⟨rfl, -⟩ := intoNode_returns htarget
  have hgoes : Goes caller db m₁ := goes_locate (locateWritable_returns hfound).1
  exact hgoes.trans hs (refreshFirst_goes (hs.steps hgoes.steps) hrefresh)

theorem quotaHolder_goes {holder : Uuid} (h : (quotaHolder caller path quota).Returns db holder m) :
    Goes caller db m := by
  unfold quotaHolder at h
  cases path with
  | nil =>
    obtain ⟨root, m, hroot, h⟩ := bind_returns.mp h
    obtain ⟨-, rfl⟩ := pure_returns.mp h
    exact goes_ensureRoot hroot
  | cons first rest =>
    dsimp only at h
    split_ifs at h
    · cases rest with
      | nil => exact absurd h fail_returns
      | cons mountName below =>
        obtain ⟨top, m, hmount, h⟩ := bind_returns.mp h
        obtain ⟨-, rfl⟩ := mount_returns_iff.mp hmount
        split_ifs at h
        · obtain ⟨-, rfl⟩ := pure_returns.mp h
          exact .rfl'
        · exact absurd h fail_returns
    · obtain ⟨root, m, hroot, h⟩ := bind_returns.mp h
      obtain ⟨-, rfl⟩ := pure_returns.mp h
      exact goes_ensureRoot hroot

theorem beginUpload_goes (hs : Sane db.toStore)
    (h : (Routes.beginUpload app tagText caller headers path size).Returns db u db') :
    Goes caller db db' := by
  obtain ⟨_, m, hwriter, h⟩ := bind_returns.mp h
  obtain rfl := writer_returns hwriter
  obtain ⟨-, h⟩ := of_guard h
  obtain ⟨holder, m₁, hholder, h⟩ := bind_returns.mp h
  obtain ⟨_, m₂, hroom, h⟩ := bind_returns.mp h
  obtain ⟨existing, m₃, hexisting, hcheck⟩ := bind_returns.mp h
  obtain ⟨rfl, -⟩ := check_returns hcheck
  obtain ⟨left, m₄, hleft, hroom⟩ := bind_returns.mp hroom
  obtain ⟨-, rfl⟩ := query_returns.mp hleft
  obtain ⟨-, hroom⟩ := of_guard hroom
  obtain ⟨-, rfl⟩ := pure_returns.mp hroom
  have hgoes : Goes caller db m₁ := quotaHolder_goes hholder
  refine hgoes.trans hs ?_
  rcases orElseNotFound_cases hexisting with hfound | ⟨-, hnone⟩
  · obtain ⟨into, m₄, hinto, hchild⟩ := bind_returns.mp hfound
    obtain ⟨-, rfl⟩ := child_returns.mp hchild
    exact (fileTarget_goes (hs.steps hgoes.steps) hinto).1
  · obtain ⟨-, rfl⟩ := pure_returns.mp hnone
    exact .rfl'

end Handlers

end Stashden.Api
