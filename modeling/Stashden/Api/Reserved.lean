import Stashden.Api.Within

/-!
# The shelf's name (`refuse_reserved` of `api/src/access.rs`)

A node named like the shelf directly in a root would be hidden behind it. `ShelfFree` says that there
is none, in the trash or out of it, and that no root is shared, so that what is put below a mount is
never put directly in a root. It is kept wherever rows keep their names and places
(`ShelfFree.of_placed`), by a root that is opened, and by a file, a folder, a copy or a move under a
name that `refuse_reserved` lets through (`MayHold`).
-/

namespace Stashden.Api

open Lib Stashden.Core Tx

/-- Nothing in a root is named like the shelf, and no root is shared. -/
structure ShelfFree (s : Store) : Prop where
  named : ∀ {k row top root}, s.nodes.find k = some row → row.parentId = some top →
    s.nodes.find top = some root → root.parentId = none → row.name ≠ sharedWithMe
  shared : ∀ g ∈ s.grants.rows, ∀ {row}, s.nodes.find g.nodeId = some row → row.parentId ≠ none

/-- A name that may stand in a node. -/
def MayHold (parent : Node) (name : Str) : Prop := parent.parentId = none → name ≠ sharedWithMe

/-- What is added has a parent that may hold it. -/
def Hangs (t : Table Node Node.id) (n : Node) : Prop :=
  ∃ top, n.parentId = some top ∧ ∀ parent, t.find top = some parent → MayHold parent n.name

variable {s s' : Store} {db db' m : Db} {ownerId into : Uuid} {node parent source root : Node}
  {name : NodeName} {hash : BlobHash} {size : Nat} {quota versionsKept : Int} {u : Unit} {str : Str}

theorem ShelfFree.unreserved (h : ShelfFree s) (hroot : s.nodes.find root.id = some root)
    (hp : root.parentId = none) : Unreserved s root := by
  unfold Unreserved
  cases hchild : s.child root.id sharedWithMe with
  | none => rfl
  | some row =>
    obtain ⟨hmem, hparent, hname, -⟩ := child_eq_some hchild
    exact absurd hname (h.named (Table.mem_iff_find.mp hmem) hparent hroot hp)

theorem mayHold_of_refuseReserved (h : (refuseReserved parent name).Returns db u db') :
    MayHold parent name.str := by
  unfold refuseReserved at h
  split_ifs at h with hreserved
  · exact absurd h fail_returns
  · exact fun hp hname => hreserved ⟨hp, decide_eq_true hname⟩

/-- What has a parent may hold any name. -/
theorem mayHold_of_child {top : Uuid} (hp : parent.parentId = some top) : MayHold parent str := by
  intro hnone
  rw [hp] at hnone
  cases hnone

namespace ShelfFree

/-- **Rows that keep their names and places**, or go. -/
theorem of_placed (h : ShelfFree s) (hgrants : ∀ g ∈ s'.grants.rows, g ∈ s.grants.rows)
    (hnodes : ∀ {k row'}, s'.nodes.find k = some row' → ∃ row, s.nodes.find k = some row ∧
      row'.parentId = row.parentId ∧ row'.name = row.name) : ShelfFree s' where
  named hrow' hp hroot' hnone := by
    obtain ⟨row, hrow, hparent, hname⟩ := hnodes hrow'
    obtain ⟨root, hroot, htop, -⟩ := hnodes hroot'
    rw [hname]
    exact h.named hrow (hparent.symm.trans hp) hroot (htop.symm.trans hnone)
  shared g hg row' hrow' := by
    obtain ⟨row, hrow, hparent, -⟩ := hnodes hrow'
    rw [hparent]
    exact h.shared g (hgrants g hg) hrow

theorem of_same (h : ShelfFree s) (hgrants : s'.grants = s.grants) (hnodes : s'.nodes = s.nodes) :
    ShelfFree s' :=
  h.of_placed (fun _ hg => hgrants ▸ hg) fun hrow => ⟨_, hnodes ▸ hrow, rfl, rfl⟩

/-- Rows that are changed, each by itself. -/
theorem of_map {f : Node → Node} (h : ShelfFree s) (hgrants : s'.grants = s.grants)
    (hnodes : ∀ k, s'.nodes.find k = (s.nodes.find k).map f)
    (hf : ∀ n, (f n).parentId = n.parentId ∧ (f n).name = n.name) : ShelfFree s' := by
  refine h.of_placed (fun _ hg => hgrants ▸ hg) fun hrow' => ?_
  rw [hnodes] at hrow'
  obtain ⟨row, hrow, rfl⟩ := Option.map_eq_some_iff.mp hrow'
  exact ⟨row, hrow, hf row⟩

/-- A root that is opened holds nothing, and is shared with nobody. -/
theorem opens (h : ShelfFree db.toStore) (ho : Opens ownerId db.toStore m.toStore) :
    ShelfFree m.toStore where
  named hrow hp hroot hnone := by
    rcases ho.find_back hrow with hold | ⟨-, hparent, -⟩
    · have hheld := (db.sound .nodesForeign _ (Table.find_mem hold)).2.1 _ hp
      obtain ⟨above, habove⟩ := Option.isSome_iff_exists.mp hheld
      rw [ho.find habove] at hroot
      cases hroot
      exact h.named hold hp habove hnone
    · rw [hp] at hparent
      cases hparent
  shared g hg row hrow := by
    rw [ho.grants] at hg
    obtain ⟨old, hold⟩ := Option.isSome_iff_exists.mp (db.sound .grantsForeign g hg).1
    rw [ho.find hold] at hrow
    cases hrow
    exact h.shared g hg hold

/-- **What is added** where it may hang. -/
theorem grown (h : ShelfFree db.toStore) (hg : Grown Hangs db.toStore s') : ShelfFree s' := by
  have key := hg.induct (I := fun t => (∀ {k row top root}, t.find k = some row →
      row.parentId = some top → t.find top = some root → root.parentId = none →
        row.name ≠ sharedWithMe) ∧
    ∀ g ∈ db.grants.rows, ∀ {row}, t.find g.nodeId = some row → row.parentId ≠ none)
    ⟨h.named, h.shared⟩ fun t t' n hI hP hins => by
      obtain ⟨parentId, hparent, hhold⟩ := hP
      refine ⟨fun {k row top root} hrow hp hroot hnone => ?_, fun g hg row hrow => ?_⟩
      · rw [Table.find_insert hins] at hrow hroot
        split_ifs at hroot
        · cases hroot
          rw [hparent] at hnone
          cases hnone
        · split_ifs at hrow
          · cases hrow
            rw [hparent] at hp
            cases hp
            exact hhold root hroot hnone
          · exact hI.1 hrow hp hroot hnone
      · rw [Table.find_insert hins] at hrow
        split_ifs at hrow
        · cases hrow
          rw [hparent]
          exact Option.some_ne_none parentId
        · exact hI.2 g hg hrow
  exact ⟨key.1, hg.steady.grants ▸ key.2⟩

end ShelfFree

/-! ## Folders, files, copies and moves -/

theorem insertNode_hangs {body : Body} {etag : Etag}
    (hinto : ∀ parent, db.nodes.find into = some parent → MayHold parent str)
    (h : (insertNode ownerId (some into) str body etag).Returns db node db') :
    Grown Hangs db.toStore db'.toStore ∧ db'.nodes.find node.id = some node ∧
      node.parentId = some into := by
  obtain ⟨hnode, nodes, hins, hs⟩ := insertNode_returns h
  have hnodes : db.nodes.insert node = some db'.nodes := by rw [hs, hins]
  have hparent : node.parentId = some into := by rw [hnode]
  refine ⟨.single (Or.inr ⟨?_, node, ⟨into, hparent, ?_⟩, hnodes⟩), find_insert_self hnodes, hparent⟩
  · rw [hs]
    exact ⟨rfl, rfl, rfl, rfl, Nat.le_succ _⟩
  · rw [hnode]
    exact hinto

theorem insertDirectory_hangs (hinto : ∀ parent, db.nodes.find into = some parent →
      MayHold parent name.str)
    (h : (insertDirectory ownerId into name).Returns db node db') :
    Grown Hangs db.toStore db'.toStore ∧ db'.nodes.find node.id = some node ∧
      node.parentId = some into := by
  unfold insertDirectory at h
  obtain ⟨existing, m, hchild, h⟩ := bind_returns.mp h
  obtain ⟨rfl, rfl⟩ := child_returns.mp hchild
  cases hex : db.child into name.str with
  | some existing =>
    rw [hex] at h
    simp only at h
    split_ifs at h with hdir
    · obtain ⟨rfl, rfl⟩ := pure_returns.mp h
      obtain ⟨hmem, hp, -⟩ := child_eq_some hex
      exact ⟨refl _, Table.mem_iff_find.mp hmem, hp⟩
    · exact absurd h fail_returns
  | none =>
    rw [hex] at h
    obtain ⟨etag, m, hetag, hins⟩ := bind_returns.mp h
    have hb := keeps_etagForDirectory (R := Beside) hetag
    obtain ⟨hgrown, hrest⟩ := insertNode_hangs (hb.nodes ▸ hinto) hins
    exact ⟨(Grown.of_beside hb).trans hgrown, hrest⟩

theorem createBelow_hangs {segments : List NodeName} (hfind : db.nodes.find root.id = some root)
    (hfirst : ∀ first ∈ segments.head?, MayHold root first.str)
    (h : (createBelow ownerId root segments).Returns db node db') :
    Grown Hangs db.toStore db'.toStore := by
  induction segments generalizing root db with
  | nil =>
    obtain ⟨-, rfl⟩ := pure_returns.mp h
    exact refl _
  | cons segment segments ih =>
    rw [createBelow] at h
    obtain ⟨existing, m, hchild, h⟩ := bind_returns.mp h
    obtain ⟨rfl, rfl⟩ := child_returns.mp hchild
    cases hex : db.child root.id segment.str with
    | some existing =>
      rw [hex] at h
      simp only at h
      split_ifs at h with hdir
      · obtain ⟨hmem, hp, -⟩ := child_eq_some hex
        exact ih (Table.mem_iff_find.mp hmem) (fun _ _ => mayHold_of_child hp) h
      · exact absurd h fail_returns
    | none =>
      rw [hex] at h
      obtain ⟨created, m, hcreated, h⟩ := bind_returns.mp h
      obtain ⟨hgrown, hf, hp⟩ := insertDirectory_hangs (fun parent hparent => by
        rw [hfind] at hparent
        cases hparent
        exact hfirst segment rfl) hcreated
      exact hgrown.trans (ih hf (fun _ _ => mayHold_of_child hp) h)

/-- **`create_directories`**, where the first name may stand in the folder it begins at. -/
theorem ShelfFree.createDirectories {segments : List NodeName} (hs : ShelfFree db.toStore)
    (hfind : db.nodes.find root.id = some root)
    (hfirst : ∀ first ∈ segments.head?, MayHold root first.str)
    (h : (Api.createDirectories ownerId root segments).Returns db node db') :
    ShelfFree db'.toStore := by
  unfold Api.createDirectories at h
  split_ifs at h
  · exact absurd h fail_returns
  · exact hs.grown (createBelow_hangs hfind hfirst h)

/-- **`put_file`**: the file is there already, or its name may stand in the folder. -/
theorem ShelfFree.putFile (hs : ShelfFree db.toStore) (hfind : db.nodes.find parent.id = some parent)
    (hname : db.child parent.id name.str = none → MayHold parent name.str)
    (h : (Api.putFile ownerId parent name hash size versionsKept).Returns db node db') :
    ShelfFree db'.toStore := by
  obtain ⟨hsteady, ⟨old, -, -, -, hnodes⟩ | ⟨hno, hins, id, hnode⟩⟩ := putFile_nodes h
  · refine hs.of_map hsteady.grants hnodes fun n => ?_
    split_ifs <;> exact ⟨rfl, rfl⟩
  · refine hs.grown (.single (Or.inr ⟨hsteady, node, ⟨parent.id, ?_, fun above habove => ?_⟩, hins⟩))
    · rw [hnode]
    · rw [hfind] at habove
      cases habove
      rw [hnode]
      exact hname hno

/-- **`rename`**, to a name that may stand in the new parent. -/
theorem ShelfFree.rename {moved : Node} (hs : ShelfFree db.toStore)
    (hfind : db.nodes.find parent.id = some parent) (hname : MayHold parent name.str)
    (h : (Api.rename node parent name).Returns db moved db') : ShelfFree db'.toStore := by
  obtain ⟨hsteady, -, -, -, etag, hnodes, -⟩ := rename_nodes h
  -- a root was no row that moved
  have hback : ∀ {k row'}, db'.nodes.find k = some row' → ∃ row, db.nodes.find k = some row ∧
      (row' = row ∨ row'.parentId = some parent.id ∧ row'.name = name.str) := by
    intro k row' hrow'
    rw [hnodes] at hrow'
    obtain ⟨row, hrow, rfl⟩ := Option.map_eq_some_iff.mp hrow'
    refine ⟨row, hrow, ?_⟩
    split_ifs
    · exact Or.inr ⟨rfl, rfl⟩
    · exact Or.inl rfl
  have hroots : ∀ {k root}, db'.nodes.find k = some root → root.parentId = none →
      db.nodes.find k = some root := by
    intro k root hroot hnone
    obtain ⟨row, hrow, rfl | ⟨hp, -⟩⟩ := hback hroot
    · exact hrow
    · rw [hp] at hnone
      cases hnone
  refine ⟨fun {k row top root} hrow hp hroot hnone => ?_, fun g hg row hrow => ?_⟩
  · have hold := hroots hroot hnone
    obtain ⟨old, hfound, rfl | ⟨hparent, hnamed⟩⟩ := hback hrow
    · exact hs.named hfound hp hold hnone
    · rw [hparent] at hp
      cases hp
      rw [hfind] at hold
      cases hold
      exact hnamed ▸ hname hnone
  · rw [hsteady.grants] at hg
    obtain ⟨old, hfound, rfl | ⟨hparent, -⟩⟩ := hback hrow
    · exact hs.shared g hg hfound
    · rw [hparent]
      exact Option.some_ne_none _

theorem copyOne_hangs {original copy : Node}
    (hinto : ∀ parent, db.nodes.find into = some parent → MayHold parent str)
    (h : (copyOne ownerId into str original).Returns db copy db') :
    Grown Hangs db.toStore db'.toStore ∧ db'.nodes.find copy.id = some copy ∧
      copy.parentId = some into := by
  unfold copyOne at h
  obtain ⟨tag, m₁, htag, h⟩ := bind_returns.mp h
  obtain ⟨made, m₂, hmade, h⟩ := bind_returns.mp h
  obtain ⟨_, m₃, hacquire, h⟩ := bind_returns.mp h
  obtain ⟨rfl, rfl⟩ := pure_returns.mp h
  have hb := keeps_etagForDirectory (R := Beside) htag
  have hb' := keeps_acquireOf (R := Beside) hacquire
  obtain ⟨hgrown, hfind, hp⟩ := insertNode_hangs (hb.nodes ▸ hinto) (mapViolated_returns.mp hmade)
  exact ⟨(Grown.of_beside hb).trans (hgrown.trans (Grown.of_beside hb')), hb'.nodes ▸ hfind, hp⟩

/-- A row with a parent. -/
def Deep (t : Table Node Node.id) (id : Uuid) : Prop :=
  ∃ row, t.find id = some row ∧ row.parentId ≠ none

theorem Deep.grown {P : Table Node Node.id → Node → Prop} {id : Uuid} (h : Deep s.nodes id)
    (hg : Grown P s s') : Deep s'.nodes id := by
  obtain ⟨row, hrow, hp⟩ := h
  exact ⟨row, hg.find hrow, hp⟩

theorem Deep.mayHold (h : Deep s.nodes into) (hparent : s.nodes.find into = some parent) :
    MayHold parent str := by
  obtain ⟨row, hrow, hp⟩ := h
  rw [hparent] at hrow
  cases hrow
  exact fun hnone => absurd hnone hp

theorem copyChildren_hangs {originals : List Node} {copied : List (Uuid × Uuid) × Int}
    (hinto : Deep db.nodes into) (h : (copyChildren ownerId into originals).Returns db copied db') :
    Grown Hangs db.toStore db'.toStore ∧ ∀ pair ∈ copied.1, Deep db'.nodes pair.2 := by
  induction originals generalizing db copied with
  | nil =>
    obtain ⟨rfl, rfl⟩ := pure_returns.mp h
    exact ⟨refl _, fun pair hpair => absurd hpair List.not_mem_nil⟩
  | cons original originals ih =>
    rw [copyChildren] at h
    obtain ⟨copy, m, hcopy, h⟩ := bind_returns.mp h
    obtain ⟨rest, m', hrest, h⟩ := bind_returns.mp h
    obtain ⟨rfl, rfl⟩ := pure_returns.mp h
    obtain ⟨hgrown, hfind, hp⟩ := copyOne_hangs (fun _ => hinto.mayHold) hcopy
    obtain ⟨hgrown', hpairs⟩ := ih (hinto.grown hgrown) hrest
    refine ⟨hgrown.trans hgrown', fun pair hpair => ?_⟩
    split_ifs at hpair
    · rcases List.mem_append.mp hpair with hpair | hpair
      · exact hpairs pair hpair
      · rw [List.mem_singleton.mp hpair]
        exact ⟨copy, hgrown'.find hfind, by rw [hp]; exact Option.some_ne_none _⟩
    · exact hpairs pair hpair

theorem copyPending_hangs {rounds : Nat} {pending : List (Uuid × Uuid)} {bytes : Int}
    (hinto : ∀ pair ∈ pending, Deep db.nodes pair.2)
    (h : (copyPending ownerId rounds pending).Returns db bytes db') :
    Grown Hangs db.toStore db'.toStore := by
  induction rounds generalizing db pending bytes with
  | zero =>
    cases pending with
    | nil =>
      obtain ⟨-, rfl⟩ := pure_returns.mp h
      exact refl _
    | cons pair pending => exact absurd h fail_returns
  | succ rounds ih =>
    cases pending with
    | nil =>
      obtain ⟨-, rfl⟩ := pure_returns.mp h
      exact refl _
    | cons pair pending =>
      rw [copyPending] at h
      obtain ⟨originals, m, horiginals, h⟩ := bind_returns.mp h
      obtain ⟨-, rfl⟩ := query_returns.mp horiginals
      obtain ⟨copied, m, hcopied, h⟩ := bind_returns.mp h
      obtain ⟨rest, m', hrest, h⟩ := bind_returns.mp h
      obtain ⟨-, rfl⟩ := pure_returns.mp h
      obtain ⟨hgrown, hpairs⟩ := copyChildren_hangs (hinto pair List.mem_cons_self) hcopied
      refine hgrown.trans (ih (fun pair' hpair' => ?_) hrest)
      rcases List.mem_append.mp hpair' with hpair' | hpair'
      · exact hpairs pair' hpair'
      · exact (hinto pair' (List.mem_cons_of_mem _ hpair')).grown hgrown

/-- **`copy_tree`**, to a name that may stand in the folder it goes to. -/
theorem ShelfFree.copyTree {copy : Node} (hs : ShelfFree db.toStore)
    (hfind : db.nodes.find parent.id = some parent) (hname : MayHold parent name.str)
    (h : (Api.copyTree ownerId source parent name).Returns db copy db') : ShelfFree db'.toStore := by
  unfold Api.copyTree at h
  obtain ⟨-, h⟩ := of_guard h
  obtain ⟨inside, m, hinside, h⟩ := bind_returns.mp h
  obtain ⟨-, rfl⟩ := query_returns.mp hinside
  obtain ⟨-, h⟩ := of_guard h
  obtain ⟨taken, m, htaken, h⟩ := bind_returns.mp h
  obtain ⟨-, rfl⟩ := child_returns.mp htaken
  obtain ⟨-, h⟩ := of_guard h
  obtain ⟨rounds, m, hrounds, h⟩ := bind_returns.mp h
  obtain ⟨-, rfl⟩ := query_returns.mp hrounds
  obtain ⟨top, m₁, htop, h⟩ := bind_returns.mp h
  obtain ⟨bytes, m₂, hbytes, h⟩ := bind_returns.mp h
  obtain ⟨_, m₃, hcharge, h⟩ := bind_returns.mp h
  obtain ⟨rfl, rfl⟩ := pure_returns.mp h
  obtain ⟨hgrown, hcopy, hp⟩ := copyOne_hangs (fun above habove => by
    rw [hfind] at habove
    cases habove
    exact hname) htop
  refine hs.grown (hgrown.trans ((copyPending_hangs (fun pair hpair => ?_) hbytes).trans
    (Grown.of_beside (keeps_chargeQuota (R := Beside) hcharge))))
  rw [List.mem_singleton.mp hpair]
  exact ⟨copy, hcopy, by rw [hp]; exact Option.some_ne_none _⟩

theorem ShelfFree.send (hs : ShelfFree db.toStore) (h : (Api.send node).Returns db u db') :
    ShelfFree db'.toStore := by
  obtain ⟨hsteady, hnodes⟩ := send_nodes h
  exact hs.of_map hsteady.grants hnodes fun _ => ⟨rfl, rfl⟩

theorem ShelfFree.purges {dues : List (Uuid × Uuid)} (hs : ShelfFree db.toStore)
    (hw : WellFormed db.nodes) (h : Purges dues db db') : ShelfFree db'.toStore :=
  hs.of_placed (fun g hg => ((h.grants hw g).mp hg).1) fun hrow =>
    ⟨_, ((h.find hw _ _).mp hrow).1, rfl, rfl⟩

end Stashden.Api
