import Stashden.Api.OneWay
import Stashden.Api.Upkeep

/-!
# What holds between two transactions

`Sane` gathers what every operation keeps: the forest and its trash (`WellFormed`), the counters
(`Ledger`), the rows they count from (`Backed`, `Marked`), the dates of the trash (`Dated`) and the
names (`Named`). The lemmas `*_sane` are the operations of the tree and of the trash.
-/

namespace Stashden.Api

open Lib Stashden.Core Tx

variable {s s' : Store} {db db' m : Db} {ownerId nodeId id k : Uuid}
  {parent node source row root : Node} {name : NodeName} {hash : BlobHash} {size : Nat}
  {delta versionsKept quota : Int} {u : Unit} {file : Option Uuid}

/-- Nothing was trashed later than now, nor later than the trashed node it is in. -/
structure Dated (s : Store) : Prop where
  past : ∀ {id row d}, s.nodes.find id = some row → row.trashed = some d → d.deletedAt ≤ s.now
  order : ∀ {id row p above d d'}, s.nodes.find id = some row → row.parentId = some p →
    s.nodes.find p = some above → row.trashed = some d → above.trashed = some d' →
      d.deletedAt ≤ d'.deletedAt

/-- What holds between two transactions. -/
structure Sane (s : Store) : Prop where
  forest : WellFormed s.nodes
  books : Ledger (fun _ => 0) (fun _ => 0) s
  backed : Backed s
  marked : Marked none s
  dated : Dated s
  named : Named s.nodes

/-! ## What the parts depend on -/

/-- What is trashed was trashed then, in the same place. -/
theorem Dated.of_trashed (h : Dated s) (hnow : s.now ≤ s'.now)
    (hold : ∀ {id row d}, s'.nodes.find id = some row → row.trashed = some d → ∃ row₀ d₀,
      s.nodes.find id = some row₀ ∧ row₀.parentId = row.parentId ∧ row₀.trashed = some d₀ ∧
        d₀.deletedAt = d.deletedAt) : Dated s' where
  past hrow hd := by
    obtain ⟨row₀, d₀, hrow₀, -, hd₀, hsame⟩ := hold hrow hd
    exact hsame ▸ (h.past hrow₀ hd₀).trans hnow
  order hrow hp habove hd hd' := by
    obtain ⟨row₀, d₀, hrow₀, hp₀, hd₀, hsame⟩ := hold hrow hd
    obtain ⟨above₀, d₁, habove₀, -, hd₁, hsame'⟩ := hold habove hd'
    exact hsame ▸ hsame' ▸ h.order hrow₀ (hp₀.trans hp) habove₀ hd₀ hd₁

/-- Nodes of the owners and kinds there were, or new ones of an account with a quota. -/
theorem Backed.of_nodes (h : Backed db.toStore)
    (hversions : ∀ {id v}, db'.versions.find id = some v →
      db.versions.find id = some v ∨ some v.nodeId = file)
    (hquotas : ∀ id, (db.quotas.find id).isSome = true → (db'.quotas.find id).isSome = true)
    (hfile : ∀ row, file = some row.id → db'.nodes.find row.id = some row →
      row.isDirectory = false)
    (hold : ∀ {id row}, db'.nodes.find id = some row → (∃ row₀, db.nodes.find id = some row₀ ∧
      row₀.ownerId = row.ownerId ∧ row₀.isDirectory = row.isDirectory) ∨
        db.nodes.find id = none ∧ (db'.quotas.find row.ownerId).isSome = true) :
    Backed db'.toStore where
  quota hrow := by
    rcases hold hrow with ⟨row₀, hrow₀, howner, -⟩ | ⟨-, hquota⟩
    · exact howner ▸ hquotas _ (h.quota hrow₀)
    · exact hquota
  file := fun {id v row} hv hrow => by
    rcases hversions hv with hv | hfile'
    · rcases hold hrow with ⟨row₀, hrow₀, -, hdir⟩ | ⟨hnone, -⟩
      · exact hdir ▸ h.file hv hrow₀
      · have hheld := (db.sound .versionsForeign v (Table.find_mem hv)).1
        rw [hnone] at hheld
        cases hheld
    · have hkey : row.id = v.nodeId := Table.find_key hrow
      exact hfile row (hkey ▸ hfile'.symm) (hkey ▸ hrow)

/-- Rows with the names and the places of others. -/
theorem Named.of_rows {t t' : Table Node Node.id} (h : Named t)
    (hold : ∀ {id row}, t'.find id = some row → row.parentId ≠ none → ∃ row₀,
      t.find id = some row₀ ∧ row₀.parentId = row.parentId ∧ row₀.name = row.name) :
    Named t' := by
  intro id row hrow hp
  obtain ⟨row₀, hrow₀, hp₀, hname⟩ := hold hrow hp
  exact hname ▸ h hrow₀ (hp₀ ▸ hp)

/-! ## The trash -/

/-- What changes no node but its `trashed`. -/
theorem Sane.retrashed (h : Sane db.toStore) (hw : WellFormed db'.nodes)
    (hbooks : Ledger (fun _ => 0) (fun _ => 0) db'.toStore)
    (hkept : Upkept none db.toStore db'.toStore) (hdated : Dated db'.toStore)
    (hre : Retrashed db.nodes db'.nodes) : Sane db'.toStore where
  forest := hw
  books := hbooks
  backed := h.backed.of_nodes hkept.versions hkept.quotas (fun _ hnone => by cases hnone)
    fun hrow => by
      obtain ⟨row₀, hrow₀, hsame⟩ := hre.symm.find hrow
      obtain ⟨howner, -, -, hbody⟩ := untrashed_eq hsame
      exact Or.inl ⟨row₀, hrow₀, howner, isDirectory_congr hbody⟩
  marked := hkept.marks none h.marked
  dated := hdated
  named := Named.of_rows h.named fun hrow _ => by
    obtain ⟨row₀, hrow₀, hsame⟩ := hre.symm.find hrow
    obtain ⟨-, hp, hname, -⟩ := untrashed_eq hsame
    exact ⟨row₀, hrow₀, hp, hname⟩

/-- **`send`**, of a live node below a root. -/
theorem send_sane (h : Sane db.toStore) (hnode : db.nodes.find node.id = some node)
    (hlive : node.live = true) (hchild : node.parentId ≠ none)
    (hx : (send node).Returns db u db') : Sane db'.toStore := by
  obtain ⟨hsteady, hfind⟩ := send_nodes hx
  have back : ∀ {k row'}, db'.nodes.find k = some row' → ∃ row, db.nodes.find k = some row ∧
      row.parentId = row'.parentId ∧
        ((LiveBelow db.nodes k node.id ∧ row'.trashed = some ⟨db.now, node.id⟩) ∨
          (¬ LiveBelow db.nodes k node.id ∧ row'.trashed = row.trashed)) := by
    intro k row' hrow'
    rw [hfind] at hrow'
    obtain ⟨row, hrow, rfl⟩ := Option.map_eq_some_iff.mp hrow'
    obtain rfl := Table.find_key hrow
    refine ⟨row, hrow, rfl, ?_⟩
    have hmarked : row.id ∈ (db.marked node.id).map Node.id ↔
        LiveBelow db.nodes row.id node.id := by
      rw [List.mem_map]
      constructor
      · rintro ⟨r, hr, hid⟩
        exact hid ▸ ((mem_marked hnode hlive).mp hr).2
      · exact fun hbelow => ⟨row, (mem_marked hnode hlive).mpr ⟨hrow, hbelow⟩, rfl⟩
    dsimp only
    split_ifs with hm
    · exact Or.inl ⟨hmarked.mp hm, rfl⟩
    · exact Or.inr ⟨fun hbelow => hm (hmarked.mpr hbelow), rfl⟩
  have htop : LiveAt db.nodes node.id := ⟨node, hnode, hlive⟩
  refine h.retrashed (send_wellFormed h.forest hnode hlive hchild hx)
    (send_ledger h.books h.forest h.backed hnode rfl hx) (keeps_send hx) ?_ (send_retrashed hx)
  refine ⟨fun hrow' hd => ?_, fun {k row' p above' d d'} hrow' hp habove' hd hd' => ?_⟩
  · obtain ⟨row, hrow, -, ⟨-, hdate⟩ | ⟨-, hdate⟩⟩ := back hrow'
    · rw [hd] at hdate
      cases hdate
      exact hsteady.now.symm.le
    · exact hsteady.now.symm ▸ h.dated.past hrow (hdate ▸ hd)
  · obtain ⟨row, hrow, hsame, hdate⟩ := back hrow'
    obtain ⟨above, habove, -, hdate'⟩ := back habove'
    have hparent : parentOf db.nodes k = some p := by rw [parentOf_of_find hrow, hsame, hp]
    rcases hdate with ⟨hbelow, hdate⟩ | ⟨hno, hdate⟩ <;>
      rcases hdate' with ⟨hbelow', hdate'⟩ | ⟨hno', hdate'⟩
    · rw [hd] at hdate
      rw [hd'] at hdate'
      cases hdate
      cases hdate'
      exact le_rfl
    · -- what is above a node sent with `node` is live, and sent with it unless it is above `node`
      obtain ⟨row₁, hrow₁, hl⟩ := WellFormed.live_of_liveBelow htop hbelow
      rw [hrow] at hrow₁
      cases hrow₁
      obtain ⟨above₁, habove₁, -, -, hal⟩ := h.forest.parent hrow (hsame.trans hp)
      rw [habove] at habove₁
      cases habove₁
      rw [hdate', WellFormed.live_iff.mp (hal hl)] at hd'
      cases hd'
    · rw [hd'] at hdate'
      cases hdate'
      exact h.dated.past hrow (hdate ▸ hd)
    · exact h.dated.order hrow (hsame.trans hp) habove (hdate ▸ hd) (hdate' ▸ hd')

/-- **`restore`.** -/
theorem restore_sane (h : Sane db.toStore) (hx : (restore ownerId id).Returns db node db') :
    Sane db'.toStore := by
  obtain ⟨hsteady, hw, hres, -⟩ := restore_nodes h.forest hx
  refine h.retrashed hw (restore_ledger h.books h.forest h.backed hx) (keeps_restore hx)
    (h.dated.of_trashed hsteady.now.symm.le fun {k row d} hrow hd => ?_) hres.retrashed
  obtain ⟨row₀, hrow₀, hsame⟩ := hres.retrashed.symm.find hrow
  have hdead : row.live = false := by rw [Node.live, hd]; rfl
  have hdates := hres.dates hrow₀ hrow hdead
  rw [hd] at hdates
  obtain ⟨d₀, hd₀, hdate⟩ := Option.map_eq_some_iff.mp hdates.symm
  exact ⟨row₀, d₀, hrow₀, (untrashed_eq hsame).2.1, hd₀, hdate⟩

/-- Fewer nodes, each as it was. -/
theorem Sane.fewer (h : Sane db.toStore) (hw : WellFormed db'.nodes)
    (hbooks : Ledger (fun _ => 0) (fun _ => 0) db'.toStore)
    (hkept : Upkept none db.toStore db'.toStore) (hnow : db.now ≤ db'.now)
    (hrows : ∀ {k row}, db'.nodes.find k = some row → db.nodes.find k = some row) :
    Sane db'.toStore where
  forest := hw
  books := hbooks
  backed := h.backed.of_nodes hkept.versions hkept.quotas (fun _ hnone => by cases hnone)
    fun hrow => Or.inl ⟨_, hrows hrow, rfl, rfl⟩
  marked := hkept.marks none h.marked
  dated := h.dated.of_trashed hnow fun hrow hd => ⟨_, _, hrows hrow, rfl, hd, rfl⟩
  named := Named.of_rows h.named fun hrow _ => ⟨_, hrows hrow, rfl, rfl⟩

/-- **`purge`.** -/
theorem purge_sane (h : Sane db.toStore) (hx : (purge ownerId id).Returns db u db') :
    Sane db'.toStore := by
  have hfind := purge_find h.forest hx
  have hbooks := purge_ledger h.books (fun _ => le_rfl) h.forest hx
  have hw := purge_wellFormed h.forest hx
  obtain ⟨-, m, hm, hrelease⟩ := purge_returns.mp hx
  have hdeleted : Upkept none db.toStore m.toStore := by
    rw [hm]
    refine ⟨fun hv => ?_, fun _ hq => hq, fun _ hmarks => hmarks⟩
    exact Or.inl (Option.filter_eq_some_iff.mp ((Table.find_delete _ _ _).symm.trans hv)).1
  have hreleased : Upkept none m.toStore db'.toStore :=
    keeps_forEach (fun _ => Counting.release _) _ hrelease
  have hbooked := booked_releaseEach hrelease
  refine h.fewer hw hbooks (IsTrans.trans _ _ _ hdeleted hreleased) ?_
    fun hrow => ((hfind _ _).mp hrow).1
  rw [hbooked, hm]
  exact le_rfl

theorem purges_sane {dues : List (Uuid × Uuid)} (h : Purges dues db db') (hs : Sane db.toStore) :
    Sane db'.toStore :=
  h.induct (I := fun db => Sane db.toStore) hs fun hm hp => purge_sane hm hp

/-- **`empty`.** -/
theorem emptyTrash_sane {purged : Nat} (h : Sane db.toStore)
    (hx : (emptyTrash ownerId).Returns db purged db') : Sane db'.toStore :=
  purges_sane (emptyTrash_purges hx) h

/-- **`expire`.** -/
theorem expire_sane (h : Sane db.toStore) (retention : Nat) :
    Sane (expire retention db).2.toStore :=
  purges_sane (expireAll_purges _ db) h

/-! ## The tree -/

/-- Nodes of an account with a quota added to its tree. -/
theorem Sane.grown {top : Uuid} (h : Sane db.toStore)
    (hbooks : Ledger (fun _ => 0) (fun _ => 0) db'.toStore)
    (hkept : Upkept none db.toStore db'.toStore)
    (hgrown : Grown (Planted ownerId top) db.toStore db'.toStore)
    (hquota : (db.quotas.find ownerId).isSome = true) : Sane db'.toStore where
  forest := hgrown.wellFormed h.forest
  books := hbooks
  backed := h.backed.of_nodes hkept.versions hkept.quotas (fun _ hnone => by cases hnone)
    fun hrow => by
      rcases hgrown.find_back hrow with hrow₀ | ⟨hnone, -, howner, -⟩
      · exact Or.inl ⟨_, hrow₀, rfl, rfl⟩
      · exact Or.inr ⟨hnone, howner ▸ hkept.quotas _ hquota⟩
  marked := hkept.marks none h.marked
  dated := h.dated.of_trashed hgrown.steady.now.symm.le fun hrow hd => by
    rcases hgrown.find_back hrow with hrow₀ | ⟨-, hlive, -⟩
    · exact ⟨_, _, hrow₀, rfl, hd, rfl⟩
    · rw [hlive] at hd
      cases hd
  named := hgrown.named h.named

/-- A relation of the books. -/
def KeepsBooks (s s' : Store) : Prop :=
  Ledger (fun _ => 0) (fun _ => 0) s → Ledger (fun _ => 0) (fun _ => 0) s'

instance : IsPreorder Store KeepsBooks where
  refl _ h := h
  trans _ _ _ h h' hbooks := h' (h hbooks)

instance : Founding KeepsBooks where
  fresh := keeps_fresh fun _ h => h.frame rfl rfl rfl rfl rfl
  directory ownerId parentId name etag := by
    intro db node db' hx h
    obtain ⟨hnode, -⟩ := insertNode_returns hx
    refine (insertNode_ledger h hx).of_eq (fun b => ?_) fun o => ?_
    · rw [hnode]
      rfl
    · rw [hnode]
      simp [Node.size, bytes]

theorem books_insertQuota : KeepsQuota KeepsBooks ownerId quota := by
  refine keeps_execute fun s h => ⟨fun b => h.refCount b, fun o => ?_⟩
  refine Eq.trans ?_ (h.bytesUsed o)
  unfold Store.bytesUsed
  exact value_insert_getD _ Quota.bytesUsed rfl o

theorem upkept_insertQuota : KeepsQuota (Upkept file) ownerId quota :=
  keeps_execute fun _ => ⟨Or.inl, fun _ => isSome_find_insert, fun _ h => h⟩

/-- `ensure_root` leaves its account with a quota. -/
theorem ensureRoot_quota (hx : (ensureRoot ownerId quota).Returns db node db') :
    (db'.quotas.find ownerId).isSome = true := by
  unfold ensureRoot at hx
  obtain ⟨_, m, hm, hx⟩ := bind_returns.mp hx
  have hhas : (m.quotas.find ownerId).isSome = true := by
    rw [execute_returns.mp hm]
    dsimp only
    cases hins : db.quotas.insert ⟨ownerId, 0, quota⟩ with
    | some quotas => rw [Option.getD_some, Table.find_insert hins, if_pos rfl]; rfl
    | none =>
      rw [Option.getD_none, Option.isSome_iff_ne_none]
      intro hnone
      have hsome : ∃ t, db.quotas.insert (⟨ownerId, 0, quota⟩ : Quota) = some t :=
        Table.insert_isSome hnone
      obtain ⟨t, ht⟩ := hsome
      rw [hins] at ht
      cases ht
  obtain ⟨root, m', hroot, hx⟩ := bind_returns.mp hx
  have hrest : Upkept none m.toStore db'.toStore := by
    obtain ⟨-, rfl⟩ := query_returns.mp hroot
    cases root with
    | some root => exact keeps_pure hx
    | none => exact keeps_bind keeps_etagForDirectory (fun _ => keeps_insertNode) hx
  exact hrest.quotas ownerId hhas

/-- **`ensure_root`.** -/
theorem ensureRoot_sane (h : Sane db.toStore) (hx : (ensureRoot ownerId quota).Returns db node db') :
    Sane db'.toStore := by
  have hbooks := keeps_ensureRoot (R := KeepsBooks) books_insertQuota hx h.books
  have hkept := keeps_ensureRoot (R := Upkept none) upkept_insertQuota hx
  have hquota := ensureRoot_quota hx
  obtain ⟨hsteady, howner, hroot, -, ⟨-, hnodes⟩ | ⟨-, hins, hdir, htrashed⟩⟩ := ensureRoot_returns hx
  · exact h.fewer (hnodes ▸ h.forest) hbooks hkept hsteady.now.symm.le fun hrow => hnodes ▸ hrow
  · have back : ∀ {k row}, db'.nodes.find k = some row → row = node ∨
        db.nodes.find k = some row := by
      intro k row hrow
      rw [Table.find_insert hins] at hrow
      split_ifs at hrow
      · exact Or.inl (Option.some.inj hrow).symm
      · exact Or.inr hrow
    refine ⟨h.forest.insert hins htrashed (fun p hp => ?_) fun _ => hdir, hbooks,
      h.backed.of_nodes hkept.versions hkept.quotas (fun _ hnone => by cases hnone)
        fun {k row} hrow => ?_, hkept.marks none h.marked,
      h.dated.of_trashed hsteady.now.symm.le fun hrow hd => ?_,
      Named.of_rows h.named fun hrow hp => ?_⟩
    · rw [hroot] at hp
      cases hp
    · rw [Table.find_insert hins] at hrow
      split_ifs at hrow with hid
      · cases hrow
        exact Or.inr ⟨hid ▸ (Table.insert_eq_some hins).1, howner ▸ hquota⟩
      · exact Or.inl ⟨row, hrow, rfl, rfl⟩
    · rcases back hrow with rfl | hrow₀
      · rw [htrashed] at hd
        cases hd
      · exact ⟨_, _, hrow₀, rfl, hd, rfl⟩
    · rcases back hrow with rfl | hrow₀
      · exact absurd hroot hp
      · exact ⟨_, hrow₀, rfl, rfl⟩

/-- **`create_directories`**, below a live node. -/
theorem createDirectories_sane {segments : List NodeName} (h : Sane db.toStore)
    (hroot : db.nodes.find root.id = some root) (hlive : root.live = true)
    (hx : (createDirectories root.ownerId root segments).Returns db node db') :
    Sane db'.toStore :=
  h.grown (keeps_createDirectories (R := KeepsBooks) hx h.books) (keeps_createDirectories hx)
    (createDirectories_grown h.forest hroot hlive rfl .refl hx).1 (h.backed.quota hroot)

/-- **`copy_tree`**, into a live node. -/
theorem copyTree_sane {copy : Node} (h : Sane db.toStore)
    (hsource : ∃ row, db.nodes.find source.id = some row ∧ row.body = source.body)
    (hparent : db.nodes.find parent.id = some parent) (hlive : parent.live = true)
    (hx : (copyTree parent.ownerId source parent name).Returns db copy db') : Sane db'.toStore := by
  refine h.grown (copyTree_ledger h.books hx) (keeps_copyTree hx)
    (copyTree_grown h.forest h.named hsource ⟨parent, hparent, hlive⟩ (fun row hrow => ?_) .refl hx)
    (h.backed.quota hparent)
  rw [hparent] at hrow
  cases hrow
  exact ⟨rfl, rfl⟩

/-- **`put_file`**, into a live folder. -/
theorem putFile_sane (h : Sane db.toStore) (hparent : db.nodes.find parent.id = some parent)
    (hlive : parent.live = true) (hdir : parent.isDirectory = true)
    (hx : (putFile parent.ownerId parent name hash size versionsKept).Returns db node db') :
    Sane db'.toStore := by
  have howner : ∀ old, db.child parent.id name.str = some old → old.ownerId = parent.ownerId := by
    intro old hold
    obtain ⟨hmem, hp, -⟩ := child_eq_some hold
    obtain ⟨above, habove, -, ho, -⟩ := h.forest.parent (Table.mem_iff_find.mp hmem) hp
    rw [hparent] at habove
    cases habove
    exact ho.symm
  have hbooks := putFile_ledger h.books howner hx
  have hkept := putFile_keeps hx
  obtain ⟨hsteady, ⟨old, hold, hfile, rfl, hfind⟩ | ⟨-, hins, id, hnode⟩⟩ := putFile_nodes hx
  · have back : ∀ {k row'}, db'.nodes.find k = some row' → ∃ row, db.nodes.find k = some row ∧
        WellFormed.shape row' = WellFormed.shape row ∧ row'.name = row.name ∧
          (row'.id = old.id → row'.isDirectory = false) := by
      intro k row' hrow'
      rw [hfind] at hrow'
      obtain ⟨row, hrow, rfl⟩ := Option.map_eq_some_iff.mp hrow'
      refine ⟨row, hrow, ?_⟩
      split_ifs with hid
      · have hsame : row = old := Table.eq_of_key (Table.find_mem hrow) (child_eq_some hold).1 hid
        refine ⟨?_, rfl, fun _ => rfl⟩
        rw [WellFormed.shape_eq_iff, hsame]
        exact ⟨rfl, rfl, hfile.symm, rfl⟩
      · exact ⟨rfl, rfl, fun hsame => absurd hsame hid⟩
    refine ⟨h.forest.reshape fun k => ?_, hbooks, h.backed.of_nodes
      (fun hv => (hkept.versions hv).imp_right (congrArg some)) hkept.quotas
      (fun row hfile hrow => ?_) fun hrow => ?_, hkept.marks h.marked,
      h.dated.of_trashed hsteady.now.symm.le fun hrow hd => ?_,
      Named.of_rows h.named fun hrow _ => ?_⟩
    · cases hk : db'.nodes.find k with
      | none =>
        rw [hfind, Option.map_eq_none_iff] at hk
        rw [hk]
      | some row' =>
        obtain ⟨row, hrow, hshape, -⟩ := back hk
        rw [hrow, Option.map_some, Option.map_some, hshape]
    · obtain ⟨-, -, -, -, hdir'⟩ := back hrow
      exact hdir' (Option.some.inj hfile).symm
    · obtain ⟨row, hrow₀, hshape, -⟩ := back hrow
      obtain ⟨ho, -, hd, -⟩ := WellFormed.shape_eq_iff.mp hshape
      exact Or.inl ⟨row, hrow₀, ho.symm, hd.symm⟩
    · obtain ⟨row, hrow₀, hshape, -⟩ := back hrow
      obtain ⟨-, hp, -, ht⟩ := WellFormed.shape_eq_iff.mp hshape
      exact ⟨row, _, hrow₀, hp.symm, ht ▸ hd, rfl⟩
    · obtain ⟨row, hrow₀, hshape, hname, -⟩ := back hrow
      exact ⟨row, hrow₀, (WellFormed.shape_eq_iff.mp hshape).2.1.symm, hname.symm⟩
  · have back : ∀ {k row}, db'.nodes.find k = some row → row = node ∧ db.nodes.find k = none ∨
        db.nodes.find k = some row := by
      intro k row hrow
      rw [Table.find_insert hins] at hrow
      split_ifs at hrow with hid
      · exact Or.inl ⟨(Option.some.inj hrow).symm, hid ▸ (Table.insert_eq_some hins).1⟩
      · exact Or.inr hrow
    refine ⟨h.forest.insert hins (by rw [hnode]) (fun p hp => ?_) (fun hp => ?_), hbooks,
      h.backed.of_nodes (fun hv => (hkept.versions hv).imp_right (congrArg some)) hkept.quotas
        (fun row hfile hrow => ?_) fun hrow => ?_, hkept.marks h.marked,
      h.dated.of_trashed hsteady.now.symm.le fun hrow hd => ?_, fun {k row} hrow hp => ?_⟩
    · rw [hnode] at hp ⊢
      cases hp
      exact ⟨parent, hparent, hdir, rfl, hlive⟩
    · rw [hnode] at hp
      cases hp
    · rcases back hrow with ⟨rfl, -⟩ | hrow₀
      · rw [hnode]
        rfl
      · rw [← Option.some.inj hfile, (Table.insert_eq_some hins).1] at hrow₀
        cases hrow₀
    · rcases back hrow with ⟨rfl, hnone⟩ | hrow₀
      · refine Or.inr ⟨hnone, hkept.quotas _ ?_⟩
        have hquota := h.backed.quota hparent
        rw [hnode]
        exact hquota
      · exact Or.inl ⟨_, hrow₀, rfl, rfl⟩
    · rcases back hrow with ⟨rfl, -⟩ | hrow₀
      · rw [hnode] at hd
        cases hd
      · exact ⟨_, _, hrow₀, rfl, hd, rfl⟩
    · rcases back hrow with ⟨rfl, -⟩ | hrow₀
      · rw [hnode]
        exact name.valid
      · exact h.named hrow₀ hp

/-- **`rename`**, of a live node into a live folder of its owner. -/
theorem rename_sane {moved : Node} (h : Sane db.toStore)
    (hnode : db.nodes.find node.id = some node) (hlive : node.live = true)
    (hparent : db.nodes.find parent.id = some parent) (hplive : parent.live = true)
    (howner : parent.ownerId = node.ownerId)
    (hx : (rename node parent name).Returns db moved db') : Sane db'.toStore := by
  have hbooks := rename_ledger h.books hnode hlive hx
  have hkept : Upkept none db.toStore db'.toStore := keeps_rename hx
  obtain ⟨hsteady, hpdir, -, hinside, etag, hfind, -⟩ := rename_nodes hx
  have back : ∀ {k row'}, db'.nodes.find k = some row' → ∃ row, db.nodes.find k = some row ∧
      row' = if row.id = node.id then { row with parentId := some parent.id, name := name.str, etag }
        else row := by
    intro k row' hrow'
    rw [hfind] at hrow'
    obtain ⟨row, hrow, rfl⟩ := Option.map_eq_some_iff.mp hrow'
    exact ⟨row, hrow, rfl⟩
  have hbelow : ¬ AtOrBelow db.nodes parent.id node.id := by
    intro hup
    by_cases hdir : node.isDirectory = true
    · have hno := hinside hdir
      rw [(contains_iff hparent (Table.find_mem hnode)).mpr hup] at hno
      cases hno
    · obtain hsame | ⟨c, -, hc⟩ := hup.cases_tail
      · rw [hsame, hparent] at hnode
        cases hnode
        exact hdir hpdir
      · obtain ⟨row, hrow, hp⟩ := find_of_parentOf hc
        obtain ⟨above, habove, hadir, -⟩ := h.forest.parent hrow hp
        rw [hnode] at habove
        cases habove
        exact hdir hadir
  refine ⟨h.forest.move hnode hlive hparent hplive hpdir howner hbelow fun k => ?_, hbooks,
    h.backed.of_nodes hkept.versions hkept.quotas (fun _ hnone => by cases hnone) fun hrow => ?_,
    hkept.marks none h.marked, h.dated.of_trashed hsteady.now.symm.le fun hrow hd => ?_,
    fun {k row'} hrow hp => ?_⟩
  · rw [hfind, Option.map_map]
    refine Option.map_congr fun row hrow => ?_
    have hkey : row.id = k := Table.find_key hrow
    rw [Function.comp_apply, hkey]
    split_ifs <;> rfl
  · obtain ⟨row, hrow₀, rfl⟩ := back hrow
    refine Or.inl ⟨row, hrow₀, ?_⟩
    split_ifs <;> exact ⟨rfl, rfl⟩
  · obtain ⟨row, hrow₀, rfl⟩ := back hrow
    split_ifs at hd ⊢ with hid
    · have hsame : row = node := Table.eq_of_key (Table.find_mem hrow₀) (Table.find_mem hnode) hid
      rw [hsame] at hd
      dsimp only at hd
      rw [WellFormed.live_iff.mp hlive] at hd
      cases hd
    · exact ⟨row, _, hrow₀, rfl, hd, rfl⟩
  · obtain ⟨row, hrow₀, rfl⟩ := back hrow
    split_ifs at hp ⊢ with hid
    · exact name.valid
    · exact h.named hrow₀ hp

/-- **`take`**, of a version of a live file. -/
theorem take_sane {version : Version} (h : Sane db.toStore)
    (hnode : db.nodes.find node.id = some node) (hlive : node.live = true)
    (hx : (take node.ownerId node.id id).Returns db version db') : Sane db'.toStore := by
  have hb := keeps_take (R := Beside) hx
  exact h.fewer (hb.nodes ▸ h.forest) (take_ledger h.books covered_zero hnode hlive hx)
    (keeps_take hx) hb.now.symm.le fun hrow => hb.nodes ▸ hrow

end Stashden.Api
