import Stashden.Api.Dav
import Stashden.Api.System

/-!
# What a hand-over conserves (`api/src/departure.rs`)

`Bequeathed` says what becomes of every node, version, counter and account when one leaves and another
is given its files, and `handOver_conserves` that this is what `remove` does, after any run, or
nothing. The lemmas follow its three parts: the trash that is emptied, the tree that is handed over,
the account that goes.
-/

namespace Stashden.Api

open Lib Stashden.Core Tx

variable {s s' : Store} {db db' m m₁ m₂ : Db} {id recipientId oldRoot k : Uuid}
  {row root folder top : Node} {quota : Int} {u : Unit}

/-! ## The trash is emptied -/

/-- What emptying its trash takes from an account. -/
structure Cleared (id : Uuid) (s s' : Store) : Prop where
  nodes : ∀ k row, s'.nodes.find k = some row ↔
    s.nodes.find k = some row ∧ (row.ownerId = id → row.live = true)
  versions : ∀ k v, s'.versions.find k = some v ↔ s.versions.find k = some v ∧
    ∃ row, s.nodes.find v.nodeId = some row ∧ (row.ownerId = id → row.live = true)
  references : ∀ b, s'.references b =
    s.references b - each (s.blobsOf (s.nodes.select fun n => n.ownerId = id && !n.live)) b
  quotas : s'.quotas = s.quotas
  users : s'.users = s.users
  next : s'.next = s.next

theorem emptyTrash_cleared {purged : Nat} (hw : WellFormed db.nodes)
    (hx : (emptyTrash id).Returns db purged db') : Cleared id db.toStore db'.toStore := by
  have hpurges := emptyTrash_purges hx
  have hfind := emptyTrash_find hw hx
  have hversions := hpurges.versions hw
  obtain ⟨hthumbnails, hquotas, husers, -, hnext⟩ := hpurges.frame
  have hgone : ∀ n ∈ db.nodes.rows, (db'.nodes.find n.id).isNone =
      (decide (n.ownerId = id) && !n.live) := by
    intro n hn
    have hrow := Table.mem_iff_find.mp hn
    cases hk : db'.nodes.find n.id with
    | some row =>
      obtain ⟨hold, hkept⟩ := (hfind _ _).mp hk
      rw [hrow] at hold
      cases hold
      by_cases ho : n.ownerId = id
      · simp [hkept ho]
      · simp [ho]
    | none =>
      by_contra hno
      have hstays : n.ownerId = id → n.live = true := by
        intro ho
        by_contra hl
        exact hno (by simp [ho, hl])
      rw [(hfind _ _).mpr ⟨hrow, hstays⟩] at hk
      cases hk
  refine ⟨hfind, fun k v => ?_, fun b => ?_, hquotas, husers, hnext⟩
  · rw [hversions, Option.isSome_iff_exists]
    refine and_congr_right fun _ => exists_congr fun row => hfind _ _
  · rw [references_gone (fun k row hrow => ((hfind k row).mp hrow).1) hversions
      (fun v hv => (db.sound .versionsForeign v hv).1) hthumbnails]
    have hselect : (db.nodes.select fun n => (db'.nodes.find n.id).isNone) =
        db.nodes.select fun n => decide (n.ownerId = id) && !n.live := List.filter_congr hgone
    rw [hselect]

/-! ## The account goes -/

theorem blobHash_of_directory (h : row.isDirectory = true) : row.blobHash = none := by
  unfold Node.isDirectory at h
  unfold Node.blobHash
  split at h
  · rfl
  · cases h

/-- What is left of the tables, where the account has nothing but folders. -/
theorem left_folders {owed : Int} (h : Leaving id owed m.toStore) (hleft : Left id m.toStore s')
    (hfolders : ∀ {k row}, m.nodes.find k = some row → row.ownerId = id → row.isDirectory = true) :
    (∀ k row, s'.nodes.find k = some row ↔ m.nodes.find k = some row ∧ row.ownerId ≠ id) ∧
      (∀ k v, s'.versions.find k = some v ↔ m.versions.find k = some v) ∧
        ∀ b, s'.references b = m.references b := by
  have hnodes : ∀ k row, s'.nodes.find k = some row ↔
      m.nodes.find k = some row ∧ row.ownerId ≠ id := by
    intro k row
    rw [hleft.nodes]
    exact deleteUser_find h.forest
  have hheld : ∀ v ∈ m.versions.rows, ∃ row, m.nodes.find v.nodeId = some row ∧
      row.ownerId ≠ id := by
    intro v hv
    obtain ⟨row, hrow⟩ := Option.isSome_iff_exists.mp (m.sound .versionsForeign v hv).1
    refine ⟨row, hrow, fun ho => ?_⟩
    have hfile := h.backed.file (Table.mem_iff_find.mp hv) hrow
    rw [hfolders hrow ho] at hfile
    cases hfile
  have hversions : ∀ k v, s'.versions.find k = some v ↔ m.versions.find k = some v := by
    intro k v
    rw [hleft.versions]
    refine (Eq.congr_left (Table.find_delete _ _ _)).trans ?_
    rw [Option.filter_eq_some_iff, Bool.not_eq_true', decide_eq_false_iff_not,
      mem_cascade_owner h.forest]
    refine and_iff_left_of_imp fun hv hgone => ?_
    obtain ⟨row, hrow, ho⟩ := hheld v (Table.find_mem hv)
    obtain ⟨row', hrow', ho'⟩ := hgone
    rw [hrow] at hrow'
    cases hrow'
    exact ho ho'
  refine ⟨hnodes, hversions, fun b => ?_⟩
  rw [references_gone (fun k row hrow => ((hnodes k row).mp hrow).1) (fun k v => ?_)
    (fun v hv => (m.sound .versionsForeign v hv).1) hleft.thumbnails]
  · -- the folders that go hold no blob and no version
    have hnone : m.blobsOf (m.nodes.select fun n => (s'.nodes.find n.id).isNone) = [] := by
      have howned : ∀ n ∈ m.nodes.select fun n => (s'.nodes.find n.id).isNone,
          m.nodes.find n.id = some n ∧ n.ownerId = id := by
        intro n hn
        obtain ⟨hmem, hgone⟩ := Table.mem_select.mp hn
        have hrow := Table.mem_iff_find.mp hmem
        refine ⟨hrow, ?_⟩
        by_contra ho
        rw [(hnodes n.id n).mpr ⟨hrow, ho⟩] at hgone
        cases hgone
      unfold Store.blobsOf
      rw [List.append_eq_nil_iff, List.map_eq_nil_iff, List.filterMap_eq_nil_iff]
      constructor
      · intro n hn
        obtain ⟨hrow, ho⟩ := howned n hn
        exact blobHash_of_directory (hfolders hrow ho)
      · refine List.filter_eq_nil_iff.mpr fun v hv hin => ?_
        obtain ⟨n, hn, hid⟩ := List.mem_map.mp (of_decide_eq_true hin)
        obtain ⟨hrow, ho⟩ := howned n hn
        obtain ⟨row, hrow', ho'⟩ := hheld v hv
        rw [← hid, hrow] at hrow'
        cases hrow'
        exact ho' ho
    rw [hnone, each_nil, sub_zero]
  · rw [hversions]
    refine (and_iff_left_of_imp fun hv => ?_).symm
    obtain ⟨row, hrow, ho⟩ := hheld v (Table.find_mem hv)
    rw [(hnodes _ _).mpr ⟨hrow, ho⟩]
    rfl

/-! ## What becomes of everything -/

/-- **What a hand-over does**, to every node, version, counter and account. -/
structure Bequeathed (leavingId recipientId : Uuid) (s s' : Store) : Prop where
  account : s'.users.find leavingId = none ∧ s'.quotas.find leavingId = none
  /-- Nothing else changes hands or goes. -/
  others : ∀ k row, s.nodes.find k = some row → row.ownerId ≠ leavingId →
    s'.nodes.find k = some row
  /-- The trash and the root of the account go. -/
  gone : ∀ k row, s.nodes.find k = some row → row.ownerId = leavingId →
    row.live = false ∨ row.parentId = none → s'.nodes.find k = none
  /-- Everything else of it is in a new folder, as it was. -/
  moved : ∀ top, s.oldRootOf leavingId = some top → ∃ root folder,
    (s'.nodes.find root.id = some root ∧ root.ownerId = recipientId ∧ root.parentId = none ∧
      ∀ r, s.rootOf recipientId = some r → r = root) ∧
    (s.nodes.find folder.id = none ∧ s'.nodes.find folder.id = some folder ∧
      folder.ownerId = recipientId ∧ folder.parentId = some root.id ∧
        folder.isDirectory = true ∧ folder.live = true) ∧
    (∀ n ∈ s.nodes.rows, n.parentId = some root.id → n.live = true → n.name ≠ folder.name) ∧
    (∀ k row, s.nodes.find k = some row → row.ownerId = leavingId → row.live = true →
      row.parentId ≠ none → s'.nodes.find k = some { row with
        ownerId := recipientId
        parentId := if row.parentId = some top.id then some folder.id else row.parentId }) ∧
    ∀ k row, s'.nodes.find k = some row → s.nodes.find k = none → row = folder ∨ row = root
  /-- An account that was never given a root has nothing to hand over. -/
  rootless : s.oldRootOf leavingId = none → ∀ k, s'.nodes.find k = s.nodes.find k
  versions : ∀ k v, s'.versions.find k = some v ↔ s.versions.find k = some v ∧
    ∃ row, s.nodes.find v.nodeId = some row ∧ (row.ownerId = leavingId → row.live = true)
  bytesUsed : ∀ o, s'.bytesUsed o = if o = leavingId then 0
    else s.bytesUsed o + if o = recipientId then s.usage leavingId else 0
  refCount : ∀ b, s'.refCount b = s.refCount b -
    each (s.blobsOf (s.nodes.select fun n => n.ownerId = leavingId && !n.live)) b

theorem oldRootOf_eq_none (h : s.oldRootOf id = none) {n : Node} (hn : n ∈ s.nodes.rows)
    (hp : n.parentId = none) : n.ownerId ≠ id := by
  intro ho
  have hno := List.find?_eq_none.mp h n hn
  simp [ho, hp] at hno

/-- Whoever has a node has a root. -/
theorem owner_of_oldRoot_none (hw : WellFormed db.nodes) (h : db.oldRootOf id = none)
    (hrow : db.nodes.find k = some row) : row.ownerId ≠ id := by
  obtain ⟨top, hup, htop⟩ := hw.grounded k
  have hsome : ∃ root, db.nodes.find top = some root := by
    rcases hup.cases_tail with rfl | ⟨c, -, hc⟩
    · exact ⟨row, hrow⟩
    · obtain ⟨r, hr, hp⟩ := find_of_parentOf hc
      obtain ⟨above, habove, -⟩ := hw.parent hr hp
      exact ⟨above, habove⟩
  obtain ⟨root, hroot⟩ := hsome
  rw [parentOf_of_find hroot] at htop
  rw [hw.owner_above hrow hup hroot]
  exact oldRootOf_eq_none h (Table.find_mem hroot) htop

theorem find_delete_key {ρ κ : Type} {key : ρ → κ} [DecidableEq κ] (t : Table ρ key) (k : κ) :
    (t.delete fun r => key r = k).find k = none := by
  rw [Table.find_delete, Option.filter_eq_none_iff]
  intro r hr
  simp [Table.find_key hr]

/-- The counters follow what is stored. -/
theorem bytesUsed_left (hleft : Left id s s') (o : Uuid) :
    s'.bytesUsed o = if o = id then 0 else s.bytesUsed o := by
  unfold Store.bytesUsed Table.value
  rw [hleft.quotas, Table.find_delete]
  cases hq : s.quotas.find o with
  | none => rw [Option.filter_none]; split_ifs <;> rfl
  | some q =>
    have hkey : q.ownerId = o := Table.find_key hq
    by_cases ho : o = id <;> simp [Option.filter_some, hkey, ho]

/-- Nobody's tree is handed over. -/
theorem bequeathed_rootless {owed : Int} (hs : Sane db.toStore)
    (hclear : Cleared id db.toStore m.toStore) (h : Leaving id owed m.toStore)
    (hs' : Sane db'.toStore) (hleft : Left id m.toStore db'.toStore)
    (hnone : m.oldRootOf id = none) : Bequeathed id recipientId db.toStore db'.toStore := by
  have hother : ∀ {k row}, m.nodes.find k = some row → row.ownerId ≠ id :=
    fun hrow => owner_of_oldRoot_none h.forest hnone hrow
  have hnone' : db.oldRootOf id = none := by
    refine List.find?_eq_none.mpr fun n hn hroot => ?_
    simp only [Bool.and_eq_true, decide_eq_true_eq] at hroot
    have hrow := Table.mem_iff_find.mp hn
    exact hother ((hclear.nodes _ _).mpr ⟨hrow, fun _ => (hs.forest.root hrow hroot.2).1⟩) hroot.1
  have hother' : ∀ {k row}, db.nodes.find k = some row → row.ownerId ≠ id :=
    fun hrow => owner_of_oldRoot_none hs.forest hnone' hrow
  obtain ⟨hnodes, hversions, hreferences⟩ := left_folders h hleft fun hrow ho => absurd ho (hother hrow)
  have hsame : ∀ k row, db'.nodes.find k = some row ↔ db.nodes.find k = some row := by
    intro k row
    rw [hnodes, hclear.nodes]
    exact ⟨fun hrow => hrow.1.1, fun hrow =>
      ⟨⟨hrow, fun ho => absurd ho (hother' hrow)⟩, hother' hrow⟩⟩
  refine ⟨⟨?_, ?_⟩, fun k row hrow _ => (hsame k row).mpr hrow,
    fun k row hrow ho => absurd ho (hother' hrow), fun top htop => ?_,
    fun _ k => Option.ext fun row => hsame k row, fun k v => ?_, fun o => ?_, fun b => ?_⟩
  · rw [hleft.users]
    exact find_delete_key _ _
  · rw [hleft.quotas]
    exact find_delete_key _ _
  · rw [hnone'] at htop
    cases htop
  · rw [hversions]
    exact hclear.versions k v
  · rw [bytesUsed_left hleft]
    have hzero : db.usage id = 0 := usage_of_none hother'
    have hused : m.bytesUsed o = db.bytesUsed o := by
      unfold Store.bytesUsed
      rw [hclear.quotas]
    rw [hzero, hused, ite_self, add_zero]
  · have hbook := hs.books.refCount b
    have hbook' := hs'.books.refCount b
    rw [hreferences, hclear.references] at hbook'
    omega

/-! ## A tree is handed over -/

section Tree

variable (hs : Sane db.toStore) (hclear : Cleared id db.toStore m₁.toStore) (hs₁ : Sane m₁.toStore)
  (hs₂ : Sane m₂.toStore) (hhost : Hosted recipientId root folder m₁.toStore m₂.toStore)
  (hhand : Handing id recipientId top.id folder.id m₂.nodes)
  (hsettled : Settled id recipientId top.id folder.id m₂.toStore m.toStore)
  (hs' : Sane db'.toStore) (hleft : Left id m.toStore db'.toStore)
  (htop : m₁.oldRootOf id = some top)

include hclear hhost in
/-- An id given out since is none that was there before. -/
theorem unused_before (hno : m₁.nodes.find k = none) (hk : (m₂.nodes.find k).isSome = true) :
    db.nodes.find k = none := by
  have hnext := hhost.rest.issued k hno hk
  rw [hclear.next] at hnext
  rw [Option.eq_none_iff_forall_ne_some]
  intro row hrow
  have hlt := (db.sound .primaryKey).1 row (Table.find_mem hrow)
  rw [Table.find_key hrow] at hlt
  exact absurd hlt (not_lt.mpr hnext)

include hclear hhost in
/-- Where a node of another account, or a live one, is to be found. -/
theorem find_hosted (hrow : db.nodes.find k = some row) (hlive : row.ownerId = id → row.live = true) :
    m₂.nodes.find k = some row :=
  hhost.find ((hclear.nodes k row).mpr ⟨hrow, hlive⟩)

include hclear hs hs₁ htop in
/-- The account's root is the one that is handed over from. -/
theorem root_is_oldRoot (hrow : db.nodes.find k = some row) (ho : row.ownerId = id)
    (hp : row.parentId = none) : row = top := by
  obtain ⟨htop₁, htopOwner, htopNone⟩ := oldRootOf_eq_some htop
  have hlive := (hs.forest.root hrow hp).1
  have hmem := Table.find_mem ((hclear.nodes k row).mpr ⟨hrow, fun _ => hlive⟩)
  have htopLive := (hs₁.forest.root htop₁ htopNone).1
  exact Table.eq_of_key hmem (Table.find_mem htop₁) (m₁.sound .nodesSingleRootPerOwner row hmem
    top (Table.find_mem htop₁) hlive htopLive hp htopNone (ho.trans htopOwner.symm))

include hs₂ hhand hsettled hleft in
/-- What is left once the account has gone: of the nodes, those that are not its own, and of the rest
everything, for a folder holds nothing. -/
theorem left_handed :
    (∀ k row, db'.nodes.find k = some row ↔ m.nodes.find k = some row ∧ row.ownerId ≠ id) ∧
      (∀ k v, db'.versions.find k = some v ↔ m.versions.find k = some v) ∧
        ∀ b, db'.references b = m.references b :=
  left_folders (hsettled.toLeaving hhand hs₂) hleft fun hrow ho =>
    hhand.isDirectory_of_left hs₂.forest hsettled.nodes hrow ho

include hs₂ hhand hsettled hleft in
/-- Nodes of other accounts stay. -/
theorem others_handed (hrow : m₂.nodes.find k = some row) (ho : row.ownerId ≠ id) :
    db'.nodes.find k = some row := by
  have hm := hsettled.nodes.forth hrow
  rw [hhand.handedOver_other hs₂.forest hrow ho] at hm
  exact ((left_handed hs₂ hhand hsettled hleft).1 k row).mpr ⟨hm, ho⟩

include hs hclear hs₁ hs₂ hhost hhand hsettled hleft htop in
/-- The trash and the root of the account go. -/
theorem gone_handed (hrow : db.nodes.find k = some row) (ho : row.ownerId = id)
    (hgone : row.live = false ∨ row.parentId = none) : db'.nodes.find k = none := by
  rw [Option.eq_none_iff_forall_ne_some]
  intro row' hrow'
  obtain ⟨hm, ho'⟩ := ((left_handed hs₂ hhand hsettled hleft).1 k row').mp hrow'
  obtain ⟨r, hr, rfl⟩ := hsettled.nodes.back hm
  have hr₁ : m₁.nodes.find k = some r := by
    cases hk : m₁.nodes.find k with
    | none =>
      rw [unused_before hclear hhost hk (by rw [hr]; rfl)] at hrow
      cases hrow
    | some r₁ => exact (hhost.find hk).symm.trans hr ▸ rfl
  obtain ⟨hsame, hlive⟩ := (hclear.nodes k r).mp hr₁
  rw [hrow] at hsame
  cases hsame
  rcases hgone with hdead | hp
  · rw [hlive ho] at hdead
    cases hdead
  · refine ho' ?_
    show newOwner id recipientId top.id row = id
    unfold newOwner
    rw [if_neg fun hc => hc.2 (congrArg Node.id (root_is_oldRoot hs hclear hs₁ htop hrow ho hp)), ho]

include hclear hhost in
/-- The recipient's root is the one it had. -/
theorem host_root {r : Node} (hr : db.rootOf recipientId = some r) : r = root := by
  obtain ⟨hrFind, hrOwner, hrNone, hrLive⟩ := mem_rootOf hr
  have hmem := Table.find_mem (find_hosted hclear hhost hrFind fun _ => hrLive)
  have hroot := Table.find_mem hhost.find_root
  exact Table.eq_of_key hmem hroot (m₂.sound .nodesSingleRootPerOwner r hmem root hroot
    hrLive hhost.top.2.2 hrNone hhost.top.2.1 (hrOwner.trans hhost.top.1.symm))

include hclear hs₂ hhost hhand hsettled hleft in
/-- What stands below the account's root goes below the folder, as it was. -/
theorem moved_handed (hrow : db.nodes.find k = some row) (ho : row.ownerId = id)
    (hlive : row.live = true) (hp : row.parentId ≠ none) : db'.nodes.find k = some { row with
      ownerId := recipientId
      parentId := if row.parentId = some top.id then some folder.id else row.parentId } := by
  have hhosted := find_hosted hclear hhost hrow fun _ => hlive
  have hm := hsettled.nodes.forth hhosted
  rw [hhand.handedOver_child hhosted ho hp] at hm
  exact ((left_handed hs₂ hhand hsettled hleft).1 _ _).mpr ⟨hm, fun hc => hhand.distinct hc.symm⟩

include hclear hs₂ hhost hhand hsettled hleft in
/-- What is new is the folder, and the recipient's root where it had none. -/
theorem new_handed (hrow : db'.nodes.find k = some row) (hno : db.nodes.find k = none) :
    row = folder ∨ row = root := by
  obtain ⟨hm, -⟩ := ((left_handed hs₂ hhand hsettled hleft).1 k row).mp hrow
  obtain ⟨r, hr, rfl⟩ := hsettled.nodes.back hm
  have hother : ∀ {n : Node}, m₂.nodes.find k = some n → n.ownerId = recipientId →
      handedOver id recipientId top.id folder.id n = n := fun hn ho =>
    hhand.handedOver_other hs₂.forest hn fun hid => hhand.distinct (hid.symm.trans ho)
  rcases hhost.find_back hr with rfl | rfl | hr₁
  · exact Or.inl (hother hr hhost.made.1)
  · exact Or.inr (hother hr hhost.top.1)
  · rw [((hclear.nodes k r).mp hr₁).1] at hno
    cases hno

include hs hclear hs₁ hs₂ hhost hsettled hs' hhand hleft in
/-- The counters of the blobs go down by what was in the trash. -/
theorem refCount_handed (b : BlobHash) : db'.refCount b = db.refCount b -
    each (db.blobsOf (db.nodes.select fun n => n.ownerId = id && !n.live)) b := by
  have hbook := hs.books.refCount b
  have hbook₁ := hs₁.books.refCount b
  have hbook₂ := hs₂.books.refCount b
  have hbook' := hs'.books.refCount b
  have hmade : m₂.refCount b = m₁.refCount b := by
    unfold Store.refCount
    rw [hhost.rest.blobs]
  have hmoved := hsettled.nodes.references (by rw [hsettled.rest]) (by rw [hsettled.rest]) b
  have hcleared := hclear.references b
  rw [(left_handed hs₂ hhand hsettled hleft).2.2, hmoved] at hbook'
  omega

include hs hclear hhost hsettled hleft in
/-- The bytes of the account are the recipient's. -/
theorem bytesUsed_handed (o : Uuid) : db'.bytesUsed o = if o = id then 0
    else db.bytesUsed o + if o = recipientId then db.usage id else 0 := by
  rw [bytesUsed_left hleft, hsettled.bytesUsed]
  have hused : ∀ o, m₂.bytesUsed o = db.bytesUsed o := by
    intro o
    rw [hhost.rest.bytesUsed]
    unfold Store.bytesUsed
    rw [hclear.quotas]
  have hbook := hs.books.bytesUsed id
  rw [hused, hused, hbook, add_zero]
  rfl

include hs hclear hs₁ hs₂ hhost hhand hsettled hs' hleft htop in
/-- **A tree is handed over.** -/
theorem bequeathed_tree : Bequeathed id recipientId db.toStore db'.toStore := by
  obtain ⟨htop₁, htopOwner, htopNone⟩ := oldRootOf_eq_some htop
  have hne := hhand.distinct
  have hfixed : ∀ {k row}, m₂.nodes.find k = some row → row.ownerId ≠ id →
      db'.nodes.find k = some row := others_handed hs₂ hhand hsettled hleft
  refine ⟨⟨?_, ?_⟩, fun k row hrow ho =>
      hfixed (find_hosted hclear hhost hrow fun hid => absurd hid ho) ho,
    fun k row => gone_handed hs hclear hs₁ hs₂ hhost hhand hsettled hleft htop,
    fun top' htop' => ?_, fun hnone => ?_, fun k v => ?_,
    bytesUsed_handed hs hclear hhost hsettled hleft,
    refCount_handed hs hclear hs₁ hs₂ hhost hhand hsettled hs' hleft⟩
  · rw [hleft.users]
    exact find_delete_key _ _
  · rw [hleft.quotas]
    exact find_delete_key _ _
  · obtain ⟨htopFind, htopOwner', htopNone'⟩ := oldRootOf_eq_some htop'
    obtain rfl := root_is_oldRoot hs hclear hs₁ htop htopFind htopOwner' htopNone'
    refine ⟨root, folder,
      ⟨hfixed hhost.find_root fun ho => hne (ho.symm.trans hhost.top.1), hhost.top.1, hhost.top.2.1,
        fun r => host_root hclear hhost⟩,
      ⟨unused_before hclear hhost hhost.fresh.1 (by rw [hhost.find_folder]; rfl),
        hfixed hhost.find_folder fun ho => hne (ho.symm.trans hhost.made.1), hhost.made⟩,
      fun n hn hp hlive => ?_, fun k row => moved_handed hclear hs₂ hhost hhand hsettled hleft,
      fun k row => new_handed hclear hs₂ hhost hhand hsettled hleft⟩
    exact hhost.free n (Table.find_mem ((hclear.nodes _ _).mpr
      ⟨Table.mem_iff_find.mp hn, fun _ => hlive⟩)) hp hlive
  · have htop₀ := ((hclear.nodes _ _).mp htop₁).1
    exact absurd htopOwner (oldRootOf_eq_none hnone (Table.find_mem htop₀) htopNone)
  · have hsame : m.versions = m₁.versions := by
      rw [hsettled.rest]
      exact hhost.rest.versions
    rw [(left_handed hs₂ hhand hsettled hleft).2.1, hsame]
    exact hclear.versions k v

end Tree

/-- **`remove` hands over**, where an account is given the files. -/
theorem removeAccount_bequeathed (hs : Sane db.toStore) (hne : recipientId ≠ id)
    (hx : (removeAccount id (some recipientId) quota).Returns db u db') :
    Bequeathed id recipientId db.toStore db'.toStore := by
  have hs' : Sane db'.toStore := removeAccount_sane hs (fun hsame => hne (Option.some.inj hsame)) hx
  obtain ⟨leaving, purged, m₁, m₂, -, rfl, hempty, hhand, hend⟩ := removeAccount_returns hx
  have hs₁ := emptyTrash_sane hs hempty
  have hclear := emptyTrash_cleared hs.forest hempty
  cases handOverTo_returns hhand with
  | nothing _ hnone =>
    exact bequeathed_rootless hs hclear hs₁.toLeaving hs' (hend 0 hs₁.toLeaving).2 hnone
  | tree _ htop htree =>
    obtain ⟨htop₁, howner, hnone⟩ := oldRootOf_eq_some htop
    obtain ⟨root, folder, m, hhost, hs₂, hhanding, hsettled⟩ := handOverTree_returns hs₁ htop₁
      hnone howner (fun hsame => hne hsame.symm) htree
    exact bequeathed_tree hs hclear hs₁ hs₂ hhost hhanding hsettled hs'
      (hend _ (hsettled.toLeaving hhanding hs₂)).2 htop

/-- **A hand-over conserves everything**, after any run; where it fails, nothing has happened. -/
theorem handOver_conserves (h : Reached db) (hne : recipientId ≠ id) :
    (∀ db', (removeAccount id (some recipientId) quota).Returns db () db' →
      Bequeathed id recipientId db.toStore db'.toStore) ∧
    ∀ e, removeAccount id (some recipientId) quota db = .error e →
      Pool.commit (removeAccount id (some recipientId) quota) db = (.error e, db) := by
  refine ⟨fun db' hx => removeAccount_bequeathed h.sane hne hx, fun e he => ?_⟩
  unfold Pool.commit
  rw [he]

/-- Another account beside the one that has written and discarded. -/
def neighbours : Db := ran (createUser "ben@x.io".toList "Ben".toList true) discarded

theorem reached_neighbours : Reached neighbours :=
  reached_discarded.ran (by decide +kernel) .createUser

theorem handOver_conserves_neighbours : Bequeathed 1 9 neighbours.toStore
    (ran (removeAccount 1 (some 9) 100) neighbours).toStore := by
  have hcommits : commits (removeAccount 1 (some 9) 100) neighbours = true := by decide +kernel
  obtain ⟨_, hx⟩ := returns_ran hcommits
  exact (handOver_conserves reached_neighbours (by decide)).1 _ hx

end Stashden.Api
