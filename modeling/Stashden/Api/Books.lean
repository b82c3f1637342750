import Stashden.Api.Ledger

/-!
# The books of the tree (`api/src/db.rs`, `trash.rs`)

`copyTree_ledger`, `rename_ledger`, `send_ledger`, `restore_ledger` and `purge_ledger`: each function
charges what it adds and credits what it takes, so the books are kept. `Backed` is what they rely on
besides the forest: whoever owns a node has a quota, and versions are versions of files.
-/

namespace Stashden.Api

open Lib Stashden.Core Tx

/-- What the books rest on. -/
structure Backed (s : Store) : Prop where
  quota : ∀ {id row}, s.nodes.find id = some row → (s.quotas.find row.ownerId).isSome = true
  file : ∀ {id v row}, s.versions.find id = some v → s.nodes.find v.nodeId = some row →
    row.isDirectory = false

variable {s s' : Store} {db db' m : Db} {pending : BlobHash → Int} {ahead : Uuid → Int}
  {ownerId nodeId id : Uuid} {hash : BlobHash} {size : Nat} {delta : Int} {u : Unit}
  {node row parent source : Node} {name : NodeName}

/-! ## Copies and moves -/

theorem fresh_ledger {answer : Uuid} (h : Ledger pending ahead db.toStore)
    (hx : Tx.fresh.Returns db answer db') : Ledger pending ahead db'.toStore := by
  rw [(fresh_returns.mp hx).2]
  exact h.frame rfl rfl rfl rfl rfl

theorem etagForDirectory_ledger {etag : Etag} (h : Ledger pending ahead db.toStore)
    (hx : etagForDirectory.Returns db etag db') : Ledger pending ahead db'.toStore := by
  obtain ⟨id, m, hfresh, hx⟩ := bind_returns.mp hx
  obtain ⟨-, rfl⟩ := pure_returns.mp hx
  exact fresh_ledger h hfresh

theorem acquireOf_ledger {o : Option BlobHash} (h : Ledger pending ahead db.toStore)
    (ho : ∀ b ∈ o, (db.blobs.find b).isSome = true) (hx : (acquireOf o).Returns db u db') :
    Ledger (fun b => pending b + heldRef o b) ahead db'.toStore := by
  cases o with
  | none =>
    obtain ⟨-, rfl⟩ := pure_returns.mp hx
    exact h.of_eq (fun b => by rw [heldRef_none, add_zero]) fun _ => rfl
  | some hash =>
    exact (acquireBlob_ledger h (ho hash rfl) hx).1.of_eq (fun b => by rw [heldRef_some])
      fun _ => rfl

theorem size_congr {a b : Node} (h : a.body = b.body) : a.size = b.size := by
  rw [Node.size, Node.size, h]

theorem blobHash_congr {a b : Node} (h : a.body = b.body) : a.blobHash = b.blobHash := by
  rw [Node.blobHash, Node.blobHash, h]

/-- **A copy**: its bytes are still to be charged. -/
theorem copyOne_ledger {parentId : Uuid} {str : Str} {original copy : Node}
    (h : Ledger pending ahead db.toStore)
    (hx : (copyOne ownerId parentId str original).Returns db copy db') :
    Ledger pending (fun o => ahead o - bytes ownerId original.size o) db'.toStore := by
  unfold copyOne at hx
  obtain ⟨tag, m₁, htag, hx⟩ := bind_returns.mp hx
  obtain ⟨made, m₂, hmade, hx⟩ := bind_returns.mp hx
  obtain ⟨_, m₃, hacquire, hx⟩ := bind_returns.mp hx
  obtain ⟨rfl, rfl⟩ := pure_returns.mp hx
  have hmade := mapViolated_returns.mp hmade
  obtain ⟨hnode, nodes, hins, hs⟩ := insertNode_returns hmade
  have hbody : copy.body = original.body := by rw [hnode]
  have hblob : ∀ b ∈ original.blobHash, (m₂.blobs.find b).isSome = true := by
    intro b hb
    have hfind : m₂.nodes.find copy.id = some copy := by
      rw [hs]
      exact find_insert_self hins
    exact (m₂.sound .nodesForeign copy (Table.find_mem hfind)).2.2.2 b
      ((blobHash_congr hbody).trans hb)
  refine (acquireOf_ledger (insertNode_ledger (etagForDirectory_ledger h htag) hmade) hblob
    hacquire).of_eq (fun b => ?_) fun o => ?_
  · rw [blobHash_congr hbody]
    omega
  · rw [size_congr hbody]

theorem copyChildren_ledger {into : Uuid} {originals : List Node}
    {copied : List (Uuid × Uuid) × Int} (h : Ledger pending ahead db.toStore)
    (hx : (copyChildren ownerId into originals).Returns db copied db') :
    Ledger pending (fun o => ahead o - bytes ownerId copied.2 o) db'.toStore := by
  induction originals generalizing db copied ahead with
  | nil =>
    obtain ⟨rfl, rfl⟩ := pure_returns.mp hx
    exact h.of_eq (fun _ => rfl) fun o => by rw [bytes_zero, sub_zero]
  | cons original originals ih =>
    rw [copyChildren] at hx
    obtain ⟨copy, m, hcopy, hx⟩ := bind_returns.mp hx
    obtain ⟨rest, m', hrest, hx⟩ := bind_returns.mp hx
    obtain ⟨rfl, rfl⟩ := pure_returns.mp hx
    refine (ih (copyOne_ledger h hcopy) hrest).of_eq (fun _ => rfl) fun o => ?_
    rw [bytes_add]
    omega

theorem copyPending_ledger {rounds : Nat} {stack : List (Uuid × Uuid)} {copied : Int}
    (h : Ledger pending ahead db.toStore)
    (hx : (copyPending ownerId rounds stack).Returns db copied db') :
    Ledger pending (fun o => ahead o - bytes ownerId copied o) db'.toStore := by
  induction rounds generalizing db stack copied ahead with
  | zero =>
    cases stack with
    | nil =>
      obtain ⟨rfl, rfl⟩ := pure_returns.mp hx
      exact h.of_eq (fun _ => rfl) fun o => by rw [bytes_zero, sub_zero]
    | cons pair stack => exact absurd hx fail_returns
  | succ rounds ih =>
    cases stack with
    | nil =>
      obtain ⟨rfl, rfl⟩ := pure_returns.mp hx
      exact h.of_eq (fun _ => rfl) fun o => by rw [bytes_zero, sub_zero]
    | cons pair stack =>
      rw [copyPending] at hx
      obtain ⟨originals, m, horiginals, hx⟩ := bind_returns.mp hx
      obtain ⟨-, rfl⟩ := query_returns.mp horiginals
      obtain ⟨children, m, hchildren, hx⟩ := bind_returns.mp hx
      obtain ⟨rest, m', hrest, hx⟩ := bind_returns.mp hx
      obtain ⟨rfl, rfl⟩ := pure_returns.mp hx
      refine (ih (copyChildren_ledger h hchildren) hrest).of_eq (fun _ => rfl) fun o => ?_
      rw [bytes_add]
      omega

/-- **`copy_tree` keeps the books.** -/
theorem copyTree_ledger {copy : Node} (h : Ledger pending ahead db.toStore)
    (hx : (copyTree ownerId source parent name).Returns db copy db') :
    Ledger pending ahead db'.toStore := by
  unfold copyTree at hx
  obtain ⟨-, hx⟩ := of_guard hx
  obtain ⟨inside, m, hinside, hx⟩ := bind_returns.mp hx
  obtain ⟨-, rfl⟩ := query_returns.mp hinside
  obtain ⟨-, hx⟩ := of_guard hx
  obtain ⟨taken, m, htaken, hx⟩ := bind_returns.mp hx
  obtain ⟨-, rfl⟩ := child_returns.mp htaken
  obtain ⟨-, hx⟩ := of_guard hx
  obtain ⟨rounds, m, hrounds, hx⟩ := bind_returns.mp hx
  obtain ⟨-, rfl⟩ := query_returns.mp hrounds
  obtain ⟨root, m₁, hroot, hx⟩ := bind_returns.mp hx
  obtain ⟨copied, m₂, hcopied, hx⟩ := bind_returns.mp hx
  obtain ⟨_, m₃, hcharge, hx⟩ := bind_returns.mp hx
  obtain ⟨rfl, rfl⟩ := pure_returns.mp hx
  have hbooks := copyPending_ledger (copyOne_ledger h hroot) hcopied
  refine (chargeQuota_ledger hbooks hcharge).1.of_eq (fun _ => rfl) fun o => ?_
  rw [bytes_add]
  omega

/-- **`rename` keeps the books.** -/
theorem rename_ledger {moved : Node} (h : Ledger pending ahead db.toStore)
    (hrow : db.nodes.find node.id = some row) (hlive : row.live = true)
    (hx : (rename node parent name).Returns db moved db') : Ledger pending ahead db'.toStore := by
  unfold rename at hx
  obtain ⟨-, hx⟩ := of_guard hx
  obtain ⟨inside, m, hinside, hx⟩ := bind_returns.mp hx
  obtain ⟨-, rfl⟩ := query_returns.mp hinside
  obtain ⟨-, hx⟩ := of_guard hx
  obtain ⟨taken, m, htaken, hx⟩ := bind_returns.mp hx
  obtain ⟨-, rfl⟩ := child_returns.mp htaken
  obtain ⟨-, hx⟩ := of_guard hx
  obtain ⟨tag, m, htag, hx⟩ := bind_returns.mp hx
  have hb := keeps_etagForDirectory (R := Beside) htag
  have hbooks := updateNode_ledger (etagForDirectory_ledger h htag)
    (by rw [hb.nodes]; exact hrow) hlive (by intro _; exact ⟨rfl, rfl⟩)
    (mapViolated_returns.mp hx)
  refine hbooks.of_eq (fun b => ?_) fun o => ?_
  · show pending b + heldRef row.blobHash b - heldRef row.blobHash b = pending b
    omega
  · show ahead o + bytes row.ownerId (row.size - row.size) o = ahead o
    rw [sub_self, bytes_zero, add_zero]

/-! ## Into the trash and out of it -/

theorem total_add {ρ κ : Type} {key : ρ → κ} (t : Table ρ key) (f g : ρ → Int) :
    t.total (fun r => f r + g r) = t.total f + t.total g := List.sum_map_add

theorem versionsUnder_eq (s : Store) (ids : List Uuid) :
    s.versionsUnder ids = s.versions.total fun v => if v.nodeId ∈ ids then v.size else 0 := by
  unfold Store.versionsUnder Table.select Table.total
  induction s.versions.rows with
  | nil => rfl
  | cons v rows ih =>
    rw [List.filter_cons, List.map_cons, List.sum_cons, ← ih]
    by_cases hv : v.nodeId ∈ ids
    · rw [if_pos (decide_eq_true hv), if_pos hv, List.map_cons, List.sum_cons]
    · rw [if_neg (by simpa using hv), if_neg hv, zero_add]

/-- **What some nodes less take of an account**: `s'` has the nodes `ids` in the trash, and of the
others only folders may differ in that. -/
theorem usage_trashed (hre : Retrashed s.nodes s'.nodes) (hv : s'.versions = s.versions)
    {ids : List Uuid} (hnodup : ids.Nodup)
    (hids : ∀ k ∈ ids, ∃ row row', s.nodes.find k = some row ∧ row.live = true ∧
      row.ownerId = ownerId ∧ s'.nodes.find k = some row' ∧ row'.live = false)
    (hothers : ∀ k row row', k ∉ ids → s.nodes.find k = some row → s'.nodes.find k = some row' →
      row'.live = row.live ∨ row.isDirectory = true)
    (hfile : ∀ v ∈ s.versions.rows, ∃ row, s.nodes.find v.nodeId = some row ∧
      row.isDirectory = false) (o : Uuid) :
    s.usage o = s'.usage o +
      bytes ownerId ((ids.map (s.nodes.value Node.size)).sum + s.versionsUnder ids) o := by
  have hnodes : s.nodes.total (fun n => if n.ownerId = o && n.live then n.size else 0) =
      s'.nodes.total (fun n => if n.ownerId = o && n.live then n.size else 0) +
        (ids.map fun k => bytes ownerId (s.nodes.value Node.size k) o).sum := by
    refine Table.total_add_of_value hnodup fun k => ?_
    cases hk : s.nodes.find k with
    | none =>
      have hk' : s'.nodes.find k = none := by
        have h := hre k
        rw [hk] at h
        exact Option.map_eq_none_iff.mp h
      rw [Table.value_of_missing hk, Table.value_of_missing hk', if_neg, zero_add]
      intro hmem
      obtain ⟨row, -, hrow, -⟩ := hids k hmem
      rw [hk] at hrow
      cases hrow
    | some row =>
      obtain ⟨row', hk', hsame⟩ := hre.find hk
      obtain ⟨howner, -, -, hbody⟩ := untrashed_eq hsame
      rw [Table.value_of_find hk, Table.value_of_find hk', howner, size_congr hbody]
      by_cases hmem : k ∈ ids
      · obtain ⟨r, r', hr, hlive, hof, hr', hdead⟩ := hids k hmem
        rw [hk] at hr
        rw [hk'] at hr'
        cases hr
        cases hr'
        rw [if_pos hmem, Table.value_of_find hk, hlive, hdead, hof]
        unfold bytes
        simp only [Bool.and_true, Bool.and_false, decide_eq_true_eq, Bool.false_eq_true, if_false,
          eq_comm (a := o), zero_add]
      · rw [if_neg hmem, add_zero]
        rcases hothers k row row' hmem hk hk' with hl | hdir
        · rw [hl]
        · rw [size_of_directory hdir, ite_self, ite_self]
  have hversions : s.versions.total (fun v => if s.chargedTo o v.nodeId then v.size else 0) =
      s'.versions.total (fun v => if s'.chargedTo o v.nodeId then v.size else 0) +
        bytes ownerId (s.versionsUnder ids) o := by
    have hunder : bytes ownerId (s.versionsUnder ids) o =
        s.versions.total fun v => bytes ownerId (if v.nodeId ∈ ids then v.size else 0) o := by
      rw [versionsUnder_eq]
      unfold bytes
      split_ifs
      · rfl
      · exact (List.sum_eq_zero fun x hx => by
          obtain ⟨v, -, rfl⟩ := List.mem_map.mp hx
          rfl).symm
    rw [hunder, hv, ← total_add]
    refine Table.total_congr fun v hmem => ?_
    obtain ⟨row, hrow, hfile⟩ := hfile v hmem
    obtain ⟨row', hrow', hsame⟩ := hre.find hrow
    obtain ⟨howner, -, -, -⟩ := untrashed_eq hsame
    unfold Store.chargedTo
    rw [hrow, hrow', Option.any_some, Option.any_some, howner]
    by_cases hin : v.nodeId ∈ ids
    · obtain ⟨r, r', hr, hlive, hof, hr', hdead⟩ := hids v.nodeId hin
      rw [hrow] at hr
      rw [hrow'] at hr'
      cases hr
      cases hr'
      rw [if_pos hin, hlive, hdead, hof]
      unfold bytes
      simp only [Bool.and_true, Bool.and_false, decide_eq_true_eq, Bool.false_eq_true, if_false,
        eq_comm (a := o), zero_add]
    · rw [if_neg hin, bytes_zero, add_zero]
      rcases hothers v.nodeId row row' hin hrow hrow' with hl | hdir
      · rw [hl]
      · rw [hfile] at hdir
        cases hdir
  have hsum : (ids.map fun k => bytes ownerId (s.nodes.value Node.size k) o).sum =
      bytes ownerId (ids.map (s.nodes.value Node.size)).sum o := by
    unfold bytes
    split_ifs
    · rfl
    · exact List.sum_eq_zero fun x hx => by
        obtain ⟨k, -, rfl⟩ := List.mem_map.mp hx
        rfl
  rw [bytes_add, ← hsum]
  unfold Store.usage
  rw [hnodes, hversions]
  omega

theorem rows_nodup {ρ κ : Type} {key : ρ → κ} (t : Table ρ key) : t.rows.Nodup :=
  List.Nodup.of_map _ t.nodup

/-- What `send` marks is live, below the node, and of one owner. -/
theorem mem_marked (hrow : db.nodes.find id = some row) (hlive : row.live = true) :
    node ∈ db.marked id ↔ db.nodes.find node.id = some node ∧ LiveBelow db.nodes node.id id := by
  unfold Store.marked
  rw [if_pos (liveNode_isSome.mpr ⟨row, hrow, hlive⟩), mem_subtree_iff hrow, Table.mem_iff_find]

theorem marked_of_dead (h : ¬ LiveAt db.nodes id) : db.marked id = [] := by
  unfold Store.marked
  rw [if_neg]
  rwa [liveNode_isSome]

theorem marked_nodup (id : Uuid) : ((db.marked id).map Node.id).Nodup := by
  unfold Store.marked
  split_ifs
  · have hsub : db.subtree id ⊆ db.nodes.rows := by
      intro n hn
      unfold Store.subtree at hn
      rw [mem_recursive_iff] at hn
      obtain ⟨start, hstart, hreach⟩ := hn
      rcases Relation.ReflTransGen.cases_tail hreach with rfl | ⟨_, _, h⟩
      · exact (Table.mem_select.mp hstart).1
      · exact h.1
    refine List.Nodup.map_on (fun a ha b hb hid => Table.eq_of_key (hsub ha) (hsub hb) hid) ?_
    exact nodup_recursive (rows_nodup _) ((rows_nodup _).filter _)
  · exact List.nodup_nil

theorem file_of_backed {s : Store} (hb : Backed s)
    (hforeign : ∀ v ∈ s.versions.rows, (s.nodes.find v.nodeId).isSome = true) :
    ∀ v ∈ s.versions.rows, ∃ row, s.nodes.find v.nodeId = some row ∧ row.isDirectory = false := by
  intro v hv
  obtain ⟨row, hrow⟩ := Option.isSome_iff_exists.mp (hforeign v hv)
  exact ⟨row, hrow, hb.file (Table.mem_iff_find.mp hv) hrow⟩

theorem sum_value {t : Table Node Node.id} {rows : List Node}
    (h : ∀ r ∈ rows, t.find r.id = some r) :
    ((rows.map Node.id).map (t.value Node.size)).sum = (rows.map Node.size).sum := by
  rw [List.map_map]
  refine congrArg List.sum (List.map_congr_left fun r hr => ?_)
  rw [Function.comp_apply, Table.value_of_find (h r hr)]

theorem references_retrashed (hre : Retrashed s.nodes s'.nodes) (hv : s'.versions = s.versions)
    (ht : s'.thumbnails = s.thumbnails) (b : BlobHash) : s'.references b = s.references b := by
  have hsame : s'.nodes.total (fun n => if n.blobHash = some b then (1 : Int) else 0) =
      s.nodes.total fun n => if n.blobHash = some b then 1 else 0 := by
    refine Table.total_congr_value fun k => ?_
    cases hk : s.nodes.find k with
    | none =>
      have hk' := hre k
      rw [hk] at hk'
      rw [Table.value_of_missing hk, Table.value_of_missing (Option.map_eq_none_iff.mp hk')]
    | some row =>
      obtain ⟨row', hrow', hsame⟩ := hre.find hk
      rw [Table.value_of_find hk, Table.value_of_find hrow',
        blobHash_congr (untrashed_eq hsame).2.2.2]
  unfold Store.references
  rw [hsame, hv, ht]

/-- What a live node and what is below it weigh, off the usage once they are marked. -/
theorem usage_marked (hw : WellFormed db.nodes) (hb : Backed db.toStore)
    (hrow : db.nodes.find node.id = some row) (howner : row.ownerId = node.ownerId)
    (hs : m.toStore = { db.toStore with
      nodes := db.nodes.update (fun n => n.id ∈ (db.marked node.id).map Node.id)
        (fun n => { n with trashed := some ⟨db.now, node.id⟩ }) fun _ => rfl }) (o : Uuid) :
    db.usage o = m.usage o + bytes node.ownerId (((db.marked node.id).map Node.size).sum +
      db.versionsUnder ((db.marked node.id).map Node.id)) o := by
  have hnodes : ∀ k, m.nodes.find k = (db.nodes.find k).map fun r =>
      { r with trashed := if r.id ∈ (db.marked node.id).map Node.id then some ⟨db.now, node.id⟩
        else r.trashed } := by
    intro k
    rw [hs, Table.find_update]
    refine Option.map_congr fun r _ => ?_
    simp only [decide_eq_true_eq]
    split_ifs <;> rfl
  have hre : Retrashed db.nodes m.nodes := by
    intro k
    rw [hnodes, Option.map_map]
    rfl
  have hspec : ∀ {n : Node}, n ∈ db.marked node.id → db.nodes.find n.id = some n ∧
      n.live = true ∧ n.ownerId = node.ownerId := by
    intro n hn
    by_cases hlive : row.live = true
    · obtain ⟨hfind, hbelow⟩ := (mem_marked hrow hlive).mp hn
      obtain ⟨r, hr, hrl⟩ := WellFormed.live_of_liveBelow ⟨row, hrow, hlive⟩ hbelow
      rw [hfind] at hr
      cases hr
      exact ⟨hfind, hrl, (hw.owner_above hfind hbelow.atOrBelow hrow).trans howner⟩
    · rw [marked_of_dead fun ⟨r, hr, hl⟩ => hlive (by rw [hrow] at hr; cases hr; exact hl)] at hn
      exact absurd hn List.not_mem_nil
  have hunder : m.versionsUnder ((db.marked node.id).map Node.id) =
      db.versionsUnder ((db.marked node.id).map Node.id) := by
    unfold Store.versionsUnder
    rw [hs]
  rw [← sum_value fun r hr => (hspec hr).1]
  refine usage_trashed hre (by rw [hs]) (marked_nodup _) (fun k hk => ?_)
    (fun k r r' hk hr hr' => Or.inl ?_)
    (file_of_backed hb fun v hv => (db.sound .versionsForeign v hv).1) o
  · obtain ⟨n, hn, rfl⟩ := List.mem_map.mp hk
    obtain ⟨hfind, hl, hof⟩ := hspec hn
    refine ⟨n, _, hfind, hl, hof, by rw [hnodes, hfind, Option.map_some], ?_⟩
    rw [Node.live, if_pos hk]
    rfl
  · rw [hnodes, hr] at hr'
    cases hr'
    rw [← Table.find_key hr] at hk
    dsimp only [Node.live]
    rw [if_neg hk]

/-- **`send` keeps the books.** -/
theorem send_ledger (h : Ledger pending ahead db.toStore) (hw : WellFormed db.nodes)
    (hb : Backed db.toStore) (hrow : db.nodes.find node.id = some row)
    (howner : row.ownerId = node.ownerId) (hx : (send node).Returns db u db') :
    Ledger pending ahead db'.toStore := by
  unfold send at hx
  obtain ⟨marked, m, hmarked, hx⟩ := bind_returns.mp hx
  obtain ⟨rfl, rfl⟩ := query_returns.mp hmarked
  obtain ⟨_, m, hupdate, hx⟩ := bind_returns.mp hx
  obtain ⟨versions, m', hversions, hcharge⟩ := bind_returns.mp hx
  obtain ⟨rfl, rfl⟩ := query_returns.mp hversions
  have hs := execute_returns.mp hupdate
  have hre : Retrashed db.nodes m.nodes := by
    intro k
    rw [hs, Table.find_update, Option.map_map]
    refine Option.map_congr fun r _ => ?_
    rw [Function.comp_apply]
    split_ifs <;> rfl
  have hrefs := references_retrashed hre (show m.versions = db.versions by rw [hs])
    (show m.thumbnails = db.thumbnails by rw [hs])
  have hunder : m.versionsUnder ((db.marked node.id).map Node.id) =
      db.versionsUnder ((db.marked node.id).map Node.id) := by
    unfold Store.versionsUnder
    rw [hs]
  have hshift := h.shift (show m.blobs = db.blobs by rw [hs])
    (show m.quotas = db.quotas by rw [hs])
  refine (chargeQuota_ledger hshift hcharge).1.of_eq (fun b => ?_) fun o => ?_
  · rw [hrefs]
    omega
  · have hu := usage_marked hw hb hrow howner hs o
    rw [hunder, bytes_neg]
    omega

/-- **`restore` keeps the books.** -/
theorem restore_ledger (h : Ledger pending ahead db.toStore) (hw : WellFormed db.nodes)
    (hb : Backed db.toStore) (hx : (restore ownerId id).Returns db node db') :
    Ledger pending ahead db'.toStore := by
  obtain ⟨root, m, restored, hroot, howner, hbatch, ⟨hnodup, hrows⟩, hs, hwm, hres, hcharge, -⟩ :=
    restore_returns hw hx
  have hre := hres.retrashed
  have hfind : ∀ {r row : Node}, r ∈ restored → m.nodes.find r.id = some row →
      row.untrashed = r.untrashed := by
    intro r row hr hrow
    obtain ⟨row', hrow', hsame⟩ := hre.find ((hrows r).mp hr).1
    rw [hrow] at hrow'
    cases hrow'
    exact hsame
  have hsizes : ((restored.map Node.id).map (m.nodes.value Node.size)).sum =
      (restored.map Node.size).sum := by
    rw [List.map_map]
    refine congrArg List.sum (List.map_congr_left fun r hr => ?_)
    obtain ⟨row', hrow', hsame⟩ := hre.find ((hrows r).mp hr).1
    rw [Function.comp_apply, Table.value_of_find hrow', size_congr (untrashed_eq hsame).2.2.2]
  have hunder : db.versionsUnder (restored.map Node.id) = m.versionsUnder (restored.map Node.id) := by
    unfold Store.versionsUnder
    rw [hs]
  have hparent : ∃ p, root.parentId = some p := by
    by_contra hno
    have hl := (hw.root hroot (Option.eq_none_iff_forall_ne_some.mpr fun p hp => hno ⟨p, hp⟩)).1
    exact trashed_of_trashRoot hbatch (WellFormed.live_iff.mp hl)
  obtain ⟨p, hp⟩ := hparent
  have husage : ∀ o, m.usage o = db.usage o + bytes ownerId
      ((restored.map Node.size).sum + db.versionsUnder (restored.map Node.id)) o := by
    intro o
    rw [← hsizes, hunder]
    refine usage_trashed hre.symm (by rw [hs]) hnodup (fun k hk => ?_)
      (fun k r r' hk hr hr' => ?_) (fun v hv => ?_) o
    · obtain ⟨r, hr, rfl⟩ := List.mem_map.mp hk
      obtain ⟨hr₀, hb₀⟩ := (hrows r).mp hr
      obtain ⟨row', hrow', hsame⟩ := hre.find hr₀
      refine ⟨row', r, hrow', (hres.live hr₀ hrow').mpr (Or.inr (Or.inr ⟨r, hr₀, hb₀⟩)), ?_, hr₀, ?_⟩
      · rw [(untrashed_eq hsame).1, ← howner]
        exact hw.owner_above hr₀ (hw.up_trashRoot hr₀ hb₀) hroot
      · by_contra hl
        exact trashed_of_trashRoot hb₀ (WellFormed.live_iff.mp (by simpa using hl))
    · by_cases hx : ComesBack db.nodes id k
      · refine Or.inr ?_
        rcases hx with hup | ⟨row, hrow, hb₀⟩
        · rcases (up_iff_of_parent (by rw [parentOf_of_find hroot, hp])).mp hup with rfl | hup
          · exact absurd (List.mem_map.mpr ⟨root, (hrows root).mpr
              ⟨by rw [Table.find_key hroot]; exact hroot, hbatch⟩, Table.find_key hroot⟩) hk
          · obtain ⟨row', hrow', hsame⟩ := hre.find hr'
            rw [hr] at hrow'
            cases hrow'
            rw [isDirectory_congr (untrashed_eq hsame).2.2.2]
            exact hw.folder_above hroot hp hup hr'
        · have hid := Table.find_key hrow
          exact absurd (List.mem_map.mpr ⟨row, (hrows row).mpr
            ⟨by rw [hid]; exact hrow, hb₀⟩, hid⟩) hk
      · refine Or.inl (Bool.eq_iff_iff.mpr ?_)
        rw [hres.live hr' hr]
        exact ⟨Or.inl, fun hl => hl.resolve_right hx⟩
    · have hv' : v ∈ db.versions.rows := by
        rw [hs] at hv
        exact hv
      obtain ⟨row, hrow, hfile⟩ :=
        file_of_backed hb (fun v hv => (db.sound .versionsForeign v hv).1) v hv'
      obtain ⟨row', hrow', hsame⟩ := hre.find hrow
      exact ⟨row', hrow', by rw [isDirectory_congr (untrashed_eq hsame).2.2.2]; exact hfile⟩
  have hrefs := references_retrashed hre (show m.versions = db.versions by rw [hs])
    (show m.thumbnails = db.thumbnails by rw [hs])
  have hshift := h.shift (show m.blobs = db.blobs by rw [hs])
    (show m.quotas = db.quotas by rw [hs])
  refine (chargeQuota_ledger hshift hcharge).1.of_eq (fun b => ?_) fun o => ?_
  · rw [hrefs]
    omega
  · have hu := husage o
    omega

end Stashden.Api
