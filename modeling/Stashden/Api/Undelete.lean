import Stashden.Api.Dav
import Stashden.Api.Refunds
import Stashden.Api.System

/-!
# What a restore gives back (`api/src/trash.rs`)

`GivesBack` is the effect of a restore that succeeds, `restore_gives_back` that it has it.
`restore_after_send` is the way there and back: where the account is within its limit, sending a
node to the trash and restoring it succeed and leave everything as it was; `restore_succeeds` says
where any batch comes back. `restore_exact` puts them together for every run; an account over its
limit is refused (`not_restored_overfull`).
-/

namespace Stashden.Api

open Lib Stashden.Core Tx

variable {s s' : Store} {db db' m : Db} {ownerId id k : Uuid} {row node root : Node} {u : Unit}
  {delta : Int}

/-! ## The effect of a restore -/

namespace Store

/-- A batch of the trash. -/
def batch (s : Store) (id : Uuid) : List Node := s.nodes.select fun n => n.trashRoot = some id

/-- The bytes of its files and of their versions. -/
def batchBytes (s : Store) (id : Uuid) : Int :=
  ((s.batch id).map Node.size).sum + s.versionsUnder ((s.batch id).map Node.id)

end Store

theorem mem_batch : row ∈ s.batch id ↔ s.nodes.find row.id = some row ∧ row.trashRoot = some id := by
  unfold Store.batch
  rw [Table.mem_select, Table.mem_iff_find, decide_eq_true_eq]

theorem batch_nodup (s : Store) (id : Uuid) : ((s.batch id).map Node.id).Nodup := by
  unfold Store.batch
  exact (s.nodes.nodup.sublist ((List.filter_sublist).map _))

/-- The bytes of any list of a batch. -/
theorem batchBytes_eq {rows : List Node} (h : BatchRows s.nodes id rows) :
    (rows.map Node.size).sum + s.versionsUnder (rows.map Node.id) = s.batchBytes id := by
  have hperm : rows.Perm (s.batch id) :=
    (List.perm_ext_iff_of_nodup (List.Nodup.of_map _ h.1)
      (List.Nodup.of_map _ (batch_nodup s id))).mpr fun row => (h.2 row).trans mem_batch.symm
  have hunder : s.versionsUnder (rows.map Node.id) = s.versionsUnder ((s.batch id).map Node.id) := by
    unfold Store.versionsUnder
    refine congrArg (fun l => (List.map Version.size l).sum) (List.filter_congr fun v _ => ?_)
    rw [decide_eq_decide]
    exact (hperm.map Node.id).mem_iff
  rw [hunder, (hperm.map Node.size).sum_eq]
  rfl

/-- What a restore of `id` gives its owner back. -/
structure GivesBack (ownerId id : Uuid) (s s' : Store) : Prop where
  /-- The nodes there were, each where it was and what it was but for the trash. -/
  nodes : ∀ k, (s'.nodes.find k).map Node.untrashed = (s.nodes.find k).map Node.untrashed
  /-- Live are those that were, those of the batch, and what `id` is in. -/
  live : ∀ k row row', s.nodes.find k = some row → s'.nodes.find k = some row' →
    (row'.live = true ↔ row.live = true ∨ row.trashRoot = some id ∨ AtOrBelow s.nodes id k)
  /-- What is still in the trash was sent there then, and is in one batch that is listed. -/
  listed : ∀ k row', s'.nodes.find k = some row' → row'.live = false →
    (∃ row, s.nodes.find k = some row ∧
      row'.trashed.map Trashed.deletedAt = row.trashed.map Trashed.deletedAt) ∧
    ∃! entry, (∃ ownerId, entry ∈ s'.trashOf ownerId) ∧ InBatch s'.nodes k entry.id
  /-- What comes back beside the batch are folders, which weigh nothing. -/
  folders : ∀ k row, s.nodes.find k = some row → row.live = false → AtOrBelow s.nodes id k →
    row.trashRoot ≠ some id → row.isDirectory = true
  bytesUsed : ∀ o, s'.bytesUsed o = s.bytesUsed o + bytes ownerId (s.batchBytes id) o

theorem restore_gives_back (hs : Sane db.toStore) (hx : (restore ownerId id).Returns db node db') :
    GivesBack ownerId id db.toStore db'.toStore := by
  obtain ⟨root, m, restored, hroot, -, hself, hbatch, hm, -, hres, hcharge, -⟩ :=
    restore_returns hs.forest hx
  have hs' := restore_sane hs hx
  have hnodes : db'.nodes = m.nodes := (keeps_chargeQuota (R := Beside) hcharge).nodes
  refine ⟨fun k => ?_, fun k row row' hrow hrow' => ?_, fun k row' hrow' hdead => ⟨?_, ?_⟩,
    fun k row hrow hdead hup hother => ?_, fun o => ?_⟩
  · rw [hnodes]
    exact hres.retrashed k
  · rw [hnodes] at hrow'
    rw [hres.live hrow hrow']
    refine or_congr_right ⟨fun h => ?_, fun h => ?_⟩
    · rcases h with hup | ⟨r, hr, hb⟩
      · exact Or.inr hup
      · rw [hrow] at hr
        cases hr
        exact Or.inl hb
    · exact h.elim (fun hb => Or.inr ⟨row, hrow, hb⟩) Or.inl
  · rw [hnodes] at hrow'
    obtain ⟨row, hrow, -⟩ := hres.retrashed.symm.find hrow'
    exact ⟨row, hrow, hres.dates hrow hrow' hdead⟩
  · exact hs'.forest.listed_once hrow' hdead
  · have hne : id ≠ k := by
      rintro rfl
      rw [hroot] at hrow
      cases hrow
      exact hother hself
    obtain rfl | ⟨p, hp, hpk⟩ := hup.cases_head
    · exact absurd rfl hne
    · obtain ⟨r, hr, hparent⟩ := find_of_parentOf hp
      exact hs.forest.folder_above hr hparent hpk hrow
  · rw [chargeQuota_bytesUsed hcharge, batchBytes_eq hbatch, hm]
    rfl

/-! ## There and back -/

theorem size_nonneg (n : Node) : 0 ≤ n.size := by
  unfold Node.size
  cases n.body with
  | directory => exact le_rfl
  | file hash size => exact Int.natCast_nonneg size

theorem usage_nonneg (db : Db) (o : Uuid) : 0 ≤ db.usage o := by
  refine add_nonneg (total_nonneg fun n _ => ?_) (total_nonneg fun v hv => ?_)
  · split_ifs
    · exact size_nonneg n
    · exact le_rfl
  · split_ifs
    · exact (db.sound .versionsForeign v hv).2.2
    · exact le_rfl

/-- Nodes and the versions under them weigh nothing less than nothing. -/
theorem weight_nonneg (db : Db) (nodes : List Node) (ids : List Uuid) :
    0 ≤ (nodes.map Node.size).sum + db.versionsUnder ids := by
  refine add_nonneg (List.sum_nonneg fun x hx => ?_) (List.sum_nonneg fun x hx => ?_)
  · obtain ⟨n, -, rfl⟩ := List.mem_map.mp hx
    exact size_nonneg n
  · obtain ⟨v, hv, rfl⟩ := List.mem_map.mp hx
    exact (db.sound .versionsForeign v (Table.mem_select.mp hv).1).2.2

/-- The tables once `send` has marked what it sends. -/
structure Sent (node : Node) (db m : Db) : Prop where
  nodes : m.nodes = db.nodes.update (fun n => n.id ∈ (db.marked node.id).map Node.id)
    (fun n => { n with trashed := some ⟨db.now, node.id⟩ }) fun _ => rfl
  versions : m.versions = db.versions
  quotas : ∀ o, m.quotas.find o = (db.quotas.find o).map fun q => if q.ownerId = node.ownerId then
    { q with bytesUsed := q.bytesUsed - freedBySend db.toStore node.id } else q

theorem send_sent (hx : (send node).Returns db u m) : Sent node db m := by
  unfold send at hx
  obtain ⟨marked, _, hmarked, hx⟩ := bind_returns.mp hx
  obtain ⟨rfl, rfl⟩ := query_returns.mp hmarked
  obtain ⟨_, m₁, hupdate, hx⟩ := bind_returns.mp hx
  obtain ⟨versions, _, hversions, hcharge⟩ := bind_returns.mp hx
  obtain ⟨rfl, rfl⟩ := query_returns.mp hversions
  have heq := execute_returns.mp hupdate
  have hbooked := (chargeQuota_ledger (ledger_any m₁.toStore) hcharge).2
  have hunder : m₁.versionsUnder ((db.marked node.id).map Node.id) =
      db.versionsUnder ((db.marked node.id).map Node.id) := by
    unfold Store.versionsUnder
    rw [heq]
  refine ⟨by rw [hbooked.nodes, heq], by rw [hbooked.versions, heq], fun o => ?_⟩
  have hquotas : m₁.quotas = db.quotas := by rw [heq]
  rw [chargeQuota_find hcharge, hunder, hquotas]
  rfl

/-- **A node is sent to the trash**, where its owner is within the limit. -/
theorem send_succeeds (hs : Sane db.toStore) (hnode : db.nodes.find node.id = some node)
    (hlimit : ∀ q, db.quotas.find node.ownerId = some q → q.bytesUsed ≤ q.bytesMax) :
    ∃ m, (send node).Returns db () m := by
  have hmarked : ∃ m, (execute fun s => { s with
      nodes := s.nodes.update (fun n => n.id ∈ (db.marked node.id).map Node.id)
        (fun n => { n with trashed := some ⟨s.now, node.id⟩ }) fun _ => rfl }).Returns db () m :=
    execute_succeeds (holds_marked node.id)
  obtain ⟨m, hm⟩ := hmarked
  have heq := execute_returns.mp hm
  have husage := usage_marked hs.forest hs.backed hnode rfl heq node.ownerId
  obtain ⟨q, hq⟩ := Option.isSome_iff_exists.mp (hs.backed.quota hnode)
  have hused : db.bytesUsed node.ownerId = q.bytesUsed := Table.value_of_find hq
  have hbook := hs.books.bytesUsed node.ownerId
  have hleft := usage_nonneg m node.ownerId
  have hfreed : 0 ≤ freedBySend db.toStore node.id := weight_nonneg db _ _
  have hlim := hlimit q hq
  have hcharged : ∃ m', (chargeQuota node.ownerId
      (-(((db.marked node.id).map Node.size).sum +
        m.versionsUnder ((db.marked node.id).map Node.id)))).Returns m () m' := by
    have hunder : m.versionsUnder ((db.marked node.id).map Node.id) =
        db.versionsUnder ((db.marked node.id).map Node.id) := by
      unfold Store.versionsUnder
      rw [heq]
    rw [bytes, if_pos rfl] at husage
    unfold freedBySend at hfreed
    rw [hunder]
    refine chargeQuota_succeeds (Or.inr ⟨q, by rw [heq]; exact hq, ?_, ?_⟩)
    · omega
    · omega
  obtain ⟨m', hm'⟩ := hcharged
  exact ⟨m', bind_returns.mpr ⟨_, db, query_returns.mpr ⟨rfl, rfl⟩, bind_returns.mpr ⟨(), m, hm,
    bind_returns.mpr ⟨_, m, query_returns.mpr ⟨rfl, rfl⟩, hm'⟩⟩⟩⟩

/-- Nothing is in the batch of a live node. -/
theorem WellFormed.no_batch (hw : WellFormed s.nodes) (hnode : s.nodes.find id = some node)
    (hlive : node.live = true) (hrow : s.nodes.find k = some row) : row.trashRoot ≠ some id := by
  intro hb
  obtain ⟨-, root, hroot, hself⟩ := hw.inBatch hrow hb
  rw [hnode] at hroot
  cases hroot
  exact trashed_of_trashRoot hself (WellFormed.live_iff.mp hlive)

/-- What was sent is the batch. -/
theorem Sent.batch (h : Sent node db m) (hw : WellFormed db.nodes)
    (hnode : db.nodes.find node.id = some node) (hlive : node.live = true) :
    ((m.batch node.id).map Node.id).Perm ((db.marked node.id).map Node.id) := by
  refine (List.perm_ext_iff_of_nodup (batch_nodup _ _) (marked_nodup _)).mpr fun k => ?_
  have hfind : ∀ j, m.nodes.find j = (db.nodes.find j).map fun r =>
      if r.id ∈ (db.marked node.id).map Node.id then { r with trashed := some ⟨db.now, node.id⟩ }
      else r := fun j => by
    rw [h.nodes, Table.find_update]
    simp only [decide_eq_true_eq]
  constructor
  · intro hk
    obtain ⟨row, hrow, rfl⟩ := List.mem_map.mp hk
    obtain ⟨hrow, hb⟩ := mem_batch.mp hrow
    rw [hfind, Option.map_eq_some_iff] at hrow
    obtain ⟨r, hr, rfl⟩ := hrow
    split_ifs at hb ⊢ with hmem
    · exact hmem
    · exact absurd hb (hw.no_batch hnode hlive hr)
  · intro hk
    obtain ⟨r, hr, rfl⟩ := List.mem_map.mp hk
    have hfound := ((mem_marked hnode hlive).mp hr).1
    exact List.mem_map.mpr ⟨{ r with trashed := some ⟨db.now, node.id⟩ },
      mem_batch.mpr ⟨by rw [hfind, hfound, Option.map_some, if_pos hk], rfl⟩, rfl⟩

/-- It weighs what was taken off the usage. -/
theorem Sent.batchBytes (h : Sent node db m) (hw : WellFormed db.nodes)
    (hnode : db.nodes.find node.id = some node) (hlive : node.live = true) :
    m.batchBytes node.id = freedBySend db.toStore node.id := by
  have hperm := h.batch hw hnode hlive
  have hbatch : ((m.batch node.id).map Node.size).sum = ((db.marked node.id).map Node.size).sum := by
    rw [← sum_value fun r hr => (mem_batch.mp hr).1,
      ← sum_value fun r hr => ((mem_marked hnode hlive).mp hr).1, (hperm.map _).sum_eq]
    refine congrArg List.sum (List.map_congr_left fun k _ => ?_)
    rw [Table.value, Table.value, h.nodes, Table.find_update]
    cases db.nodes.find k with
    | none => rfl
    | some r =>
      rw [Option.map_some]
      split_ifs <;> rfl
  have hunder : m.versionsUnder ((m.batch node.id).map Node.id) =
      db.versionsUnder ((db.marked node.id).map Node.id) := by
    unfold Store.versionsUnder
    rw [h.versions]
    refine congrArg (fun l => (List.map Version.size l).sum) (List.filter_congr fun v _ => ?_)
    rw [decide_eq_decide]
    exact hperm.mem_iff
  unfold Store.batchBytes freedBySend
  rw [hbatch, hunder]

/-- Reviving what was sent leaves the nodes as they were. -/
theorem Sent.revived (h : Sent node db m) (hw : WellFormed db.nodes)
    (hnode : db.nodes.find node.id = some node) (hlive : node.live = true) :
    m.nodes.update (fun n => n.trashRoot = some node.id) (fun n => { n with trashed := none })
      (fun _ => rfl) = db.nodes := by
  have hrows : (db.nodes.rows.map fun n =>
      if decide (n.id ∈ (db.marked node.id).map Node.id) = true then
        { n with trashed := some ⟨db.now, node.id⟩ } else n).map
          (fun n => if decide (n.trashRoot = some node.id) = true then { n with trashed := none }
            else n) = db.nodes.rows := by
    rw [List.map_map]
    conv_rhs => rw [← List.map_id db.nodes.rows]
    refine List.map_congr_left fun r hr => ?_
    have hfound := Table.mem_iff_find.mp hr
    simp only [Function.comp_apply, decide_eq_true_eq, id_eq]
    split_ifs with hmem hb hb
    · obtain ⟨r', hr', hid⟩ := List.mem_map.mp hmem
      obtain ⟨hfind, hbelow⟩ := (mem_marked hnode hlive).mp hr'
      rw [hid, hfound] at hfind
      cases hfind
      obtain ⟨r₁, hr₁, hlive₁⟩ := WellFormed.live_of_liveBelow ⟨node, hnode, hlive⟩ hbelow
      rw [hfound] at hr₁
      cases hr₁
      cases r
      exact congrArg _ (WellFormed.live_iff.mp hlive₁).symm
    · exact absurd rfl hb
    · exact absurd hb (hw.no_batch hnode hlive hfound)
    · rfl
  rw [h.nodes]
  unfold Table.update
  simp only [hrows]

theorem Sent.mem (hnode : db.nodes.find node.id = some node) (hlive : node.live = true) :
    node.id ∈ (db.marked node.id).map Node.id :=
  List.mem_map.mpr ⟨node, (mem_marked hnode hlive).mpr ⟨hnode, .refl⟩, rfl⟩

theorem Sent.retrashed (h : Sent node db m) : Retrashed db.nodes m.nodes := by
  intro k
  rw [h.nodes, Table.find_update, Option.map_map]
  refine Option.map_congr fun r _ => ?_
  rw [Function.comp_apply]
  split_ifs <;> rfl

/-- What was sent is listed. -/
theorem Sent.listed (h : Sent node db m) (hnode : db.nodes.find node.id = some node)
    (hlive : node.live = true) : (trashRoot node.ownerId node.id).Returns m
      { node with trashed := some ⟨db.now, node.id⟩ } m := by
  have htop : m.nodes.find node.id = some { node with trashed := some ⟨db.now, node.id⟩ } := by
    rw [h.nodes, Table.find_update, hnode, Option.map_some,
      if_pos (decide_eq_true (Sent.mem hnode hlive))]
  refine bind_returns.mpr ⟨_, m, query_returns.mpr ⟨rfl, rfl⟩, orFail_returns.mpr ⟨?_, rfl⟩⟩
  unfold Store.trashRootOf
  rw [htop, Option.filter_eq_some_iff, Bool.and_eq_true, decide_eq_true_eq, decide_eq_true_eq]
  exact ⟨rfl, rfl, rfl⟩

/-- What it is in is live, so nothing above it comes back. -/
theorem Sent.ancestors (h : Sent node db m) (hw : WellFormed db.nodes)
    (hnode : db.nodes.find node.id = some node) (hlive : node.live = true)
    (hchild : node.parentId ≠ none) :
    (restoreAncestors { node with trashed := some ⟨db.now, node.id⟩ }).Returns m (0, []) m := by
  obtain ⟨p, hp⟩ := Option.ne_none_iff_exists'.mp hchild
  obtain ⟨above, habove, -, -, hal⟩ := hw.parent hnode hp
  have hapart : above.id ∉ (db.marked node.id).map Node.id := by
    intro hin
    obtain ⟨r, hr, hid⟩ := List.mem_map.mp hin
    have hbelow := ((mem_marked hnode hlive).mp hr).2
    rw [hid, Table.find_key habove] at hbelow
    exact (hw.grounded node.id).not_up_parent (by rw [parentOf_of_find hnode, hp])
      hbelow.atOrBelow
  have hstill : m.nodes.find p = some above := by
    rw [h.nodes, Table.find_update, habove, Option.map_some, if_neg (by rwa [decide_eq_true_eq])]
  refine bind_returns.mpr ⟨_, m, query_returns.mpr ⟨rfl, rfl⟩, ?_⟩
  dsimp only
  rw [hp]
  refine bind_returns.mpr ⟨none, m, query_returns.mpr ⟨?_, rfl⟩, pure_returns.mpr ⟨rfl, rfl⟩⟩
  rw [hstill, Option.filter_some, hal hlive]
  rfl

/-- What was sent is revived: its names are still its own. -/
theorem Sent.revive_succeeds (h : Sent node db m) (hw : WellFormed db.nodes)
    (hnode : db.nodes.find node.id = some node) (hlive : node.live = true) :
    ∃ m₁, (revive fun n => n.trashRoot = some node.id).Returns m () m₁ := by
  refine execute_succeeds fun c => ?_
  rw [h.revived hw hnode hlive]
  exact holds_retrashed h.retrashed.symm (db.sound .nodesUniqueNamePerParent)
    (db.sound .nodesSingleRootPerOwner)
    (fun n hn r hr => find_isSome_retrashed h.retrashed
      ((db.sound .nodesForeign n hn).2.2.1 r hr)) c

/-- **There and back**: what was sent is restored, and nothing is left of it. -/
theorem restore_after_send (hs : Sane db.toStore) (hnode : db.nodes.find node.id = some node)
    (hlive : node.live = true) (hchild : node.parentId ≠ none)
    (hlimit : ∀ q, db.quotas.find node.ownerId = some q → q.bytesUsed ≤ q.bytesMax)
    (hsent : Sent node db m) :
    ∃ back db', (restore node.ownerId node.id).Returns m back db' ∧ db'.nodes = db.nodes ∧
      db'.versions = db.versions ∧ ∀ o, db'.quotas.find o = db.quotas.find o := by
  have hw := hs.forest
  obtain ⟨m₁, hm₁⟩ := hsent.revive_succeeds hw hnode hlive
  have heq := execute_returns.mp hm₁
  rw [hsent.revived hw hnode hlive] at heq
  have hunder : m₁.versionsUnder ((m.batch node.id).map Node.id) =
      m.versionsUnder ((m.batch node.id).map Node.id) := by
    unfold Store.versionsUnder
    rw [heq]
  have hweight := hsent.batchBytes hw hnode hlive
  unfold Store.batchBytes at hweight
  obtain ⟨q, hq⟩ := Option.isSome_iff_exists.mp (hs.backed.quota hnode)
  have hq' := hsent.quotas node.ownerId
  rw [hq, Option.map_some, if_pos (Table.find_key hq)] at hq'
  have hcharge : ∃ db', (chargeQuota node.ownerId (0 + ((m.batch node.id).map Node.size).sum +
      m₁.versionsUnder ((m.batch node.id).map Node.id))).Returns m₁ () db' := by
    have hused := (db.sound .quotasCheck q (Table.find_mem hq)).2.1
    have hlim := hlimit q hq
    refine chargeQuota_succeeds (Or.inr ⟨_, by rw [heq]; exact hq', ?_, ?_⟩)
    · dsimp only
      omega
    · dsimp only
      omega
  obtain ⟨db', hdb'⟩ := hcharge
  have hbooked := (chargeQuota_ledger (ledger_any m₁.toStore) hdb').2
  have hnodes : db'.nodes = db.nodes := by rw [hbooked.nodes, heq]
  refine ⟨node, db', ?_, hnodes, by rw [hbooked.versions, heq]; exact hsent.versions, fun o => ?_⟩
  · refine bind_returns.mpr ⟨_, m, hsent.listed hnode hlive, bind_returns.mpr ⟨_, m,
      hsent.ancestors hw hnode hlive hchild, bind_returns.mpr ⟨_, m, query_returns.mpr ⟨rfl, rfl⟩,
      bind_returns.mpr ⟨(), m₁, mapViolated_returns.mpr hm₁, bind_returns.mpr ⟨_, m₁,
      query_returns.mpr ⟨rfl, rfl⟩, bind_returns.mpr ⟨(), m₁, forEach_nil_returns.mpr rfl,
      bind_returns.mpr ⟨(), db', hdb', bind_returns.mpr ⟨_, db', query_returns.mpr ⟨rfl, rfl⟩,
      orFail_returns.mpr ⟨?_, rfl⟩⟩⟩⟩⟩⟩⟩⟩⟩
    rw [hnodes]
    exact hnode
  · have hquotas : m₁.quotas = m.quotas := by rw [heq]
    rw [chargeQuota_find hdb', hquotas, hsent.quotas, hunder, Option.map_map]
    cases db.quotas.find o with
    | none => rfl
    | some q =>
      by_cases ho : q.ownerId = node.ownerId
      · simp only [Option.map_some, Function.comp_apply, ho, if_true]
        congr 1
        cases q
        simp only [Quota.mk.injEq, and_true]
        dsimp only at ho ⊢
        exact ⟨ho.symm, by omega⟩
      · simp only [Option.map_some, Function.comp_apply, ho, if_false]

/-! ## Where a restore succeeds -/

/-- A batch is revived where its root's name is free and its own names do not meet. -/
theorem revive_batch_succeeds {p : Uuid} (hw : WellFormed db.nodes)
    (hroot : db.nodes.find id = some root) (hparent : root.parentId = some p)
    (hfree : db.child p root.name = none)
    (hunique : ∀ a ∈ db.batch id, ∀ b ∈ db.batch id, a.parentId = b.parentId → a.name = b.name →
      a.id = b.id) :
    ∃ m, (revive fun n => n.trashRoot = some id).Returns db () m := by
  -- a node of the batch and one that is live have no parent and name in common
  have hapart : ∀ a ∈ db.nodes.rows, ∀ b ∈ db.nodes.rows, a.trashRoot = some id →
      b.live = true → a.parentId = b.parentId → a.name ≠ b.name := by
    intro a ha b hb hbatch hlive hsame hname
    have hfind := Table.mem_iff_find.mp ha
    rcases hw.batch hfind hbatch with hid | ⟨q, above, hq, habove, hdead⟩
    · rw [← hid, hroot] at hfind
      cases hfind
      have hno := child_eq_none hfree b hb (hsame ▸ hparent) hname.symm
      rw [hlive] at hno
      cases hno
    · obtain ⟨above', habove', -, -, hal⟩ := hw.parent (Table.mem_iff_find.mp hb) (hsame ▸ hq)
      rw [habove] at habove'
      cases habove'
      exact trashed_of_trashRoot hdead (WellFormed.live_iff.mp (hal hlive))
  have back : ∀ n ∈ (db.nodes.update (fun n => n.trashRoot = some id)
      (fun n => { n with trashed := none }) fun _ => rfl).rows, ∃ old ∈ db.nodes.rows,
      n.id = old.id ∧ n.parentId = old.parentId ∧ n.name = old.name ∧
        (old.trashRoot = some id ∧ n.trashed = none ∨ n = old) := by
    intro n hn
    obtain ⟨old, hold, rfl⟩ := List.mem_map.mp hn
    refine ⟨old, hold, ?_⟩
    split_ifs with hbatch
    · exact ⟨rfl, rfl, rfl, Or.inl ⟨of_decide_eq_true hbatch, rfl⟩⟩
    · exact ⟨rfl, rfl, rfl, Or.inr rfl⟩
  have hbatched : ∀ n ∈ db.nodes.rows, n.trashRoot = some id → n ∈ db.batch id := fun n hn hb =>
    mem_batch.mpr ⟨Table.mem_iff_find.mp hn, hb⟩
  refine execute_succeeds (holds_retrashed (fun k => ?_) (fun n hn b hb hnl hbl hsome hp hname => ?_)
    (fun n hn b hb hnl hbl hnp hbp ho => ?_) fun n hn r hr => ?_)
  · rw [Table.find_update, Option.map_map]
    refine Option.map_congr fun r _ => ?_
    rw [Function.comp_apply]
    split_ifs <;> rfl
  · obtain ⟨n₀, hn₀, hnid, hnp, hnn, hncase⟩ := back n hn
    obtain ⟨b₀, hb₀, hbid, hbp, hbn, hbcase⟩ := back b hb
    rw [hnid, hbid]
    have hp₀ : n₀.parentId = b₀.parentId := hnp.symm.trans (hp.trans hbp)
    have hname₀ : n₀.name = b₀.name := hnn.symm.trans (hname.trans hbn)
    rcases hncase with ⟨hn₁, -⟩ | rfl
    · rcases hbcase with ⟨hb₁, -⟩ | rfl
      · exact hunique _ (hbatched _ hn₀ hn₁) _ (hbatched _ hb₀ hb₁) hp₀ hname₀
      · exact absurd hname₀ (hapart _ hn₀ _ hb₀ hn₁ hbl hp₀)
    · rcases hbcase with ⟨hb₁, -⟩ | rfl
      · exact absurd hname₀.symm (hapart _ hb₀ _ hn₀ hb₁ hnl hp₀.symm)
      · exact db.sound .nodesUniqueNamePerParent _ hn₀ _ hb₀ hnl hbl hsome hp hname
  · obtain ⟨n₀, hn₀, -, hnp₀, -, hncase⟩ := back n hn
    obtain ⟨b₀, hb₀, -, hbp₀, -, hbcase⟩ := back b hb
    have hnot : ∀ r ∈ db.nodes.rows, r.parentId = none → r.trashRoot ≠ some id := fun r hr hnone hb =>
      trashed_of_trashRoot hb (WellFormed.live_iff.mp (hw.root (Table.mem_iff_find.mp hr) hnone).1)
    obtain rfl := hncase.resolve_left fun h => hnot n₀ hn₀ (hnp₀.symm.trans hnp) h.1
    obtain rfl := hbcase.resolve_left fun h => hnot b₀ hb₀ (hbp₀.symm.trans hbp) h.1
    exact db.sound .nodesSingleRootPerOwner _ hn₀ _ hb₀ hnl hbl hnp hbp ho
  · obtain ⟨n₀, hn₀, -, -, -, ⟨-, hnone⟩ | rfl⟩ := back n hn
    · rw [Node.trashRoot, hnone] at hr
      cases hr
    · exact (db.sound .nodesForeign _ hn₀).2.2.1 r hr

/-- **A restore succeeds** where the batch's place is live and free, and the owner has room. -/
theorem restore_succeeds {p : Uuid} (hs : Sane db.toStore) (hroot : db.nodes.find id = some root)
    (howner : root.ownerId = ownerId) (hself : root.trashRoot = some id)
    (hparent : root.parentId = some p) (hlive : LiveAt db.nodes p)
    (hfree : db.child p root.name = none)
    (hunique : ∀ a ∈ db.batch id, ∀ b ∈ db.batch id, a.parentId = b.parentId → a.name = b.name →
      a.id = b.id)
    (hroom : ∀ q, db.quotas.find ownerId = some q → q.bytesUsed + db.batchBytes id ≤ q.bytesMax) :
    ∃ back db', (restore ownerId id).Returns db back db' := by
  have hid : root.id = id := Table.find_key hroot
  have hlisted : (trashRoot ownerId id).Returns db root db := by
    refine bind_returns.mpr ⟨_, db, query_returns.mpr ⟨rfl, rfl⟩, orFail_returns.mpr ⟨?_, rfl⟩⟩
    unfold Store.trashRootOf
    rw [hroot, Option.filter_eq_some_iff, Bool.and_eq_true, decide_eq_true_eq, decide_eq_true_eq]
    exact ⟨rfl, howner, by rw [hself, hid]⟩
  have habove : (restoreAncestors root).Returns db (0, []) db := by
    obtain ⟨above, hfound, hl⟩ := hlive
    refine bind_returns.mpr ⟨_, db, query_returns.mpr ⟨rfl, rfl⟩, ?_⟩
    rw [hparent]
    refine bind_returns.mpr ⟨none, db, query_returns.mpr ⟨?_, rfl⟩, pure_returns.mpr ⟨rfl, rfl⟩⟩
    rw [hfound, Option.filter_some, hl]
    rfl
  obtain ⟨m, hm⟩ := revive_batch_succeeds hs.forest hroot hparent hfree hunique
  have heq := execute_returns.mp hm
  have hunder : m.versionsUnder ((db.batch id).map Node.id) =
      db.versionsUnder ((db.batch id).map Node.id) := by
    unfold Store.versionsUnder
    rw [heq]
  obtain ⟨q, hq⟩ := Option.isSome_iff_exists.mp (hs.backed.quota hroot)
  rw [howner] at hq
  have hcharge : ∃ db', (chargeQuota ownerId (0 + ((db.batch id).map Node.size).sum +
      m.versionsUnder ((db.batch id).map Node.id))).Returns m () db' := by
    have hused := (db.sound .quotasCheck q (Table.find_mem hq)).2.1
    have hweight : 0 ≤ db.batchBytes id := weight_nonneg db _ _
    have hlim := hroom q hq
    unfold Store.batchBytes at hweight hlim
    refine chargeQuota_succeeds (Or.inr ⟨q, by rw [heq]; exact hq, ?_, ?_⟩)
    · rw [hunder]
      omega
    · rw [hunder]
      omega
  obtain ⟨db', hdb'⟩ := hcharge
  have hstill : ∃ back, db'.nodes.find root.id = some back := by
    rw [(keeps_chargeQuota (R := Beside) hdb').nodes, heq]
    rw [Table.find_update, hid, hroot]
    exact ⟨_, rfl⟩
  obtain ⟨back, hback⟩ := hstill
  rw [← hid] at hm hdb'
  exact ⟨back, db', bind_returns.mpr ⟨_, db, hlisted, bind_returns.mpr ⟨_, db, habove,
    bind_returns.mpr ⟨_, db, query_returns.mpr ⟨rfl, rfl⟩, bind_returns.mpr ⟨(), m,
    mapViolated_returns.mpr hm, bind_returns.mpr ⟨_, m, query_returns.mpr ⟨rfl, rfl⟩,
    bind_returns.mpr ⟨(), m, forEach_nil_returns.mpr rfl, bind_returns.mpr ⟨(), db', hdb',
    bind_returns.mpr ⟨_, db', query_returns.mpr ⟨rfl, rfl⟩, orFail_returns.mpr
    ⟨hback, rfl⟩⟩⟩⟩⟩⟩⟩⟩⟩⟩

/-! ## After every run -/

/-- A live node has the name of one that would come back. -/
theorem restore_refused (hs : Sane db.toStore) {old : Node} (hrow : db.nodes.find k = some row)
    (hdead : row.live = false) (hback : ComesBack db.nodes id k)
    (hold : db.liveNode old.id = some old) (hparent : old.parentId = row.parentId)
    (hname : old.name = row.name) : ∃ e, restore ownerId id db = .error e := by
  cases hx : restore ownerId id db with
  | error e => exact ⟨e, rfl⟩
  | ok answer =>
    obtain ⟨-, hw, hres, -, root, hroot, -, hself⟩ := restore_nodes hs.forest hx
    obtain ⟨hfind, hlive⟩ := liveNode_eq_some.mp hold
    obtain ⟨row', hrow', hsame⟩ := hres.retrashed.find hrow
    obtain ⟨old', hold', hsame'⟩ := hres.retrashed.find hfind
    obtain ⟨-, hp, hn, -⟩ := untrashed_eq hsame
    obtain ⟨-, hp', hn', -⟩ := untrashed_eq hsame'
    have hsome : row'.parentId ≠ none := fun hnone => by
      rw [(hs.forest.root hrow (hp.symm.trans hnone)).1] at hdead
      cases hdead
    have hid := answer.2.sound .nodesUniqueNamePerParent row' (Table.find_mem hrow') old'
      (Table.find_mem hold') ((hres.live hrow hrow').mpr (Or.inr hback))
      ((hres.live hfind hold').mpr (Or.inl hlive)) (Option.isSome_iff_ne_none.mpr hsome)
      (by rw [hp, hp', hparent]) (by rw [hn, hn', hname])
    rw [Table.find_key hrow', Table.find_key hold'] at hid
    subst hid
    rw [hrow] at hfind
    cases hfind
    rw [hdead] at hlive
    cases hlive

/-- There is no room for what would come back. -/
theorem restore_exceeds (hs : Sane db.toStore)
    (hno : ¬ Fits db.toStore ownerId (db.batchBytes id)) : ∃ e, restore ownerId id db = .error e := by
  cases hx : restore ownerId id db with
  | error e => exact ⟨e, rfl⟩
  | ok answer =>
    obtain ⟨root, m, restored, -, -, -, hbatch, hm, -, -, hcharge, -⟩ :=
      restore_returns hs.forest hx
    rw [batchBytes_eq hbatch] at hcharge
    have hquotas : m.quotas = db.quotas := by rw [hm]
    rw [← fits_congr hquotas, ← chargeQuota_exceeds_iff] at hno
    exact absurd hno (not_exceeds_of_returns hcharge)

/-- **A restore is exact**, after any run: it gives back a batch and what that is in, or changes
nothing; where the owner is within the limit, it takes back what was sent. -/
theorem restore_exact (h : Reached db) :
    (∀ ownerId id node db', (restore ownerId id).Returns db node db' →
      GivesBack ownerId id db.toStore db'.toStore) ∧
    (∀ ownerId id, (∃ k row old, db.nodes.find k = some row ∧ row.live = false ∧
        ComesBack db.nodes id k ∧ db.liveNode old.id = some old ∧ old.parentId = row.parentId ∧
          old.name = row.name) ∨ ¬ Fits db.toStore ownerId (db.batchBytes id) →
      ∃ e, Pool.commit (restore ownerId id) db = (.error e, db)) ∧
    ∀ node, db.liveNode node.id = some node → node.parentId ≠ none →
      (∀ q, db.quotas.find node.ownerId = some q → q.bytesUsed ≤ q.bytesMax) →
      ∃ m, (send node).Returns db () m ∧ ∃ back db',
        (restore node.ownerId node.id).Returns m back db' ∧ db'.nodes = db.nodes ∧
          (∀ ownerId, db'.trashOf ownerId = db.trashOf ownerId) ∧
          ∀ ownerId, db'.bytesUsed ownerId = db.bytesUsed ownerId := by
  have hs := h.sane
  refine ⟨fun ownerId id node db' hx => restore_gives_back hs hx, fun ownerId id hcase => ?_,
    fun node hnode hchild hlimit => ?_⟩
  · have herror : ∃ e, restore ownerId id db = .error e := by
      rcases hcase with ⟨k, row, old, hrow, hdead, hback, hold, hparent, hname⟩ | hno
      · exact restore_refused hs hrow hdead hback hold hparent hname
      · exact restore_exceeds hs hno
    obtain ⟨e, he⟩ := herror
    exact ⟨e, by unfold Pool.commit; rw [he]⟩
  · obtain ⟨hfind, hlive⟩ := liveNode_eq_some.mp hnode
    obtain ⟨m, hsend⟩ := send_succeeds hs hfind hlimit
    obtain ⟨back, db', hx, hnodes, -, hquotas⟩ :=
      restore_after_send hs hfind hlive hchild hlimit (send_sent hsend)
    refine ⟨m, hsend, back, db', hx, hnodes, fun ownerId => ?_, fun ownerId => ?_⟩
    · unfold Store.trashOf
      rw [hnodes]
    · unfold Store.bytesUsed Table.value
      rw [hquotas]

def adasFile : Node :=
  ⟨4, 1, some 3, "a".toList, .file otherBytes 5, .file otherBytes, none⟩

theorem restore_exact_written : ∃ m, (send adasFile).Returns written () m ∧ ∃ back db',
    (restore 1 4).Returns m back db' ∧ db'.nodes = written.nodes ∧
      (∀ ownerId, db'.trashOf ownerId = written.trashOf ownerId) ∧
      ∀ ownerId, db'.bytesUsed ownerId = written.bytesUsed ownerId := by
  refine (restore_exact reached_written).2.2 adasFile (by decide +kernel) (by decide) ?_
  have hquota : written.quotas.find 1 = some ⟨1, 9, 100⟩ := by decide +kernel
  intro q hq
  rw [show adasFile.ownerId = 1 from rfl, hquota] at hq
  cases hq
  decide

/-- The account with its limit set below what it uses. -/
def overfull : Db := ran (setQuota 1 3) written

/-- **Over its limit** an account does not get back what it has just sent. -/
theorem not_restored_overfull : ¬ ∀ db node m, Reached db → db.liveNode node.id = some node →
    node.parentId ≠ none → (send node).Returns db () m →
      ∃ back db', (restore node.ownerId node.id).Returns m back db' ∧ db'.nodes = db.nodes := by
  intro hall
  have hreached : Reached overfull := reached_written.ran (by decide +kernel) .setQuota
  have hcommits : commits (send adasFile) overfull = true := by decide +kernel
  obtain ⟨_, hsend⟩ := returns_ran hcommits
  obtain ⟨back, db', hx, -⟩ := hall overfull adasFile _ hreached (by decide +kernel) (by decide)
    hsend
  have hrefused : restore 1 4 (ran (send adasFile) overfull) = .error .quotaExceeded := by
    decide +kernel
  rw [show (restore adasFile.ownerId adasFile.id).Returns (ran (send adasFile) overfull) back db' ↔
    restore 1 4 (ran (send adasFile) overfull) = .ok (back, db') from Iff.rfl, hrefused] at hx
  cases hx

end Stashden.Api
