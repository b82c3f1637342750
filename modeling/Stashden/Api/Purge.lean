import Stashden.Api.Books
import Stashden.Api.Sound

/-!
# What a purge takes (`api/src/trash.rs`)

The cascades of a deleted node take what is below it and no more: a batch is below its root
(`mem_cascade_iff`). `purge_nodes` and `purge_ledger` say what that does to the nodes and the books;
`emptyTrash_nodes` that nothing trashed is left of an account.
-/

namespace Stashden.Api

open Lib Stashden.Core Tx

variable {s s' : Store} {db db' m : Db} {pending : BlobHash → Int} {ahead : Uuid → Int}
  {ownerId id : Uuid} {hash : BlobHash} {u : Unit} {node row root : Node} {gone : List Node}
  {p : Node → Bool}

/-! ## Cascades -/

/-- **What the cascades of one node take** is what is below it. -/
theorem mem_cascade_iff (hw : WellFormed db.nodes) (hroot : db.nodes.find id = some root) {k : Uuid} :
    k ∈ db.cascade (·.id = id) ↔ (db.nodes.find k).isSome = true ∧ AtOrBelow db.nodes k id := by
  obtain ⟨hmem, rfl⟩ := Table.find_eq_some_iff.mp hroot
  unfold Store.cascade
  rw [select_id hroot, List.mem_map]
  constructor
  · rintro ⟨n, hn, rfl⟩
    rw [mem_recursive_of_subset fun a ha => by rw [List.mem_singleton.mp ha]; exact hmem] at hn
    obtain ⟨start, hstart, hreach⟩ := hn
    obtain rfl := List.mem_singleton.mp hstart
    induction hreach with
    | refl => exact ⟨by rw [hroot]; rfl, .refl⟩
    | @tail a b _ hstep ih =>
      obtain ⟨-, hb, hjoin⟩ := hstep
      have hfind := Table.mem_iff_find.mp hb
      refine ⟨by rw [hfind]; rfl, ?_⟩
      simp only [Bool.or_eq_true, decide_eq_true_eq] at hjoin
      rcases hjoin with hp | hb
      · exact ih.2.head (by rw [parentOf_of_find hfind, hp])
      · exact (hw.up_trashRoot hfind hb).trans ih.2
  · rintro ⟨hk, hup⟩
    obtain ⟨n, hn⟩ := Option.isSome_iff_exists.mp hk
    obtain ⟨hnmem, rfl⟩ := Table.find_eq_some_iff.mp hn
    refine ⟨n, ?_, rfl⟩
    rw [mem_recursive_of_subset fun a ha => by rw [List.mem_singleton.mp ha]; exact hmem]
    refine ⟨root, List.mem_singleton_self _, ?_⟩
    unfold AtOrBelow Up at hup
    rw [← Relation.reflTransGen_swap] at hup
    exact rows_of_chain (fun {a b} ha hb h => by
        have hparent : parentOf db.nodes b.id = some a.id := h
        rw [parentOf_of_mem hb] at hparent
        simp [hparent])
      (fun {a b} h => by
        obtain ⟨r, hr, hp⟩ := find_of_parentOf h
        exact (db.sound .nodesForeign r (Table.find_mem hr)).2.1 a hp) hmem hnmem hup

theorem deleteNodes_find (s : Store) (p : Node → Bool) (k : Uuid) :
    (s.deleteNodes p).nodes.find k = (s.nodes.find k).filter fun n => !decide (n.id ∈ s.cascade p) :=
  Table.find_delete _ _ _

theorem delete_congr {ρ κ : Type} {key : ρ → κ} {t : Table ρ key} {p q : ρ → Bool}
    (h : ∀ r ∈ t.rows, p r = q r) : t.delete p = t.delete q := by
  have hrows : (t.rows.filter fun r => !p r) = t.rows.filter fun r => !q r :=
    List.filter_congr fun r hr => by rw [h r hr]
  unfold Table.delete
  congr

/-- The rows a cascade takes. -/
structure Takes (s : Store) (p : Node → Bool) (gone : List Node) : Prop where
  nodup : (gone.map Node.id).Nodup
  held : ∀ n ∈ gone, s.nodes.find n.id = some n
  mem : ∀ k, k ∈ s.cascade p ↔ k ∈ gone.map Node.id

theorem each_filterMap (nodes : List Node) (b : BlobHash) :
    each (nodes.filterMap Node.blobHash) b = (nodes.map fun n => heldRef n.blobHash b).sum := by
  induction nodes with
  | nil => rfl
  | cons n nodes ih =>
    rw [List.map_cons, List.sum_cons, ← ih]
    cases hb : n.blobHash with
    | none => rw [List.filterMap_cons_none hb, heldRef_none, zero_add]
    | some hash => rw [List.filterMap_cons_some hb, each_cons, heldRef_some]

/-- **The references a cascade gives up.** -/
theorem Takes.references (h : Takes s p gone) (b : BlobHash) :
    (s.deleteNodes p).references b = s.references b - each (s.blobsOf gone) b := by
  have hnodes : (s.deleteNodes p).nodes = s.nodes.delete fun n => decide (n.id ∈ gone.map Node.id) :=
    delete_congr fun n _ => decide_eq_decide.mpr (h.mem n.id)
  have hversions : (s.deleteNodes p).versions =
      s.versions.delete fun v => decide (v.nodeId ∈ gone.map Node.id) :=
    delete_congr fun v _ => decide_eq_decide.mpr (h.mem v.nodeId)
  have hheld := Table.total_delete_held (fun n : Node => if n.blobHash = some b then 1 else 0)
    h.held h.nodup
  have hdropped := Table.total_delete s.versions (fun v => decide (v.nodeId ∈ gone.map Node.id))
    fun v => if v.hash = b then 1 else 0
  rw [each_hashes] at hdropped
  unfold Store.references Store.blobsOf
  rw [hnodes, hversions, hheld, hdropped, each_append, each_filterMap]
  unfold heldRef
  show _ + _ + (s.deleteNodes p).thumbnails.total _ = _
  rw [show (s.deleteNodes p).thumbnails = s.thumbnails from rfl]
  omega

/-- **The bytes a cascade takes off an account** none of whose live nodes it takes. -/
theorem Takes.usage (h : Takes s p gone) {o : Uuid}
    (hdead : ∀ n ∈ gone, n.ownerId = o → n.live = false) : (s.deleteNodes p).usage o = s.usage o := by
  have hnodes : (s.deleteNodes p).nodes = s.nodes.delete fun n => decide (n.id ∈ gone.map Node.id) :=
    delete_congr fun n _ => decide_eq_decide.mpr (h.mem n.id)
  have hversions : (s.deleteNodes p).versions =
      s.versions.delete fun v => decide (v.nodeId ∈ gone.map Node.id) :=
    delete_congr fun v _ => decide_eq_decide.mpr (h.mem v.nodeId)
  have hnone : ∀ n ∈ gone, (decide (n.ownerId = o) && n.live) = false := by
    intro n hn
    by_cases ho : n.ownerId = o
    · rw [hdead n hn ho, Bool.and_false]
    · rw [decide_eq_false ho, Bool.false_and]
  have hheld := Table.total_delete_held
    (fun n : Node => if n.ownerId = o && n.live then n.size else 0) h.held h.nodup
  have hzero : (gone.map fun n => if (decide (n.ownerId = o) && n.live) = true then n.size else 0).sum
      = 0 := List.sum_eq_zero fun x hx => by
    obtain ⟨n, hn, rfl⟩ := List.mem_map.mp hx
    rw [hnone n hn, if_neg Bool.false_ne_true]
  have huncharged : ∀ k, k ∈ gone.map Node.id → s.chargedTo o k = false := by
    intro k hk
    obtain ⟨n, hn, rfl⟩ := List.mem_map.mp hk
    unfold Store.chargedTo
    rw [h.held n hn, Option.any_some, hnone n hn]
  have hdropped := Table.total_delete s.versions (fun v => decide (v.nodeId ∈ gone.map Node.id))
    fun v => if s.chargedTo o v.nodeId then v.size else 0
  have hfree : ((s.versions.select fun v => decide (v.nodeId ∈ gone.map Node.id)).map
      fun v => if s.chargedTo o v.nodeId then v.size else 0).sum = 0 :=
    List.sum_eq_zero fun x hx => by
      obtain ⟨v, hv, rfl⟩ := List.mem_map.mp hx
      obtain ⟨-, hgone⟩ := Table.mem_select.mp hv
      rw [huncharged _ (of_decide_eq_true hgone), if_neg Bool.false_ne_true]
  have hleft : (s.versions.delete fun v => decide (v.nodeId ∈ gone.map Node.id)).total
      (fun v => if (s.deleteNodes p).chargedTo o v.nodeId then v.size else 0) =
      (s.versions.delete fun v => decide (v.nodeId ∈ gone.map Node.id)).total
        fun v => if s.chargedTo o v.nodeId then v.size else 0 := by
    refine Table.total_congr fun v hv => ?_
    obtain ⟨-, hstays⟩ := Table.mem_delete.mp hv
    have hsame : (s.deleteNodes p).chargedTo o v.nodeId = s.chargedTo o v.nodeId := by
      unfold Store.chargedTo
      rw [hnodes, Table.find_delete]
      cases hk : s.nodes.find v.nodeId with
      | none => rfl
      | some n =>
        have hid := Table.find_key hk
        rw [Option.filter_some, if_pos]
        rw [hid]
        simpa using hstays
    rw [hsame]
  unfold Store.usage
  rw [hnodes, hversions, hleft, hheld, hdropped, hzero, hfree, sub_zero, sub_zero]

/-! ## One purge -/

theorem takes_buried (hw : WellFormed db.nodes) (hroot : db.nodes.find id = some root) :
    Takes db.toStore (·.id = id) (db.buried id) where
  nodup := by
    have hsub : db.buried id ⊆ db.nodes.rows := fun n hn => ((mem_buried_iff hroot).mp hn).1
    refine List.Nodup.map_on (fun a ha b hb he => Table.eq_of_key (hsub ha) (hsub hb) he) ?_
    exact nodup_recursive (rows_nodup _) ((rows_nodup _).filter _)
  held := fun n hn => Table.mem_iff_find.mp ((mem_buried_iff hroot).mp hn).1
  mem := by
    intro k
    rw [mem_cascade_iff hw hroot, List.mem_map]
    constructor
    · rintro ⟨hk, hup⟩
      obtain ⟨n, hn⟩ := Option.isSome_iff_exists.mp hk
      obtain ⟨hmem, rfl⟩ := Table.find_eq_some_iff.mp hn
      exact ⟨n, (mem_buried_iff hroot).mpr ⟨hmem, hup⟩, rfl⟩
    · rintro ⟨n, hn, rfl⟩
      obtain ⟨hmem, hup⟩ := (mem_buried_iff hroot).mp hn
      exact ⟨by rw [Table.mem_iff_find.mp hmem]; rfl, hup⟩

/-- A listed root of the trash of an account. -/
def Listed (t : Table Node Node.id) (ownerId id : Uuid) : Prop :=
  ∃ root, t.find id = some root ∧ root.ownerId = ownerId ∧ root.trashRoot = some id

theorem trashRootOf_eq_some : s.trashRootOf ownerId id = some root ↔
    s.nodes.find id = some root ∧ root.ownerId = ownerId ∧ root.trashRoot = some id := by
  unfold Store.trashRootOf
  rw [Option.filter_eq_some_iff]
  refine and_congr_right fun hrow => ?_
  rw [Bool.and_eq_true, decide_eq_true_eq, decide_eq_true_eq, Table.find_key hrow]

theorem trashRootOf_eq_none : s.trashRootOf ownerId id = none ↔ ¬ Listed s.nodes ownerId id := by
  rw [Option.eq_none_iff_forall_ne_some]
  exact ⟨fun h ⟨root, hroot⟩ => h root (trashRootOf_eq_some.mpr hroot),
    fun h root hroot => h ⟨root, trashRootOf_eq_some.mp hroot⟩⟩

/-- **A purge**: a listed root, deleted with what is below it, whose references are given up. -/
theorem purge_returns : (purge ownerId id).Returns db u db' ↔ Listed db.nodes ownerId id ∧
    ∃ m : Db, m.toStore = db.deleteNodes (·.id = id) ∧
      (forEach releaseBlob (db.blobsOf (db.buried id))).Returns m () db' := by
  unfold purge trashRoot
  simp only [bind_returns, query_returns, orFail_returns, execute_returns]
  constructor
  · rintro ⟨root, _, ⟨_, _, ⟨rfl, rfl⟩, hroot, rfl⟩, _, _, ⟨rfl, rfl⟩, _, m, hm, hrelease⟩
    have hspec := trashRootOf_eq_some.mp hroot
    rw [Table.find_key hspec.1] at hm hrelease
    exact ⟨⟨root, hspec⟩, m, hm, hrelease⟩
  · rintro ⟨⟨root, hspec⟩, m, hm, hrelease⟩
    refine ⟨root, _, ⟨_, _, ⟨rfl, rfl⟩, trashRootOf_eq_some.mpr hspec, rfl⟩, _, _, ⟨rfl, rfl⟩, (), m,
      ?_, ?_⟩
    · rw [Table.find_key hspec.1]
      exact hm
    · rw [Table.find_key hspec.1]
      exact hrelease

/-- Only the blobs differ. -/
def Recounted (s s' : Store) : Prop := s' = { s with blobs := s'.blobs }

instance : IsPreorder Store Recounted where
  refl _ := rfl
  trans _ _ _ h h' := by
    unfold Recounted at *
    rw [h', h]

theorem recounted_releaseEach {held : List BlobHash} : Keeps Recounted (forEach releaseBlob held) :=
  keeps_forEach (fun _ _ _ _ h => by rw [execute_returns.mp h]; rfl) held

theorem booked_releaseEach {held : List BlobHash} : Keeps Booked (forEach releaseBlob held) :=
  keeps_forEach (fun _ => booked_releaseBlob) held

/-- What a purge leaves of the nodes. -/
theorem purge_find (hw : WellFormed db.nodes) (h : (purge ownerId id).Returns db u db') (k : Uuid)
    (row : Node) : db'.nodes.find k = some row ↔
      db.nodes.find k = some row ∧ ¬ AtOrBelow db.nodes k id := by
  obtain ⟨⟨root, hroot, -⟩, m, hm, hrelease⟩ := purge_returns.mp h
  rw [(booked_releaseEach hrelease).nodes, hm, deleteNodes_find, Option.filter_eq_some_iff]
  refine and_congr_right fun hrow => ?_
  rw [Table.find_key hrow, Bool.not_eq_true', decide_eq_false_iff_not, mem_cascade_iff hw hroot, hrow]
  simp

theorem purge_wellFormed (hw : WellFormed db.nodes) (h : (purge ownerId id).Returns db u db') :
    WellFormed db'.nodes := by
  refine hw.shrink ?_ (purge_find hw h)
  exact fun hp hgone => hgone.head hp

/-- **A purge keeps the books**: what is below a trashed node is trashed. -/
theorem purge_ledger (hbooks : Ledger pending ahead db.toStore) (hpending : ∀ b, 0 ≤ pending b)
    (hw : WellFormed db.nodes) (h : (purge ownerId id).Returns db u db') :
    Ledger pending ahead db'.toStore := by
  obtain ⟨⟨root, hroot, -, hbatch⟩, m, hm, hrelease⟩ := purge_returns.mp h
  have htakes := takes_buried hw hroot
  have hdead : ∀ n ∈ db.buried id, n.live = false := by
    intro n hn
    obtain ⟨hmem, hup⟩ := (mem_buried_iff hroot).mp hn
    refine hw.trashed_below (Table.mem_iff_find.mp hmem) hup hroot ?_
    by_contra hl
    exact trashed_of_trashRoot hbatch (WellFormed.live_iff.mp (by simpa using hl))
  have hshift := hbooks.shift (show m.blobs = db.blobs by rw [hm]; rfl)
    (show m.quotas = db.quotas by rw [hm]; rfl)
  refine (releaseEach_ledger (hshift.of_eq (fun b => ?_) fun o => ?_) (fun b => ?_) hrelease).1
  · rw [hm, htakes.references]
    omega
  · rw [hm, htakes.usage fun n hn _ => hdead n hn]
    omega
  · exact add_nonneg (references_nonneg _ b) (hpending b)

/-- **A listed root can be purged.** -/
theorem purge_succeeds (h : Listed db.nodes ownerId id) :
    ∃ db', (purge ownerId id).Returns db () db' := by
  have hdelete : ∃ m, (execute fun s => s.deleteNodes (·.id = id)).Returns db () m :=
    execute_succeeds (holds_deleteNodes _)
  obtain ⟨m, hm⟩ := hdelete
  obtain ⟨db', hrelease⟩ := forEach_succeeds (fun b db => releaseBlob_succeeds db b)
    (db.blobsOf (db.buried id)) m
  exact ⟨db', purge_returns.mpr ⟨h, m, execute_returns.mp hm, hrelease⟩⟩

/-- A root that is not listed is not found. -/
theorem purge_missing (h : ¬ Listed db.nodes ownerId id) :
    purge ownerId id db = .error .notFound := by
  have hquery : (query fun s => s.trashRootOf ownerId id).Returns db none db :=
    query_returns.mpr ⟨(trashRootOf_eq_none.mpr h).symm, rfl⟩
  unfold purge trashRoot
  exact bind_of_error (bind_of_returns hquery)

/-! ## One purge after the other -/

/-- The purges of some roots, one that is no longer listed skipped. -/
inductive Purges : List (Uuid × Uuid) → Db → Db → Prop where
  | nil (db : Db) : Purges [] db db
  | skip {ownerId id : Uuid} {rest : List (Uuid × Uuid)} {db db' : Db} :
      ¬ Listed db.nodes ownerId id → Purges rest db db' → Purges ((ownerId, id) :: rest) db db'
  | purge {ownerId id : Uuid} {rest : List (Uuid × Uuid)} {db m db' : Db} :
      (purge ownerId id).Returns db () m → Purges rest m db' → Purges ((ownerId, id) :: rest) db db'

namespace Purges

variable {dues : List (Uuid × Uuid)}

/-- What every purge keeps. -/
theorem induct {I : Db → Prop} (h : Purges dues db db') (hdb : I db)
    (hstep : ∀ {ownerId id m m'}, I m → (Api.purge ownerId id).Returns m () m' → I m') : I db' := by
  induction h with
  | nil => exact hdb
  | skip _ _ ih => exact ih hdb
  | purge hone _ ih => exact ih (hstep hdb hone)

/-- What is above a node that is not below a purged root is above it still. -/
theorem up_of_purge (hw : WellFormed db.nodes) (h : (Api.purge ownerId id).Returns db u m) {k top : Uuid}
    (hk : ¬ AtOrBelow db.nodes k id) : AtOrBelow m.nodes k top ↔ AtOrBelow db.nodes k top := by
  refine up_iff_of_still fun x hx => ?_
  have hxid : ¬ AtOrBelow db.nodes x id := fun hbelow => hk (hx.trans hbelow)
  cases hrow : db.nodes.find x with
  | none =>
    have hnone : m.nodes.find x = none := by
      rw [Option.eq_none_iff_forall_ne_some]
      intro row hm
      rw [((purge_find hw h x row).mp hm).1] at hrow
      cases hrow
    rw [parentOf, parentOf, hrow, hnone]
  | some row =>
    rw [parentOf_of_find hrow, parentOf_of_find ((purge_find hw h x row).mpr ⟨hrow, hxid⟩)]

/-- **What the purges leave**: everything but what was below one of the roots listed. -/
theorem find (h : Purges dues db db') (hw : WellFormed db.nodes) (k : Uuid) (row : Node) :
    db'.nodes.find k = some row ↔ db.nodes.find k = some row ∧
      ∀ due ∈ dues, Listed db.nodes due.1 due.2 → ¬ AtOrBelow db.nodes k due.2 := by
  induction h with
  | nil =>
    exact ⟨fun hrow => ⟨hrow, fun _ hdue => absurd hdue List.not_mem_nil⟩, And.left⟩
  | @skip ownerId id rest db db' hno _ ih =>
    rw [ih hw, List.forall_mem_cons]
    exact ⟨fun h => ⟨h.1, fun hl => absurd hl hno, h.2⟩, fun h => ⟨h.1, h.2.2⟩⟩
  | @purge ownerId id rest db m db' hone _ ih =>
    have hlisted := (purge_returns.mp hone).1
    rw [ih (purge_wellFormed hw hone), purge_find hw hone, List.forall_mem_cons, and_assoc]
    refine and_congr_right fun _ => ⟨fun h => ⟨fun _ => h.1, fun due hdue hl hbelow => ?_⟩,
      fun h => ⟨h.1 hlisted, fun due hdue hl hbelow => ?_⟩⟩
    · -- a root this purge took is below the one purged, and so is what is below it
      by_cases hgone : AtOrBelow db.nodes due.2 id
      · exact h.1 (hbelow.trans hgone)
      · obtain ⟨root, hroot, hrest⟩ := hl
        exact h.2 due hdue ⟨root, (purge_find hw hone _ _).mpr ⟨hroot, hgone⟩, hrest⟩
          ((up_of_purge hw hone h.1).mpr hbelow)
    · obtain ⟨root, hroot, hrest⟩ := hl
      exact h.2 due hdue ⟨root, ((purge_find hw hone _ _).mp hroot).1, hrest⟩
        ((up_of_purge hw hone (h.1 hlisted)).mp hbelow)

/-- The versions of the nodes that are left. -/
theorem versions (h : Purges dues db db') (hw : WellFormed db.nodes) (k : Uuid) (v : Version) :
    db'.versions.find k = some v ↔
      db.versions.find k = some v ∧ (db'.nodes.find v.nodeId).isSome = true := by
  have held : ∀ {m : Db} {k v}, m.versions.find k = some v →
      (m.nodes.find v.nodeId).isSome = true := fun {m k v} hv =>
    (m.sound .versionsForeign v (Table.find_mem hv)).1
  induction h with
  | nil => exact ⟨fun hv => ⟨hv, held hv⟩, And.left⟩
  | skip _ _ ih => exact ih hw
  | @purge ownerId id rest db m db' hone hrest ih =>
    refine Iff.trans (@ih (purge_wellFormed hw hone)) (and_congr_left fun hleft => ?_)
    obtain ⟨row, hrow⟩ := Option.isSome_iff_exists.mp hleft
    have hmid := ((hrest.find (purge_wellFormed hw hone) _ _).mp hrow).1
    have hstays := ((purge_find hw hone _ _).mp hmid).2
    obtain ⟨⟨root, hroot, -⟩, m', hm', hrelease⟩ := purge_returns.mp hone
    rw [(booked_releaseEach hrelease).versions, hm']
    refine (Eq.congr_left (Table.find_delete _ _ _)).trans ?_
    rw [Option.filter_eq_some_iff, Bool.not_eq_true', decide_eq_false_iff_not,
      mem_cascade_iff hw hroot]
    exact and_iff_left fun hgone => hstays hgone.2

/-- Nothing else of the tables. -/
theorem frame (h : Purges dues db db') : db'.thumbnails = db.thumbnails ∧
    db'.quotas = db.quotas ∧ db'.users = db.users ∧ db'.now = db.now ∧ db'.next = db.next := by
  refine h.induct (I := fun m => m.thumbnails = db.thumbnails ∧ m.quotas = db.quotas ∧
    m.users = db.users ∧ m.now = db.now ∧ m.next = db.next) ⟨rfl, rfl, rfl, rfl, rfl⟩
    fun {_ _ m m'} hm hp => ?_
  obtain ⟨-, m₁, hm₁, hrelease⟩ := purge_returns.mp hp
  rw [recounted_releaseEach hrelease, hm₁]
  exact hm

end Purges

/-- **The references given up**: those of the nodes that are gone, and of their versions. -/
theorem references_gone
    (hrows : ∀ k row, s'.nodes.find k = some row → s.nodes.find k = some row)
    (hversions : ∀ k v, s'.versions.find k = some v ↔
      s.versions.find k = some v ∧ (s'.nodes.find v.nodeId).isSome = true)
    (hheld : ∀ v ∈ s.versions.rows, (s.nodes.find v.nodeId).isSome = true)
    (hthumbnails : s'.thumbnails = s.thumbnails) (b : BlobHash) : s'.references b =
      s.references b - each (s.blobsOf (s.nodes.select fun n => (s'.nodes.find n.id).isNone)) b := by
  have hnodes : s'.nodes.total (fun n => if n.blobHash = some b then (1 : Int) else 0) =
      (s.nodes.delete fun n => (s'.nodes.find n.id).isNone).total
        fun n => if n.blobHash = some b then 1 else 0 := by
    refine Table.total_congr_value fun k => ?_
    unfold Table.value
    rw [Table.find_delete]
    cases hk : s'.nodes.find k with
    | some row =>
      rw [hrows k row hk, Option.filter_some, Table.find_key (hrows k row hk), hk]
      rfl
    | none =>
      cases hk' : s.nodes.find k with
      | none => rfl
      | some row =>
        rw [Option.filter_some, Table.find_key hk', hk]
        rfl
  have hgone : ∀ v ∈ s.versions.rows, (s'.nodes.find v.nodeId).isNone =
      decide (v.nodeId ∈ (s.nodes.select fun n => (s'.nodes.find n.id).isNone).map Node.id) := by
    intro v hv
    obtain ⟨n, hn⟩ := Option.isSome_iff_exists.mp (hheld v hv)
    obtain ⟨hmem, hid⟩ := Table.find_eq_some_iff.mp hn
    rw [Bool.eq_iff_iff, decide_eq_true_eq, List.mem_map]
    constructor
    · exact fun hnone => ⟨n, Table.mem_select.mpr ⟨hmem, hid ▸ hnone⟩, hid⟩
    · rintro ⟨n', hn', hid'⟩
      exact hid' ▸ (Table.mem_select.mp hn').2
  have hdrop : s'.versions.total (fun v => if v.hash = b then (1 : Int) else 0) =
      (s.versions.delete fun v => (s'.nodes.find v.nodeId).isNone).total
        fun v => if v.hash = b then 1 else 0 := by
    refine Table.total_congr_value fun k => ?_
    unfold Table.value
    rw [Table.find_delete]
    congr 1
    refine Option.ext fun v => ?_
    rw [hversions, Option.filter_eq_some_iff]
    refine and_congr_right fun _ => ?_
    rw [Bool.not_eq_true', Option.isNone_eq_false_iff]
  have hselect : (s.versions.select fun v => (s'.nodes.find v.nodeId).isNone) =
      s.versions.select fun v => decide (v.nodeId ∈
        (s.nodes.select fun n => (s'.nodes.find n.id).isNone).map Node.id) :=
    List.filter_congr hgone
  unfold Store.references Store.blobsOf
  rw [hnodes, hdrop, Table.total_delete, Table.total_delete, each_append, each_filterMap, hselect,
    each_hashes, hthumbnails]
  unfold heldRef
  omega

theorem orElseNotFound_cases {α : Type} {x y : Tx α} {a : α}
    (h : (orElseNotFound x y).Returns db a db') :
    x.Returns db a db' ∨ x db = .error .notFound ∧ y.Returns db a db' := by
  unfold Returns orElseNotFound at h
  cases hx : x db with
  | ok answer =>
    rw [hx] at h
    exact Or.inl (hx.trans h)
  | error e =>
    rw [hx] at h
    cases e <;> first | exact Or.inr ⟨rfl, h⟩ | cases h

/-- **The loop of `empty`** purges one root after the other. -/
theorem purgeAll_purges {ids : List Uuid} {purged : Nat}
    (h : (purgeAll ownerId ids).Returns db purged db') :
    Purges (ids.map fun id => (ownerId, id)) db db' := by
  induction ids generalizing db purged with
  | nil =>
    obtain ⟨-, rfl⟩ := pure_returns.mp h
    exact .nil _
  | cons id ids ih =>
    obtain ⟨one, m, hone, h⟩ := bind_returns.mp h
    obtain ⟨rest, m', hrest, h⟩ := bind_returns.mp h
    obtain ⟨-, rfl⟩ := pure_returns.mp h
    rcases orElseNotFound_cases hone with hone | ⟨hmissing, hskip⟩
    · obtain ⟨_, m'', hpurge, hone⟩ := bind_returns.mp hone
      obtain ⟨-, rfl⟩ := pure_returns.mp hone
      exact .purge hpurge (ih hrest)
    · obtain ⟨-, rfl⟩ := pure_returns.mp hskip
      refine .skip (fun hlisted => ?_) (ih hrest)
      obtain ⟨m'', hpurge⟩ := purge_succeeds hlisted
      rw [bind_of_returns hpurge] at hmissing
      cases hmissing

theorem mem_trashOf : row ∈ s.trashOf ownerId ↔
    s.nodes.find row.id = some row ∧ row.ownerId = ownerId ∧ row.trashRoot = some row.id := by
  unfold Store.trashOf
  rw [List.mem_insertionSort, Table.mem_select, Table.mem_iff_find, Bool.and_eq_true,
    decide_eq_true_eq, decide_eq_true_eq]

theorem emptyTrash_purges {purged : Nat} (h : (emptyTrash ownerId).Returns db purged db') :
    Purges ((db.trashOf ownerId).map fun n => (ownerId, n.id)) db db' := by
  obtain ⟨roots, m, hroots, h⟩ := bind_returns.mp h
  obtain ⟨rfl, rfl⟩ := query_returns.mp hroots
  have hp := purgeAll_purges h
  rwa [List.map_map] at hp

/-- Through trashed nodes of one batch. -/
def InBatch (t : Table Node Node.id) (n top : Uuid) : Prop :=
  Relation.ReflTransGen (fun n p => ∃ row above, t.find n = some row ∧ row.parentId = some p ∧
    t.find p = some above ∧ row.live = false ∧ above.trashRoot = row.trashRoot) n top

/-- A trashed node is in the batch of its root, which is its own. -/
theorem WellFormed.inBatch {t : Table Node Node.id} {b : Uuid} (h : WellFormed t)
    (hrow : t.find id = some row) (hb : row.trashRoot = some b) :
    InBatch t id b ∧ ∃ root, t.find b = some root ∧ root.trashRoot = some b := by
  have key : ∀ row, t.find id = some row → row.trashRoot = some b →
      InBatch t id b ∧ ∃ root, t.find b = some root ∧ root.trashRoot = some b := by
    refine (h.grounded id).induction (motive := fun id => ∀ row, t.find id = some row →
      row.trashRoot = some b → InBatch t id b ∧ ∃ root, t.find b = some root ∧
        root.trashRoot = some b) (fun x hx row hrow hb => ?_) fun x y hxy ih row hrow hb => ?_
    · rw [parentOf_of_find hrow] at hx
      exact absurd (WellFormed.live_iff.mp (h.root hrow hx).1) (trashed_of_trashRoot hb)
    · rcases h.batch hrow hb with rfl | ⟨p, above, hp, ha, hr⟩
      · exact ⟨.refl, row, hrow, hb⟩
      · rw [parentOf_of_find hrow, hp] at hxy
        cases hxy
        obtain ⟨hup, hroot⟩ := ih above ha hr
        refine ⟨.head ⟨row, above, hrow, hp, ha, ?_, hr.trans hb.symm⟩ hup, hroot⟩
        by_contra hlive
        exact trashed_of_trashRoot hb (WellFormed.live_iff.mp (by simpa using hlive))
  exact key row hrow hb

theorem InBatch.trashRoot {t : Table Node Node.id} {top : Uuid} (h : InBatch t id top)
    (hrow : t.find id = some row) (htop : t.find top = some node) :
    node.trashRoot = row.trashRoot := by
  induction h using Relation.ReflTransGen.head_induction_on generalizing row with
  | refl =>
    rw [hrow] at htop
    cases htop
    rfl
  | @head x y hxy _ ih =>
    obtain ⟨r, above, hr, -, ha, -, hsame⟩ := hxy
    rw [hrow] at hr
    cases hr
    exact (ih ha).trans hsame

/-- The root of a batch is listed. -/
theorem listed_of_trashRoot (hw : WellFormed db.nodes) {k b : Uuid} (hrow : db.nodes.find k = some row)
    (hb : row.trashRoot = some b) : Listed db.nodes row.ownerId b ∧ AtOrBelow db.nodes k b := by
  have hup := hw.up_trashRoot hrow hb
  obtain ⟨-, root, hroot, hself⟩ := hw.inBatch hrow hb
  exact ⟨⟨root, hroot, (hw.owner_above hrow hup hroot).symm, hself⟩, hup⟩

/-- **An emptied trash is empty**, and nothing else is gone. -/
theorem emptyTrash_find (hw : WellFormed db.nodes) {purged : Nat}
    (h : (emptyTrash ownerId).Returns db purged db') (k : Uuid) (row : Node) :
    db'.nodes.find k = some row ↔
      db.nodes.find k = some row ∧ (row.ownerId = ownerId → row.live = true) := by
  rw [(emptyTrash_purges h).find hw]
  refine and_congr_right fun hrow => ⟨fun hno howner => ?_, fun hlive due hdue hlisted hup => ?_⟩
  · by_contra hl
    obtain ⟨d, hd⟩ := Option.isSome_iff_exists.mp
      (Option.ne_none_iff_isSome.mp fun e => hl (WellFormed.live_iff.mpr e))
    have hb : row.trashRoot = some d.root := by rw [Node.trashRoot, hd, Option.map_some]
    obtain ⟨⟨root, hroot, hof, hroot'⟩, hup⟩ := listed_of_trashRoot hw hrow hb
    have hid := Table.find_key hroot
    refine hno (ownerId, d.root) (List.mem_map.mpr ⟨root, mem_trashOf.mpr ⟨?_, ?_, ?_⟩, ?_⟩)
      ⟨root, hroot, hof.trans howner, hroot'⟩ hup
    · rw [hid]
      exact hroot
    · exact hof.trans howner
    · rw [hid]
      exact hroot'
    · rw [hid]
  · obtain ⟨n, hn, rfl⟩ := List.mem_map.mp hdue
    obtain ⟨root, hroot, hof, hb⟩ := hlisted
    have hdead : row.live = false := by
      refine hw.trashed_below hrow hup hroot ?_
      by_contra hl
      exact trashed_of_trashRoot hb (WellFormed.live_iff.mp (by simpa using hl))
    rw [hlive ((hw.owner_above hrow hup hroot).trans hof)] at hdead
    cases hdead

/-- **An expiry** purges one root that is due after the other. -/
theorem expireAll_purges (dues : List Node) (db : Db) :
    Purges (dues.map fun n => (n.ownerId, n.id)) db (expireAll dues db).2 := by
  induction dues generalizing db with
  | nil => exact .nil _
  | cons due dues ih =>
    rw [expireAll]
    by_cases hlisted : Listed db.nodes due.ownerId due.id
    · obtain ⟨m, hpurge⟩ := purge_succeeds hlisted
      have hpurge' : purge due.ownerId due.id db = .ok ((), m) := hpurge
      rw [hpurge']
      exact .purge hpurge (ih m)
    · rw [purge_missing hlisted]
      exact .skip hlisted (ih db)

end Stashden.Api
