import Stashden.Api.Books

/-!
# Statements no constraint stops

A statement goes through where the tables it leaves keep every constraint. The lemmas `holds_*` say
that of one kind of change each, from what the other tables and the rows left behind hold already;
`releaseEach_succeeds`, `chargeQuota_succeeds` and the rest that a function is not stopped.
-/

namespace Stashden.Api

open Lib Stashden.Core Tx

variable {db db' : Db} {ownerId nodeId id : Uuid} {hash : BlobHash} {size : Nat} {delta : Int}
  {node row : Node}

theorem execute_succeeds {h : Store → Store} (hs : ∀ c, (h db.toStore).Holds c) :
    ∃ db', (execute h).Returns db () db' := ⟨⟨_, hs⟩, execute_returns.mpr rfl⟩

theorem holds_blobs {blobs : Table Blob Blob.hash}
    (hkeep : ∀ h, (db.blobs.find h).isSome = true → (blobs.find h).isSome = true)
    (hcheck : ∀ b ∈ blobs.rows, 0 ≤ b.size ∧ 0 ≤ b.refCount) (c : Constraint) :
    ({ db.toStore with blobs } : Store).Holds c := by
  cases c with
  | nodesForeign =>
    intro n hn
    obtain ⟨ho, hp, hr, hb⟩ := db.sound .nodesForeign n hn
    exact ⟨ho, hp, hr, fun h hh => hkeep h (hb h hh)⟩
  | blobsCheck => exact hcheck
  | versionsForeign =>
    intro v hv
    obtain ⟨hn, hb, hs⟩ := db.sound .versionsForeign v hv
    exact ⟨hn, hkeep _ hb, hs⟩
  | thumbnailsForeign =>
    intro t ht
    obtain ⟨hsource, hb, he⟩ := db.sound .thumbnailsForeign t ht
    exact ⟨hkeep _ hsource, hkeep _ hb, he⟩
  | primaryKey => exact db.sound .primaryKey
  | usersUniqueEmail => exact db.sound .usersUniqueEmail
  | nodesUniqueNamePerParent => exact db.sound .nodesUniqueNamePerParent
  | nodesSingleRootPerOwner => exact db.sound .nodesSingleRootPerOwner
  | nodesNameCheck => exact db.sound .nodesNameCheck
  | quotasCheck => exact db.sound .quotasCheck
  | grantsOncePerAddress => exact db.sound .grantsOncePerAddress
  | grantsMountNames => exact db.sound .grantsMountNames
  | grantsMountNameCheck => exact db.sound .grantsMountNameCheck
  | grantsForeign => exact db.sound .grantsForeign
  | locksOnePerNode => exact db.sound .locksOnePerNode
  | locksForeign => exact db.sound .locksForeign

theorem holds_quotas {quotas : Table Quota Quota.ownerId}
    (hcheck : ({ db.toStore with quotas } : Store).Holds .quotasCheck) (c : Constraint) :
    ({ db.toStore with quotas } : Store).Holds c := by
  by_cases hc : c = .quotasCheck
  · rw [hc]
    exact hcheck
  · have hdb := db.sound c
    cases c <;> first | exact absurd rfl hc | exact hdb

/-- An increasing `next`. -/
theorem holds_next {next : Nat} (hnext : db.next ≤ next) (c : Constraint) :
    ({ db.toStore with next } : Store).Holds c := by
  by_cases hc : c = .primaryKey
  · rw [hc]
    obtain ⟨hn, hv, hg, hl⟩ := db.sound .primaryKey
    exact ⟨fun n h => (hn n h).trans_le hnext, fun v h => (hv v h).trans_le hnext,
      fun g h => (hg g h).trans_le hnext, fun l h => (hl l h).trans_le hnext⟩
  · have hdb := db.sound c
    cases c <;> first | exact absurd rfl hc | exact hdb

theorem holds_versions {versions : Table Version Version.id}
    (hkeys : ∀ v ∈ versions.rows, v.id < db.next)
    (hforeign : ({ db.toStore with versions } : Store).Holds .versionsForeign) (c : Constraint) :
    ({ db.toStore with versions } : Store).Holds c := by
  by_cases hc : c = .versionsForeign
  · rw [hc]
    exact hforeign
  · by_cases hk : c = .primaryKey
    · rw [hk]
      obtain ⟨hn, -, hg, hl⟩ := db.sound .primaryKey
      exact ⟨hn, hkeys, hg, hl⟩
    · have hdb := db.sound c
      cases c <;> first | exact absurd rfl hc | exact absurd rfl hk | exact hdb

/-! ## Counting and charging -/

theorem mem_update_blob {t : Table Blob Blob.hash} {p : Blob → Bool} {f : Blob → Blob}
    {hf : ∀ b, (f b).hash = b.hash} {b : Blob} (h : b ∈ (t.update p f hf).rows) :
    ∃ old ∈ t.rows, b = if p old then f old else old := by
  obtain ⟨old, hold, rfl⟩ := List.mem_map.mp h
  exact ⟨old, hold, rfl⟩

theorem releaseBlob_succeeds (db : Db) (hash : BlobHash) :
    ∃ db', (releaseBlob hash).Returns db () db' := by
  refine execute_succeeds (holds_blobs (fun _ => isSome_find_update (by intro _; rfl))
    fun b hb => ?_)
  obtain ⟨old, hold, rfl⟩ := mem_update_blob hb
  obtain ⟨hsize, hcount⟩ := db.sound .blobsCheck old hold
  by_cases hp : (decide (old.hash = hash) && decide (0 < old.refCount)) = true
  · rw [if_pos hp]
    simp only [Bool.and_eq_true, decide_eq_true_eq] at hp
    exact ⟨hsize, by show 0 ≤ old.refCount - 1; omega⟩
  · rw [if_neg hp]
    exact ⟨hsize, hcount⟩

theorem acquireBlob_succeeds (db : Db) (hash : BlobHash) :
    ∃ db', (acquireBlob hash).Returns db () db' := by
  refine execute_succeeds (holds_blobs (fun _ => isSome_find_update (by intro _; rfl))
    fun b hb => ?_)
  obtain ⟨old, hold, rfl⟩ := mem_update_blob hb
  obtain ⟨hsize, hcount⟩ := db.sound .blobsCheck old hold
  split_ifs
  · exact ⟨hsize, by show 0 ≤ old.refCount + 1; omega⟩
  · exact ⟨hsize, hcount⟩

theorem forEach_succeeds {α : Type} {g : α → Tx Unit} (hg : ∀ a db, ∃ db', (g a).Returns db () db')
    (list : List α) (db : Db) : ∃ db', (forEach g list).Returns db () db' := by
  induction list generalizing db with
  | nil => exact ⟨db, forEach_nil_returns.mpr rfl⟩
  | cons a list ih =>
    obtain ⟨m, hm⟩ := hg a db
    obtain ⟨db', h⟩ := ih m
    exact ⟨db', forEach_cons_returns.mpr ⟨m, hm, h⟩⟩

theorem release_succeeds (held : List Version) (db : Db) :
    ∃ db', (release held).Returns db (held.map Version.size).sum db' := by
  obtain ⟨db', h⟩ := forEach_succeeds (fun (v : Version) db => releaseBlob_succeeds db v.hash) held db
  exact ⟨db', bind_returns.mpr ⟨(), db', h, pure_returns.mpr ⟨rfl, rfl⟩⟩⟩

/-- **A charge within the limit goes through**, where it leaves no usage below nothing. -/
theorem chargeQuota_succeeds (hcharge : delta = 0 ∨ ∃ q, db.quotas.find ownerId = some q ∧
    0 ≤ q.bytesUsed + delta ∧ q.bytesUsed + delta ≤ q.bytesMax) :
    ∃ db', (chargeQuota ownerId delta).Returns db () db' := by
  unfold chargeQuota tryCharge
  by_cases hzero : delta = 0
  · rw [if_pos hzero]
    exact ⟨db, bind_returns.mpr ⟨true, db, pure_returns.mpr ⟨rfl, rfl⟩, pure_returns.mpr ⟨rfl, rfl⟩⟩⟩
  · rw [if_neg hzero]
    obtain ⟨q, hq, hlow, hhigh⟩ := hcharge.resolve_left hzero
    have hreached : true = (db.quotas.find ownerId).any fun q =>
        decide (q.bytesUsed + delta ≤ q.bytesMax) := by
      rw [hq, Option.any_some, decide_eq_true hhigh]
    have hupdate : ∃ m, (execute fun s => { s with
        quotas := s.quotas.update
          (fun q => q.ownerId = ownerId && decide (q.bytesUsed + delta ≤ q.bytesMax))
          (fun q => { q with bytesUsed := q.bytesUsed + delta }) fun _ => rfl }).Returns db () m := by
      refine execute_succeeds (holds_quotas fun r hr => ?_)
      obtain ⟨old, hold, rfl⟩ := List.mem_map.mp hr
      obtain ⟨huser, hused, hmax⟩ := db.sound .quotasCheck old hold
      split_ifs with hp
      · simp only [Bool.and_eq_true, decide_eq_true_eq] at hp
        have hfind := Table.mem_iff_find.mp hold
        rw [hp.1, hq] at hfind
        cases hfind
        exact ⟨huser, hlow, hmax⟩
      · exact ⟨huser, hused, hmax⟩
    obtain ⟨m, hm⟩ := hupdate
    refine ⟨m, bind_returns.mpr ⟨true, m, ?_, pure_returns.mpr ⟨rfl, rfl⟩⟩⟩
    exact bind_returns.mpr ⟨true, db, query_returns.mpr ⟨hreached, rfl⟩, bind_returns.mpr
      ⟨(), m, hm, pure_returns.mpr ⟨rfl, rfl⟩⟩⟩

theorem deleteVersions_succeeds (ids : List Uuid) (db : Db) :
    ∃ db', (deleteVersions ids).Returns db () db' := by
  refine execute_succeeds (holds_versions (fun v hv => ?_) fun v hv => ?_)
  · exact (db.sound .primaryKey).2.1 v (Table.mem_delete.mp hv).1
  · exact db.sound .versionsForeign v (Table.mem_delete.mp hv).1

theorem insertBlob_succeeds (db : Db) (hash : BlobHash) (size : Nat) :
    ∃ db', (insertBlob hash size).Returns db () db' := by
  refine execute_succeeds (holds_blobs (fun _ => isSome_find_insert) fun b hb => ?_)
  cases hins : db.blobs.insert ⟨hash, size, 0, none⟩ with
  | none =>
    rw [hins] at hb
    exact db.sound .blobsCheck b hb
  | some t =>
    rw [hins, Option.getD_some, (Table.insert_eq_some hins).2] at hb
    rcases List.mem_append.mp hb with hb | hb
    · exact db.sound .blobsCheck b hb
    · rw [List.mem_singleton.mp hb]
      exact ⟨Int.natCast_nonneg size, le_rfl⟩

/-! ## The trash columns -/

theorem find_isSome_retrashed {t t' : Table Node Node.id} (hre : Retrashed t t') {k : Uuid}
    (hk : (t.find k).isSome = true) : (t'.find k).isSome = true := by
  obtain ⟨row, hrow⟩ := Option.isSome_iff_exists.mp hk
  obtain ⟨row', hrow', -⟩ := hre.find hrow
  rw [hrow']
  rfl

/-- Other trash columns break nothing, where names stay apart and roots are nodes. -/
theorem holds_retrashed {nodes : Table Node Node.id} (hre : Retrashed db.nodes nodes)
    (hnames : ({ db.toStore with nodes } : Store).Holds .nodesUniqueNamePerParent)
    (hroots : ({ db.toStore with nodes } : Store).Holds .nodesSingleRootPerOwner)
    (htrash : ∀ n ∈ nodes.rows, ∀ r ∈ n.trashRoot, (db.nodes.find r).isSome = true)
    (c : Constraint) : ({ db.toStore with nodes } : Store).Holds c := by
  have hback : ∀ n ∈ nodes.rows, ∃ old ∈ db.nodes.rows, old.id = n.id ∧
      old.untrashed = n.untrashed := by
    intro n hn
    obtain ⟨old, hold, hsame⟩ := hre.symm.find (Table.mem_iff_find.mp hn)
    exact ⟨old, Table.find_mem hold, Table.find_key hold, hsame⟩
  have hstays : ∀ {k}, (db.nodes.find k).isSome = true → (nodes.find k).isSome = true :=
    find_isSome_retrashed hre
  cases c with
  | nodesUniqueNamePerParent => exact hnames
  | nodesSingleRootPerOwner => exact hroots
  | primaryKey =>
    obtain ⟨hn, hrest⟩ := db.sound .primaryKey
    refine ⟨fun n h => ?_, hrest⟩
    obtain ⟨old, hold, hid, -⟩ := hback n h
    exact hid ▸ hn old hold
  | nodesNameCheck =>
    intro n h
    obtain ⟨old, hold, -, hsame⟩ := hback n h
    obtain ⟨-, hp, hname, -⟩ := untrashed_eq hsame
    have hcheck := db.sound .nodesNameCheck old hold
    unfold Store.nameCheck at hcheck ⊢
    rwa [hp, hname] at hcheck
  | nodesForeign =>
    intro n h
    obtain ⟨old, hold, -, hsame⟩ := hback n h
    obtain ⟨ho, hp, -, hbody⟩ := untrashed_eq hsame
    obtain ⟨huser, hparent, -, hblob⟩ := db.sound .nodesForeign old hold
    rw [ho] at huser
    rw [hp] at hparent
    rw [blobHash_congr hbody] at hblob
    exact ⟨huser, fun q hq => hstays (hparent q hq), fun r hr => hstays (htrash n h r hr), hblob⟩
  | versionsForeign =>
    intro v hv
    obtain ⟨hn, hrest⟩ := db.sound .versionsForeign v hv
    exact ⟨hstays hn, hrest⟩
  | grantsForeign =>
    intro g hg
    obtain ⟨hn, hrest⟩ := db.sound .grantsForeign g hg
    exact ⟨hstays hn, hrest⟩
  | locksForeign =>
    intro l hl
    obtain ⟨hn, hrest⟩ := db.sound .locksForeign l hl
    exact ⟨hstays hn, hrest⟩
  | usersUniqueEmail => exact db.sound .usersUniqueEmail
  | blobsCheck => exact db.sound .blobsCheck
  | thumbnailsForeign => exact db.sound .thumbnailsForeign
  | quotasCheck => exact db.sound .quotasCheck
  | grantsOncePerAddress => exact db.sound .grantsOncePerAddress
  | grantsMountNames => exact db.sound .grantsMountNames
  | grantsMountNameCheck => exact db.sound .grantsMountNameCheck
  | locksOnePerNode => exact db.sound .locksOnePerNode

/-- **Less that is live breaks nothing.** -/
theorem holds_trashed {nodes : Table Node Node.id} (hre : Retrashed db.nodes nodes)
    (hlive : ∀ n ∈ nodes.rows, n.live = true → n ∈ db.nodes.rows)
    (htrash : ∀ n ∈ nodes.rows, ∀ r ∈ n.trashRoot, (db.nodes.find r).isSome = true)
    (c : Constraint) : ({ db.toStore with nodes } : Store).Holds c :=
  holds_retrashed hre
    (fun n hn m hm hnl hml => db.sound .nodesUniqueNamePerParent n (hlive n hn hnl) m
      (hlive m hm hml) hnl hml)
    (fun n hn m hm hnl hml => db.sound .nodesSingleRootPerOwner n (hlive n hn hnl) m
      (hlive m hm hml) hnl hml) htrash c

/-! ## Deleting nodes -/

/-- What a cascade takes, it takes with what points at it. -/
theorem cascade_closed {s : Store} {p : Node → Bool} {q : Uuid} (hn : node ∈ s.nodes.rows)
    (hpoints : node.parentId = some q ∨ node.trashRoot = some q) (hq : q ∈ s.cascade p) :
    node.id ∈ s.cascade p := by
  unfold Store.cascade at hq ⊢
  obtain ⟨r, hr, rfl⟩ := List.mem_map.mp hq
  refine List.mem_map.mpr ⟨node, ?_, rfl⟩
  obtain ⟨start, hstart, hreach⟩ := mem_recursive_iff.mp hr
  exact mem_recursive_iff.mpr ⟨start, hstart, hreach.tail ⟨hn, by simpa using hpoints⟩⟩

theorem find_deleteNodes {s : Store} {p : Node → Bool} {k : Uuid}
    (hk : (s.nodes.find k).isSome = true) (hstays : k ∉ s.cascade p) :
    ((s.deleteNodes p).nodes.find k).isSome = true := by
  obtain ⟨n, hn⟩ := Option.isSome_iff_exists.mp hk
  show ((s.nodes.delete fun n => decide (n.id ∈ s.cascade p)).find k).isSome = true
  rw [Table.find_delete, hn, Option.filter_some, if_pos]
  · rfl
  · rw [Table.find_key hn]
    simpa using hstays

/-- **A deletion with its cascades breaks nothing.** -/
theorem holds_deleteNodes (p : Node → Bool) (c : Constraint) : (db.deleteNodes p).Holds c := by
  -- the rows that stay were there before
  have hnode : ∀ n ∈ (db.deleteNodes p).nodes.rows, n ∈ db.nodes.rows ∧ n.id ∉ db.cascade p := by
    intro n hn
    obtain ⟨hmem, hstays⟩ := Table.mem_delete.mp hn
    exact ⟨hmem, by simpa using hstays⟩
  have hversion : ∀ v ∈ (db.deleteNodes p).versions.rows,
      v ∈ db.versions.rows ∧ v.nodeId ∉ db.cascade p := by
    intro v hv
    obtain ⟨hmem, hstays⟩ := Table.mem_delete.mp hv
    exact ⟨hmem, by simpa using hstays⟩
  have hgrant : ∀ g ∈ (db.deleteNodes p).grants.rows,
      g ∈ db.grants.rows ∧ g.nodeId ∉ db.cascade p := by
    intro g hg
    obtain ⟨hmem, hstays⟩ := Table.mem_delete.mp hg
    exact ⟨hmem, by simpa using hstays⟩
  have hlock : ∀ l ∈ (db.deleteNodes p).locks.rows,
      l ∈ db.locks.rows ∧ l.nodeId ∉ db.cascade p := by
    intro l hl
    obtain ⟨hmem, hstays⟩ := Table.mem_delete.mp hl
    exact ⟨hmem, by simpa using hstays⟩
  cases c with
  | primaryKey =>
    obtain ⟨hn, hv, hg, hl⟩ := db.sound .primaryKey
    exact ⟨fun n h => hn n (hnode n h).1, fun v h => hv v (hversion v h).1,
      fun g h => hg g (hgrant g h).1, fun l h => hl l (hlock l h).1⟩
  | nodesUniqueNamePerParent =>
    exact fun n hn m hm => db.sound .nodesUniqueNamePerParent n (hnode n hn).1 m (hnode m hm).1
  | nodesSingleRootPerOwner =>
    exact fun n hn m hm => db.sound .nodesSingleRootPerOwner n (hnode n hn).1 m (hnode m hm).1
  | nodesNameCheck => exact fun n hn => db.sound .nodesNameCheck n (hnode n hn).1
  | nodesForeign =>
    intro n hn
    obtain ⟨hmem, hstays⟩ := hnode n hn
    obtain ⟨ho, hp, hr, hb⟩ := db.sound .nodesForeign n hmem
    exact ⟨ho, fun q hq => find_deleteNodes (hp q hq) fun hgone =>
        hstays (cascade_closed hmem (Or.inl hq) hgone),
      fun q hq => find_deleteNodes (hr q hq) fun hgone =>
        hstays (cascade_closed hmem (Or.inr hq) hgone), hb⟩
  | versionsForeign =>
    intro v hv
    obtain ⟨hmem, hstays⟩ := hversion v hv
    obtain ⟨hn, hb, hs⟩ := db.sound .versionsForeign v hmem
    exact ⟨find_deleteNodes hn hstays, hb, hs⟩
  | grantsOncePerAddress =>
    exact fun g hg h hh => db.sound .grantsOncePerAddress g (hgrant g hg).1 h (hgrant h hh).1
  | grantsMountNames =>
    exact fun g hg h hh => db.sound .grantsMountNames g (hgrant g hg).1 h (hgrant h hh).1
  | grantsMountNameCheck => exact fun g hg => db.sound .grantsMountNameCheck g (hgrant g hg).1
  | grantsForeign =>
    intro g hg
    obtain ⟨hmem, hstays⟩ := hgrant g hg
    obtain ⟨hn, hu⟩ := db.sound .grantsForeign g hmem
    exact ⟨find_deleteNodes hn hstays, hu⟩
  | locksOnePerNode =>
    exact fun l hl k hk => db.sound .locksOnePerNode l (hlock l hl).1 k (hlock k hk).1
  | locksForeign =>
    intro l hl
    obtain ⟨hmem, hstays⟩ := hlock l hl
    obtain ⟨hn, hu⟩ := db.sound .locksForeign l hmem
    exact ⟨find_deleteNodes hn hstays, hu⟩
  | usersUniqueEmail => exact db.sound .usersUniqueEmail
  | blobsCheck => exact db.sound .blobsCheck
  | thumbnailsForeign => exact db.sound .thumbnailsForeign
  | quotasCheck => exact db.sound .quotasCheck

end Stashden.Api
