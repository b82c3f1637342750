import Stashden.Api.Departure
import Stashden.Api.Locks

/-!
# Runs of the whole service

`Step` is one transaction of the service, on nodes it has looked up in the tables it starts from, or
the clock going on; `Reached` is any run of them from empty tables. `step_sane` goes through them, and
`Reached.sane` says what holds after every run.
-/

namespace Stashden.Api

open Lib Stashden.Core Tx

variable {s s' : Store} {db db' m : Db} {ownerId nodeId id : Uuid}
  {parent node source row root : Node} {name : NodeName} {hash : BlobHash} {size : Nat}
  {delta versionsKept quota : Int} {u : Unit} {user : User}

/-! ## Functions that leave the tree alone -/

/-- What writes accounts, grants and locks only, or waits. -/
theorem Sane.frame (h : Sane db.toStore) (hnodes : db'.nodes = db.nodes)
    (hversions : db'.versions = db.versions) (hthumbnails : db'.thumbnails = db.thumbnails)
    (hblobs : db'.blobs = db.blobs) (hquotas : db'.quotas = db.quotas) (hnow : db.now ≤ db'.now) :
    Sane db'.toStore := by
  refine h.fewer (hnodes ▸ h.forest)
    (h.books.frame hnodes hversions hthumbnails hblobs hquotas)
    ⟨fun hv => Or.inl (hversions ▸ hv), fun _ hq => hquotas.symm ▸ hq, fun _ hm b hb => ?_⟩ hnow
    fun hrow => hnodes ▸ hrow
  rw [hblobs] at hb
  exact hm b hb

/-- What writes the counters and thumbnails only. -/
theorem Sane.counted (h : Sane db.toStore)
    (hbooks : Ledger (fun _ => 0) (fun _ => 0) db'.toStore)
    (hkept : Upkept none db.toStore db'.toStore) (hnodes : db'.nodes = db.nodes)
    (hnow : db'.now = db.now) : Sane db'.toStore :=
  h.fewer (hnodes ▸ h.forest) hbooks hkept hnow.symm.le fun hrow => hnodes ▸ hrow

/-- **`set_quota`.** -/
theorem setQuota_sane (h : Sane db.toStore) (hx : (setQuota id delta).Returns db u db') :
    Sane db'.toStore := by
  unfold setQuota at hx
  obtain ⟨-, hx⟩ := of_guard hx
  have hs := execute_returns.mp (mapViolated_returns.mp hx)
  have hused : ∀ o, db'.bytesUsed o = db.bytesUsed o := by
    intro o
    rw [hs]
    unfold Store.bytesUsed
    dsimp only
    cases hins : db.quotas.insert ⟨id, 0, delta⟩ with
    | some quotas =>
      rw [Option.getD_some, value_insert hins]
      simp
    | none =>
      rw [Option.getD_none]
      unfold Table.value
      rw [Table.find_update]
      cases db.quotas.find o with
      | none => rfl
      | some q => simp only [Option.map_some, Option.elim_some]; split_ifs <;> rfl
  refine h.counted ⟨fun b => ?_, fun o => ?_⟩ ⟨fun hv => ?_, fun o hq => ?_, fun _ hm b hb => ?_⟩
    (by rw [hs]) (by rw [hs])
  · rw [hs]
    exact h.books.refCount b
  · rw [hused, h.books.bytesUsed, hs]
    rfl
  · rw [hs] at hv
    exact Or.inl hv
  · rw [hs]
    dsimp only
    cases hins : db.quotas.insert ⟨id, 0, delta⟩ with
    | some quotas =>
      rw [Option.getD_some, Table.find_insert hins]
      split_ifs
      · rfl
      · exact hq
    | none => exact isSome_find_update (by intro _; rfl) hq
  · rw [hs] at hb
    exact hm b hb

/-- **`register_blob`.** -/
theorem registerBlob_sane (h : Sane db.toStore) (hx : (registerBlob hash size).Returns db u db') :
    Sane db'.toStore := by
  obtain ⟨hbooks, -⟩ := registerBlob_ledger h.books hx
  have hs := execute_returns.mp hx
  refine h.counted hbooks ⟨fun hv => ?_, fun o hq => ?_, fun but hm b hb hne => ?_⟩
    (by rw [hs]) (by rw [hs])
  · rw [hs] at hv
    exact Or.inl hv
  · rw [hs]
    exact hq
  · rw [hs] at hb
    cases hins : db.blobs.insert ⟨hash, size, 0, some db.now⟩ with
    | none =>
      rw [hins] at hb
      exact hm b hb hne
    | some blobs =>
      rw [hins, Option.getD_some, (Table.insert_eq_some hins).2, List.mem_append,
        List.mem_singleton] at hb
      rcases hb with hb | rfl
      · exact hm b hb hne
      · exact iff_of_true rfl rfl

/-- **`sweep`**, of one blob. -/
theorem sweepBlob_sane {grace : Nat} (h : Sane db.toStore)
    (hx : (sweepBlob hash grace).Returns db u db') : Sane db'.toStore := by
  have hs := execute_returns.mp hx
  refine h.counted ⟨fun b => ?_, fun o => ?_⟩ ⟨fun hv => ?_, fun o hq => ?_, fun but hm b hb hne => ?_⟩
    (by rw [hs]) (by rw [hs])
  · -- a blob that goes counted nothing
    have hcount : db'.refCount b = db.refCount b := by
      rw [hs]
      unfold Store.refCount Table.value
      dsimp only
      rw [Table.find_delete]
      cases hb : db.blobs.find b with
      | none => rfl
      | some blob =>
        rw [Option.filter_some]
        split_ifs with hkeep
        · rfl
        · have hgone : blob.refCount = 0 := by
            simp only [Bool.not_eq_true, Bool.not_eq_false', Bool.and_eq_true,
              decide_eq_true_eq] at hkeep
            exact hkeep.1.2
          rw [Option.elim_some, hgone]
          rfl
    rw [hcount, h.books.refCount, hs]
    rfl
  · rw [hs]
    exact h.books.bytesUsed o
  · rw [hs] at hv
    exact Or.inl hv
  · rw [hs]
    exact hq
  · rw [hs] at hb
    exact hm b (Table.mem_delete.mp hb).1 hne

/-- **`remember`.** -/
theorem remember_sane {source thumbnail : BlobHash} {edge : Nat} (h : Sane db.toStore)
    (hx : (remember source edge thumbnail).Returns db u db') : Sane db'.toStore := by
  unfold remember at hx
  obtain ⟨inserted, m, hread, hx⟩ := bind_returns.mp hx
  obtain ⟨hinserted, rfl⟩ := query_returns.mp hread
  obtain ⟨_, m₁, hinsert, hx⟩ := bind_returns.mp hx
  have hs := execute_returns.mp hinsert
  cases hins : db.thumbnails.insert ⟨source, edge, thumbnail⟩ with
  | none =>
    have hknown : inserted = false := by
      rw [hinserted]
      by_contra hno
      have hsome : ∃ t, db.thumbnails.insert (⟨source, edge, thumbnail⟩ : Thumbnail) = some t :=
        Table.insert_isSome (by simpa using hno)
      obtain ⟨t, ht⟩ := hsome
      rw [hins] at ht
      cases ht
    rw [hknown, if_neg Bool.false_ne_true] at hx
    obtain ⟨-, rfl⟩ := pure_returns.mp hx
    rw [hins, Option.getD_none] at hs
    exact h.frame (by rw [hs]) (by rw [hs]) (by rw [hs]) (by rw [hs]) (by rw [hs]) (by rw [hs])
  | some thumbnails =>
    have hnew : inserted = true := by
      rw [hinserted, (Table.insert_eq_some hins).1]
      rfl
    rw [hnew, if_pos rfl] at hx
    rw [hins, Option.getD_some] at hs
    have hheld : Ledger (fun b => 0 - one thumbnail b) (fun _ => 0) m₁.toStore := by
      refine (h.books.shift (by rw [hs]) (by rw [hs])).of_eq (fun b => ?_) fun o => ?_
      · have hrefs : m₁.references b = db.references b + one thumbnail b := by
          rw [hs]
          unfold Store.references
          dsimp only
          rw [Table.total_insert hins]
          unfold one
          simp only [eq_comm]
          omega
        omega
      · have husage : m₁.usage o = db.usage o := by rw [hs]; rfl
        omega
    have hrow : (m₁.blobs.find thumbnail).isSome = true := by
      refine (m₁.sound .thumbnailsForeign ⟨source, edge, thumbnail⟩ ?_).2.1
      rw [hs]
      exact Table.find_mem ((Table.find_insert hins _).trans (if_pos rfl))
    obtain ⟨hbooks, hbooked⟩ := acquireBlob_ledger hheld hrow hx
    have hkept : Upkept none m₁.toStore db'.toStore := upkept_acquireBlob hx
    refine h.counted (hbooks.of_eq (fun b => by omega) fun _ => rfl)
      ⟨fun hv => ?_, fun o hq => hkept.quotas o ?_, fun but hm => hkept.marks but ?_⟩ ?_ ?_
    · have hv' := hkept.versions hv
      rw [hs] at hv'
      exact hv'
    · rw [hs]
      exact hq
    · rw [hs]
      exact hm
    · rw [hbooked.nodes, hs]
    · rw [hbooked, hs]

/-- **`forget_orphans`.** -/
theorem forgetOrphans_sane (h : Sane db.toStore) (hx : forgetOrphans.Returns db u db') :
    Sane db'.toStore := by
  unfold forgetOrphans at hx
  obtain ⟨orphaned, m, hread, hx⟩ := bind_returns.mp hx
  obtain ⟨rfl, rfl⟩ := query_returns.mp hread
  obtain ⟨_, m₁, hdelete, hrelease⟩ := bind_returns.mp hx
  have hs := execute_returns.mp hdelete
  have hheld : Ledger (fun b => 0 + each ((db.thumbnails.select db.orphaned).map Thumbnail.hash) b)
      (fun _ => 0) m₁.toStore := by
    refine (h.books.shift (by rw [hs]) (by rw [hs])).of_eq (fun b => ?_) fun o => ?_
    · have hrefs : m₁.references b = db.references b -
          each ((db.thumbnails.select db.orphaned).map Thumbnail.hash) b := by
        rw [hs]
        unfold Store.references
        dsimp only
        rw [Table.total_delete, each, List.map_map]
        have hsame : ((fun a => one a b) ∘ Thumbnail.hash) =
            fun t => if t.hash = b then (1 : Int) else 0 := by
          funext t
          simp only [Function.comp_apply, one, eq_comm]
        rw [hsame]
        omega
      omega
    · have husage : m₁.usage o = db.usage o := by rw [hs]; rfl
      omega
  obtain ⟨hbooks, hbooked⟩ := releaseEach_ledger hheld (fun b => by
    rw [add_zero]
    exact references_nonneg _ b) hrelease
  have hkept : Upkept none m₁.toStore db'.toStore :=
    keeps_forEach (fun _ => Counting.release _) _ hrelease
  refine h.counted hbooks ⟨fun hv => ?_, fun o hq => hkept.quotas o ?_, fun but hm =>
    hkept.marks but ?_⟩ ?_ ?_
  · have hv' := hkept.versions hv
    rw [hs] at hv'
    exact hv'
  · rw [hs]
    exact hq
  · rw [hs]
    exact hm
  · rw [hbooked.nodes, hs]
  · rw [hbooked, hs]

/-! ## Restoring a version -/

/-- `restore` of `routes/versions.rs`, of a file that was looked up. -/
def restoreVersion (node parent : Node) (name : NodeName) (id : Uuid) (versionsKept : Int) :
    Tx Node := do
  let version ← take node.ownerId node.id id
  putFile parent.ownerId parent name version.hash version.size.toNat versionsKept

/-- **`restore`** of `routes/versions.rs`. -/
theorem restoreVersion_sane {restored : Node} (h : Sane db.toStore)
    (hnode : db.nodes.find node.id = some node) (hlive : node.live = true)
    (hparent : db.nodes.find parent.id = some parent) (hplive : parent.live = true)
    (hdir : parent.isDirectory = true)
    (hx : (restoreVersion node parent name id versionsKept).Returns db restored db') :
    Sane db'.toStore := by
  obtain ⟨version, m, htake, hput⟩ := bind_returns.mp hx
  have hnodes : m.nodes = db.nodes := (keeps_take (R := Beside) htake).nodes
  exact putFile_sane (take_sane h hnode hlive htake) (hnodes ▸ hparent) hplive hdir hput

/-! ## Runs -/

/-- A live node looked up, under its own name or under that of its mount (`into_node`). -/
def LookedUp (db : Db) (node : Node) : Prop :=
  ∃ row, db.liveNode node.id = some row ∧ node = { row with name := node.name }

/-- One transaction of the service, or the clock going on. -/
inductive Step : Db → Db → Prop
  | tick {db db' : Db} {now : Nat} (hnow : db.now ≤ now)
      (hs : db'.toStore = { db.toStore with now := now }) : Step db db'
  | createUser {db db' : Db} {email displayName : Str} {mayWriteRole : Bool} {user : User}
      (hx : (createUser email displayName mayWriteRole).Returns db user db') : Step db db'
  | setDisabled {db db' : Db} {id : Uuid} {disabled : Bool} {user : User}
      (hx : (setDisabled id disabled).Returns db user db') : Step db db'
  | setRole {db db' : Db} {id : Uuid} {mayWriteRole : Bool} {user : User}
      (hx : (setRole id mayWriteRole).Returns db user db') : Step db db'
  | setEmail {db db' : Db} {id : Uuid} {email : Str} {user : User}
      (hx : (setEmail id email).Returns db user db') : Step db db'
  | setQuota {db db' : Db} {id : Uuid} {bytesMax : Int}
      (hx : (setQuota id bytesMax).Returns db () db') : Step db db'
  | give {db db' : Db} {owner : User} {node : Node} {grantee : Str} {access : Access} {given : Given}
      (hnode : db.liveNode node.id = some node)
      (hx : (give owner node grantee access).Returns db given db') : Step db db'
  | withdraw {db db' : Db} {caller : User} {id : Uuid}
      (hx : (withdraw caller id).Returns db () db') : Step db db'
  | takeLock {db db' : Db} {node : Node} {ownerId : Uuid} {deep : Bool} {seconds : Nat} {lock : Lock}
      (hx : (takeLock node ownerId deep seconds).Returns db lock db') : Step db db'
  | refresh {db db' : Db} {token : Uuid} {node : Node} {seconds : Nat} {lock : Option Lock}
      (hx : (refresh token node seconds).Returns db lock db') : Step db db'
  | releaseLock {db db' : Db} {node : Node} {token : Uuid} {released : Bool}
      (hx : (releaseLock node token).Returns db released db') : Step db db'
  | purgeExpired {db db' : Db} (hx : purgeExpired.Returns db () db') : Step db db'
  | ensureRoot {db db' : Db} {ownerId : Uuid} {quota : Int} {root : Node}
      (hx : (ensureRoot ownerId quota).Returns db root db') : Step db db'
  | createDirectories {db db' : Db} {root folder : Node} {segments : List NodeName}
      (hroot : db.liveNode root.id = some root)
      (hx : (createDirectories root.ownerId root segments).Returns db folder db') : Step db db'
  | registerBlob {db db' : Db} {hash : BlobHash} {size : Nat}
      (hx : (registerBlob hash size).Returns db () db') : Step db db'
  | putFile {db db' : Db} {parent node : Node} {name : NodeName} {hash : BlobHash} {size : Nat}
      {versionsKept : Int} (hparent : db.liveNode parent.id = some parent)
      (hdir : parent.isDirectory = true)
      (hx : (putFile parent.ownerId parent name hash size versionsKept).Returns db node db') :
      Step db db'
  | restoreVersion {db db' : Db} {node parent restored : Node} {name : NodeName} {id : Uuid}
      {versionsKept : Int} (hnode : db.liveNode node.id = some node)
      (hparent : db.liveNode parent.id = some parent) (hdir : parent.isDirectory = true)
      (hx : (restoreVersion node parent name id versionsKept).Returns db restored db') : Step db db'
  | copyTree {db db' : Db} {source parent copy : Node} {name : NodeName}
      (hsource : LookedUp db source) (hparent : db.liveNode parent.id = some parent)
      (hx : (copyTree parent.ownerId source parent name).Returns db copy db') : Step db db'
  | rename {db db' : Db} {node parent moved : Node} {name : NodeName}
      (hnode : db.liveNode node.id = some node) (hparent : db.liveNode parent.id = some parent)
      (howner : parent.ownerId = node.ownerId)
      (hx : (rename node parent name).Returns db moved db') : Step db db'
  | send {db db' : Db} {node : Node} (hnode : db.liveNode node.id = some node)
      (hchild : node.parentId ≠ none) (hx : (send node).Returns db () db') : Step db db'
  | restore {db db' : Db} {ownerId id : Uuid} {node : Node}
      (hx : (restore ownerId id).Returns db node db') : Step db db'
  | purge {db db' : Db} {ownerId id : Uuid} (hx : (purge ownerId id).Returns db () db') : Step db db'
  | emptyTrash {db db' : Db} {ownerId : Uuid} {purged : Nat}
      (hx : (emptyTrash ownerId).Returns db purged db') : Step db db'
  | expire (db : Db) (retention : Nat) : Step db (expire retention db).2
  | remember {db db' : Db} {source thumbnail : BlobHash} {edge : Nat}
      (hx : (remember source edge thumbnail).Returns db () db') : Step db db'
  | forgetOrphans {db db' : Db} (hx : forgetOrphans.Returns db () db') : Step db db'
  | sweepBlob {db db' : Db} {hash : BlobHash} {grace : Nat}
      (hx : (sweepBlob hash grace).Returns db () db') : Step db db'
  | removeAccount {db db' : Db} {id : Uuid} {receiver : Option Uuid} {quota : Int}
      (hother : receiver ≠ some id)
      (hx : (removeAccount id receiver quota).Returns db () db') : Step db db'

/-- Writes to accounts, grants and locks. -/
structure Aside (s s' : Store) : Prop where
  nodes : s'.nodes = s.nodes
  versions : s'.versions = s.versions
  thumbnails : s'.thumbnails = s.thumbnails
  blobs : s'.blobs = s.blobs
  quotas : s'.quotas = s.quotas
  now : s'.now = s.now

instance : IsPreorder Store Aside where
  refl _ := ⟨rfl, rfl, rfl, rfl, rfl, rfl⟩
  trans _ _ _ h h' := ⟨h'.nodes.trans h.nodes, h'.versions.trans h.versions,
    h'.thumbnails.trans h.thumbnails, h'.blobs.trans h.blobs, h'.quotas.trans h.quotas,
    h'.now.trans h.now⟩

theorem Aside.sane (h : Aside db.toStore db'.toStore) (hs : Sane db.toStore) : Sane db'.toStore :=
  hs.frame h.nodes h.versions h.thumbnails h.blobs h.quotas h.now.symm.le

theorem aside_fresh : Keeps Aside fresh := keeps_fresh fun _ => ⟨rfl, rfl, rfl, rfl, rfl, rfl⟩

theorem aside_createUser {email displayName : Str} {mayWriteRole : Bool} :
    Keeps Aside (createUser email displayName mayWriteRole) := by
  refine keeps_bind aside_fresh fun id => keeps_bind (keeps_mapViolated ?_) fun _ => keeps_pure
  refine keeps_insertRow fun s s' h => ?_
  obtain ⟨users, -, rfl⟩ := Option.map_eq_some_iff.mp h
  exact ⟨rfl, rfl, rfl, rfl, rfl, rfl⟩

theorem aside_setDisabled {disabled : Bool} : Keeps Aside (setDisabled id disabled) :=
  keeps_bind (keeps_execute fun _ => ⟨rfl, rfl, rfl, rfl, rfl, rfl⟩) fun _ =>
    keeps_bind keeps_query fun _ => keeps_orFail

theorem aside_setRole {mayWriteRole : Bool} : Keeps Aside (setRole id mayWriteRole) :=
  keeps_bind (keeps_execute fun _ => ⟨rfl, rfl, rfl, rfl, rfl, rfl⟩) fun _ =>
    keeps_bind keeps_query fun _ => keeps_orFail

theorem aside_takeLock {deep : Bool} {seconds : Nat} :
    Keeps Aside (takeLock node ownerId deep seconds) := by
  refine keeps_bind (keeps_execute fun _ => ⟨rfl, rfl, rfl, rfl, rfl, rfl⟩) fun _ =>
    keeps_bind aside_fresh fun token => keeps_bind (keeps_mapViolated ?_) fun _ =>
      keeps_bind keeps_query fun _ => keeps_orFail
  refine keeps_insertRow fun s s' h => ?_
  obtain ⟨locks, -, rfl⟩ := Option.map_eq_some_iff.mp h
  exact ⟨rfl, rfl, rfl, rfl, rfl, rfl⟩

theorem aside_refresh {token : Uuid} {seconds : Nat} : Keeps Aside (refresh token node seconds) :=
  keeps_bind keeps_query fun _ => keeps_bind (keeps_execute fun _ =>
    ⟨rfl, rfl, rfl, rfl, rfl, rfl⟩) fun _ => keeps_query

theorem aside_releaseLock {token : Uuid} : Keeps Aside (releaseLock node token) :=
  keeps_bind keeps_query fun _ => keeps_bind (keeps_execute fun _ =>
    ⟨rfl, rfl, rfl, rfl, rfl, rfl⟩) fun _ => keeps_pure

theorem aside_purgeExpired : Keeps Aside purgeExpired :=
  keeps_execute fun _ => ⟨rfl, rfl, rfl, rfl, rfl, rfl⟩

theorem aside_setEmail {email : Str} (hx : (setEmail id email).Returns db user db') :
    Aside db.toStore db'.toStore := by
  unfold setEmail at hx
  simp only [bind_returns, read_returns, orFail_returns, mapViolated_returns, write_returns,
    pure_returns] at hx
  obtain ⟨_, _, ⟨rfl, rfl⟩, account, _, ⟨-, rfl⟩, _, m, hm, _, _, hre, -, rfl⟩ := hx
  have hsame := keeps_forEach (fun _ => regranted_reassignOne) _ (reassign_returns.mp hre)
  rw [hsame, hm]
  exact ⟨rfl, rfl, rfl, rfl, rfl, rfl⟩

/-- **One step keeps what holds between two transactions.** -/
theorem step_sane (h : Step db db') (hs : Sane db.toStore) : Sane db'.toStore := by
  cases h with
  | tick hnow heq =>
    exact hs.frame (by rw [heq]) (by rw [heq]) (by rw [heq]) (by rw [heq]) (by rw [heq])
      (by rw [heq]; exact hnow)
  | createUser hx => exact (aside_createUser hx).sane hs
  | setDisabled hx => exact (aside_setDisabled hx).sane hs
  | setRole hx => exact (aside_setRole hx).sane hs
  | setEmail hx => exact (aside_setEmail hx).sane hs
  | setQuota hx => exact setQuota_sane hs hx
  | give hnode hx =>
    obtain ⟨-, -, -, grants, -, -, -, heq⟩ := give_returns (liveNode_eq_some.mp hnode).1 hx
    have haside : Aside db.toStore db'.toStore := by
      rw [heq]
      exact ⟨rfl, rfl, rfl, rfl, rfl, rfl⟩
    exact haside.sane hs
  | withdraw hx =>
    have haside : Aside db.toStore db'.toStore := by
      rw [withdraw_returns hx]
      exact ⟨rfl, rfl, rfl, rfl, rfl, rfl⟩
    exact haside.sane hs
  | takeLock hx => exact (aside_takeLock hx).sane hs
  | refresh hx => exact (aside_refresh hx).sane hs
  | releaseLock hx => exact (aside_releaseLock hx).sane hs
  | purgeExpired hx => exact (aside_purgeExpired hx).sane hs
  | ensureRoot hx => exact ensureRoot_sane hs hx
  | createDirectories hroot hx =>
    obtain ⟨hfind, hlive⟩ := liveNode_eq_some.mp hroot
    exact createDirectories_sane hs hfind hlive hx
  | registerBlob hx => exact registerBlob_sane hs hx
  | putFile hparent hdir hx =>
    obtain ⟨hfind, hlive⟩ := liveNode_eq_some.mp hparent
    exact putFile_sane hs hfind hlive hdir hx
  | restoreVersion hnode hparent hdir hx =>
    obtain ⟨hfind, hlive⟩ := liveNode_eq_some.mp hnode
    obtain ⟨hpfind, hplive⟩ := liveNode_eq_some.mp hparent
    exact restoreVersion_sane hs hfind hlive hpfind hplive hdir hx
  | copyTree hsource hparent hx =>
    obtain ⟨row, hrow, hsame⟩ := hsource
    obtain ⟨hpfind, hplive⟩ := liveNode_eq_some.mp hparent
    refine copyTree_sane hs ⟨row, (liveNode_eq_some.mp hrow).1, ?_⟩ hpfind hplive hx
    rw [hsame]
  | rename hnode hparent howner hx =>
    obtain ⟨hfind, hlive⟩ := liveNode_eq_some.mp hnode
    obtain ⟨hpfind, hplive⟩ := liveNode_eq_some.mp hparent
    exact rename_sane hs hfind hlive hpfind hplive howner hx
  | send hnode hchild hx =>
    obtain ⟨hfind, hlive⟩ := liveNode_eq_some.mp hnode
    exact send_sane hs hfind hlive hchild hx
  | restore hx => exact restore_sane hs hx
  | purge hx => exact purge_sane hs hx
  | emptyTrash hx => exact emptyTrash_sane hs hx
  | expire retention => exact expire_sane hs retention
  | remember hx => exact remember_sane hs hx
  | forgetOrphans hx => exact forgetOrphans_sane hs hx
  | sweepBlob hx => exact sweepBlob_sane hs hx
  | removeAccount hother hx => exact removeAccount_sane hs hother hx

/-- Tables without a row. -/
def noRows (now : Nat) : Db where
  users := .empty
  nodes := .empty
  blobs := .empty
  versions := .empty
  thumbnails := .empty
  quotas := .empty
  grants := .empty
  locks := .empty
  now := now
  next := 1
  sound := by
    intro c
    cases c <;> simp [Store.Holds, Table.empty]

/-- What a run of the service from empty tables reaches. -/
inductive Reached : Db → Prop
  | start (now : Nat) : Reached (noRows now)
  | step {db db' : Db} (h : Reached db) (hstep : Step db db') : Reached db'

theorem noRows_sane (now : Nat) : Sane (noRows now).toStore where
  forest := wellFormed_empty
  books := ⟨fun _ => rfl, fun _ => rfl⟩
  backed := ⟨(fun hrow => nomatch hrow), fun hv _ => nomatch hv⟩
  marked _ hb := absurd hb List.not_mem_nil
  dated := ⟨(fun hrow _ => nomatch hrow), fun hrow _ _ _ _ => nomatch hrow⟩
  named hrow _ := nomatch hrow

/-- **What holds after every run.** -/
theorem Reached.sane (h : Reached db) : Sane db.toStore := by
  induction h with
  | start now => exact noRows_sane now
  | step _ hstep ih => exact step_sane hstep ih

/-! ## A run -/

/-- What `x` leaves. -/
def ran {α : Type} (x : Tx α) (db : Db) : Db :=
  match x db with
  | .ok (_, db') => db'
  | .error _ => db

/-- Whether `x` is committed. -/
def commits {α : Type} (x : Tx α) (db : Db) : Bool :=
  match x db with
  | .ok _ => true
  | .error _ => false

theorem returns_ran {α : Type} {x : Tx α} (h : commits x db = true) :
    ∃ a, x.Returns db a (ran x db) := by
  unfold commits at h
  unfold Returns ran
  split at h
  · rename_i p hx
    exact ⟨p.1, by rw [hx]⟩
  · cases h

def firstBytes : BlobHash := ⟨1⟩

def otherBytes : BlobHash := ⟨2⟩

def adasUser : User := ⟨1, "ada@x.io".toList, "Ada".toList, true, true⟩

def adasRoot : Node := ⟨3, 1, none, [], .directory, .directory 2, none⟩

def adasFolder : Node := ⟨7, 1, some 3, "d".toList, .directory, .directory 6, none⟩

def noteName : NodeName := ⟨"a".toList, by decide⟩

def docsName : NodeName := ⟨"d".toList, by decide⟩

theorem Reached.ran {α : Type} {x : Tx α} (h : Reached db) (hc : commits x db = true)
    (hstep : ∀ {a db'}, x.Returns db a db' → Step db db') : Reached (ran x db) := by
  obtain ⟨_, hx⟩ := returns_ran hc
  exact h.step (hstep hx)

/-- An account with its root. -/
def signedUp : Db :=
  ran (ensureRoot 1 100) <| ran (createUser "ada@x.io".toList "Ada".toList true) (noRows 0)

/-- It has overwritten a file, and made a folder. -/
def written : Db :=
  ran (createDirectories 1 adasRoot [docsName]) <|
    ran (putFile 1 adasRoot noteName otherBytes 5 2) <|
      ran (putFile 1 adasRoot noteName firstBytes 4 2) signedUp

/-- The folder is in the trash, with a file in it. -/
def discarded : Db :=
  ran (send adasFolder) <| ran (putFile 1 adasFolder noteName firstBytes 4 2) written

theorem reached_signedUp : Reached signedUp :=
  ((Reached.start 0).ran (by decide +kernel) .createUser).ran (by decide +kernel) .ensureRoot

theorem reached_written : Reached written := by
  have hfile : ∀ {hash : BlobHash} {size : Nat} {node : Node} {db db' : Db},
      db.liveNode adasRoot.id = some adasRoot →
      (putFile 1 adasRoot noteName hash size 2).Returns db node db' → Step db db' :=
    fun hroot hx => Step.putFile hroot rfl hx
  refine ((reached_signedUp.ran (by decide +kernel) (hfile (by decide +kernel))).ran
    (by decide +kernel) (hfile (by decide +kernel))).ran (by decide +kernel) fun hx => ?_
  have hroot : (ran (putFile 1 adasRoot noteName otherBytes 5 2) <|
      ran (putFile 1 adasRoot noteName firstBytes 4 2) signedUp).liveNode adasRoot.id =
        some adasRoot := by decide +kernel
  exact .createDirectories hroot hx

theorem reached_discarded : Reached discarded := by
  have hfolder : written.liveNode adasFolder.id = some adasFolder := by decide +kernel
  have hstill : (ran (putFile 1 adasFolder noteName firstBytes 4 2) written).liveNode
      adasFolder.id = some adasFolder := by decide +kernel
  exact (reached_written.ran (by decide +kernel) fun hx => .putFile hfolder rfl hx).ran
    (by decide +kernel) fun hx => .send hstill (by decide) hx

/-! ## After every run -/

/-- **The counters are what `check.rs` recomputes**, after every run. -/
theorem books_kept (h : Reached db) :
    (∀ b ∈ db.blobs.rows, b.refCount = db.references b.hash ∧
      (b.unreferencedSince.isSome = true ↔ b.refCount = 0)) ∧
    ∀ q ∈ db.quotas.rows, q.bytesUsed = db.usage q.ownerId := by
  have hs := h.sane
  refine ⟨fun b hb => ⟨?_, hs.marked b hb (Option.some_ne_none _)⟩, fun q hq => ?_⟩
  · have hcount : db.refCount b.hash = b.refCount :=
      Table.value_of_find (Table.mem_iff_find.mp hb)
    have hbook := hs.books.refCount b.hash
    omega
  · have hused : db.bytesUsed q.ownerId = q.bytesUsed :=
      Table.value_of_find (Table.mem_iff_find.mp hq)
    have hbook := hs.books.bytesUsed q.ownerId
    omega

theorem books_kept_discarded :
    (∀ b ∈ discarded.blobs.rows, b.refCount = discarded.references b.hash ∧
      (b.unreferencedSince.isSome = true ↔ b.refCount = 0)) ∧
    ∀ q ∈ discarded.quotas.rows, q.bytesUsed = discarded.usage q.ownerId :=
  books_kept reached_discarded

/-- **A trashed node is in one batch that is listed.** -/
theorem WellFormed.listed_once (hw : WellFormed db.nodes) (hrow : db.nodes.find id = some row)
    (hdead : row.live = false) :
    ∃! entry, (∃ ownerId, entry ∈ db.trashOf ownerId) ∧ InBatch db.nodes id entry.id := by
  have hne : row.trashed ≠ none := by
    intro hnone
    rw [Node.live, hnone] at hdead
    cases hdead
  obtain ⟨d, hd⟩ := Option.ne_none_iff_exists'.mp hne
  have hb : row.trashRoot = some d.root := by rw [Node.trashRoot, hd, Option.map_some]
  obtain ⟨hup, root, hroot, hself⟩ := hw.inBatch hrow hb
  have hid : root.id = d.root := Table.find_key hroot
  refine ⟨root, ⟨⟨root.ownerId, mem_trashOf.mpr ⟨hid ▸ hroot, rfl, hid ▸ hself⟩⟩,
    hid ▸ hup⟩, ?_⟩
  rintro other ⟨⟨o, hlisted⟩, hother⟩
  obtain ⟨hfind, -, hroot'⟩ := mem_trashOf.mp hlisted
  have hsame := hother.trashRoot hrow hfind
  rw [hroot', hb] at hsame
  have hkey : other.id = d.root := Option.some.inj hsame
  rw [hkey, hroot] at hfind
  exact (Option.some.inj hfind).symm

/-- **The tree and the trash**, after every run. -/
theorem forest_kept (h : Reached db) :
    (∀ row ∈ db.nodes.rows, ∃ root ∈ db.nodes.rows, AtOrBelow db.nodes row.id root.id ∧
      root.parentId = none ∧ root.ownerId = row.ownerId ∧
        ∀ r ∈ db.nodes.rows, r.parentId = none → r.ownerId = row.ownerId → r = root) ∧
    (∀ n p, parentOf db.nodes n = some p → ¬ AtOrBelow db.nodes p n) ∧
    (∀ row ∈ db.nodes.rows, ∀ above ∈ db.nodes.rows, AtOrBelow db.nodes row.id above.id →
      above.ownerId = row.ownerId) ∧
    (∀ row ∈ db.nodes.rows, row.live = true → ∀ p, row.parentId = some p →
      ∃ above, db.liveNode p = some above ∧ above.isDirectory = true) ∧
    (∀ row ∈ db.nodes.rows, ∀ other ∈ db.nodes.rows, row.live = true → other.live = true →
      row.parentId ≠ none → row.parentId = other.parentId → row.name = other.name → row = other) ∧
    ∀ row ∈ db.nodes.rows, row.live = false →
      ∃! entry, (∃ ownerId, entry ∈ db.trashOf ownerId) ∧ InBatch db.nodes row.id entry.id := by
  have hw := h.sane.forest
  refine ⟨fun row hmem => ?_, fun n p hp hup => (hw.grounded n).not_up_parent hp hup,
    fun row hmem above habove hup => ?_, fun row hmem hlive p hp => ?_,
    fun row hmem other hother hlive holive hne hp hname => ?_, fun row hmem hdead => ?_⟩
  · obtain ⟨top, hup, htop⟩ := hw.grounded row.id
    have hrow := Table.mem_iff_find.mp hmem
    have hsome : ∃ root, db.nodes.find top = some root := by
      rcases hup.cases_tail with rfl | ⟨c, -, hc⟩
      · exact ⟨row, hrow⟩
      · obtain ⟨r, hr, hp⟩ := find_of_parentOf hc
        obtain ⟨above, habove, -⟩ := hw.parent hr hp
        exact ⟨above, habove⟩
    obtain ⟨root, hroot⟩ := hsome
    obtain rfl := Table.find_key hroot
    rw [parentOf_of_find hroot] at htop
    have howner := (hw.owner_above hrow hup hroot).symm
    refine ⟨root, Table.find_mem hroot, hup, htop, howner, fun r hr hp ho => ?_⟩
    have hlive := (hw.root (Table.mem_iff_find.mp hr) hp).1
    exact Table.eq_of_key hr (Table.find_mem hroot) (db.sound .nodesSingleRootPerOwner r hr root
      (Table.find_mem hroot) hlive (hw.root hroot htop).1 hp htop (ho.trans howner.symm))
  · exact (hw.owner_above (Table.mem_iff_find.mp hmem) hup (Table.mem_iff_find.mp habove)).symm
  · obtain ⟨above, habove, hdir, -, hl⟩ := hw.parent (Table.mem_iff_find.mp hmem) hp
    exact ⟨above, liveNode_eq_some.mpr ⟨habove, hl hlive⟩, hdir⟩
  · exact Table.eq_of_key hmem hother (db.sound .nodesUniqueNamePerParent row hmem other hother
      hlive holive (Option.isSome_iff_ne_none.mpr hne) hp hname)
  · exact hw.listed_once (Table.mem_iff_find.mp hmem) hdead

theorem forest_kept_discarded :
    (∃ row ∈ discarded.nodes.rows, row.live = false) ∧
    ∀ row ∈ discarded.nodes.rows, row.live = false → ∃! entry,
      (∃ ownerId, entry ∈ discarded.trashOf ownerId) ∧
        InBatch discarded.nodes row.id entry.id :=
  ⟨by decide +kernel, (forest_kept reached_discarded).2.2.2.2.2⟩

end Stashden.Api
