import Stashden.Api.History

/-!
# Content overwritten and brought back (`api/src/versions.rs`, `api/src/routes/versions.rs`)

No version is empty in any state a run reaches (`Reached.filled`), since `put_file` keeps only content
it has replaced. `written_history` says what a sequence of writes leaves of a file's history, and
`version_restored` what bringing a version back does: it changes places with the content.
-/

namespace Stashden.Api

open Lib Stashden.Core Tx

variable {s s' : Store} {db db' m : Db} {ownerId nodeId id : Uuid} {hash : BlobHash}
  {size : Nat} {used max versionsKept quota : Int} {held : List Version}
  {parent node old source : Node} {name : NodeName} {u : Unit} {user : User}

/-! ## No version is empty -/

/-- Every version holds something. -/
def Filled (s : Store) : Prop := ∀ v ∈ s.versions.rows, 0 < v.size

/-- A version is new only of content that is not empty. -/
def Sifted (s s' : Store) : Prop := ∀ v ∈ s'.versions.rows, v ∈ s.versions.rows ∨ 0 < v.size

theorem Sifted.filled (h : Sifted s s') (hs : Filled s) : Filled s' := fun v hv =>
  (h v hv).elim (hs v) id

theorem sifted_same (h : s'.versions = s.versions) : Sifted s s' := fun _ hv => Or.inl (h ▸ hv)

instance : IsPreorder Store Sifted where
  refl _ := sifted_same rfl
  trans _ _ _ h h' := fun v hv => (h' v hv).elim (h v) Or.inr

theorem sifted_execute {h : Store → Store} (hh : ∀ s, (h s).versions = s.versions) :
    Keeps Sifted (execute h) := keeps_execute fun s => sifted_same (hh s)

instance : Planting Sifted where
  fresh := keeps_fresh fun _ => sifted_same rfl
  acquire _ := sifted_execute fun _ => rfl
  release _ := sifted_execute fun _ => rfl
  charge _ _ := keeps_bind keeps_query fun _ => keeps_bind (sifted_execute fun _ => rfl) fun _ =>
    keeps_pure
  drop _ := keeps_execute fun _ _ hv => Or.inl (Table.mem_delete.mp hv).1
  nodes _ _ := sifted_same rfl

/-- `put_file` keeps content that is not empty. -/
theorem chargeForPut_versioned {previous : Option (Uuid × BlobHash × Int)}
    (h : (chargeForPut ownerId previous hash size versionsKept).Returns db true db') :
    ∃ p, previous = some p ∧ 0 < p.2.2 := by
  cases previous with
  | none =>
    obtain ⟨_, _, -, h⟩ := bind_returns.mp h
    cases (pure_returns.mp h).1
  | some p =>
    unfold chargeForPut at h
    dsimp only at h
    split_ifs at h with hkept
    · exact ⟨p, rfl, hkept.2.1⟩
    · obtain ⟨_, _, -, h⟩ := bind_returns.mp h
      cases (pure_returns.mp h).1

theorem sifted_keep {bytes : Int} (hbytes : 0 < bytes) : Keeps Sifted (keep nodeId hash bytes) := by
  refine keeps_bind Counting.fresh fun id => keeps_insertRow fun s s' h => ?_
  obtain ⟨versions, hins, rfl⟩ := Option.map_eq_some_iff.mp h
  intro v hv
  change v ∈ versions.rows at hv
  rw [(Table.insert_eq_some hins).2, List.mem_append, List.mem_singleton] at hv
  exact hv.imp_right fun hnew => by rw [hnew]; exact hbytes

theorem sifted_putFile :
    Keeps Sifted (putFile ownerId parent name hash size versionsKept) := by
  intro db node db' h
  obtain ⟨_, m₁, hblob, h⟩ := bind_returns.mp h
  obtain ⟨existing, m₂, hchild, h⟩ := bind_returns.mp h
  obtain ⟨-, rfl⟩ := child_returns.mp hchild
  obtain ⟨-, h⟩ := of_guard h
  obtain ⟨versioned, m₂, hcharge, h⟩ := bind_returns.mp h
  obtain ⟨_, m₃, hacquire, h⟩ := bind_returns.mp h
  obtain ⟨_, m₄, hretire, hstore⟩ := bind_returns.mp h
  have hfirst : Sifted db.toStore m₁.toStore := sifted_same (by rw [execute_returns.mp hblob])
  have hretired : Sifted m₃.toStore m₄.toStore := by
    cases versioned with
    | true =>
      obtain ⟨p, hp, hsize⟩ := chargeForPut_versioned hcharge
      rw [hp] at hretire
      exact keeps_bind (sifted_keep hsize) (fun _ => keeps_pruneBeyond) hretire
    | false =>
      cases hprev : previousOf existing with
      | none =>
        rw [hprev] at hretire
        exact keeps_pure hretire
      | some p =>
        rw [hprev] at hretire
        exact keeps_bind (Counting.release _) (fun _ => keeps_pruneBeyond) hretire
  exact IsTrans.trans _ _ _ hfirst (IsTrans.trans _ _ _ (keeps_chargeForPut hcharge)
    (IsTrans.trans _ _ _ (Counting.acquire _ hacquire)
      (IsTrans.trans _ _ _ hretired (keeps_storeFile hstore))))

theorem sifted_purge : Keeps Sifted (purge ownerId id) :=
  keeps_bind (keeps_bind keeps_query fun _ => keeps_orFail) fun _ => keeps_bind keeps_query fun _ =>
    keeps_bind (keeps_execute fun _ _ hv => Or.inl (Table.mem_delete.mp hv).1) fun _ =>
      keeps_forEach (fun _ => Counting.release _) _

theorem sifted_purges {dues : List (Uuid × Uuid)} (h : Purges dues db db') :
    Sifted db.toStore db'.toStore :=
  h.induct (I := fun m => Sifted db.toStore m.toStore) (refl _) fun hm hp =>
    IsTrans.trans _ _ _ hm (sifted_purge hp)

theorem sifted_insertQuota : KeepsQuota Sifted ownerId quota := sifted_execute fun _ => rfl

theorem sifted_nextFolderName {wanted : Str} {left attempt : Nat} :
    Keeps Sifted (nextFolderName nodeId wanted left attempt) := by
  induction left generalizing attempt with
  | zero => exact keeps_fail
  | succ left ih =>
    refine keeps_bind ?_ fun name => keeps_bind keeps_query fun taken => keeps_ite ih keeps_pure
    unfold parseName
    split
    · exact keeps_pure
    · exact keeps_fail

theorem sifted_handOver {leaving recipient : User} : Keeps Sifted (handOver leaving recipient quota) := by
  refine keeps_bind keeps_query fun oldRoot => ?_
  cases oldRoot with
  | none => exact keeps_pure
  | some oldRoot =>
    exact keeps_bind (keeps_ensureRoot sifted_insertQuota) fun _ => keeps_bind sifted_nextFolderName
      fun _ => keeps_bind keeps_createDirectories fun _ => keeps_bind (sifted_execute fun _ => rfl)
        fun _ => keeps_bind (sifted_execute fun _ => rfl) fun _ => keeps_bind keeps_query fun _ =>
          keeps_chargeQuota

theorem sifted_removeAccount {receiver : Option Uuid} :
    Keeps Sifted (removeAccount id receiver quota) := by
  intro db u db' h
  obtain ⟨leaving, m₁, hleaving, h⟩ := bind_returns.mp h
  obtain ⟨purged, m₂, hempty, h⟩ := bind_returns.mp h
  have hfound : Sifted db.toStore m₁.toStore :=
    keeps_bind keeps_query (fun _ => keeps_orFail) hleaving
  have hrest : Keeps Sifted (do
      handOverTo leaving quota receiver
      let held ← query fun s => s.heldBlobs id
      execute fun s => { s with grants := s.grants.delete (·.grantee = leaving.email) }
      execute fun s => s.deleteUser id
      forEach releaseBlob held) := by
    refine keeps_bind ?_ fun _ => keeps_bind keeps_query fun _ => keeps_bind
      (sifted_execute fun _ => rfl) fun _ => keeps_bind (keeps_execute fun _ _ hv =>
        Or.inl (Table.mem_delete.mp hv).1) fun _ => keeps_forEach (fun _ => Counting.release _) _
    cases receiver with
    | none => exact keeps_pure
    | some recipientId =>
      exact keeps_bind (keeps_bind keeps_query fun _ => keeps_orFail) fun _ =>
        keeps_ite keeps_fail sifted_handOver
  exact IsTrans.trans _ _ _ hfound
    (IsTrans.trans _ _ _ (sifted_purges (emptyTrash_purges hempty)) (hrest h))

theorem sifted_setQuota : Keeps Sifted (setQuota id max) :=
  keeps_ite keeps_fail (keeps_mapViolated (sifted_execute fun _ => rfl))

theorem sifted_remember {source thumbnail : BlobHash} {edge : Nat} :
    Keeps Sifted (remember source edge thumbnail) :=
  keeps_bind keeps_query fun _ => keeps_bind (sifted_execute fun _ => rfl) fun _ =>
    keeps_ite (Counting.acquire _) keeps_pure

theorem sifted_forgetOrphans : Keeps Sifted forgetOrphans :=
  keeps_bind keeps_query fun _ => keeps_bind (sifted_execute fun _ => rfl) fun _ =>
    keeps_forEach (fun _ => Counting.release _) _

/-- **One step keeps no empty version.** -/
theorem step_sifted (h : Step db db') : Sifted db.toStore db'.toStore := by
  cases h with
  | tick hnow heq => exact sifted_same (by rw [heq])
  | createUser hx => exact sifted_same (aside_createUser hx).versions
  | setDisabled hx => exact sifted_same (aside_setDisabled hx).versions
  | setRole hx => exact sifted_same (aside_setRole hx).versions
  | setEmail hx => exact sifted_same (aside_setEmail hx).versions
  | setQuota hx => exact sifted_setQuota hx
  | give hnode hx =>
    obtain ⟨-, -, -, grants, -, -, -, heq⟩ := give_returns (liveNode_eq_some.mp hnode).1 hx
    exact sifted_same (by rw [heq])
  | withdraw hx => exact sifted_same (by rw [withdraw_returns hx])
  | takeLock hx => exact sifted_same (aside_takeLock hx).versions
  | refresh hx => exact sifted_same (aside_refresh hx).versions
  | releaseLock hx => exact sifted_same (aside_releaseLock hx).versions
  | purgeExpired hx => exact sifted_same (aside_purgeExpired hx).versions
  | ensureRoot hx => exact keeps_ensureRoot sifted_insertQuota hx
  | createDirectories hroot hx => exact keeps_createDirectories hx
  | registerBlob hx => exact sifted_same (by rw [execute_returns.mp hx])
  | putFile hparent hdir hx => exact sifted_putFile hx
  | restoreVersion hnode hparent hdir hx =>
    exact keeps_bind keeps_take (fun _ => sifted_putFile) hx
  | copyTree hsource hparent hx => exact keeps_copyTree hx
  | rename hnode hparent howner hx => exact keeps_rename hx
  | send hnode hchild hx => exact keeps_send hx
  | restore hx => exact keeps_restore hx
  | purge hx => exact sifted_purge hx
  | emptyTrash hx => exact sifted_purges (emptyTrash_purges hx)
  | expire retention => exact sifted_purges (expireAll_purges _ db)
  | remember hx => exact sifted_remember hx
  | forgetOrphans hx => exact sifted_forgetOrphans hx
  | sweepBlob hx => exact sifted_same (by rw [execute_returns.mp hx])
  | removeAccount hother hx => exact sifted_removeAccount hx

/-- **No version is empty** in any state a run reaches. -/
theorem Reached.filled (h : Reached db) : Filled db.toStore := by
  induction h with
  | start now => exact fun _ hv => absurd hv List.not_mem_nil
  | step _ hstep ih => exact (step_sifted hstep).filled ih

/-! ## A sequence of writes -/

/-- A content: the hash and the size of a blob. -/
abbrev Content := BlobHash × Nat

/-- What a file holds. -/
def Store.contentOf (s : Store) (id : Uuid) : Option Content :=
  (s.nodes.find id).bind fun n => n.blobHash.map fun hash => (hash, n.size.toNat)

theorem contentOf_file (hfind : s.nodes.find id = some node) (hbody : node.body = .file hash size) :
    s.contentOf id = some (hash, size) := by
  unfold Store.contentOf Node.blobHash Node.size
  rw [hfind, Option.bind_some, hbody]
  rfl

/-- The contents of a file's versions, newest first. -/
def Store.historyOf (s : Store) (id : Uuid) : List (BlobHash × Int) :=
  (s.versionsOf id).map fun v => (v.hash, v.size)

/-- Content that becomes a version where other content replaces it. -/
def replaced (content new : Content) : List (BlobHash × Int) :=
  if 0 < content.2 ∧ content.1 ≠ new.1 then [(content.1, (content.2 : Int))] else []

/-- What the writes of `contents` replace, of a file that holds `content`, newest first. -/
def replacedBy (content : Content) : List Content → List (BlobHash × Int)
  | [] => []
  | new :: contents => replacedBy new contents ++ replaced content new

/-- A run in which these contents are written to a file, each of them one the account has room for
beside all it stores; between two writes the service goes on, elsewhere. -/
inductive Written (id : Uuid) (versionsKept : Int) : Db → List Content → Db → Prop
  | nil (db : Db) : Written id versionsKept db [] db
  | write {db m db' : Db} {contents : List Content} {parent old node : Node} {name : NodeName}
      {hash : BlobHash} {size : Nat} (hparent : db.liveNode parent.id = some parent)
      (hdir : parent.isDirectory = true) (hold : db.child parent.id name.str = some old)
      (hid : old.id = id)
      (hroom : ∀ q ∈ db.quotas.find parent.ownerId, q.bytesUsed + size ≤ q.bytesMax)
      (hx : (putFile parent.ownerId parent name hash size versionsKept).Returns db node m)
      (h : Written id versionsKept m contents db') :
      Written id versionsKept db ((hash, size) :: contents) db'
  | elsewhere {db m db' : Db} {contents : List Content} (hstep : Step db m)
      (hcontent : m.contentOf id = db.contentOf id) (hversions : m.versionsOf id = db.versionsOf id)
      (h : Written id versionsKept m contents db') : Written id versionsKept db contents db'

theorem take_append_take {α : Type} (n : Nat) (front back : List α) :
    (front ++ back.take n).take n = (front ++ back).take n := by
  rw [List.take_append, List.take_append, List.take_take, Nat.min_eq_left (Nat.sub_le _ _)]

/-- What an earlier content leaves of a later one's history. -/
theorem putFile_history (h : Reached db) (hparent : db.liveNode parent.id = some parent)
    (hold : db.child parent.id name.str = some old)
    (hroom : ∀ q ∈ db.quotas.find parent.ownerId, q.bytesUsed + size ≤ q.bytesMax)
    (hx : (putFile parent.ownerId parent name hash size versionsKept).Returns db node m) :
    ∃ content, db.contentOf old.id = some content ∧ m.contentOf old.id = some (hash, size) ∧
      m.historyOf old.id =
        (replaced content (hash, size) ++ db.historyOf old.id).take versionsKept.toNat := by
  obtain ⟨used, max, hquota, hlow, hwithin⟩ := h.account hparent
  have hfits : used + size ≤ max := hroom _ hquota
  have hmem := (child_eq_some hold).1
  have hfind := Table.mem_iff_find.mp hmem
  obtain ⟨-, ⟨old', hold', hfile, -, hnodes⟩ | ⟨hfree, -⟩⟩ := putFile_nodes hx
  swap
  · rw [hold] at hfree
    cases hfree
  rw [hold] at hold'
  cases hold'
  obtain ⟨oldHash, oldSize, hbody⟩ : ∃ oldHash oldSize, old.body = .file oldHash oldSize := by
    unfold Node.isDirectory at hfile
    split at hfile
    · cases hfile
    · exact ⟨_, _, by assumption⟩
  have hsize : old.size = oldSize := by rw [Node.size, hbody]
  refine ⟨_, contentOf_file hfind hbody, contentOf_file (by
    rw [hnodes, hfind, Option.map_some, if_pos rfl]) rfl, ?_⟩
  · unfold Store.historyOf
    by_cases hkept : 0 < versionsKept ∧ 0 < old.size ∧ oldHash ≠ hash
    · have hspared : spared (max - used) size (db.versionsOf old.id).reverse =
          some (db.versionsOf old.id).reverse := spared_of_fits (by omega)
      obtain ⟨db', id, hx', hversions, -⟩ := putFile_keeps_replaced hold hbody hquota (by omega)
        (hwithin hold) hkept hspared
      rw [← (hx'.unique hx).2, hversions, List.reverse_reverse, List.map_take, List.map_cons, replaced,
        if_pos ⟨by have := hkept.2.1; rw [hsize] at this; exact_mod_cast this, hkept.2.2⟩, hsize]
      rfl
    · obtain ⟨db', hx', hversions, -⟩ := putFile_replaces hold hbody hquota (hwithin hold) hkept
        (show (size : Int) ≤ max - used + old.size by omega)
      rw [← (hx'.unique hx).2, hversions, List.map_take]
      by_cases hzero : versionsKept ≤ 0
      · rw [Int.toNat_of_nonpos hzero, List.take_zero, List.take_zero]
      · rw [replaced, if_neg, List.nil_append]
        rintro ⟨hpos, hne⟩
        exact hkept ⟨not_le.mp hzero, by rw [hsize]; exact_mod_cast hpos, hne⟩

/-- Without a write the history stays. -/
theorem Written.history (hrun : Written id versionsKept db [] db') :
    db'.historyOf id = db.historyOf id := by
  generalize hnone : ([] : List Content) = contents at hrun
  induction hrun with
  | nil => rfl
  | write => cases hnone
  | elsewhere hstep hsame hversions hrun ih =>
    rw [ih hnone]
    unfold Store.historyOf
    rw [hversions]

/-- **The history after a sequence of writes**: the newest `versions_kept` of the contents that were
not empty and that other content replaced, and then those of the history before. -/
theorem written_history {contents : List Content} (h : Reached db)
    (hrun : Written id versionsKept db contents db') {content : Content}
    (hcontent : db.contentOf id = some content) (hne : contents ≠ []) :
    db'.historyOf id =
      (replacedBy content contents ++ db.historyOf id).take versionsKept.toNat := by
  induction hrun generalizing content with
  | nil => exact absurd rfl hne
  | @write db m db' contents parent old node name hash size hparent hdir hold hid hroom hx hrun ih =>
    subst hid
    obtain ⟨content', hcontent', hnew, hhistory⟩ := putFile_history h hparent hold hroom hx
    rw [hcontent] at hcontent'
    cases hcontent'
    rw [replacedBy, List.append_assoc]
    by_cases hlast : contents = []
    · subst hlast
      rw [replacedBy, List.nil_append, ← hhistory]
      exact hrun.history
    · rw [ih (h.step (.putFile hparent hdir hx)) hnew hlast, hhistory, take_append_take]
  | @elsewhere db m db' contents hstep hsame hversions hrun ih =>
    have hhistory : m.historyOf id = db.historyOf id := by
      unfold Store.historyOf
      rw [hversions]
    rw [← hhistory]
    exact ih (h.step hstep) (hsame.trans hcontent) hne

/-! ## A version brought back -/

/-- A live row is what its name finds. -/
theorem child_of_row {row : Node} {p : Uuid} (hmem : row ∈ db.nodes.rows)
    (hp : row.parentId = some p) (hlive : row.live = true) : db.child p row.name = some row := by
  cases hfound : db.child p row.name with
  | none =>
    rw [child_eq_none hfound row hmem hp rfl] at hlive
    cases hlive
  | some found =>
    obtain ⟨hmem', hp', hname, hlive'⟩ := child_eq_some hfound
    have hid := db.sound .nodesUniqueNamePerParent found hmem' row hmem hlive' hlive
      (by rw [hp']; rfl) (hp'.trans hp.symm) hname
    rw [Table.eq_of_key hmem' hmem hid]

theorem versionsOf_distinct (s : Store) (nodeId : Uuid) : (s.versionsOf nodeId).Nodup :=
  List.Nodup.of_map Version.id (versionsOf_nodup s nodeId)

theorem filter_eq_erase {v : Version} (hv : v ∈ s.versionsOf nodeId) :
    ((s.versionsOf nodeId).filter fun w => w.id ∉ [v.id]) = (s.versionsOf nodeId).erase v := by
  rw [(versionsOf_distinct s nodeId).erase_eq_filter]
  refine List.filter_congr fun w hw => ?_
  show decide (w.id ∉ [v.id]) = !decide (w = v)
  rw [← decide_not, decide_eq_decide, List.mem_singleton]
  refine not_congr ⟨fun hid => ?_, fun hsame => congrArg Version.id hsame⟩
  exact Table.eq_of_key (mem_versionsOf.mp hw).1 (mem_versionsOf.mp hv).1 hid

theorem sizes_erase {v : Version} (hv : v ∈ held) : sizes held = v.size + sizes (held.erase v) :=
  ((List.perm_cons_erase hv).map Version.size).sum_eq

/-- **A version is taken out**: its bytes are given back. -/
theorem take_stands {base : Store} {v : Version}
    (h : Stands base ownerId nodeId used max held db.toStore) (hv : v ∈ held)
    (hlow : 0 ≤ used - v.size) (hmax : used - v.size ≤ max) :
    ∃ db', (take ownerId nodeId v.id).Returns db v db' ∧
      Stands base ownerId nodeId (used - v.size) max (held.erase v) db'.toStore := by
  have hv' : v ∈ db.versionsOf nodeId := h.held.symm ▸ hv
  have hmem := mem_versionsOf.mp hv'
  obtain ⟨m, hm⟩ := deleteVersions_succeeds [v.id] db
  obtain ⟨m', hm'⟩ := releaseBlob_succeeds m v.hash
  have hs := execute_returns.mp hm
  have hversions : m.versions = db.versions.delete fun w => w.id ∈ [v].map Version.id := by
    rw [hs]
    rfl
  have hdeleted : Stands base ownerId nodeId used max (held.erase v) m.toStore := by
    refine ⟨by rw [hs]; exact h.quota, ?_, fun k hk => ?_, by rw [hs]; exact h.nodes⟩
    · rw [versionsOf_delete hversions, List.map_singleton, filter_eq_erase hv', h.held]
    · refine (versionsOf_dropped_other (fun w hw => ?_) hversions hk).trans (h.others k hk)
      rw [List.mem_singleton.mp hw]
      exact hv'
  obtain ⟨db', hx, h'⟩ := chargeQuota_stands (-v.size) (releaseBlob_stands hdeleted hm')
    (Or.inr ⟨by omega, by omega⟩)
  have hfound : (db.versions.find v.id).filter (fun w => decide (w.nodeId = nodeId)) = some v := by
    rw [Table.mem_iff_find.mp hmem.1, Option.filter_some, if_pos (decide_eq_true hmem.2)]
  exact ⟨db', bind_returns.mpr ⟨_, db, query_returns.mpr ⟨rfl, rfl⟩, bind_returns.mpr
    ⟨v, db, orFail_returns.mpr ⟨hfound, rfl⟩, bind_returns.mpr ⟨(), m, hm, bind_returns.mpr
      ⟨(), m', hm', bind_returns.mpr ⟨(), db', hx, pure_returns.mpr ⟨rfl, rfl⟩⟩⟩⟩⟩⟩, h'⟩

/-- What a file is after content of a version is put. -/
def Node.filled (node : Node) (v : Version) : Node :=
  { node with body := .file v.hash v.size.toNat, etag := .file v.hash }

/-- **A version and the content change places**, and nothing else is changed. -/
structure Swapped (db db' : Store) (node : Node) (v new : Version) : Prop where
  content : db'.nodes.find node.id = some (node.filled v)
  nodes : ∀ k, k ≠ node.id → db'.nodes.find k = db.nodes.find k
  history : db'.versionsOf node.id = new :: (db.versionsOf node.id).erase v
  versions : ∀ k, k ≠ node.id → db'.versionsOf k = db.versionsOf k
  refCount : ∀ b, db'.refCount b = db.refCount b
  bytesUsed : ∀ o, db'.bytesUsed o = db.bytesUsed o

/-! ### What is counted -/

/-- The thumbnails and the limits as they were. -/
structure SameLimits (s s' : Store) : Prop where
  thumbnails : s'.thumbnails = s.thumbnails
  limits : ∀ o, (s'.quotas.find o).map Quota.bytesMax = (s.quotas.find o).map Quota.bytesMax

theorem sameLimits_of_quotas (hthumbnails : s'.thumbnails = s.thumbnails)
    (hquotas : s'.quotas = s.quotas) : SameLimits s s' := ⟨hthumbnails, fun o => by rw [hquotas]⟩

instance : IsPreorder Store SameLimits where
  refl _ := sameLimits_of_quotas rfl rfl
  trans _ _ _ h h' := ⟨h'.thumbnails.trans h.thumbnails, fun o => (h'.limits o).trans (h.limits o)⟩

instance : Planting SameLimits where
  fresh := keeps_fresh fun _ => sameLimits_of_quotas rfl rfl
  acquire _ := keeps_execute fun _ => sameLimits_of_quotas rfl rfl
  release _ := keeps_execute fun _ => sameLimits_of_quotas rfl rfl
  charge _ _ := by
    refine keeps_bind keeps_query fun _ => keeps_bind (keeps_execute fun s => ⟨rfl, fun o => ?_⟩)
      fun _ => keeps_pure
    dsimp only
    rw [Table.find_update, Option.map_map]
    refine Option.map_congr fun q _ => ?_
    rw [Function.comp_apply]
    split_ifs <;> rfl
  drop _ := keeps_execute fun _ => sameLimits_of_quotas rfl rfl
  nodes _ _ := sameLimits_of_quotas rfl rfl

theorem sameLimits_insertVersion : KeepsVersion SameLimits nodeId := fun _ _ _ =>
  keeps_insertRow fun _ _ h => by
    obtain ⟨_, -, rfl⟩ := Option.map_eq_some_iff.mp h
    exact sameLimits_of_quotas rfl rfl

theorem sameLimits_putFile :
    Keeps SameLimits (putFile ownerId parent name hash size versionsKept) :=
  keeps_bind (keeps_execute fun _ => sameLimits_of_quotas rfl rfl) fun _ =>
    keeps_bind keeps_query fun _ => keeps_ite keeps_fail <| keeps_bind keeps_chargeForPut fun _ =>
      keeps_bind (Counting.acquire _) fun _ =>
        keeps_bind (keeps_retire fun _ _ => sameLimits_insertVersion) fun _ => keeps_storeFile

theorem sameLimits_restoreVersion :
    Keeps SameLimits (restoreVersion node parent name id versionsKept) :=
  keeps_bind keeps_take fun _ => sameLimits_putFile

/-- The versions of a store whose history of one file has one exchanged. -/
theorem versions_exchanged {v new : Version} (hv : v ∈ s.versionsOf nodeId)
    (hhistory : s'.versionsOf nodeId = new :: (s.versionsOf nodeId).erase v)
    (hothers : ∀ k, k ≠ nodeId → s'.versionsOf k = s.versionsOf k) :
    s'.versions.rows.Perm (new :: s.versions.rows.erase v) := by
  have hdistinct := rows_nodup s.versions
  have hnew : new ∈ s'.versionsOf nodeId := by
    rw [hhistory]
    exact List.mem_cons_self
  have hof := (mem_versionsOf.mp hnew).2
  obtain ⟨hrow, hvof⟩ := mem_versionsOf.mp hv
  have hfresh : new ∉ s.versions.rows.erase v := by
    rw [hdistinct.mem_erase_iff]
    rintro ⟨hne, hold⟩
    have hnodup := versionsOf_distinct s' nodeId
    rw [hhistory, List.nodup_cons, (versionsOf_distinct s nodeId).mem_erase_iff] at hnodup
    exact hnodup.1 ⟨hne, mem_versionsOf.mpr ⟨hold, hof⟩⟩
  refine (List.perm_ext_iff_of_nodup (rows_nodup s'.versions)
    (List.nodup_cons.mpr ⟨hfresh, hdistinct.erase v⟩)).mpr fun w => ?_
  rw [List.mem_cons, hdistinct.mem_erase_iff]
  have hmem : ∀ t : Store, w ∈ t.versions.rows ↔ w ∈ t.versionsOf w.nodeId := fun t => by
    rw [mem_versionsOf, and_iff_left rfl]
  rw [hmem s', hmem s]
  by_cases hw : w.nodeId = nodeId
  · rw [hw, hhistory, List.mem_cons, (versionsOf_distinct s nodeId).mem_erase_iff]
  · rw [hothers _ hw]
    constructor
    · exact fun h => Or.inr ⟨fun hsame => hw (hsame ▸ hvof), h⟩
    · rintro (rfl | h)
      · exact absurd hof hw
      · exact h.2

theorem total_exchanged {v new : Version} (hv : v ∈ s.versions.rows)
    (hperm : s'.versions.rows.Perm (new :: s.versions.rows.erase v)) (f : Version → Int) :
    s'.versions.total f = s.versions.total f - f v + f new := by
  have hold := ((List.perm_cons_erase hv).map f).sum_eq
  have hnew := (hperm.map f).sum_eq
  rw [List.map_cons, List.sum_cons] at hold hnew
  unfold Table.total
  omega

/-- The nodes of a store in which one has changed. -/
theorem total_changed {t t' : Table Node Node.id} {node node' : Node}
    (hnode : t.find node.id = some node) (hnode' : t'.find node.id = some node')
    (hothers : ∀ k, k ≠ node.id → t'.find k = t.find k) (f : Node → Int) :
    t'.total f = t.total f + (f node' - f node) := by
  have hvalue : ∀ k, t'.value f k = t.value f k + if k ∈ [node.id] then f node' - f node else 0 := by
    intro k
    by_cases hk : k = node.id
    · rw [if_pos (List.mem_singleton.mpr hk), hk, Table.value_of_find hnode,
        Table.value_of_find hnode']
      omega
    · rw [if_neg (mt List.mem_singleton.mp hk), add_zero]
      unfold Table.value
      rw [hothers k hk]
  have hsum := Table.total_add_of_value (List.nodup_singleton node.id) hvalue
  rwa [List.map_singleton, List.sum_singleton] at hsum

section Restore

variable {v : Version} {oldSize : Nat}

/-- **Bringing a version back goes through.** -/
theorem restoreVersion_runs (h : Reached db) (hparent : db.liveNode parent.id = some parent)
    (hold : db.child parent.id name.str = some node) (hbody : node.body = .file hash oldSize)
    (hsize : 0 < oldSize) (hv : v ∈ db.versionsOf node.id) (hne : hash ≠ v.hash)
    (hkept : 0 < versionsKept) (hwithin : (db.versionsOf node.id).length ≤ versionsKept)
    (hused : ∀ q ∈ db.quotas.find parent.ownerId, q.bytesUsed ≤ q.bytesMax) :
    ∃ db' id, (restoreVersion node parent name v.id versionsKept).Returns db (node.filled v) db' ∧
      db'.versionsOf node.id = ⟨id, node.id, hash, oldSize⟩ :: (db.versionsOf node.id).erase v ∧
      ∀ k, k ≠ node.id → db'.versionsOf k = db.versionsOf k := by
  obtain ⟨used, max, hquota, hlow, hbooked⟩ := h.account hparent
  have hmax : used ≤ max := hused _ hquota
  obtain ⟨hmem, hp, -, hlive⟩ := child_eq_some hold
  have howner : parent.ownerId = node.ownerId := by
    obtain ⟨above, habove, -, howner, -⟩ := h.sane.forest.parent (Table.mem_iff_find.mp hmem) hp
    rw [(liveNode_eq_some.mp hparent).1] at habove
    cases habove
    exact howner
  have hnode : node.size = oldSize := by rw [Node.size, hbody]
  have hall := hbooked hold
  have hsplit := sizes_erase hv
  have hv0 := size_nonneg_of_held hv
  have hrest : 0 ≤ sizes ((db.versionsOf node.id).erase v) := sizes_nonneg fun w hw =>
    size_nonneg_of_held (List.mem_of_mem_erase hw)
  obtain ⟨m, htake, hm⟩ := take_stands (stands_of_opened hquota rfl rfl rfl node.id) hv
    (by omega) (by omega)
  have hbytes : ((v.size.toNat : Nat) : Int) = v.size := Int.toNat_of_nonneg hv0
  have hspared : spared (max - (used - v.size)) (v.size.toNat : Nat)
      (m.versionsOf node.id).reverse = some (m.versionsOf node.id).reverse :=
    spared_of_fits (by omega)
  have hkeeps : 0 < versionsKept ∧ 0 < node.size ∧ hash ≠ v.hash := ⟨hkept, by omega, hne⟩
  obtain ⟨db', id, hput, hversions, hothers⟩ := putFile_keeps_replaced
    (by rw [← hold]; unfold Store.child; rw [hm.nodes]) hbody hm.quota (by omega)
    (by rw [hm.held]; omega) hkeeps hspared
  refine ⟨db', id, bind_returns.mpr ⟨v, m, howner ▸ htake, hput⟩, ?_,
    fun k hk => (hothers k hk).trans (hm.others k hk)⟩
  rw [hversions, List.reverse_reverse, hm.held, hnode, List.take_of_length_le]
  rw [List.length_cons, List.length_erase_of_mem hv]
  have hpos := List.length_pos_of_mem hv
  omega

/-- **What a restored version leaves.** -/
theorem restoreVersion_swaps (h : Reached db) (hparent : db.liveNode parent.id = some parent)
    (hdir : parent.isDirectory = true) (hold : db.child parent.id name.str = some node)
    (hbody : node.body = .file hash oldSize) (hv : v ∈ db.versionsOf node.id)
    (hx : (restoreVersion node parent name v.id versionsKept).Returns db (node.filled v) db')
    (hhistory : db'.versionsOf node.id = ⟨id, node.id, hash, oldSize⟩ ::
      (db.versionsOf node.id).erase v)
    (hothers : ∀ k, k ≠ node.id → db'.versionsOf k = db.versionsOf k) :
    Swapped db.toStore db'.toStore node v ⟨id, node.id, hash, oldSize⟩ := by
  obtain ⟨hmem, -, -, hlive⟩ := child_eq_some hold
  have hfind := Table.mem_iff_find.mp hmem
  obtain ⟨hrow, hof⟩ := mem_versionsOf.mp hv
  have hthumbnails := (sameLimits_restoreVersion hx).thumbnails
  have hreached' : Reached db' := h.step (.restoreVersion
    (liveNode_eq_some.mpr ⟨hfind, hlive⟩) hparent hdir hx)
  have hnodes : ∀ k, db'.nodes.find k = (db.nodes.find k).map fun r =>
      if r.id = node.id then { r with body := .file v.hash v.size.toNat, etag := .file v.hash }
      else r := by
    obtain ⟨taken, m, htake, hput⟩ := bind_returns.mp hx
    have htaken := keeps_take (R := Beside) htake
    have hsame : ∀ {str}, m.child parent.id str = db.child parent.id str := by
      intro str
      unfold Store.child
      rw [htaken.nodes]
    obtain ⟨-, ⟨old, hold', -, hfilled, hk⟩ | ⟨hfree, -⟩⟩ := putFile_nodes hput
    · rw [hsame, hold] at hold'
      cases hold'
      have hbody' : Body.file v.hash v.size.toNat = .file taken.hash taken.size.toNat :=
        congrArg Node.body hfilled
      have hetag : Etag.file v.hash = .file taken.hash := congrArg Node.etag hfilled
      intro k
      rw [hk, htaken.nodes, ← hbody', ← hetag]
    · rw [hsame, hold] at hfree
      cases hfree
  have hcontent : db'.nodes.find node.id = some (node.filled v) := by
    rw [hnodes, hfind, Option.map_some, if_pos rfl]
    rfl
  have hstay : ∀ k, k ≠ node.id → db'.nodes.find k = db.nodes.find k := by
    intro k hk
    rw [hnodes]
    cases hr : db.nodes.find k with
    | none => rfl
    | some r => rw [Option.map_some, if_neg fun he => hk ((Table.find_key hr).symm.trans he)]
  have hperm := versions_exchanged hv hhistory hothers
  have hcharged : ∀ o k, db'.chargedTo o k = db.chargedTo o k := by
    intro o k
    unfold Store.chargedTo
    rw [hnodes]
    cases hr : db.nodes.find k with
    | none => rfl
    | some r =>
      rw [Option.map_some, Option.any_some, Option.any_some]
      split_ifs <;> rfl
  refine ⟨hcontent, hstay, hhistory, hothers, fun b => ?_, fun o => ?_⟩
  · have hbefore := h.sane.books.refCount b
    have hafter := hreached'.sane.books.refCount b
    have htotal := total_changed hfind hcontent hstay fun n => if n.blobHash = some b then 1 else 0
    have hversions := total_exchanged hrow hperm fun w => if w.hash = b then 1 else 0
    have hnew : ((if (node.filled v).blobHash = some b then 1 else 0 : Int)) =
        if v.hash = b then 1 else 0 := if_congr Option.some_inj rfl rfl
    have hwas : ((if node.blobHash = some b then 1 else 0 : Int)) = if hash = b then 1 else 0 := by
      rw [Node.blobHash, hbody]
      exact if_congr Option.some_inj rfl rfl
    rw [hnew, hwas] at htotal
    unfold Store.references at hbefore hafter
    rw [htotal, hversions, hthumbnails] at hafter
    dsimp only at hafter
    omega
  · have hbefore := h.sane.books.bytesUsed o
    have hafter := hreached'.sane.books.bytesUsed o
    have htotal := total_changed hfind hcontent hstay fun n =>
      if n.ownerId = o && n.live then n.size else 0
    have hversions := total_exchanged hrow hperm fun w =>
      if db.chargedTo o w.nodeId then w.size else 0
    have hcovers : ∀ k, k = node.id → db.chargedTo o k = (decide (node.ownerId = o) && node.live) := by
      rintro k rfl
      unfold Store.chargedTo
      rw [hfind, Option.any_some]
    have hsize : (node.filled v).size = v.size :=
      Int.toNat_of_nonneg (size_nonneg_of_held hv)
    have hwas : node.size = oldSize := by rw [Node.size, hbody]
    dsimp only at htotal hversions
    rw [show (node.filled v).ownerId = node.ownerId from rfl,
      show (node.filled v).live = node.live from rfl, hsize, hwas] at htotal
    rw [hcovers _ hof, hcovers _ rfl] at hversions
    unfold Store.usage at hbefore hafter
    simp only [hcharged] at hafter
    rw [htotal, hversions] at hafter
    split_ifs at hafter <;> omega

/-- **Bringing back the newest version undoes a restore.** -/
theorem restoreVersion_undone (h : Reached db) (hparent : db.liveNode parent.id = some parent)
    (hdir : parent.isDirectory = true) (hold : db.child parent.id name.str = some node)
    (hbody : node.body = .file hash oldSize) (hv : v ∈ db.versionsOf node.id)
    (hne : hash ≠ v.hash) (hkept : 0 < versionsKept)
    (hwithin : (db.versionsOf node.id).length ≤ versionsKept)
    (hused : ∀ q ∈ db.quotas.find parent.ownerId, q.bytesUsed ≤ q.bytesMax)
    (hx : (restoreVersion node parent name v.id versionsKept).Returns db (node.filled v) db')
    (hswap : Swapped db.toStore db'.toStore node v ⟨id, node.id, hash, oldSize⟩) :
    ∃ db'' id', (restoreVersion (node.filled v) parent name id versionsKept).Returns db'
        ((node.filled v).filled ⟨id, node.id, hash, oldSize⟩) db'' ∧
      Swapped db'.toStore db''.toStore (node.filled v) ⟨id, node.id, hash, oldSize⟩
        ⟨id', node.id, v.hash, v.size⟩ ∧
      db''.contentOf node.id = db.contentOf node.id ∧
      (db''.historyOf node.id).Perm (db.historyOf node.id) := by
  obtain ⟨hmem, hp, hnamed, hlive⟩ := child_eq_some hold
  obtain ⟨hpfind, hplive⟩ := liveNode_eq_some.mp hparent
  have hreached' : Reached db' := h.step (.restoreVersion
    (liveNode_eq_some.mpr ⟨Table.mem_iff_find.mp hmem, hlive⟩) hparent hdir hx)
  have hv0 : 0 < v.size := h.filled v (mem_versionsOf.mp hv).1
  have hapart : parent.id ≠ node.id := by
    intro hsame
    rw [hsame, Table.mem_iff_find.mp hmem] at hpfind
    cases hpfind
    rw [Node.isDirectory, hbody] at hdir
    cases hdir
  have hbytes : ((v.size.toNat : Nat) : Int) = v.size := Int.toNat_of_nonneg hv0.le
  have hparent' : db'.liveNode parent.id = some parent :=
    liveNode_eq_some.mpr ⟨(hswap.nodes _ hapart).trans hpfind, hplive⟩
  have hold' : db'.child parent.id name.str = some (node.filled v) := by
    rw [← hnamed]
    exact child_of_row (Table.find_mem hswap.content) hp hlive
  have hnew : (⟨id, node.id, hash, oldSize⟩ : Version) ∈ db'.versionsOf (node.filled v).id := by
    rw [show (node.filled v).id = node.id from rfl, hswap.history]
    exact List.mem_cons_self
  have hlength : (db'.versionsOf (node.filled v).id).length ≤ versionsKept := by
    rw [show (node.filled v).id = node.id from rfl, hswap.history, List.length_cons,
      List.length_erase_of_mem hv]
    have hpos := List.length_pos_of_mem hv
    omega
  have hused' : ∀ q ∈ db'.quotas.find parent.ownerId, q.bytesUsed ≤ q.bytesMax := by
    obtain ⟨used, max, hquota, -⟩ := h.account hparent
    intro q hq
    have hlimit := (sameLimits_restoreVersion hx).limits parent.ownerId
    have hbooked := hswap.bytesUsed parent.ownerId
    rw [hquota, hq, Option.map_some, Option.map_some, Option.some_inj] at hlimit
    rw [Store.bytesUsed, Store.bytesUsed, Table.value_of_find hq, Table.value_of_find hquota]
      at hbooked
    rw [hlimit, hbooked]
    exact hused _ hquota
  obtain ⟨db'', id', hx', hhistory, hothers⟩ := restoreVersion_runs hreached' hparent' hold'
    (show (node.filled v).body = .file v.hash v.size.toNat from rfl) (by omega) hnew hne.symm hkept
    hlength hused'
  have hswap' := restoreVersion_swaps hreached' hparent' hdir hold' rfl hnew hx' hhistory hothers
  rw [hbytes] at hswap'
  refine ⟨db'', id', hx', hswap', ?_, ?_⟩
  · rw [contentOf_file (Table.mem_iff_find.mp hmem) hbody]
    exact contentOf_file hswap'.content rfl
  · have hheld : db''.versionsOf node.id =
        ⟨id', node.id, v.hash, v.size⟩ :: (db.versionsOf node.id).erase v := by
      rw [show node.id = (node.filled v).id from rfl, hswap'.history,
        show (node.filled v).id = node.id from rfl, hswap.history, List.erase_cons_head]
    unfold Store.historyOf
    rw [hheld, List.map_cons]
    exact ((List.perm_cons_erase hv).map fun w => (w.hash, w.size)).symm

end Restore

/-! ## The history, exactly -/

/-- A new file has no history. -/
theorem putFile_history_new (hfree : db.child parent.id name.str = none)
    (hx : (putFile ownerId parent name hash size versionsKept).Returns db node db') :
    db'.contentOf node.id = some (hash, size) ∧ db'.historyOf node.id = [] := by
  obtain ⟨-, ⟨old, hold, -⟩ | ⟨-, hins, id, hnode⟩⟩ := putFile_nodes hx
  · rw [hfree] at hold
    cases hold
  · have hfind : db'.nodes.find node.id = some node := by rw [Table.find_insert hins, if_pos rfl]
    refine ⟨contentOf_file hfind (by rw [hnode]), ?_⟩
    have hversions : db'.versions = db.versions := by
      obtain ⟨m, -, hsame, -, -, heq⟩ := putFile_opens_new ownerId hash size versionsKept hfree
      obtain ⟨_, m₁, hcharge, hx⟩ := bind_returns.mp (heq.symm.trans hx)
      obtain ⟨_, m₂, hacquire, hx⟩ := bind_returns.mp hx
      obtain ⟨-, nodes, -, hs⟩ := insertNode_returns hx
      rw [hs, execute_returns.mp hacquire, (chargeQuota_ledger (ledger_any _) hcharge).2.versions,
        hsame]
    unfold Store.historyOf
    rw [List.map_eq_nil_iff, List.eq_nil_iff_forall_not_mem]
    intro v hv
    obtain ⟨hrow, hof⟩ := mem_versionsOf.mp hv
    rw [hversions] at hrow
    have hsome := (db.sound .versionsForeign v hrow).1
    rw [hof, (Table.insert_eq_some hins).1] at hsome
    cases hsome

/-- **What a history is.** After any sequence of writes it is the newest `versions_kept` of the
contents that were not empty and that other content replaced. A version brought back changes places
with the content, whatever the limit of the account leaves, and the newest version brought back after
that undoes it. -/
theorem history_exact (h : Reached db) :
    (∀ {id : Uuid} {versionsKept : Int} {contents content db'}, Written id versionsKept db contents db' →
      db.contentOf id = some content → contents ≠ [] →
        db'.historyOf id =
          (replacedBy content contents ++ db.historyOf id).take versionsKept.toNat) ∧
    (∀ {parent node : Node} {name : NodeName} {hash : BlobHash} {size : Nat} {versionsKept : Int}
        {db' : Db},
      db.child parent.id name.str = none →
      (putFile parent.ownerId parent name hash size versionsKept).Returns db node db' →
        db'.contentOf node.id = some (hash, size) ∧ db'.historyOf node.id = []) ∧
    ∀ {parent node : Node} {name : NodeName} {hash : BlobHash} {size : Nat} {versionsKept : Int}
        {v : Version},
      db.liveNode parent.id = some parent → parent.isDirectory = true →
      db.child parent.id name.str = some node → node.body = .file hash size → 0 < size →
      v ∈ db.versionsOf node.id → hash ≠ v.hash → 0 < versionsKept →
      (db.versionsOf node.id).length ≤ versionsKept →
      (∀ q ∈ db.quotas.find parent.ownerId, q.bytesUsed ≤ q.bytesMax) →
        ∃ db' id, (restoreVersion node parent name v.id versionsKept).Returns db (node.filled v)
            db' ∧
          Swapped db.toStore db'.toStore node v ⟨id, node.id, hash, size⟩ ∧
          ∃ db'' id', (restoreVersion (node.filled v) parent name id versionsKept).Returns db'
              ((node.filled v).filled ⟨id, node.id, hash, size⟩) db'' ∧
            Swapped db'.toStore db''.toStore (node.filled v) ⟨id, node.id, hash, size⟩
              ⟨id', node.id, v.hash, v.size⟩ ∧
            db''.contentOf node.id = db.contentOf node.id ∧
            (db''.historyOf node.id).Perm (db.historyOf node.id) := by
  refine ⟨fun hrun hcontent hne => written_history h hrun hcontent hne,
    fun hfree hx => putFile_history_new hfree hx,
    fun {parent node name hash size versionsKept v} hparent hdir hold hbody hsize hv hne hkept
      hwithin hused => ?_⟩
  obtain ⟨db', id, hx, hhistory, hothers⟩ := restoreVersion_runs h hparent hold hbody hsize hv hne
    hkept hwithin hused
  have hswap := restoreVersion_swaps h hparent hdir hold hbody hv hx hhistory hothers
  exact ⟨db', id, hx, hswap, restoreVersion_undone h hparent hdir hold hbody hv hne hkept hwithin
    hused hx hswap⟩

/-- The file before it is overwritten. -/
def noted : Db := ran (putFile 1 adasRoot noteName firstBytes 4 2) signedUp

/-- The file that was overwritten. -/
def adasNote : Node := ⟨4, 1, some 3, "a".toList, .file otherBytes 5, .file otherBytes, none⟩

/-- What it held before. -/
def adasDraft : Version := ⟨5, 4, firstBytes, 4⟩

theorem reached_noted : Reached noted := by
  have hroot : signedUp.liveNode adasRoot.id = some adasRoot := by decide +kernel
  exact reached_signedUp.ran (by decide +kernel) fun hx => .putFile hroot rfl hx

theorem history_exact_written :
    (ran (putFile 1 adasRoot noteName otherBytes 5 2) noted).historyOf 4 = [(firstBytes, 4)] ∧
    ∃ db' id, (restoreVersion adasNote adasRoot noteName 5 2).Returns written
        (adasNote.filled adasDraft) db' ∧
      Swapped written.toStore db'.toStore adasNote adasDraft ⟨id, 4, otherBytes, 5⟩ := by
  refine ⟨?_, ?_⟩
  · have hquota : noted.quotas.find adasRoot.ownerId = some ⟨1, 4, 100⟩ := by decide +kernel
    obtain ⟨node, hx⟩ := returns_ran
      (show commits (putFile 1 adasRoot noteName otherBytes 5 2) noted = true by decide +kernel)
    have hrun : Written 4 2 noted [(otherBytes, 5)]
        (ran (putFile 1 adasRoot noteName otherBytes 5 2) noted) := .write
      (show noted.liveNode adasRoot.id = some adasRoot by decide +kernel) rfl
      (show noted.child adasRoot.id noteName.str =
        some ⟨4, 1, some 3, "a".toList, .file firstBytes 4, .file firstBytes, none⟩ by decide +kernel)
      rfl (fun q hq => by rw [hquota] at hq; cases hq; decide) hx (.nil _)
    rw [(history_exact reached_noted).1 hrun (show noted.contentOf 4 = some (firstBytes, 4) by
      decide +kernel) (List.cons_ne_nil _ _)]
    decide +kernel
  · have hquota : written.quotas.find adasRoot.ownerId = some ⟨1, 9, 100⟩ := by decide +kernel
    obtain ⟨db', id, hx, hswap, -⟩ := (history_exact reached_written).2.2
      (show written.liveNode adasRoot.id = some adasRoot by decide +kernel) rfl
      (show written.child adasRoot.id noteName.str = some adasNote by decide +kernel) rfl
      (by decide) (show adasDraft ∈ written.versionsOf adasNote.id by decide +kernel) (by decide)
      (show 0 < (2 : Int) by decide)
      (show ((written.versionsOf adasNote.id).length : Int) ≤ 2 by decide +kernel)
      fun q hq => by rw [hquota] at hq; cases hq; decide
    exact ⟨db', id, hx, hswap⟩

end Stashden.Api
