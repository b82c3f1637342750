import Stashden.Api.Accounts
import Stashden.Api.Purge

/-!
# What the operations keep besides the nodes

`Planting` relations are those kept by every statement of the tree: the counting ones, and any write
to the nodes. The lemmas `keeps_*` carry one through each function of the tree and of the trash.

`Upkept` is such a relation. Versions are only dropped, but for those of one file; an account's quota
stays; and a blob's `unreferenced_since` stays set exactly where nothing refers to it (`Marked`), but
for a blob whose row has just been added.
-/

namespace Stashden.Api

open Lib Stashden.Core Tx

variable {α : Type} {db db' m : Db} {s s' : Store} {ownerId nodeId id : Uuid}
  {parent node source row : Node} {name : NodeName} {hash : BlobHash} {size : Nat}
  {delta versionsKept quota : Int} {u : Unit}

/-! ## Functions that add folders -/

/-- A relation a new folder keeps. -/
class Founding (R : Store → Store → Prop) : Prop extends IsPreorder Store R where
  fresh : Keeps R fresh
  directory : ∀ ownerId parentId name etag, Keeps R (insertNode ownerId parentId name .directory etag)

section Founding

variable {R : Store → Store → Prop} [Founding R]

theorem keeps_folderEtag : Keeps R etagForDirectory :=
  keeps_bind Founding.fresh fun _ => keeps_pure

/-- The first statement of `ensure_root`. -/
def KeepsQuota (R : Store → Store → Prop) (ownerId : Uuid) (quota : Int) : Prop :=
  Keeps R (execute fun s =>
    { s with quotas := (s.quotas.insert ⟨ownerId, 0, quota⟩).getD s.quotas })

theorem keeps_ensureRoot (hquota : KeepsQuota R ownerId quota) : Keeps R (ensureRoot ownerId quota) := by
  refine keeps_bind hquota fun _ => keeps_bind keeps_query fun root => ?_
  cases root with
  | some root => exact keeps_pure
  | none => exact keeps_bind keeps_folderEtag fun _ => Founding.directory _ _ _ _

theorem keeps_insertDirectory : Keeps R (insertDirectory ownerId nodeId name) := by
  refine keeps_bind keeps_query fun existing => ?_
  cases existing with
  | none => exact keeps_bind keeps_folderEtag fun _ => Founding.directory _ _ _ _
  | some existing => exact keeps_ite keeps_pure keeps_fail

theorem keeps_createBelow {segments : List NodeName} {current : Node} :
    Keeps R (createBelow ownerId current segments) := by
  induction segments generalizing current with
  | nil => exact keeps_pure
  | cons segment segments ih =>
    refine keeps_bind keeps_query fun existing => ?_
    cases existing with
    | none => exact keeps_bind keeps_insertDirectory fun _ => ih
    | some existing => exact keeps_ite ih keeps_fail

theorem keeps_createDirectories {segments : List NodeName} :
    Keeps R (createDirectories ownerId node segments) :=
  keeps_ite keeps_fail keeps_createBelow

end Founding

/-! ## Functions that write nodes -/

/-- A counting relation that says nothing of the nodes. -/
class Planting (R : Store → Store → Prop) : Prop extends Counting R where
  nodes : ∀ (s : Store) nodes, R s { s with nodes }

section Planting

variable {R : Store → Store → Prop} [Planting R]

theorem keeps_insertNode {parentId : Option Uuid} {str : Str} {body : Body} {etag : Etag} :
    Keeps R (insertNode ownerId parentId str body etag) := by
  refine keeps_bind Counting.fresh fun id => keeps_bind (keeps_insertRow fun s s' h => ?_) fun _ =>
    keeps_pure
  obtain ⟨nodes, -, rfl⟩ := Option.map_eq_some_iff.mp h
  exact Planting.nodes _ _

instance : Founding R where
  fresh := Counting.fresh
  directory _ _ _ _ := keeps_insertNode

theorem keeps_updateNode {f : Node → Node} {hf : ∀ n, (f n).id = n.id} :
    Keeps R (updateNode id f hf) :=
  keeps_bind (keeps_execute fun _ => Planting.nodes _ _) fun _ => keeps_bind keeps_query fun _ =>
    keeps_orFail

theorem keeps_storeFile {existing : Option Node} :
    Keeps R (storeFile ownerId parent name existing hash size) := by
  cases existing with
  | none => exact keeps_insertNode
  | some _ => exact keeps_updateNode

theorem keeps_copyOne {str : Str} : Keeps R (copyOne ownerId nodeId str source) :=
  keeps_bind keeps_etagForDirectory fun _ => keeps_bind (keeps_mapViolated keeps_insertNode)
    fun _ => keeps_bind keeps_acquireOf fun _ => keeps_pure

theorem keeps_copyChildren {originals : List Node} :
    Keeps R (copyChildren ownerId nodeId originals) := by
  induction originals with
  | nil => exact keeps_pure
  | cons original originals ih =>
    exact keeps_bind keeps_copyOne fun _ => keeps_bind ih fun _ => keeps_pure

theorem keeps_copyPending {rounds : Nat} {pending : List (Uuid × Uuid)} :
    Keeps R (copyPending ownerId rounds pending) := by
  induction rounds generalizing pending with
  | zero =>
    cases pending with
    | nil => exact keeps_pure
    | cons _ _ => exact keeps_fail
  | succ rounds ih =>
    cases pending with
    | nil => exact keeps_pure
    | cons p pending =>
      exact keeps_bind keeps_query fun _ => keeps_bind keeps_copyChildren fun _ =>
        keeps_bind ih fun _ => keeps_pure

theorem keeps_copyTree : Keeps R (copyTree ownerId source parent name) :=
  keeps_ite keeps_fail <| keeps_bind keeps_query fun _ => keeps_ite keeps_fail <|
    keeps_bind keeps_query fun _ => keeps_ite keeps_fail <| keeps_bind keeps_query fun _ =>
      keeps_bind keeps_copyOne fun _ => keeps_bind keeps_copyPending fun _ =>
        keeps_bind keeps_chargeQuota fun _ => keeps_pure

theorem keeps_rename : Keeps R (rename node parent name) :=
  keeps_ite keeps_fail <| keeps_bind keeps_query fun _ => keeps_ite keeps_fail <|
    keeps_bind keeps_query fun _ => keeps_ite keeps_fail <|
      keeps_bind keeps_etagForDirectory fun _ => keeps_mapViolated keeps_updateNode

theorem keeps_send : Keeps R (send node) :=
  keeps_bind keeps_query fun _ => keeps_bind (keeps_execute fun _ => Planting.nodes _ _) fun _ =>
    keeps_bind keeps_query fun _ => keeps_chargeQuota

theorem keeps_revive {p : Node → Bool} : Keeps R (revive p) :=
  keeps_execute fun _ => Planting.nodes _ _

theorem keeps_reviveAbove {rounds : Nat} {above : Option Uuid} :
    Keeps R (reviveAbove rounds above) := by
  induction rounds generalizing above with
  | zero => exact keeps_pure
  | succ rounds ih =>
    cases above with
    | none => exact keeps_pure
    | some id =>
      refine keeps_bind keeps_query fun trashed => ?_
      cases trashed with
      | none => exact keeps_pure
      | some ancestor =>
        exact keeps_bind (keeps_mapViolated keeps_revive) fun _ => keeps_bind ih fun _ => keeps_pure

theorem keeps_rerootSurvivors {batch : Uuid} : Keeps R (rerootSurvivors batch) :=
  keeps_execute fun _ => Planting.nodes _ _

theorem keeps_trashRoot : Keeps R (trashRoot ownerId id) :=
  keeps_bind keeps_query fun _ => keeps_orFail

theorem keeps_restore : Keeps R (restore ownerId id) :=
  keeps_bind keeps_trashRoot fun _ =>
    keeps_bind (keeps_bind keeps_query fun _ => keeps_reviveAbove) fun _ =>
      keeps_bind keeps_query fun _ => keeps_bind (keeps_mapViolated keeps_revive) fun _ =>
        keeps_bind keeps_query fun _ =>
          keeps_bind (keeps_forEach (fun _ => keeps_rerootSurvivors) _) fun _ =>
            keeps_bind keeps_chargeQuota fun _ => keeps_bind keeps_query fun _ => keeps_orFail

end Planting

/-! ## Versions, quotas and marks -/

/-- `unreferenced_since` is set where nothing refers to the blob, but for one of them. -/
def Marked (but : Option BlobHash) (s : Store) : Prop :=
  ∀ b ∈ s.blobs.rows, some b.hash ≠ but → (b.unreferencedSince.isSome = true ↔ b.refCount = 0)

/-- No version is new but of `file`, no quota goes, and the marks stay right. -/
structure Upkept (file : Option Uuid) (s s' : Store) : Prop where
  versions : ∀ {id v}, s'.versions.find id = some v →
    s.versions.find id = some v ∨ some v.nodeId = file
  quotas : ∀ id, (s.quotas.find id).isSome = true → (s'.quotas.find id).isSome = true
  marks : ∀ but, Marked but s → Marked but s'

variable {file : Option Uuid} {but : Option BlobHash}

instance : IsPreorder Store (Upkept file) where
  refl _ := ⟨Or.inl, fun _ h => h, fun _ h => h⟩
  trans _ _ _ h h' := ⟨fun hv => (h'.versions hv).elim (fun hv => h.versions hv) Or.inr,
    fun id hq => h'.quotas id (h.quotas id hq), fun but hm => h'.marks but (h.marks but hm)⟩

theorem Marked.update (h : Marked but s) {p : Blob → Bool} {f : Blob → Blob}
    {hf : ∀ b, (f b).hash = b.hash}
    (hmark : ∀ b ∈ s.blobs.rows, p b = true →
      ((f b).unreferencedSince.isSome = true ↔ (f b).refCount = 0)) :
    Marked but { s with blobs := s.blobs.update p f hf } := by
  intro b hb hne
  change b ∈ (s.blobs.update p f hf).rows at hb
  obtain ⟨b₀, hb₀, rfl⟩ := mem_update_blob hb
  split_ifs at hne ⊢ with hp
  · exact hmark b₀ hb₀ hp
  · exact h b₀ hb₀ hne

/-- What writes blobs only. -/
theorem upkept_blobs {blobs : Table Blob Blob.hash}
    (h : ∀ but, Marked but s → Marked but { s with blobs }) : Upkept file s { s with blobs } :=
  ⟨Or.inl, fun _ h => h, h⟩

theorem upkept_acquireBlob : Keeps (Upkept file) (acquireBlob hash) := by
  intro db a db' h
  rw [execute_returns.mp h]
  refine upkept_blobs fun _ hm => hm.update fun b hb _ => ?_
  have hcount := (db.sound .blobsCheck b hb).2
  refine iff_of_false Bool.false_ne_true ?_
  show b.refCount + 1 ≠ 0
  omega

instance : Planting (Upkept file) where
  fresh := keeps_fresh fun _ => ⟨Or.inl, fun _ h => h, fun _ h => h⟩
  acquire _ := upkept_acquireBlob
  release _ := keeps_execute fun s => upkept_blobs fun _ h => h.update fun b _ _ => by
    dsimp only
    split_ifs with hzero
    · exact iff_of_true rfl hzero
    · exact iff_of_false Bool.false_ne_true hzero
  charge _ _ := keeps_bind keeps_query fun _ => keeps_bind (keeps_execute fun _ =>
    ⟨Or.inl, fun _ => isSome_find_update (by intro _; rfl), fun _ h => h⟩) fun _ => keeps_pure
  drop _ := keeps_execute fun s => ⟨fun hv => by
    rw [Table.find_delete, Option.filter_eq_some_iff] at hv
    exact Or.inl hv.1, fun _ h => h, fun _ h => h⟩
  nodes _ _ := ⟨Or.inl, fun _ h => h, fun _ h => h⟩

/-- A version of the file. -/
theorem upkept_insertVersion : KeepsVersion (Upkept (some nodeId)) nodeId := by
  intro id hash size
  refine keeps_insertRow fun s s' h => ?_
  obtain ⟨versions, hins, rfl⟩ := Option.map_eq_some_iff.mp h
  refine ⟨fun {k v} hv => ?_, fun _ h => h, fun _ h => h⟩
  rw [Table.find_insert hins] at hv
  split_ifs at hv with hk
  · exact Or.inr (congrArg some (congrArg Version.nodeId (Option.some.inj hv)).symm)
  · exact Or.inl hv

/-- A blob whose row has just been added, until something refers to it. -/
theorem insertBlob_marks (h : (insertBlob hash size).Returns db u db') (hm : Marked none db.toStore) :
    Marked (some hash) db'.toStore := by
  rw [execute_returns.mp h]
  intro b hb hne
  cases hins : db.blobs.insert ⟨hash, size, 0, none⟩ with
  | none =>
    rw [hins] at hb
    exact hm b hb (Option.some_ne_none _)
  | some blobs =>
    rw [hins] at hb
    rw [Option.getD_some, (Table.insert_eq_some hins).2, List.mem_append, List.mem_singleton] at hb
    rcases hb with hb | rfl
    · exact hm b hb (Option.some_ne_none _)
    · exact absurd rfl hne

theorem acquireBlob_marks (h : (acquireBlob hash).Returns db u db')
    (hm : Marked (some hash) db.toStore) : Marked none db'.toStore := by
  rw [execute_returns.mp h]
  intro b hb _
  dsimp only at hb
  obtain ⟨b₀, hb₀, rfl⟩ := mem_update_blob hb
  have hcount := (db.sound .blobsCheck b₀ hb₀).2
  split_ifs with hp
  · refine iff_of_false Bool.false_ne_true ?_
    show b₀.refCount + 1 ≠ 0
    omega
  · refine hm b₀ hb₀ fun hsame => hp ?_
    rw [decide_eq_true_eq]
    exact Option.some.inj hsame

/-- **What `put_file` keeps**: versions are new of the file only. -/
structure PutKeeps (file : Uuid) (s s' : Store) : Prop where
  versions : ∀ {id v}, s'.versions.find id = some v →
    s.versions.find id = some v ∨ v.nodeId = file
  quotas : ∀ id, (s.quotas.find id).isSome = true → (s'.quotas.find id).isSome = true
  marks : Marked none s → Marked none s'

theorem putFile_keeps (h : (putFile ownerId parent name hash size versionsKept).Returns db node db') :
    PutKeeps node.id db.toStore db'.toStore := by
  have hid : ∀ old, db.child parent.id name.str = some old → old.id = node.id := by
    intro old hold
    obtain ⟨-, ⟨old', hold', -, rfl, -⟩ | ⟨hnone, -⟩⟩ := putFile_nodes h
    · rw [hold] at hold'
      cases hold'
      rfl
    · rw [hold] at hnone
      cases hnone
  unfold putFile at h
  obtain ⟨_, m₁, hblob, h⟩ := bind_returns.mp h
  obtain ⟨existing, m₂, hchild, h⟩ := bind_returns.mp h
  obtain ⟨hex, rfl⟩ := child_returns.mp hchild
  have hs₁ := execute_returns.mp hblob
  have hprev : ∀ p ∈ previousOf existing, p.1 = node.id := by
    intro p hp
    unfold previousOf at hp
    simp only [Option.mem_def, Option.bind_eq_some_iff, Option.map_eq_some_iff] at hp
    obtain ⟨old, hold, prior, -, rfl⟩ := hp
    refine hid old ?_
    rw [← hold, hex, hs₁]
    rfl
  obtain ⟨-, h⟩ := of_guard h
  obtain ⟨versioned, m₂, hcharge, h⟩ := bind_returns.mp h
  obtain ⟨_, m₃, hacquire, h⟩ := bind_returns.mp h
  obtain ⟨_, m₄, hretire, hstore⟩ := bind_returns.mp h
  have hcharged := keeps_chargeForPut (R := Upkept (some node.id)) hcharge
  have hacquired : Upkept (some node.id) m₂.toStore m₃.toStore := upkept_acquireBlob hacquire
  have hretired : Upkept (some node.id) m₃.toStore m₄.toStore :=
    keeps_retire (fun p hp => hprev p hp ▸ upkept_insertVersion) hretire
  have hstored := keeps_storeFile (R := Upkept (some node.id)) hstore
  have hrest := IsTrans.trans _ _ _ hretired hstored
  have hall := IsTrans.trans _ _ _ hcharged (IsTrans.trans _ _ _ hacquired hrest)
  refine ⟨fun hv => ?_, fun id hq => hall.quotas id (by rw [hs₁]; exact hq), fun hm => ?_⟩
  · refine (hall.versions hv).imp (fun hv => ?_) Option.some.inj
    rw [hs₁] at hv
    exact hv
  · exact hrest.marks _ (acquireBlob_marks hacquire
      (hcharged.marks _ (insertBlob_marks hblob hm)))

end Stashden.Api
