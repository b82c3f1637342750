import Stashden.Api.Dav
import Stashden.Api.History

/-!
# The room announced and the room accepted (`api/src/incoming.rs`, `api/src/db.rs`)

`room` counts what a file holds and all its versions as room for what replaces it, but `put_file`
drops versions only to keep the content it replaces. `room_iff` says when the two agree: bytes within
the room go in, bytes beyond it are stopped by the quota. An emptied file with a history is where they
do not (`room_refused`).
-/

namespace Stashden.Api

open Lib Stashden.Core Tx

variable {db : Db} {app : AppState} {hash oldHash : BlobHash} {size oldSize : Nat}
  {used max left versionsKept : Int} {parent old : Node} {name : NodeName} {held rest : List Version}

/-- A version of what a file holds. -/
structure Version.Keeps (v : Version) (old : Node) : Prop where
  node : v.nodeId = old.id
  hash : old.blobHash = some v.hash
  size : v.size = old.size

/-- The history of a file with its oldest versions dropped: what is kept of it stands under a version of
the replaced content, where that is kept too, and no version goes that the bytes do not need the room
of. -/
def DropsOldest (left size versionsKept : Int) (old : Node) (held after : List Version) : Prop :=
  ∃ top n, (top = [] ∨ ∃ v : Version, v.Keeps old ∧ top = [v]) ∧
    after = (top ++ held.take n).take versionsKept.toNat ∧
    ∀ k, n ≤ k → k < held.length → left + sizes (held.drop (k + 1)) < size

/-- The bytes go in, and the file that had the name loses no version they do not need. -/
def GoesIn (db : Db) (parent : Node) (name : NodeName) (hash : BlobHash) (size : Nat)
    (versionsKept : Int) (existing : Option Node) : Prop :=
  ∃ node db', (putFile parent.ownerId parent name hash size versionsKept).Returns db node db' ∧
    node.body = .file hash size ∧
    (∀ old ∈ existing, ∀ q ∈ db.quotas.find parent.ownerId,
      DropsOldest (q.bytesMax - q.bytesUsed) size versionsKept old (db.versionsOf old.id)
        (db'.versionsOf old.id)) ∧
    ∀ k, k ∉ existing.map Node.id → db'.versionsOf k = db.versionsOf k

/-- **The room announced is the room accepted**, for these bytes under this name. -/
def RoomAgrees (app : AppState) (db : Db) (parent : Node) (name : NodeName) (hash : BlobHash)
    (size : Nat) : Prop :=
  ∃ room, (Dav.room app parent name).Returns db room db ∧
    (size ≤ room →
      GoesIn db parent name hash size app.versionsKept (db.child parent.id name.str)) ∧
    (room < size → Pool.commit (putFile parent.ownerId parent name hash size app.versionsKept) db =
      (.error .quotaExceeded, db))

/-! ## What is announced -/

theorem room_of_file (app : AppState) (hold : db.child parent.id name.str = some old)
    (hquota : db.quotas.find parent.ownerId = some ⟨parent.ownerId, used, max⟩) :
    (Dav.room app parent name).Returns db
      (max - used + (old.size + sizes (db.versionsOf old.id))).toNat db := by
  refine bind_returns.mpr ⟨some (max - used), db, query_returns.mpr ⟨?_, rfl⟩, bind_returns.mpr
    ⟨some old, db, child_returns.mpr ⟨hold.symm, rfl⟩, bind_returns.mpr
      ⟨old.size + sizes (db.versionsOf old.id), db, ?_, pure_returns.mpr ⟨rfl, rfl⟩⟩⟩⟩
  · rw [hquota]
    rfl
  · exact bind_returns.mpr ⟨_, db, query_returns.mpr ⟨rfl, rfl⟩,
      pure_returns.mpr ⟨by rw [heldBy_eq], rfl⟩⟩

theorem room_of_free (app : AppState) (hfree : db.child parent.id name.str = none)
    (hquota : db.quotas.find parent.ownerId = some ⟨parent.ownerId, used, max⟩) :
    (Dav.room app parent name).Returns db (max - used).toNat db := by
  refine bind_returns.mpr ⟨some (max - used), db, query_returns.mpr ⟨?_, rfl⟩, bind_returns.mpr
    ⟨none, db, child_returns.mpr ⟨hfree.symm, rfl⟩, bind_returns.mpr
      ⟨0, db, pure_returns.mpr ⟨rfl, rfl⟩, pure_returns.mpr ⟨?_, rfl⟩⟩⟩⟩
  · rw [hquota]
    rfl
  · rw [Option.getD_some, add_zero]

/-! ## What is dropped -/

/-- The versions older than one, from the other end. -/
theorem sizes_drop_succ {k : Nat} (hk : k < held.length) :
    sizes (held.drop (k + 1)) = sizes (held.reverse.take (held.length - (k + 1))) := by
  rw [List.take_reverse, sizes_reverse, Nat.sub_sub_self hk]

theorem dropsOldest_of_spared {size : Int} (h : spared left size held.reverse = some rest)
    {replaced : Version} (hkeeps : replaced.Keeps old) : DropsOldest left size versionsKept old held
      ((replaced :: rest.reverse).take versionsKept.toNat) := by
  obtain ⟨n, hn, rfl, -, hvain⟩ := spared_some h
  rw [List.length_reverse] at hn
  refine ⟨[replaced], held.length - n, Or.inr ⟨replaced, hkeeps, rfl⟩, ?_, fun k hk hlen => ?_⟩
  · rw [List.drop_reverse, List.reverse_reverse]
    rfl
  · rw [sizes_drop_succ hlen]
    exact hvain _ (by omega)

theorem dropsOldest_of_none {size : Int} (h : spared left size held.reverse = none) :
    DropsOldest left size versionsKept old held [] := by
  refine ⟨[], 0, Or.inl rfl, List.take_nil.symm, fun k _ hlen => ?_⟩
  rw [sizes_drop_succ hlen]
  exact spared_none h _ (by rw [List.length_reverse]; omega)

theorem dropsOldest_of_pruned {size : Int} :
    DropsOldest left size versionsKept old held (held.take versionsKept.toNat) :=
  ⟨[], held.length, Or.inl rfl, by rw [List.nil_append, List.take_length],
    fun _ hk hlen => absurd hk (not_le.mpr hlen)⟩

/-! ## When the two agree -/

/-- **When the room announced is the room accepted**: the name is free, or the replaced content is
kept, or the bytes fit without a version dropped or do not fit with all of them dropped. -/
theorem room_iff (h : Reached db) (hparent : db.liveNode parent.id = some parent)
    (hused : ∀ q ∈ db.quotas.find parent.ownerId, q.bytesUsed ≤ q.bytesMax)
    (hfile : ∀ old ∈ db.child parent.id name.str, old.isDirectory = false) :
    RoomAgrees app db parent name hash size ↔
      ∀ old ∈ db.child parent.id name.str, ∀ q ∈ db.quotas.find parent.ownerId,
        (0 < app.versionsKept ∧ 0 < old.size ∧ old.blobHash ≠ some hash) ∨
          size ≤ q.bytesMax - q.bytesUsed + old.size ∨
            q.bytesMax - q.bytesUsed + old.size + sizes (db.versionsOf old.id) < size := by
  obtain ⟨used, max, hquota, hlow, hwithin⟩ := h.account hparent
  have hrow := (liveNode_eq_some.mp hparent).1
  have hmax : used ≤ max := hused _ hquota
  have hcommit : ∀ {x : Tx Node}, Exceeds x db →
      Pool.commit x db = (.error .quotaExceeded, db) := by
    intro x hx
    unfold Pool.commit
    rw [show x db = .error .quotaExceeded from hx]
  unfold RoomAgrees
  cases hcase : db.child parent.id name.str with
  | none =>
    refine iff_of_true ⟨_, room_of_free app hcase hquota, fun hroom => ?_, fun hroom => ?_⟩
      fun _ hold => absurd hold (Option.not_mem_none _)
    · obtain ⟨node, db', hx, hbody, hothers⟩ := putFile_creates hash size
        app.versionsKept hrow hcase hquota hlow (by omega)
      exact ⟨node, db', hx, hbody, fun _ hold => absurd hold (Option.not_mem_none _),
        fun k _ => hothers k⟩
    · exact hcommit (putFile_stopped_new hcase hquota hmax (by omega))
  | some old =>
    obtain ⟨oldHash, oldSize, hbody⟩ : ∃ oldHash oldSize, old.body = .file oldHash oldSize := by
      have hdir := hfile old hcase
      unfold Node.isDirectory at hdir
      split at hdir
      · cases hdir
      · exact ⟨_, _, by assumption⟩
    have hbooked := hwithin hcase
    have hhash : old.blobHash ≠ some hash ↔ oldHash ≠ hash := by
      rw [Node.blobHash, hbody]
      exact not_congr Option.some_inj
    have hheld : 0 ≤ sizes (db.versionsOf old.id) := sizes_nonneg fun _ => size_nonneg_of_held
    have hsize : 0 ≤ old.size := by
      rw [Node.size, hbody]
      exact Int.natCast_nonneg oldSize
    -- what a run that succeeds leaves
    have hagrees : ∀ {db' after}, (putFile parent.ownerId parent name hash size
        app.versionsKept).Returns db { old with body := .file hash size, etag := .file hash } db' →
        db'.versionsOf old.id = after → (∀ k, k ≠ old.id → db'.versionsOf k = db.versionsOf k) →
        DropsOldest (max - used) size app.versionsKept old (db.versionsOf old.id) after →
        GoesIn db parent name hash size app.versionsKept (some old) := by
      rintro db' after hx rfl hothers hdrops
      refine ⟨_, db', hx, rfl, fun o ho q hq => ?_, fun k hk => hothers k fun he => hk ?_⟩
      · rw [hquota] at hq
        cases ho
        cases hq
        exact hdrops
      · rw [he]
        rfl
    by_cases hkept : 0 < app.versionsKept ∧ 0 < old.size ∧ oldHash ≠ hash
    · refine iff_of_true ⟨_, room_of_file app hcase hquota, fun hroom => ?_, fun hroom => ?_⟩
        fun o ho q _ => ?_
      · cases hspared : spared (max - used) size (db.versionsOf old.id).reverse with
        | some rest =>
          obtain ⟨db', id, hx, hafter, hothers⟩ := putFile_keeps_replaced hcase hbody hquota hmax
            hbooked hkept hspared
          exact hagrees hx hafter hothers
            (dropsOldest_of_spared hspared ⟨rfl, by rw [Node.blobHash, hbody], rfl⟩)
        | none =>
          obtain ⟨db', hx, hafter, hothers⟩ := putFile_gives_up hcase hbody hquota hmax hbooked hkept
            hspared (by omega)
          exact hagrees hx hafter hothers (dropsOldest_of_none hspared)
      · exact hcommit (putFile_stopped_kept hcase hbody hquota hmax hbooked hkept (by omega))
      · cases ho
        exact Or.inl ⟨hkept.1, hkept.2.1, hhash.mpr hkept.2.2⟩
    · constructor
      · rintro ⟨room, hroom, hgoes, -⟩ o ho q hq
        cases ho
        rw [hquota] at hq
        cases hq
        refine Or.inr ?_
        by_contra hno
        obtain ⟨hover, hunder⟩ := not_or.mp hno
        dsimp only at hover hunder
        cases hroom.symm.trans (room_of_file app hcase hquota)
        obtain ⟨node, db', hx, -⟩ := hgoes (by omega)
        exact not_exceeds_of_returns hx
          (putFile_stopped_replacing hcase hbody hquota hmax hkept (by omega))
      · intro hfits
        refine ⟨_, room_of_file app hcase hquota, fun hroom => ?_, fun hroom => hcommit
          (putFile_stopped_replacing hcase hbody hquota hmax hkept (by omega))⟩
        rcases hfits old rfl _ hquota with hyes | hfits | hover
        · exact absurd ⟨hyes.1, hyes.2.1, hhash.mp hyes.2.2⟩ hkept
        · obtain ⟨db', hx, hafter, hothers⟩ := putFile_replaces hcase hbody hquota hbooked hkept hfits
          exact hagrees hx hafter hothers dropsOldest_of_pruned
        · dsimp only at hover
          exact absurd hroom (by omega)

/-! ## An emptied file -/

/-- A server that keeps two versions. -/
def keepsTwo : AppState := ⟨100, 2, ⟨0⟩, .head⟩

/-- An account with a limit of five bytes has emptied a file of four. -/
def emptied : Db :=
  ran (putFile 1 adasRoot noteName ⟨0⟩ 0 2) <|
    ran (putFile 1 adasRoot noteName firstBytes 4 2) <| ran (setQuota 1 5) signedUp

theorem reached_emptied : Reached emptied := by
  have hfile : ∀ {hash : BlobHash} {size : Nat} {node : Node} {db db' : Db},
      db.liveNode adasRoot.id = some adasRoot →
      (putFile 1 adasRoot noteName hash size 2).Returns db node db' → Step db db' :=
    fun hroot hx => Step.putFile hroot rfl hx
  exact ((reached_signedUp.ran (by decide +kernel) .setQuota).ran (by decide +kernel)
    (hfile (by decide +kernel))).ran (by decide +kernel) (hfile (by decide +kernel))

theorem room_iff_emptied : RoomAgrees keepsTwo emptied adasRoot noteName otherBytes 1 := by
  have hquota : emptied.quotas.find adasRoot.ownerId = some ⟨1, 4, 5⟩ := by decide +kernel
  refine (room_iff reached_emptied (by decide +kernel) (fun q hq => ?_) (by decide +kernel)).mpr
    fun old hold q hq => Or.inr (Or.inl ?_)
  · rw [hquota] at hq
    cases hq
    decide
  · have hempty : ∀ old ∈ emptied.child adasRoot.id noteName.str, old.size = 0 := by decide +kernel
    rw [hquota] at hq
    cases hq
    rw [hempty old hold]
    decide

/-- **History makes a save fail**: five bytes are announced, counting the version of the emptied file
that `put_file` does not drop for them. -/
theorem room_refused : Reached emptied ∧ emptied.liveNode adasRoot.id = some adasRoot ∧
    (∀ q ∈ emptied.quotas.find adasRoot.ownerId, q.bytesUsed ≤ q.bytesMax) ∧
    (∀ old ∈ emptied.child adasRoot.id noteName.str, old.isDirectory = false) ∧
    ¬ RoomAgrees keepsTwo emptied adasRoot noteName otherBytes 5 := by
  refine ⟨reached_emptied, by decide +kernel, by decide +kernel, by decide +kernel, ?_⟩
  rintro ⟨room, hroom, hwithin, -⟩
  have hold : emptied.child adasRoot.id noteName.str =
      some ⟨4, 1, some 3, "a".toList, .file ⟨0⟩ 0, .file ⟨0⟩, none⟩ := by decide +kernel
  have hquota : emptied.quotas.find adasRoot.ownerId = some ⟨adasRoot.ownerId, 4, 5⟩ := by
    decide +kernel
  have hfive : sizes (emptied.versionsOf 4) = 4 := by decide +kernel
  cases hroom.symm.trans (room_of_file keepsTwo hold hquota)
  obtain ⟨node, db', hx, -⟩ := hwithin (by rw [hfive]; decide)
  have hrefused : putFile 1 adasRoot noteName otherBytes 5 2 emptied = .error .quotaExceeded := by
    decide +kernel
  cases hrefused.symm.trans hx

end Stashden.Api
