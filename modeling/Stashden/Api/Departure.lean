import Stashden.Api.Sane

/-!
# Leaving (`api/src/departure.rs`)

`deleteUser_find` and `leave_sane` say what goes with the row of an account, `HandedOver` what
`hand_over` makes of the nodes of one: they stand below the new folder, in the tree of the recipient,
and nothing else of them changes (`handOver_returns`). `removeAccount_sane` puts the steps together.
-/

namespace Stashden.Api

open Lib Stashden.Core Tx

variable {s s' : Store} {db db' m : Db} {ownerId nodeId id k oldRoot : Uuid}
  {parent node source row root folder : Node} {name : NodeName} {hash : BlobHash}
  {leaving recipient : User} {quota : Int} {u : Unit} {t t' : Table Node Node.id}

/-! ## The row of an account goes -/

/-- The cascades of an account's nodes take those nodes. -/
theorem mem_cascade_owner (hw : WellFormed db.nodes) :
    k ∈ db.cascade (·.ownerId = id) ↔ ∃ row, db.nodes.find k = some row ∧ row.ownerId = id := by
  unfold Store.cascade
  rw [List.mem_map]
  constructor
  · rintro ⟨n, hn, rfl⟩
    rw [mem_recursive_of_subset fun a ha => (Table.mem_select.mp ha).1] at hn
    obtain ⟨start, hstart, hreach⟩ := hn
    obtain ⟨hmem, howner⟩ := Table.mem_select.mp hstart
    rw [decide_eq_true_eq] at howner
    induction hreach with
    | refl => exact ⟨start, Table.mem_iff_find.mp hmem, howner⟩
    | @tail a b _ hstep ih =>
      obtain ⟨ha, hb, hjoin⟩ := hstep
      obtain ⟨a', ha', hof⟩ := ih
      rw [Table.mem_iff_find.mp ha] at ha'
      cases ha'
      have hfind := Table.mem_iff_find.mp hb
      refine ⟨b, hfind, ?_⟩
      simp only [Bool.or_eq_true, decide_eq_true_eq] at hjoin
      rcases hjoin with hp | hbatch
      · obtain ⟨above, habove, -, hsame, -⟩ := hw.parent hfind hp
        rw [Table.mem_iff_find.mp ha] at habove
        cases habove
        exact hsame.symm.trans hof
      · exact (hw.owner_above hfind (hw.up_trashRoot hfind hbatch)
          (Table.mem_iff_find.mp ha)).trans hof
  · rintro ⟨row, hrow, howner⟩
    refine ⟨row, ?_, Table.find_key hrow⟩
    rw [mem_recursive_of_subset fun a ha => (Table.mem_select.mp ha).1]
    exact ⟨row, Table.mem_select.mpr ⟨Table.find_mem hrow, decide_eq_true howner⟩, .refl⟩

theorem takes_owned (hw : WellFormed db.nodes) :
    Takes db.toStore (·.ownerId = id) (db.nodes.select fun n => n.ownerId = id) where
  nodup := by
    refine List.Nodup.map_on (fun a ha b hb he => ?_) ((rows_nodup _).filter _)
    exact Table.eq_of_key (Table.mem_select.mp ha).1 (Table.mem_select.mp hb).1 he
  held n hn := Table.mem_iff_find.mp (Table.mem_select.mp hn).1
  mem k := by
    rw [mem_cascade_owner hw, List.mem_map]
    constructor
    · rintro ⟨row, hrow, howner⟩
      exact ⟨row, Table.mem_select.mpr ⟨Table.find_mem hrow, decide_eq_true howner⟩,
        Table.find_key hrow⟩
    · rintro ⟨row, hmem, rfl⟩
      obtain ⟨hmem, howner⟩ := Table.mem_select.mp hmem
      exact ⟨row, Table.mem_iff_find.mp hmem, of_decide_eq_true howner⟩

/-- **What is left of the nodes** when an account goes. -/
theorem deleteUser_find (hw : WellFormed db.nodes) :
    (db.deleteUser id).nodes.find k = some row ↔
      db.nodes.find k = some row ∧ row.ownerId ≠ id := by
  show (db.deleteNodes (·.ownerId = id)).nodes.find k = some row ↔ _
  rw [deleteNodes_find, Option.filter_eq_some_iff]
  refine and_congr_right fun hrow => ?_
  rw [Table.find_key hrow, Bool.not_eq_true', decide_eq_false_iff_not, mem_cascade_owner hw, hrow]
  simp

theorem deleteUser_wellFormed (hw : WellFormed db.nodes) : WellFormed (db.deleteUser id).nodes := by
  have hclosed : ∀ {k p : Uuid}, parentOf db.nodes k = some p →
      (∃ row, db.nodes.find p = some row ∧ row.ownerId = id) →
        ∃ row, db.nodes.find k = some row ∧ row.ownerId = id := by
    rintro k p hp ⟨above, habove, howner⟩
    obtain ⟨row, hrow, hparent⟩ := find_of_parentOf hp
    obtain ⟨above', habove', -, hsame, -⟩ := hw.parent hrow hparent
    rw [habove] at habove'
    cases habove'
    exact ⟨row, hrow, hsame.symm.trans howner⟩
  have hfind : ∀ k row, (db.deleteUser id).nodes.find k = some row ↔ db.nodes.find k = some row ∧
      ¬ ∃ row, db.nodes.find k = some row ∧ row.ownerId = id := by
    intro k row
    rw [deleteUser_find hw]
    refine and_congr_right fun hrow => ?_
    rw [hrow]
    simp
  exact hw.shrink hclosed hfind

/-- The bytes of an account without a node. -/
theorem usage_of_none (hnone : ∀ {k row}, s.nodes.find k = some row → row.ownerId ≠ id) :
    s.usage id = 0 := by
  have hnodes : s.nodes.total (fun n => if n.ownerId = id && n.live then n.size else 0) = 0 := by
    refine List.sum_eq_zero fun x hx => ?_
    obtain ⟨n, hn, rfl⟩ := List.mem_map.mp hx
    rw [decide_eq_false (hnone (Table.mem_iff_find.mp hn)), Bool.false_and,
      if_neg Bool.false_ne_true]
  have hversions : s.versions.total
      (fun v => if s.chargedTo id v.nodeId then v.size else 0) = 0 := by
    refine List.sum_eq_zero fun x hx => ?_
    obtain ⟨v, -, rfl⟩ := List.mem_map.mp hx
    rw [if_neg]
    unfold Store.chargedTo
    rw [Option.any_eq_true]
    rintro ⟨n, hn, hof⟩
    rw [Bool.and_eq_true, decide_eq_true_eq] at hof
    exact hnone hn hof.1
  unfold Store.usage
  rw [hnodes, hversions, add_zero]

/-- **Deleting an account's row** leaves what its nodes and versions held to be given up, and settles
what it was charged ahead. -/
theorem deleteUser_ledger {extra : Int} (h : Ledger (fun _ => 0) (bytes id extra) db.toStore)
    (hw : WellFormed db.nodes) :
    Ledger (fun b => 0 + each (db.heldBlobs id) b) (fun _ => 0) (db.deleteUser id) := by
  have htakes : Takes db.toStore _ (db.nodes.select fun n => n.ownerId = id) := takes_owned hw
  refine ⟨fun b => ?_, fun o => ?_⟩
  · have hrefs : (db.deleteUser id).references b = db.references b - each (db.heldBlobs id) b :=
      htakes.references b
    have hcount : (db.deleteUser id).refCount b = db.refCount b := rfl
    have hbook := h.refCount b
    omega
  · have hquota : (db.deleteUser id).bytesUsed o = if o = id then 0 else db.bytesUsed o := by
      show (db.quotas.delete (·.ownerId = id)).value Quota.bytesUsed o = _
      unfold Table.value
      rw [Table.find_delete]
      cases hq : db.quotas.find o with
      | none =>
        have hzero : db.bytesUsed o = 0 := Table.value_of_missing hq
        rw [Option.filter_none, hzero, ite_self]
        rfl
      | some q =>
        have hkey : q.ownerId = o := Table.find_key hq
        have hused : db.bytesUsed o = q.bytesUsed := Table.value_of_find hq
        rw [Option.filter_some, hkey, hused]
        by_cases ho : o = id <;> simp [ho]
    rw [hquota, add_zero]
    by_cases ho : o = id
    · rw [if_pos ho, ho, usage_of_none fun hrow => ((deleteUser_find hw).mp hrow).2]
    · have husage : (db.deleteUser id).usage o = db.usage o := by
        refine htakes.usage fun n hn hof => ?_
        exact absurd (hof.symm.trans (of_decide_eq_true (Table.mem_select.mp hn).2)) ho
      have hbook := h.bytesUsed o
      rw [bytes, if_neg ho] at hbook
      rw [if_neg ho, husage]
      omega

/-- What the end of `remove` leaves: the account's row goes, then what its nodes held is released. -/
structure Left (id : Uuid) (s s' : Store) : Prop where
  nodes : s'.nodes = (s.deleteUser id).nodes
  versions : s'.versions = (s.deleteUser id).versions
  thumbnails : s'.thumbnails = s.thumbnails
  quotas : s'.quotas = s.quotas.delete (·.ownerId = id)
  users : s'.users = s.users.delete (·.id = id)
  now : s'.now = s.now
  grants : ∀ g ∈ s'.grants.rows, g ∈ s.grants.rows

/-- What holds before an account goes, whose books are `owed` bytes ahead of its files. -/
structure Leaving (id : Uuid) (owed : Int) (s : Store) : Prop where
  forest : WellFormed s.nodes
  books : Ledger (fun _ => 0) (bytes id owed) s
  backed : Backed s
  marked : Marked none s
  dated : Dated s
  named : Named s.nodes

theorem Sane.toLeaving (h : Sane s) : Leaving id 0 s :=
  ⟨h.forest, h.books.of_eq (fun _ => rfl) fun _ => (bytes_zero _ _).symm, h.backed, h.marked, h.dated,
    h.named⟩

variable {m₁ m₂ : Db}

/-- **The end of `remove`.** -/
theorem leave_sane {owed : Int} (h : Leaving id owed db.toStore)
    {kept : Grant → Bool}
    (hgrants : m₁.toStore = { db.toStore with grants := db.grants.delete kept })
    (hdelete : m₂.toStore = m₁.deleteUser id)
    (hrelease : (forEach releaseBlob (db.heldBlobs id)).Returns m₂ u db') :
    Sane db'.toStore ∧ Left id db.toStore db'.toStore := by
  have hcounted := recounted_releaseEach hrelease
  have hleft : Left id db.toStore db'.toStore := by
    constructor
    case grants =>
      intro g hg
      rw [hcounted, hdelete, hgrants] at hg
      exact (Table.mem_delete.mp (Table.mem_delete.mp (Table.mem_delete.mp hg).1).1).1
    all_goals rw [hcounted, hdelete, hgrants]; rfl
  have hrows : ∀ {k row}, db'.nodes.find k = some row ↔
      db.nodes.find k = some row ∧ row.ownerId ≠ id := by
    intro k row
    rw [hleft.nodes]
    exact deleteUser_find h.forest
  have hdue : Ledger (fun b => 0 + each (db.heldBlobs id) b) (fun _ => 0) m₂.toStore := by
    rw [hdelete]
    exact (deleteUser_ledger h.books h.forest).frame (by rw [hgrants]; rfl)
      (by rw [hgrants]; rfl) (by rw [hgrants]; rfl) (by rw [hgrants]; rfl) (by rw [hgrants]; rfl)
  have hbooks := (releaseEach_ledger hdue (fun b => by
    rw [add_zero]
    exact references_nonneg _ b) hrelease).1
  have hreleased : Upkept none m₂.toStore db'.toStore :=
    keeps_forEach (fun _ => Counting.release _) _ hrelease
  refine ⟨⟨?_, hbooks, ⟨fun {k row} hrow => ?_, fun {k v row} hv hrow => ?_⟩,
    hreleased.marks none ?_, h.dated.of_trashed hleft.now.symm.le fun hrow hd =>
      ⟨_, _, (hrows.mp hrow).1, rfl, hd, rfl⟩,
    Named.of_rows h.named fun hrow _ => ⟨_, (hrows.mp hrow).1, rfl, rfl⟩⟩, hleft⟩
  · rw [hleft.nodes]
    exact deleteUser_wellFormed h.forest
  · obtain ⟨hrow₀, hother⟩ := hrows.mp hrow
    obtain ⟨q, hq⟩ := Option.isSome_iff_exists.mp (h.backed.quota hrow₀)
    have hkey : q.ownerId = row.ownerId := Table.find_key hq
    rw [hleft.quotas, Table.find_delete, hq, Option.filter_some, hkey, decide_eq_false hother]
    rfl
  · rw [hleft.versions] at hv
    exact h.backed.file
      (Option.filter_eq_some_iff.mp ((Table.find_delete _ _ _).symm.trans hv)).1 (hrows.mp hrow).1
  · rw [hdelete, hgrants]
    exact h.marked

/-! ## The nodes change hands -/

section HandedOver

variable {leavingId recipientId folderId : Uuid}

/-- Whose a node is once an account has handed over its tree. -/
def newOwner (leavingId recipientId oldRoot : Uuid) (r : Node) : Uuid :=
  if r.ownerId = leavingId ∧ r.id ≠ oldRoot then recipientId else r.ownerId

/-- What becomes of a node of the tree. -/
def handedOver (leavingId recipientId oldRoot folderId : Uuid) (r : Node) : Node :=
  { r with
    ownerId := newOwner leavingId recipientId oldRoot r
    parentId := if r.parentId = some oldRoot then some folderId else r.parentId }

/-- The nodes of an account, below the folder of another one. -/
def HandedOver (leavingId recipientId oldRoot folderId : Uuid) (t t' : Table Node Node.id) : Prop :=
  ∀ k, t'.find k = (t.find k).map (handedOver leavingId recipientId oldRoot folderId)

theorem handedOver_updates (t : Table Node Node.id) :
    HandedOver leavingId recipientId oldRoot folderId t <|
      (t.update (fun n => n.parentId = some oldRoot) (fun n => { n with parentId := some folderId })
        fun _ => rfl).update (fun n => n.ownerId = leavingId && n.id ≠ oldRoot)
          (fun n => { n with ownerId := recipientId }) fun _ => rfl := by
  intro k
  rw [Table.find_update, Table.find_update, Option.map_map]
  refine congrArg (fun f => (t.find k).map f) (funext fun r => ?_)
  unfold handedOver newOwner
  simp only [Function.comp_apply, Bool.and_eq_true, decide_eq_true_eq]
  split_ifs <;> simp_all

/-- The root an account hands its tree over from. -/
structure Handing (leavingId recipientId oldRoot folderId : Uuid) (t : Table Node Node.id) :
    Prop where
  root : ∃ root, t.find oldRoot = some root ∧ root.parentId = none ∧ root.ownerId = leavingId
  folder : Folder t recipientId folderId
  distinct : leavingId ≠ recipientId

namespace HandedOver

theorem back (h : HandedOver leavingId recipientId oldRoot folderId t t')
    (hrow : t'.find k = some row) : ∃ row₀, t.find k = some row₀ ∧
      row = handedOver leavingId recipientId oldRoot folderId row₀ := by
  rw [h k] at hrow
  obtain ⟨row₀, hrow₀, rfl⟩ := Option.map_eq_some_iff.mp hrow
  exact ⟨row₀, hrow₀, rfl⟩

theorem forth (h : HandedOver leavingId recipientId oldRoot folderId t t')
    (hrow : t.find k = some row) :
    t'.find k = some (handedOver leavingId recipientId oldRoot folderId row) := by
  rw [h k, hrow]
  rfl

end HandedOver

namespace Handing

/-- What stands under the old root is the leaving account's, and no root. -/
theorem owner_of_child (h : Handing leavingId recipientId oldRoot folderId t) (hw : WellFormed t)
    (hrow : t.find k = some row) (hp : row.parentId = some oldRoot) : row.ownerId = leavingId := by
  obtain ⟨root, hroot, -, howner⟩ := h.root
  obtain ⟨above, habove, -, hsame, -⟩ := hw.parent hrow hp
  rw [hroot] at habove
  cases habove
  exact hsame.symm.trans howner

theorem ne_oldRoot (h : Handing leavingId recipientId oldRoot folderId t)
    (hrow : t.find k = some row) (hp : row.parentId ≠ none) : row.id ≠ oldRoot := by
  obtain ⟨root, hroot, hnone, -⟩ := h.root
  rintro rfl
  rw [Table.find_key hrow, hrow] at hroot
  cases hroot
  exact hp hnone

/-- The new owners go with the parents. -/
theorem newOwner_below (h : Handing leavingId recipientId oldRoot folderId t)
    (hrow : t.find k = some row) (hp : row.parentId ≠ none) :
    newOwner leavingId recipientId oldRoot row =
      if row.ownerId = leavingId then recipientId else row.ownerId := by
  unfold newOwner
  simp [h.ne_oldRoot hrow hp]

/-- What is another account's stays as it is. -/
theorem handedOver_other (h : Handing leavingId recipientId oldRoot folderId t) (hw : WellFormed t)
    (hrow : t.find k = some row) (howner : row.ownerId ≠ leavingId) :
    handedOver leavingId recipientId oldRoot folderId row = row := by
  have hparent : row.parentId ≠ some oldRoot := fun hp => howner (h.owner_of_child hw hrow hp)
  unfold handedOver newOwner
  rw [if_neg fun hc => howner hc.1, if_neg hparent]

/-- What is the account's, below its root, goes to the recipient. -/
theorem handedOver_child (h : Handing leavingId recipientId oldRoot folderId t)
    (hrow : t.find k = some row) (howner : row.ownerId = leavingId) (hp : row.parentId ≠ none) :
    handedOver leavingId recipientId oldRoot folderId row = { row with
      ownerId := recipientId
      parentId := if row.parentId = some oldRoot then some folderId else row.parentId } := by
  unfold handedOver
  rw [h.newOwner_below hrow hp, if_pos howner]

/-- Only its root stays with the account. -/
theorem isDirectory_of_left (h : Handing leavingId recipientId oldRoot folderId t)
    (hw : WellFormed t) (ht : HandedOver leavingId recipientId oldRoot folderId t t')
    (hrow : t'.find k = some row) (howner : row.ownerId = leavingId) :
    row.isDirectory = true := by
  obtain ⟨r, hr, rfl⟩ := ht.back hrow
  obtain ⟨root, hroot, hnone, -⟩ := h.root
  have hid : r.id = oldRoot := by
    by_contra hother
    change newOwner leavingId recipientId oldRoot r = leavingId at howner
    unfold newOwner at howner
    split_ifs at howner with hc
    · exact h.distinct howner.symm
    · exact hc ⟨howner, hother⟩
  rw [← Table.find_key hr, hid, hroot] at hr
  cases hr
  exact (hw.root hroot hnone).2

theorem wellFormed (h : Handing leavingId recipientId oldRoot folderId t) (hw : WellFormed t)
    (ht : HandedOver leavingId recipientId oldRoot folderId t t') : WellFormed t' := by
  obtain ⟨top, htop, htlive, htdir, htowner⟩ := h.folder
  have hparents : ∀ x, parentOf t' x =
      if parentOf t x = some oldRoot then some folderId else parentOf t x := by
    intro x
    cases hx : t.find x with
    | none => rw [parentOf, parentOf, ht x, hx]; rfl
    | some r => rw [parentOf_of_find (ht.forth hx), parentOf_of_find hx]; rfl
  refine ⟨fun id => ?_, fun {id row p} hrow hp => ?_, fun {id row b} hrow hb => ?_,
    fun {id row} hrow hp => ?_⟩
  · refine grounded_reparent (fun x => parentOf t x = some oldRoot)
      (fun x hx => by rw [hparents, if_neg hx]) (fun x hx => by rw [hparents, if_pos hx])
      (hw.grounded folderId) (fun x hx hmoved => ?_) (hw.grounded id)
    -- what is above the folder is the recipient's
    obtain ⟨r, hr, hp⟩ := find_of_parentOf hmoved
    have hsame := hw.owner_above htop hx hr
    exact h.distinct ((h.owner_of_child hw hr hp).symm.trans (hsame.symm.trans htowner))
  · obtain ⟨r, hr, rfl⟩ := ht.back hrow
    by_cases hold : r.parentId = some oldRoot
    · have hp' : p = folderId := by
        simp only [handedOver, if_pos hold] at hp
        exact (Option.some.inj hp).symm
      have hne : r.parentId ≠ none := by rw [hold]; exact Option.some_ne_none _
      subst hp'
      refine ⟨_, ht.forth htop, htdir, ?_, fun _ => htlive⟩
      show newOwner leavingId recipientId oldRoot top = newOwner leavingId recipientId oldRoot r
      rw [h.newOwner_below hr hne, if_pos (h.owner_of_child hw hr hold), newOwner, htowner,
        if_neg fun hc => h.distinct hc.1.symm]
    · have hp' : r.parentId = some p := by
        simp only [handedOver, if_neg hold] at hp
        exact hp
      have hne : r.parentId ≠ none := by rw [hp']; exact Option.some_ne_none _
      obtain ⟨above, habove, hdir, howner, hlive⟩ := hw.parent hr hp'
      refine ⟨_, ht.forth habove, hdir, ?_, hlive⟩
      show newOwner leavingId recipientId oldRoot above = newOwner leavingId recipientId oldRoot r
      have hother : above.id ≠ oldRoot := by
        rw [Table.find_key habove]
        rintro rfl
        exact hold hp'
      rw [h.newOwner_below hr hne, newOwner, howner]
      simp [hother]
  · obtain ⟨r, hr, rfl⟩ := ht.back hrow
    rcases hw.batch hr hb with hb | ⟨p, above, hp, ha, hr'⟩
    · exact Or.inl hb
    · have hold : r.parentId ≠ some oldRoot := by
        intro hold
        obtain ⟨root, hroot, hnone, -⟩ := h.root
        rw [hp] at hold
        cases hold
        rw [ha] at hroot
        cases hroot
        exact trashed_of_trashRoot hr' (WellFormed.live_iff.mp (hw.root ha hnone).1)
      refine Or.inr ⟨p, _, ?_, ht.forth ha, hr'⟩
      simp only [handedOver, if_neg hold]
      exact hp
  · obtain ⟨r, hr, rfl⟩ := ht.back hrow
    have hnone : r.parentId = none := by
      simp only [handedOver] at hp
      split_ifs at hp
      exact hp
    have hlast := hw.root hr hnone
    exact hlast

/-- What a node adds to the usage of an account, before and after. -/
theorem charge_split (h : Handing leavingId recipientId oldRoot folderId t) {n : Node} {w : Int}
    (hroot : n.id = oldRoot → w = 0) (o : Uuid) :
    (if (decide (newOwner leavingId recipientId oldRoot n = o) && n.live) = true then w else 0) =
      if o = recipientId then
        (if (decide (n.ownerId = recipientId) && n.live) = true then w else 0) +
          if (decide (n.ownerId = leavingId) && n.live) = true then w else 0
      else if o = leavingId then 0
      else if (decide (n.ownerId = o) && n.live) = true then w else 0 := by
  have hne := h.distinct
  by_cases hid : n.id = oldRoot
  · rw [hroot hid]
    split_ifs <;> rfl
  · by_cases ho : n.ownerId = leavingId
    · have hnew : newOwner leavingId recipientId oldRoot n = recipientId := if_pos ⟨ho, hid⟩
      rw [hnew, ho]
      by_cases hr : o = recipientId
      · simp [hr, hne]
      · by_cases hl : o = leavingId
        · simp [hl, hne, Ne.symm hne]
        · simp [hr, hl, Ne.symm hr, Ne.symm hl]
    · have hnew : newOwner leavingId recipientId oldRoot n = n.ownerId := if_neg fun hc => ho hc.1
      rw [hnew]
      by_cases hr : o = recipientId
      · simp [hr, ho]
      · by_cases hl : o = leavingId
        · simp [hl, ho, hne]
        · simp [hr, hl]

variable {a b : Db}

/-- **The usage goes with the nodes.** -/
theorem usage (h : Handing leavingId recipientId oldRoot folderId a.nodes) (hw : WellFormed a.nodes)
    (hb : Backed a.toStore) (ht : HandedOver leavingId recipientId oldRoot folderId a.nodes b.nodes)
    (hv : b.versions = a.versions) (o : Uuid) : b.usage o =
      if o = recipientId then a.usage recipientId + a.usage leavingId
      else if o = leavingId then 0 else a.usage o := by
  obtain ⟨root, hroot, hnone, -⟩ := h.root
  have hdir := (hw.root hroot hnone).2
  have hnodes : b.nodes.total (fun n => if n.ownerId = o && n.live then n.size else 0) =
      a.nodes.total fun n =>
        if newOwner leavingId recipientId oldRoot n = o && n.live then n.size else 0 := by
    refine Table.total_congr_value fun k => ?_
    unfold Table.value
    rw [ht k]
    cases a.nodes.find k <;> rfl
  have hsplit : ∀ n ∈ a.nodes.rows, n.id = oldRoot → n.size = 0 := by
    intro n hn hid
    rw [← hid, Table.mem_iff_find.mp hn] at hroot
    cases hroot
    exact size_of_directory hdir
  have hversion : ∀ v ∈ a.versions.rows, ∃ n, a.nodes.find v.nodeId = some n ∧ n.id ≠ oldRoot := by
    intro v hmem
    obtain ⟨n, hn⟩ := Option.isSome_iff_exists.mp (a.sound .versionsForeign v hmem).1
    refine ⟨n, hn, fun hid => ?_⟩
    have hfile := hb.file (Table.mem_iff_find.mp hmem) hn
    rw [← hid, Table.mem_iff_find.mp (Table.find_mem hn)] at hroot
    cases hroot
    rw [hdir] at hfile
    cases hfile
  have hheld : b.versions.total (fun v => if b.chargedTo o v.nodeId then v.size else 0) =
      a.versions.total fun v => if o = recipientId then
        (if a.chargedTo recipientId v.nodeId then v.size else 0) +
          if a.chargedTo leavingId v.nodeId then v.size else 0
      else if o = leavingId then 0 else if a.chargedTo o v.nodeId then v.size else 0 := by
    rw [hv]
    refine Table.total_congr fun v hmem => ?_
    obtain ⟨n, hn, hid⟩ := hversion v hmem
    unfold Store.chargedTo
    rw [ht.forth hn, hn]
    simp only [Option.any_some]
    exact h.charge_split (fun hsame => absurd hsame hid) o
  unfold Store.usage
  rw [hnodes, hheld, Table.total_congr fun n hn => h.charge_split (hsplit n hn) o]
  by_cases hr : o = recipientId
  · simp only [if_pos hr]
    rw [total_add, total_add]
    omega
  · by_cases hl : o = leavingId
    · simp only [if_neg hr, if_pos hl]
      have hzero : ∀ {ρ κ : Type} {key : ρ → κ} (t : Table ρ key), t.total (fun _ => 0) = 0 :=
        fun t => List.sum_eq_zero fun x hx => by
          obtain ⟨_, -, rfl⟩ := List.mem_map.mp hx
          rfl
      rw [hzero, hzero, add_zero]
    · simp only [if_neg hr, if_neg hl]

end Handing

theorem HandedOver.references {s s' : Store}
    (h : HandedOver leavingId recipientId oldRoot folderId s.nodes s'.nodes)
    (hv : s'.versions = s.versions) (ht : s'.thumbnails = s.thumbnails) (b : BlobHash) :
    s'.references b = s.references b := by
  have hnodes : s'.nodes.total (fun n => if n.blobHash = some b then (1 : Int) else 0) =
      s.nodes.total fun n => if n.blobHash = some b then 1 else 0 := by
    refine Table.total_congr_value fun k => ?_
    unfold Table.value
    rw [h k]
    cases s.nodes.find k <;> rfl
  unfold Store.references
  rw [hnodes, hv, ht]

end HandedOver

/-! ## The folder the tree goes into -/

theorem parseName_returns {candidate : Str} (h : (parseName candidate).Returns db name db') :
    db = db' := by
  unfold parseName at h
  split at h
  · exact (pure_returns.mp h).2
  · exact absurd h fail_returns

theorem parseName_str {candidate : Str} (h : (parseName candidate).Returns db name db') :
    name.str = candidate := by
  unfold parseName at h
  split at h
  · rename_i hparsed
    obtain ⟨rfl, -⟩ := pure_returns.mp h
    exact NodeName.fromStr_eq_ok hparsed
  · exact absurd h fail_returns

/-- **The name found is free.** -/
theorem freeFolderName_returns {parentId : Uuid} {wanted : Str}
    (h : (freeFolderName parentId wanted).Returns db name db') :
    db = db' ∧ db.child parentId name.str = none := by
  unfold freeFolderName at h
  generalize 1 = attempt at h
  generalize MAX_ATTEMPTS = left at h
  induction left generalizing attempt with
  | zero => exact absurd h fail_returns
  | succ left ih =>
    rw [nextFolderName] at h
    obtain ⟨candidate, m, hparse, h⟩ := bind_returns.mp h
    obtain rfl := parseName_returns hparse
    obtain ⟨taken, m', hchild, h⟩ := bind_returns.mp h
    obtain ⟨rfl, rfl⟩ := child_returns.mp hchild
    split_ifs at h with htaken
    · exact ih _ h
    · obtain ⟨rfl, rfl⟩ := pure_returns.mp h
      exact ⟨rfl, by simpa using htaken⟩

/-- **A folder of a free name** is a new one. -/
theorem newFolder_returns (hfree : db.child root.id name.str = none)
    (h : (createDirectories ownerId root [name]).Returns db folder db') :
    root.isDirectory = true ∧ db.nodes.insert folder = some db'.nodes ∧ ∃ id etag,
      folder = ⟨id, ownerId, some root.id, name.str, .directory, etag, none⟩ := by
  unfold createDirectories at h
  obtain ⟨hdir, h⟩ := of_guard h
  rw [createBelow] at h
  obtain ⟨existing, m, hchild, h⟩ := bind_returns.mp h
  obtain ⟨rfl, rfl⟩ := child_returns.mp hchild
  rw [hfree] at h
  obtain ⟨created, m₁, hcreate, h⟩ := bind_returns.mp h
  obtain ⟨rfl, rfl⟩ := pure_returns.mp h
  unfold insertDirectory at hcreate
  obtain ⟨existing, m₂, hchild, hcreate⟩ := bind_returns.mp hcreate
  obtain ⟨rfl, rfl⟩ := child_returns.mp hchild
  rw [hfree] at hcreate
  obtain ⟨etag, m₂, hetag, hcreate⟩ := bind_returns.mp hcreate
  obtain ⟨hnode, nodes, hins, hs⟩ := insertNode_returns hcreate
  have hnodes : m₂.nodes = db.nodes := (keeps_etagForDirectory (R := Beside) hetag).nodes
  refine ⟨by simpa using hdir, ?_, _, _, hnode⟩
  rw [hs, ← hnodes]
  exact hins

/-- What stays as it was while folders are made. -/
structure Founded (s s' : Store) : Prop where
  steady : Steady s s'
  versions : s'.versions = s.versions
  thumbnails : s'.thumbnails = s.thumbnails
  blobs : s'.blobs = s.blobs
  bytesUsed : ∀ o, s'.bytesUsed o = s.bytesUsed o
  issued : ∀ k, s.nodes.find k = none → (s'.nodes.find k).isSome = true → s.next ≤ k

instance : IsPreorder Store Founded where
  refl _ := ⟨refl _, rfl, rfl, rfl, fun _ => rfl, fun k hno hk => by
    rw [hno] at hk
    cases hk⟩
  trans _ b _ h h' := ⟨IsTrans.trans _ _ _ h.steady h'.steady, h'.versions.trans h.versions,
    h'.thumbnails.trans h.thumbnails, h'.blobs.trans h.blobs,
    fun o => (h'.bytesUsed o).trans (h.bytesUsed o), fun k hno hk => by
      cases hb : b.nodes.find k with
      | none => exact h.steady.next.trans (h'.issued k hb hk)
      | some row => exact h.issued k hno (by rw [hb]; rfl)⟩

instance : Founding Founded where
  fresh := keeps_fresh fun _ => ⟨⟨rfl, rfl, rfl, rfl, Nat.le_succ _⟩, rfl, rfl, rfl, fun _ => rfl,
    fun k hno hk => by
      rw [hno] at hk
      cases hk⟩
  directory ownerId parentId name etag := by
    intro db node db' h
    obtain ⟨hnode, nodes, hins, hs⟩ := insertNode_returns h
    rw [hs]
    refine ⟨⟨rfl, rfl, rfl, rfl, Nat.le_succ _⟩, rfl, rfl, rfl, fun _ => rfl, fun k hno hk => ?_⟩
    dsimp only at hk
    rw [Table.find_insert hins] at hk
    split_ifs at hk with hid
    · rw [hid, hnode]
    · rw [hno] at hk
      cases hk

theorem founded_insertQuota : KeepsQuota Founded ownerId quota :=
  keeps_execute fun _ => ⟨⟨rfl, rfl, rfl, rfl, le_rfl⟩, rfl, rfl, rfl, fun o =>
    value_insert_getD _ Quota.bytesUsed rfl o, fun k hno hk => by
      rw [hno] at hk
      cases hk⟩

/-- The root and the new folder a tree is handed over into. -/
structure Hosted (recipientId : Uuid) (root folder : Node) (s s' : Store) : Prop where
  rest : Founded s s'
  nodes : ∀ k, s'.nodes.find k = if k = folder.id then some folder else if k = root.id then some root
    else s.nodes.find k
  top : root.ownerId = recipientId ∧ root.parentId = none ∧ root.live = true
  rooted : s.rootOf recipientId = some root ∨
    s.rootOf recipientId = none ∧ s.nodes.find root.id = none
  made : folder.ownerId = recipientId ∧ folder.parentId = some root.id ∧
    folder.isDirectory = true ∧ folder.live = true
  fresh : s.nodes.find folder.id = none ∧ folder.id ≠ root.id
  free : ∀ n ∈ s.nodes.rows, n.parentId = some root.id → n.live = true → n.name ≠ folder.name

theorem mem_rootOf (h : s.rootOf ownerId = some root) : s.nodes.find root.id = some root ∧
    root.ownerId = ownerId ∧ root.parentId = none ∧ root.live = true := by
  have hp := List.find?_some h
  simp only [Bool.and_eq_true, decide_eq_true_eq] at hp
  exact ⟨Table.mem_iff_find.mp (List.mem_of_find?_eq_some h), hp.1.1, hp.1.2, hp.2⟩

theorem host_returns {recipientId : Uuid} {wanted : Str} {m₁ m₂ : Db} (h : Sane db.toStore)
    (hroot : (ensureRoot recipientId quota).Returns db root m₁)
    (hname : (freeFolderName root.id wanted).Returns m₁ name m₂)
    (hfolder : (createDirectories recipientId root [name]).Returns m₂ folder db') :
    Hosted recipientId root folder db.toStore db'.toStore ∧ Sane db'.toStore := by
  obtain ⟨rfl, hfree⟩ := freeFolderName_returns hname
  have hs := ensureRoot_sane h hroot
  obtain ⟨hsteady, howner, hnone, hlive, hrooted⟩ := ensureRoot_returns hroot
  obtain ⟨hdir, hins, id, etag, hnode⟩ := newFolder_returns hfree hfolder
  have hfound : m₁.nodes.find root.id = some root := by
    rcases hrooted with ⟨hold, hsame⟩ | ⟨-, hnew, -⟩
    · rw [hsame]
      exact (mem_rootOf hold).1
    · exact find_insert_self hnew
  have hnew := (Table.insert_eq_some hins).1
  have hold : ∀ {k row}, db.nodes.find k = some row → m₁.nodes.find k = some row := by
    intro k row hrow
    rcases hrooted with ⟨-, hsame⟩ | ⟨-, hroot', -⟩
    · rw [hsame]
      exact hrow
    · exact find_of_insert hroot' hrow
  refine ⟨⟨IsTrans.trans _ _ _ (keeps_ensureRoot founded_insertQuota hroot)
    (keeps_createDirectories (R := Founded) hfolder), fun k => ?_, ⟨howner, hnone, hlive⟩, ?_, ?_,
    ⟨?_, ?_⟩, fun n hn hp hnlive hsame => ?_⟩, createDirectories_sane hs hfound hlive (howner ▸ hfolder)⟩
  · rw [Table.find_insert hins]
    split_ifs with hk hk'
    · rfl
    · rw [hk', hfound]
    · rcases hrooted with ⟨-, hsame⟩ | ⟨-, hroot', -⟩
      · rw [hsame]
      · rw [Table.find_insert hroot', if_neg hk']
  · exact hrooted.imp And.left fun hmade => ⟨hmade.1, (Table.insert_eq_some hmade.2.1).1⟩
  · rw [hnode]
    exact ⟨rfl, rfl, rfl, rfl⟩
  · rw [Option.eq_none_iff_forall_ne_some]
    intro row hrow
    rw [hold hrow] at hnew
    cases hnew
  · intro hsame
    rw [hsame, hfound] at hnew
    cases hnew
  · have hmem := Table.find_mem (hold (Table.mem_iff_find.mp hn))
    rw [child_eq_none hfree n hmem hp (by rw [hsame, hnode])] at hnlive
    cases hnlive

namespace Hosted

variable {recipientId : Uuid}

theorem find (h : Hosted recipientId root folder s s') (hrow : s.nodes.find k = some row) :
    s'.nodes.find k = some row := by
  rw [h.nodes]
  split_ifs with hk hk'
  · rw [hk, h.fresh.1] at hrow
    cases hrow
  · rcases h.rooted with hroot | ⟨-, hnone⟩
    · rw [hk', (mem_rootOf hroot).1] at hrow
      exact hrow
    · rw [hk', hnone] at hrow
      cases hrow
  · exact hrow

theorem find_root (h : Hosted recipientId root folder s s') :
    s'.nodes.find root.id = some root := by
  rw [h.nodes, if_neg h.fresh.2.symm, if_pos rfl]

theorem find_folder (h : Hosted recipientId root folder s s') :
    s'.nodes.find folder.id = some folder := by
  rw [h.nodes, if_pos rfl]

theorem find_back (h : Hosted recipientId root folder s s')
    (hrow : s'.nodes.find k = some row) : row = folder ∨ row = root ∨ s.nodes.find k = some row := by
  rw [h.nodes] at hrow
  split_ifs at hrow with hk hk'
  · exact Or.inl (Option.some.inj hrow).symm
  · exact Or.inr (Or.inl (Option.some.inj hrow).symm)
  · exact Or.inr (Or.inr hrow)

end Hosted

/-! ## The tree is handed over -/

section

variable {leavingId recipientId folderId : Uuid} {m₁ m₂ m₃ : Db}

/-- What a tree handed over leaves: its nodes in the folder, its bytes with the recipient. -/
structure Settled (leavingId recipientId oldRoot folderId : Uuid) (s s' : Store) : Prop where
  rest : s' = { s with nodes := s'.nodes, blobs := s'.blobs, quotas := s'.quotas }
  nodes : HandedOver leavingId recipientId oldRoot folderId s.nodes s'.nodes
  bytesUsed : ∀ o, s'.bytesUsed o = s.bytesUsed o + bytes recipientId (s.bytesUsed leavingId) o
  refCount : ∀ b, s'.refCount b = s.refCount b
  kept : Upkept none s s'

/-- **The end of `hand_over`.** -/
theorem settle_returns {used : Int}
    (hnodes : m₁.toStore = { db.toStore with
      nodes := db.nodes.update (fun n => n.parentId = some oldRoot)
        (fun n => { n with parentId := some folderId }) fun _ => rfl })
    (howners : m₂.toStore = { m₁.toStore with
      nodes := m₁.nodes.update (fun n => n.ownerId = leavingId && n.id ≠ oldRoot)
        (fun n => { n with ownerId := recipientId }) fun _ => rfl })
    (hused : used = db.bytesUsed leavingId)
    (hcharge : (chargeQuota recipientId used).Returns m₂ u db') :
    Settled leavingId recipientId oldRoot folderId db.toStore db'.toStore := by
  have hmid : m₂.toStore = { db.toStore with nodes := m₂.nodes } := by
    rw [howners, hnodes]
  obtain ⟨hledger, hbooked⟩ := chargeQuota_ledger (ledger_any m₂.toStore) hcharge
  have hused₂ : ∀ o, m₂.bytesUsed o = db.bytesUsed o := fun o => by rw [hmid]; rfl
  refine ⟨?_, ?_, fun o => ?_, fun b => ?_, ?_⟩
  · rw [hbooked, hmid]
  · rw [hbooked.nodes, howners, hnodes]
    exact handedOver_updates db.nodes
  · have hbook := hledger.bytesUsed o
    rw [hbooked.usage, hused₂, hused] at hbook
    omega
  · have hbook := hledger.refCount b
    rw [hbooked.references] at hbook
    have hsame : m₂.refCount b = db.refCount b := by rw [hmid]; rfl
    omega
  · have hcharged : Upkept none m₂.toStore db'.toStore := keeps_chargeQuota hcharge
    rw [hmid] at hcharged
    exact IsTrans.trans _ _ _ (Planting.nodes db.toStore m₂.nodes) hcharged

namespace Settled

variable (h : Settled leavingId recipientId oldRoot folderId db.toStore db'.toStore)
  (hand : Handing leavingId recipientId oldRoot folderId db.nodes)

include h hand

/-- **What holds of a tree that is handed over.** -/
theorem toLeaving (hs : Sane db.toStore) :
    Leaving leavingId (db.bytesUsed leavingId) db'.toStore := by
  have hversions : db'.versions = db.versions := by rw [h.rest]
  have hthumbnails : db'.thumbnails = db.thumbnails := by rw [h.rest]
  have hnow : db'.now = db.now := by rw [h.rest]
  obtain ⟨top, htop, htlive, -, htowner⟩ := hand.folder
  have hquota := (Backed.quota hs.backed htop)
  rw [htowner] at hquota
  refine ⟨hand.wellFormed hs.forest h.nodes, ⟨fun b => ?_, fun o => ?_⟩, ⟨fun hrow => ?_,
    fun hv hrow => ?_⟩, h.kept.marks none hs.marked, ⟨fun hrow hd => ?_,
      fun {k row p above d d'} hrow hp habove hd hd' => ?_⟩, fun hrow hp => ?_⟩
  · rw [h.refCount, h.nodes.references hversions hthumbnails]
    exact hs.books.refCount b
  · have hown := hs.books.bytesUsed
    rw [h.bytesUsed, hand.usage hs.forest hs.backed h.nodes hversions, hown o, hown leavingId]
    have hne := hand.distinct
    unfold bytes
    split_ifs <;> grind
  · obtain ⟨r, hr, rfl⟩ := h.nodes.back hrow
    refine h.kept.quotas _ ?_
    show (db.quotas.find (newOwner leavingId recipientId oldRoot r)).isSome = true
    unfold newOwner
    split_ifs
    · exact hquota
    · exact hs.backed.quota hr
  · obtain ⟨r, hr, rfl⟩ := h.nodes.back hrow
    rw [hversions] at hv
    have hfile := hs.backed.file hv hr
    exact hfile
  · obtain ⟨r, hr, rfl⟩ := h.nodes.back hrow
    rw [hnow]
    exact hs.dated.past hr hd
  · obtain ⟨r, hr, rfl⟩ := h.nodes.back hrow
    obtain ⟨a, ha, rfl⟩ := h.nodes.back habove
    by_cases hold : r.parentId = some oldRoot
    · -- the folder is live
      simp only [handedOver, if_pos hold, Option.some.injEq] at hp
      subst hp
      rw [htop] at ha
      cases ha
      have hdead : top.trashed = some d' := hd'
      rw [WellFormed.live_iff.mp htlive] at hdead
      cases hdead
    · simp only [handedOver, if_neg hold] at hp
      exact hs.dated.order hr hp ha hd hd'
  · obtain ⟨r, hr, rfl⟩ := h.nodes.back hrow
    have hname := hs.named hr fun hnone => hp (by simp [handedOver, hnone])
    exact hname

end Settled

/-- **`hand_over`**, of the tree below a root. -/
theorem handOverTree_returns {top : Node} (hs : Sane db.toStore)
    (hroot : db.nodes.find oldRoot = some top) (hnone : top.parentId = none)
    (howner : top.ownerId = leaving.id) (hne : leaving.id ≠ recipient.id)
    (hx : (handOverTree leaving recipient oldRoot quota).Returns db u db') :
    ∃ (root folder : Node) (m : Db),
      Hosted recipient.id root folder db.toStore m.toStore ∧ Sane m.toStore ∧
        Handing leaving.id recipient.id oldRoot folder.id m.nodes ∧
          Settled leaving.id recipient.id oldRoot folder.id m.toStore db'.toStore := by
  obtain ⟨root, m₁, hensure, hx⟩ := bind_returns.mp hx
  obtain ⟨name, m₂, hname, hx⟩ := bind_returns.mp hx
  obtain ⟨folder, m₃, hfolder, hx⟩ := bind_returns.mp hx
  obtain ⟨_, m₄, hnodes, hx⟩ := bind_returns.mp hx
  obtain ⟨_, m₅, howners, hx⟩ := bind_returns.mp hx
  obtain ⟨used, m₆, hread, hcharge⟩ := bind_returns.mp hx
  obtain ⟨hused, rfl⟩ := query_returns.mp hread
  obtain ⟨hhost, hs₃⟩ := host_returns hs hensure hname hfolder
  have hnodes := execute_returns.mp hnodes
  have howners := execute_returns.mp howners
  refine ⟨root, folder, m₃, hhost, hs₃, ⟨⟨top, ?_, hnone, howner⟩, ⟨folder, ?_, ?_⟩, hne⟩,
    settle_returns hnodes howners ?_ hcharge⟩
  · rw [hhost.nodes, if_neg, if_neg, hroot]
    · rintro rfl
      rcases hhost.rooted with hold | ⟨-, hmade⟩
      · rw [(mem_rootOf hold).1] at hroot
        cases hroot
        exact hne (howner.symm.trans hhost.top.1)
      · rw [hmade] at hroot
        cases hroot
    · rintro rfl
      rw [hhost.fresh.1] at hroot
      cases hroot
  · rw [hhost.nodes, if_pos rfl]
  · exact ⟨hhost.made.2.2.2, hhost.made.2.2.1, hhost.made.1⟩
  · rw [hused, howners, hnodes]
    unfold Store.bytesUsed Table.value
    cases m₃.quotas.find leaving.id <;> rfl

end

/-! ## The departure -/

theorem userById_returns {user : User} :
    (userById id).Returns db user db' ↔ db.users.find id = some user ∧ db = db' := by
  unfold userById
  simp only [bind_returns, query_returns, orFail_returns]
  constructor
  · rintro ⟨_, _, ⟨rfl, rfl⟩, h⟩
    exact h
  · exact fun h => ⟨_, _, ⟨rfl, rfl⟩, h⟩

theorem oldRootOf_eq_some {top : Node} (h : s.oldRootOf id = some top) :
    s.nodes.find top.id = some top ∧ top.ownerId = id ∧ top.parentId = none := by
  have hp := List.find?_some h
  simp only [Bool.and_eq_true, decide_eq_true_eq] at hp
  exact ⟨Table.mem_iff_find.mp (List.mem_of_find?_eq_some h), hp⟩

/-- **`remove`**, its end taken together. -/
theorem removeAccount_returns {receiver : Option Uuid}
    (hx : (removeAccount id receiver quota).Returns db u db') : ∃ leaving purged m₁ m₂,
      db.users.find id = some leaving ∧ leaving.id = id ∧
        (emptyTrash id).Returns db purged m₁ ∧
          (handOverTo leaving quota receiver).Returns m₁ () m₂ ∧
            ∀ owed, Leaving id owed m₂.toStore →
              Sane db'.toStore ∧ Left id m₂.toStore db'.toStore := by
  obtain ⟨leaving, m, hleaving, hx⟩ := bind_returns.mp hx
  obtain ⟨hfind, rfl⟩ := userById_returns.mp hleaving
  obtain ⟨purged, m₁, hempty, hx⟩ := bind_returns.mp hx
  obtain ⟨_, m₂, hhand, hx⟩ := bind_returns.mp hx
  obtain ⟨held, m, hheld, hx⟩ := bind_returns.mp hx
  obtain ⟨rfl, rfl⟩ := query_returns.mp hheld
  obtain ⟨_, m₃, hgrants, hx⟩ := bind_returns.mp hx
  obtain ⟨_, m₄, hdelete, hrelease⟩ := bind_returns.mp hx
  exact ⟨leaving, purged, m₁, m₂, hfind, Table.find_key hfind, hempty, hhand, fun owed h =>
    leave_sane h (execute_returns.mp hgrants) (execute_returns.mp hdelete) hrelease⟩

/-- What a hand-over does before its account goes. -/
inductive Handled (leaving : User) (quota : Int) : Option Uuid → Db → Db → Prop
  | nobody (db : Db) : Handled leaving quota none db db
  | nothing {db : Db} {recipient : User} (hfind : db.users.find recipient.id = some recipient)
      (hempty : db.oldRootOf leaving.id = none) : Handled leaving quota (some recipient.id) db db
  | tree {db db' : Db} {recipient : User} {top : Node}
      (hfind : db.users.find recipient.id = some recipient)
      (htop : db.oldRootOf leaving.id = some top)
      (hx : (handOverTree leaving recipient top.id quota).Returns db () db') :
      Handled leaving quota (some recipient.id) db db'

theorem handOverTo_returns {receiver : Option Uuid}
    (hx : (handOverTo leaving quota receiver).Returns db () db') :
    Handled leaving quota receiver db db' := by
  cases receiver with
  | none =>
    obtain ⟨-, rfl⟩ := pure_returns.mp hx
    exact .nobody _
  | some recipientId =>
    obtain ⟨recipient, m, hfound, hx⟩ := bind_returns.mp hx
    obtain ⟨hfind, rfl⟩ := userById_returns.mp hfound
    have hid : recipient.id = recipientId := Table.find_key hfind
    obtain ⟨-, hx⟩ := of_guard hx
    obtain ⟨top, m, hread, hx⟩ := bind_returns.mp hx
    obtain ⟨htop, rfl⟩ := query_returns.mp hread
    subst hid
    cases top with
    | none =>
      obtain ⟨-, rfl⟩ := pure_returns.mp hx
      exact .nothing hfind htop.symm
    | some top => exact .tree hfind htop.symm hx

/-- **`departure::remove`.** -/
theorem removeAccount_sane {receiver : Option Uuid} (hs : Sane db.toStore)
    (hne : receiver ≠ some id) (hx : (removeAccount id receiver quota).Returns db u db') :
    Sane db'.toStore := by
  obtain ⟨leaving, purged, m₁, m₂, -, rfl, hempty, hhand, hend⟩ := removeAccount_returns hx
  have hs₁ := emptyTrash_sane hs hempty
  cases handOverTo_returns hhand with
  | nobody => exact (hend 0 hs₁.toLeaving).1
  | nothing => exact (hend 0 hs₁.toLeaving).1
  | tree hfind htop htree =>
    obtain ⟨htop, howner, hnone⟩ := oldRootOf_eq_some htop
    obtain ⟨root, folder, m, -, hs, hand, hsettled⟩ := handOverTree_returns hs₁ htop hnone howner
      (fun hsame => hne (by rw [hsame])) htree
    exact (hend _ (hsettled.toLeaving hand hs)).1

end Stashden.Api
