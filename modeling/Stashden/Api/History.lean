import Stashden.Api.Refunds
import Stashden.Api.System

/-!
# The history of a file (`api/src/versions.rs`, `api/src/db.rs`)

`put_file` on a file works on the quota of its owner and on the versions of the file. `Stands` is what
it sees of both, beside the tables it started from; the lemmas `*_stands` say what each statement makes
of it. `putFile_keeps_replaced`, `putFile_drops_all` and `putFile_replaces` put them together: what
`put_file` leaves of the history, and when the quota stops it.
-/

namespace Stashden.Api

open Lib Stashden.Core Tx

variable {s s' base : Store} {db db' m : Db} {ownerId nodeId id : Uuid} {hash oldHash : BlobHash}
  {size : Nat} {used max delta left previousSize versionsKept : Int}
  {held kept gone oldest rest : List Version} {parent node old : Node} {name : NodeName} {u : Unit}

/-- A transaction has one outcome. -/
theorem Tx.Returns.unique {α : Type} {x : Tx α} {a a' : α} (h : x.Returns db a m)
    (h' : x.Returns db a' db') : a = a' ∧ m = db' := by
  have heq := h.symm.trans h'
  exact Prod.mk.inj (Except.ok.inj heq)

/-! ## The order of the versions -/

/-- **Newest first.** -/
theorem versionsOf_pairwise (s : Store) (nodeId : Uuid) :
    (s.versionsOf nodeId).Pairwise fun v w => w.id < v.id := by
  have : Std.Total fun v w : Version => w.id ≤ v.id := ⟨fun v w => le_total w.id v.id⟩
  have : IsTrans Version fun v w => w.id ≤ v.id := ⟨fun _ _ _ h h' => le_trans h' h⟩
  have hsorted := List.pairwise_insertionSort (fun v w : Version => w.id ≤ v.id)
    (s.versions.select (·.nodeId = nodeId))
  have hne : (s.versionsOf nodeId).Pairwise fun v w => v.id ≠ w.id :=
    List.pairwise_map.mp (versionsOf_nodup s nodeId)
  exact (List.Pairwise.and hsorted hne).imp fun h => lt_of_le_of_ne h.1 h.2.symm

/-- The versions are known by their order and their members. -/
theorem versionsOf_eq (hordered : held.Pairwise fun v w => w.id < v.id)
    (hmem : ∀ v, v ∈ held ↔ v ∈ s.versions.rows ∧ v.nodeId = nodeId) :
    s.versionsOf nodeId = held := by
  have hnodup : ∀ {l : List Version}, l.Pairwise (fun v w => w.id < v.id) → l.Nodup :=
    fun h => h.imp fun hlt heq => absurd hlt (by rw [heq]; exact lt_irrefl _)
  have hperm : (s.versionsOf nodeId).Perm held :=
    (List.perm_ext_iff_of_nodup (hnodup (versionsOf_pairwise s nodeId)) (hnodup hordered)).mpr
      fun v => by rw [mem_versionsOf, hmem]
  exact hperm.eq_of_pairwise (fun v w _ _ h h' => absurd h (not_lt.mpr h'.le))
    (versionsOf_pairwise s nodeId) hordered

theorem versionsOf_congr (h : s'.versions = s.versions) (nodeId : Uuid) :
    s'.versionsOf nodeId = s.versionsOf nodeId := by
  unfold Store.versionsOf
  rw [h]

theorem versionsOf_delete {ids : List Uuid}
    (h : s'.versions = s.versions.delete fun v => v.id ∈ ids) (nodeId : Uuid) :
    s'.versionsOf nodeId = (s.versionsOf nodeId).filter fun v => v.id ∉ ids := by
  refine versionsOf_eq ((versionsOf_pairwise s nodeId).filter _) fun v => ?_
  rw [List.mem_filter, mem_versionsOf, h, Table.mem_delete, decide_eq_true_eq,
    decide_eq_false_iff_not]
  exact and_right_comm

/-- **The oldest dropped.** -/
theorem versionsOf_dropped (hheld : s.versionsOf nodeId = kept ++ gone)
    (h : s'.versions = s.versions.delete fun v => v.id ∈ gone.map Version.id) :
    s'.versionsOf nodeId = kept := by
  have hnodup := versionsOf_nodup s nodeId
  rw [hheld, List.map_append, List.nodup_append] at hnodup
  rw [versionsOf_delete h, hheld, List.filter_append, List.filter_eq_self.mpr fun v hv => ?_,
    List.filter_eq_nil_iff.mpr fun v hv => ?_, List.append_nil]
  · rw [decide_eq_true_eq, not_not]
    exact List.mem_map_of_mem hv
  · rw [decide_eq_true_eq]
    exact fun hgone => hnodup.2.2 _ (List.mem_map_of_mem hv) _ hgone rfl

theorem versionsOf_dropped_other (hgone : ∀ v ∈ gone, v ∈ s.versionsOf nodeId)
    (h : s'.versions = s.versions.delete fun v => v.id ∈ gone.map Version.id) {k : Uuid}
    (hk : k ≠ nodeId) : s'.versionsOf k = s.versionsOf k := by
  rw [versionsOf_delete h, List.filter_eq_self.mpr fun v hv => ?_]
  rw [decide_eq_true_eq]
  intro hid
  obtain ⟨w, hw, hsame⟩ := List.mem_map.mp hid
  obtain ⟨hrow, hof⟩ := mem_versionsOf.mp hv
  obtain ⟨hrow', hof'⟩ := mem_versionsOf.mp (hgone w hw)
  exact hk (by rw [← hof, ← Table.eq_of_key hrow' hrow hsame, hof'])

/-- **A version is new at the top.** -/
theorem versionsOf_insert {v : Version} (hins : s.versions.insert v = some s'.versions)
    (hnew : ∀ w ∈ s.versions.rows, w.id < v.id) :
    s'.versionsOf v.nodeId = v :: s.versionsOf v.nodeId := by
  refine versionsOf_eq (List.pairwise_cons.mpr ⟨fun w hw => ?_, versionsOf_pairwise _ _⟩) fun w => ?_
  · exact hnew w (mem_versionsOf.mp hw).1
  · rw [List.mem_cons, mem_versionsOf, (Table.insert_eq_some hins).2, List.mem_append,
      List.mem_singleton]
    constructor
    · rintro (rfl | ⟨hrow, hof⟩)
      · exact ⟨Or.inr rfl, rfl⟩
      · exact ⟨Or.inl hrow, hof⟩
    · rintro ⟨hrow | rfl, hof⟩
      · exact Or.inr ⟨hrow, hof⟩
      · exact Or.inl rfl

theorem versionsOf_insert_other {v : Version} (hins : s.versions.insert v = some s'.versions)
    {k : Uuid} (hk : k ≠ v.nodeId) : s'.versionsOf k = s.versionsOf k := by
  refine versionsOf_eq (versionsOf_pairwise _ _) fun w => ?_
  rw [mem_versionsOf, (Table.insert_eq_some hins).2, List.mem_append, List.mem_singleton]
  constructor
  · exact fun h => ⟨Or.inl h.1, h.2⟩
  · rintro ⟨hrow | rfl, hof⟩
    · exact ⟨hrow, hof⟩
    · exact absurd hof.symm hk

theorem sizes_append (kept gone : List Version) :
    sizes (kept ++ gone) = sizes kept + sizes gone := by
  unfold sizes
  rw [List.map_append, List.sum_append]

theorem sizes_reverse (held : List Version) : sizes held.reverse = sizes held := by
  unfold sizes
  rw [List.map_reverse, List.sum_reverse]

theorem sizes_nonneg (h : ∀ v ∈ held, 0 ≤ v.size) : 0 ≤ sizes held := by
  refine List.sum_nonneg fun x hx => ?_
  obtain ⟨v, hv, rfl⟩ := List.mem_map.mp hx
  exact h v hv

/-- The bytes of a file's versions, of the constraint on each. -/
theorem size_nonneg_of_held {v : Version} (hv : v ∈ db.versionsOf nodeId) : 0 ≤ v.size :=
  (db.sound .versionsForeign v (mem_versionsOf.mp hv).1).2.2

theorem heldBy_eq (s : Store) (nodeId : Uuid) :
    s.versionsUnder [nodeId] = sizes (s.versionsOf nodeId) := by
  have hselect : s.versions.select (fun v => decide (v.nodeId ∈ [nodeId])) =
      s.versions.select fun v => decide (v.nodeId = nodeId) := by
    unfold Table.select
    refine List.filter_congr fun v _ => decide_eq_decide.mpr List.mem_singleton
  unfold Store.versionsUnder sizes Store.versionsOf
  rw [hselect]
  exact (((List.perm_insertionSort _ _).map Version.size).sum_eq).symm

/-- What an account is charged for a file of its own. -/
theorem held_within (hs : Sane db.toStore) (hmem : old ∈ db.nodes.rows) (hlive : old.live = true) :
    old.size + sizes (db.versionsOf old.id) ≤ db.bytesUsed old.ownerId := by
  have hsize : ∀ n : Node, 0 ≤ n.size := by
    intro n
    unfold Node.size
    split
    · exact le_rfl
    · exact Int.natCast_nonneg _
  have hnodes : old.size ≤ db.nodes.total fun n =>
      if n.ownerId = old.ownerId && n.live then n.size else 0 := by
    have hone := total_pos (f := fun n : Node => if n.ownerId = old.ownerId && n.live then n.size
      else 0) (fun n _ => by split_ifs; exacts [hsize n, le_rfl]) hmem
    rw [if_pos (by rw [decide_eq_true rfl, hlive]; rfl)] at hone
    exact hone
  have hversions : sizes (db.versionsOf old.id) ≤ db.versions.total fun v =>
      if db.chargedTo old.ownerId v.nodeId then v.size else 0 := by
    rw [← heldBy_eq, versionsUnder_eq]
    refine List.sum_le_sum fun v hv => ?_
    have hv := (db.sound .versionsForeign v hv).2.2
    split_ifs with hof hcharged
    · exact le_rfl
    · rw [List.mem_singleton.mp hof, chargedTo_eq (Table.mem_iff_find.mp hmem) hlive,
        decide_eq_true rfl] at hcharged
      exact absurd rfl hcharged
    · exact hv
    · exact le_rfl
  have hbooks := hs.books.bytesUsed old.ownerId
  unfold Store.usage at hbooks
  omega

/-- **The account of a folder**: what it is charged covers each of its files with its versions. -/
theorem Reached.account (h : Reached db) (hparent : db.liveNode parent.id = some parent) :
    ∃ used max, db.quotas.find parent.ownerId = some ⟨parent.ownerId, used, max⟩ ∧ 0 ≤ used ∧
      ∀ {str old}, db.child parent.id str = some old →
        old.size + sizes (db.versionsOf old.id) ≤ used := by
  have hs := h.sane
  obtain ⟨hrow, -⟩ := liveNode_eq_some.mp hparent
  obtain ⟨⟨o, used, max⟩, hquota⟩ := Option.isSome_iff_exists.mp (hs.backed.quota hrow)
  obtain rfl : o = parent.ownerId := Table.find_key hquota
  refine ⟨used, max, hquota, (db.sound .quotasCheck _ (Table.find_mem hquota)).2.1,
    fun {str old} hold => ?_⟩
  obtain ⟨hmem, hp, -, hlive⟩ := child_eq_some hold
  obtain ⟨above, habove, -, howner, -⟩ := hs.forest.parent (Table.mem_iff_find.mp hmem) hp
  rw [hrow] at habove
  cases habove
  have hwithin := held_within hs hmem hlive
  rwa [← howner, show db.bytesUsed parent.ownerId = used from Table.value_of_find hquota]
    at hwithin

/-! ## What `put_file` sees -/

/-- The quota of an account and the versions of one of its files, newest first, in tables that come
from `base`. -/
structure Stands (base : Store) (ownerId nodeId : Uuid) (used max : Int) (held : List Version)
    (s : Store) : Prop where
  quota : s.quotas.find ownerId = some ⟨ownerId, used, max⟩
  held : s.versionsOf nodeId = held
  others : ∀ k, k ≠ nodeId → s.versionsOf k = base.versionsOf k
  nodes : s.nodes = base.nodes

theorem Stands.frame (h : Stands base ownerId nodeId used max held s)
    (hquotas : s'.quotas = s.quotas) (hversions : s'.versions = s.versions)
    (hnodes : s'.nodes = s.nodes) : Stands base ownerId nodeId used max held s' where
  quota := hquotas ▸ h.quota
  held := (versionsOf_congr hversions _).trans h.held
  others k hk := (versionsOf_congr hversions k).trans (h.others k hk)
  nodes := hnodes.trans h.nodes

theorem chargeQuota_stands (delta : Int) (h : Stands base ownerId nodeId used max held db.toStore)
    (hcharge : delta = 0 ∨ 0 ≤ used + delta ∧ used + delta ≤ max) :
    ∃ db', (chargeQuota ownerId delta).Returns db () db' ∧
      Stands base ownerId nodeId (used + delta) max held db'.toStore := by
  obtain ⟨db', hx⟩ := chargeQuota_succeeds (hcharge.imp_right fun hroom => ⟨_, h.quota, hroom⟩)
  obtain ⟨-, hbooked⟩ := chargeQuota_ledger (ledger_any db.toStore) hx
  refine ⟨db', hx, ?_, (versionsOf_congr hbooked.versions _).trans h.held,
    fun k hk => (versionsOf_congr hbooked.versions k).trans (h.others k hk),
    hbooked.nodes.trans h.nodes⟩
  rw [chargeQuota_find hx, h.quota, Option.map_some, if_pos rfl]

theorem tryCharge_stands (delta : Int) (h : Stands base ownerId nodeId used max held db.toStore)
    (hcharge : delta = 0 ∨ 0 ≤ used + delta ∧ used + delta ≤ max) :
    ∃ db', (tryCharge ownerId delta).Returns db true db' ∧
      Stands base ownerId nodeId (used + delta) max held db'.toStore := by
  obtain ⟨db', hx, h'⟩ := chargeQuota_stands delta h hcharge
  obtain ⟨ok, m, htry, hx⟩ := bind_returns.mp hx
  cases ok with
  | false => exact absurd hx fail_returns
  | true =>
    obtain ⟨-, rfl⟩ := pure_returns.mp hx
    exact ⟨m, htry, h'⟩

/-- What does not fit is not charged. -/
theorem tryCharge_refused (h : ¬ Fits db.toStore ownerId delta) :
    (tryCharge ownerId delta).Returns db false db := by
  unfold Fits at h
  rw [not_or] at h
  unfold tryCharge
  rw [if_neg h.1]
  exact charged_refused h.2

theorem Stands.not_fits (h : Stands base ownerId nodeId used max held s) (hzero : delta ≠ 0)
    (hover : max < used + delta) : ¬ Fits s ownerId delta := by
  rintro (hno | ⟨q, hq, hroom⟩)
  · exact hzero hno
  · rw [h.quota] at hq
    cases hq
    exact absurd hroom (not_le.mpr hover)

/-- **Versions dropped, released and credited.** -/
theorem drop_stands (h : Stands base ownerId nodeId used max (kept ++ gone) db.toStore)
    (hlow : 0 ≤ used - sizes gone) (hmax : used - sizes gone ≤ max) :
    ∃ m m' db', (deleteVersions (gone.map Version.id)).Returns db () m ∧
      (release gone).Returns m (sizes gone) m' ∧
      (chargeQuota ownerId (-sizes gone)).Returns m' () db' ∧
      Stands base ownerId nodeId (used - sizes gone) max kept db'.toStore := by
  obtain ⟨m, hm⟩ := deleteVersions_succeeds (gone.map Version.id) db
  obtain ⟨m', hm'⟩ := release_succeeds gone m
  have hs := execute_returns.mp hm
  have hversions : m.versions = db.versions.delete fun v => v.id ∈ gone.map Version.id := by rw [hs]
  have hgone : ∀ v ∈ gone, v ∈ db.versionsOf nodeId := fun v hv => by
    rw [h.held]
    exact List.mem_append_right kept hv
  have hdropped : Stands base ownerId nodeId used max kept m.toStore :=
    ⟨by rw [hs]; exact h.quota, versionsOf_dropped h.held hversions,
      fun k hk => (versionsOf_dropped_other hgone hversions hk).trans (h.others k hk),
      by rw [hs]; exact h.nodes⟩
  have hbooked : Booked m.toStore m'.toStore := booked_release hm'
  have hreleased := hdropped.frame (sameQuotas_release hm') hbooked.versions hbooked.nodes
  obtain ⟨db', hx, h'⟩ := chargeQuota_stands (-sizes gone) hreleased
    (Or.inr ⟨by omega, by omega⟩)
  exact ⟨m, m', db', hm, hm', hx, h'⟩

theorem dropOldest_stands {v : Version}
    (h : Stands base ownerId nodeId used max (kept ++ [v]) db.toStore)
    (hlow : 0 ≤ used - v.size) (hmax : used - v.size ≤ max) :
    ∃ db', (dropOldest ownerId nodeId).Returns db true db' ∧
      Stands base ownerId nodeId (used - v.size) max kept db'.toStore := by
  have hsize : sizes [v] = v.size := add_zero _
  obtain ⟨m, m', db', hm, hm', hx, h'⟩ := drop_stands h (by omega) (by omega)
  rw [hsize] at hm' hx h'
  refine ⟨db', bind_returns.mpr ⟨some v, db, query_returns.mpr ⟨?_, rfl⟩, ?_⟩, h'⟩
  · rw [h.held, List.getLast?_concat]
  · exact bind_returns.mpr ⟨(), m, hm, bind_returns.mpr ⟨_, m', hm', bind_returns.mpr
      ⟨(), db', hx, pure_returns.mpr ⟨rfl, rfl⟩⟩⟩⟩

theorem dropOldest_empty (h : db.versionsOf nodeId = []) :
    (dropOldest ownerId nodeId).Returns db false db :=
  bind_returns.mpr ⟨none, db, query_returns.mpr ⟨by rw [h]; rfl, rfl⟩, pure_returns.mpr ⟨rfl, rfl⟩⟩

theorem pruneBeyond_stands (versionsKept : Int)
    (h : Stands base ownerId nodeId used max held db.toStore)
    (hlow : sizes (held.drop versionsKept.toNat) ≤ used)
    (hmax : used - sizes (held.drop versionsKept.toNat) ≤ max) :
    ∃ db', (pruneBeyond ownerId nodeId versionsKept).Returns db () db' ∧
      Stands base ownerId nodeId (used - sizes (held.drop versionsKept.toNat)) max
        (held.take versionsKept.toNat) db'.toStore := by
  rw [← List.take_append_drop versionsKept.toNat held] at h
  obtain ⟨m, m', db', hm, hm', hx, h'⟩ := drop_stands h (by omega) (by omega)
  refine ⟨db', bind_returns.mpr ⟨_, db, query_returns.mpr ⟨rfl, rfl⟩, ?_⟩, h'⟩
  rw [h.held, List.take_append_drop]
  exact bind_returns.mpr ⟨(), m, hm, bind_returns.mpr ⟨_, m', hm', hx⟩⟩

/-! ## `make_room` -/

/-- The versions `make_room` leaves, oldest first, of those it finds: it drops one where what is left
of the quota does not take the new bytes. -/
def spared (left size : Int) : List Version → Option (List Version)
  | [] => if size ≤ left then some [] else none
  | oldest :: newer =>
    if size ≤ left then some (oldest :: newer) else spared (left + oldest.size) size newer

theorem spared_of_fits {size : Int} (h : size ≤ left) : spared left size oldest = some oldest := by
  cases oldest with
  | nil => exact if_pos h
  | cons v newer => exact if_pos h

/-- **No version is dropped in vain.** -/
theorem spared_some {size : Int} (h : spared left size oldest = some rest) :
    ∃ n ≤ oldest.length, rest = oldest.drop n ∧ size ≤ left + sizes (oldest.take n) ∧
      ∀ k < n, left + sizes (oldest.take k) < size := by
  induction oldest generalizing left with
  | nil =>
    unfold spared at h
    split_ifs at h with hfits
    cases h
    exact ⟨0, le_rfl, rfl, by simpa [sizes] using hfits, fun k hk => absurd hk (Nat.not_lt_zero k)⟩
  | cons v newer ih =>
    unfold spared at h
    split_ifs at h with hfits
    · cases h
      exact ⟨0, Nat.zero_le _, rfl, by simpa [sizes] using hfits,
        fun k hk => absurd hk (Nat.not_lt_zero k)⟩
    · obtain ⟨n, hn, hrest, hroom, hvain⟩ := ih h
      have hstep : ∀ k, sizes ((v :: newer).take (k + 1)) = v.size + sizes (newer.take k) :=
        fun _ => rfl
      refine ⟨n + 1, Nat.succ_le_succ hn, hrest, by rw [hstep]; omega, fun k hk => ?_⟩
      cases k with
      | zero => simpa [sizes] using not_le.mp hfits
      | succ k =>
        have hk' := hvain k (Nat.lt_of_succ_lt_succ hk)
        rw [hstep]
        omega

theorem spared_none {size : Int} (h : spared left size oldest = none) :
    ∀ k ≤ oldest.length, left + sizes (oldest.take k) < size := by
  induction oldest generalizing left with
  | nil =>
    unfold spared at h
    split_ifs at h with hfits
    intro k _
    simpa [sizes] using not_le.mp hfits
  | cons v newer ih =>
    unfold spared at h
    split_ifs at h with hfits
    intro k hk
    cases k with
    | zero => simpa [sizes] using not_le.mp hfits
    | succ k =>
      have hk' := ih h k (Nat.le_of_succ_le_succ hk)
      have hstep : sizes ((v :: newer).take (k + 1)) = v.size + sizes (newer.take k) := rfl
      omega

/-- One version dropped, for bytes that do not fit. -/
theorem makeRoomIn_drops {v : Version} (size : Nat) (previousSize : Int) (rounds : Nat)
    (h : Stands base ownerId nodeId used max (kept ++ [v]) db.toStore)
    (hover : max < used + size) (hmax : used ≤ max) (hv : 0 ≤ v.size) (hlow : v.size ≤ used) :
    ∃ m, Stands base ownerId nodeId (used - v.size) max kept m.toStore ∧
      makeRoomIn ownerId nodeId size previousSize (rounds + 1) db =
        makeRoomIn ownerId nodeId size previousSize rounds m := by
  obtain ⟨m, hm, h'⟩ := dropOldest_stands h (by omega) (by omega)
  refine ⟨m, h', ?_⟩
  rw [makeRoomIn, bind_of_returns (tryCharge_refused (h.not_fits (by omega) hover)),
    if_neg Bool.false_ne_true, bind_of_returns hm, if_pos rfl]

/-- **Room is made** where the bytes fit beside what `make_room` spares. -/
theorem makeRoomIn_spares (previousSize : Int) {rounds : Nat}
    (h : Stands base ownerId nodeId used max oldest.reverse db.toStore)
    (hspared : spared (max - used) size oldest = some rest) (hrounds : oldest.length < rounds)
    (hmax : used ≤ max) (hnonneg : ∀ v ∈ oldest, 0 ≤ v.size) (hlow : sizes oldest ≤ used) :
    ∃ db', (makeRoomIn ownerId nodeId size previousSize rounds).Returns db true db' ∧
      Stands base ownerId nodeId (used - (sizes oldest - sizes rest) + size) max rest.reverse
        db'.toStore := by
  induction oldest generalizing db used rounds with
  | nil =>
    unfold spared at hspared
    split_ifs at hspared with hfits
    cases hspared
    obtain ⟨rounds, rfl⟩ := Nat.exists_eq_add_one_of_ne_zero hrounds.ne_bot
    obtain ⟨db', hx, h'⟩ := tryCharge_stands size h
      (Or.inr ⟨by simp only [sizes, List.map_nil, List.sum_nil] at hlow; omega, by omega⟩)
    refine ⟨db', bind_returns.mpr ⟨true, db', hx, pure_returns.mpr ⟨rfl, rfl⟩⟩, ?_⟩
    rw [sub_self, sub_zero]
    exact h'
  | cons v newer ih =>
    obtain ⟨rounds, rfl⟩ := Nat.exists_eq_add_one_of_ne_zero (Nat.ne_zero_of_lt hrounds)
    have hsize : sizes (v :: newer) = v.size + sizes newer := rfl
    have hv := hnonneg v List.mem_cons_self
    have hnewer : ∀ w ∈ newer, 0 ≤ w.size := fun w hw => hnonneg w (List.mem_cons_of_mem v hw)
    have hn := sizes_nonneg hnewer
    unfold spared at hspared
    split_ifs at hspared with hfits
    · cases hspared
      obtain ⟨db', hx, h'⟩ := tryCharge_stands size h (Or.inr ⟨by omega, by omega⟩)
      refine ⟨db', bind_returns.mpr ⟨true, db', hx, pure_returns.mpr ⟨rfl, rfl⟩⟩, ?_⟩
      rw [sub_self, sub_zero]
      exact h'
    · rw [List.reverse_cons] at h
      obtain ⟨m, hm, heq⟩ := makeRoomIn_drops size previousSize rounds h
        (by omega) hmax hv (by omega)
      obtain ⟨db', hx, h'⟩ := ih hm (by rw [← hspared]; congr 1; omega)
        (Nat.lt_of_succ_lt_succ hrounds) (by omega) hnewer (by omega)
      refine ⟨db', heq.trans hx, ?_⟩
      rw [hsize]
      convert h' using 1
      omega

/-- **No room is made** for what fits beside no version: all of them are dropped, and the previous
bytes given up. -/
theorem makeRoomIn_instead (previousSize : Int) {rounds : Nat}
    (h : Stands base ownerId nodeId used max oldest.reverse db.toStore)
    (hspared : spared (max - used) size oldest = none) (hrounds : oldest.length < rounds)
    (hmax : used ≤ max) (hnonneg : ∀ v ∈ oldest, 0 ≤ v.size) (hlow : sizes oldest ≤ used) :
    ∃ m, Stands base ownerId nodeId (used - sizes oldest) max [] m.toStore ∧
      makeRoomIn ownerId nodeId size previousSize rounds db =
        chargeInstead ownerId size previousSize m := by
  induction oldest generalizing db used rounds with
  | nil =>
    unfold spared at hspared
    split_ifs at hspared with hfits
    obtain ⟨rounds, rfl⟩ := Nat.exists_eq_add_one_of_ne_zero (Nat.ne_zero_of_lt hrounds)
    refine ⟨db, by simpa [sizes] using h, ?_⟩
    rw [makeRoomIn, bind_of_returns (tryCharge_refused (h.not_fits (by omega) (by omega))),
      if_neg Bool.false_ne_true, bind_of_returns (dropOldest_empty h.held), if_neg Bool.false_ne_true]
  | cons v newer ih =>
    obtain ⟨rounds, rfl⟩ := Nat.exists_eq_add_one_of_ne_zero (Nat.ne_zero_of_lt hrounds)
    have hsize : sizes (v :: newer) = v.size + sizes newer := rfl
    have hv := hnonneg v List.mem_cons_self
    have hnewer : ∀ w ∈ newer, 0 ≤ w.size := fun w hw => hnonneg w (List.mem_cons_of_mem v hw)
    have hn := sizes_nonneg hnewer
    unfold spared at hspared
    split_ifs at hspared with hfits
    rw [List.reverse_cons] at h
    obtain ⟨m, hm, heq⟩ := makeRoomIn_drops size previousSize rounds h
      (by omega) hmax hv (by omega)
    obtain ⟨m', hm', heq'⟩ := ih hm (by rw [← hspared]; congr 1; omega)
      (Nat.lt_of_succ_lt_succ hrounds) (by omega) hnewer (by omega)
    refine ⟨m', ?_, heq.trans heq'⟩
    rw [hsize]
    convert hm' using 1
    omega

/-! ## What the file is left with -/

theorem acquireBlob_stands (h : Stands base ownerId nodeId used max held db.toStore)
    (hx : (acquireBlob hash).Returns db u db') :
    Stands base ownerId nodeId used max held db'.toStore := by
  have hs := execute_returns.mp hx
  exact h.frame (by rw [hs]) (by rw [hs]) (by rw [hs])

theorem releaseBlob_stands (h : Stands base ownerId nodeId used max held db.toStore)
    (hx : (releaseBlob hash).Returns db u db') :
    Stands base ownerId nodeId used max held db'.toStore := by
  have hs := execute_returns.mp hx
  exact h.frame (by rw [hs]) (by rw [hs]) (by rw [hs])

/-- **A version is kept**, of a file and a blob that have rows. -/
theorem keep_stands {bytes : Int} (h : Stands base ownerId nodeId used max held db.toStore)
    (hnode : (db.nodes.find nodeId).isSome = true) (hblob : (db.blobs.find hash).isSome = true)
    (hbytes : 0 ≤ bytes) :
    ∃ db', (keep nodeId hash bytes).Returns db () db' ∧
      Stands base ownerId nodeId used max (⟨db.next, nodeId, hash, bytes⟩ :: held) db'.toStore := by
  have hkeys := (db.sound .primaryKey).2.1
  obtain ⟨versions, hins⟩ := Table.insert_isSome (t := db.versions)
    (r := ⟨db.next, nodeId, hash, bytes⟩)
    (Table.find_eq_none_iff.mpr fun v hv => (hkeys v hv).ne)
  have hrows := (Table.insert_eq_some hins).2
  have hholds : ∀ c, ({ db.toStore with next := db.next + 1, versions } : Store).Holds c := by
    obtain ⟨m, hm⟩ : ∃ m : Db, m.toStore = { db.toStore with next := db.next + 1 } :=
      ⟨⟨_, holds_next (Nat.le_succ db.next)⟩, rfl⟩
    have hnext : ∀ c, ({ m.toStore with versions } : Store).Holds c :=
      holds_versions (fun v hv => ?_) fun v hv => ?_
    · rw [hm] at hnext
      exact hnext
    · rw [hrows, List.mem_append, List.mem_singleton] at hv
      rw [hm]
      rcases hv with hv | rfl
      · exact (hkeys v hv).trans (Nat.lt_succ_self _)
      · exact Nat.lt_succ_self _
    · change v ∈ versions.rows at hv
      rw [hrows, List.mem_append, List.mem_singleton] at hv
      rw [hm]
      rcases hv with hv | rfl
      · exact db.sound .versionsForeign v hv
      · exact ⟨hnode, hblob, hbytes⟩
  refine ⟨⟨_, hholds⟩, ?_, ?_⟩
  · refine bind_returns.mpr ⟨db.next, ⟨_, holds_next (Nat.le_succ db.next)⟩,
      fresh_returns.mpr ⟨rfl, rfl⟩, insertRow_returns.mpr ?_⟩
    show (db.versions.insert _).map _ = _
    rw [hins]
    rfl
  · refine ⟨h.quota, ?_, fun k hk => ?_, h.nodes⟩
    · rw [← h.held]
      exact versionsOf_insert (v := ⟨db.next, nodeId, hash, bytes⟩) hins hkeys
    · rw [← h.others k hk]
      exact versionsOf_insert_other (v := ⟨db.next, nodeId, hash, bytes⟩) hins hk

/-- Nodes that only hold other content, of blobs that have rows. -/
theorem holds_filled {nodes : Table Node Node.id}
    (hback : ∀ n ∈ nodes.rows, ∃ was ∈ db.nodes.rows, was.id = n.id ∧ was.ownerId = n.ownerId ∧
      was.parentId = n.parentId ∧ was.name = n.name ∧ was.trashed = n.trashed ∧
        ∀ h ∈ n.blobHash, (db.blobs.find h).isSome = true)
    (hstays : ∀ k, (db.nodes.find k).isSome = true → (nodes.find k).isSome = true) (c : Constraint) :
    ({ db.toStore with nodes } : Store).Holds c := by
  cases c with
  | primaryKey =>
    obtain ⟨hn, hrest⟩ := db.sound .primaryKey
    refine ⟨fun n h => ?_, hrest⟩
    obtain ⟨was, hwas, hid, -⟩ := hback n h
    exact hid ▸ hn was hwas
  | nodesUniqueNamePerParent =>
    intro n hn k hk hnlive hklive hp hsame hname
    obtain ⟨was, hwas, hid, -, hparent, hnamed, htrashed, -⟩ := hback n hn
    obtain ⟨was', hwas', hid', -, hparent', hnamed', htrashed', -⟩ := hback k hk
    rw [← hid, ← hid']
    unfold Node.live at hnlive hklive
    exact db.sound .nodesUniqueNamePerParent was hwas was' hwas'
      (by unfold Node.live; rw [htrashed]; exact hnlive)
      (by unfold Node.live; rw [htrashed']; exact hklive) (by rw [hparent]; exact hp)
      (by rw [hparent, hparent', hsame]) (by rw [hnamed, hnamed', hname])
  | nodesSingleRootPerOwner =>
    intro n hn k hk hnlive hklive hp hp' howner
    obtain ⟨was, hwas, hid, hof, hparent, -, htrashed, -⟩ := hback n hn
    obtain ⟨was', hwas', hid', hof', hparent', -, htrashed', -⟩ := hback k hk
    rw [← hid, ← hid']
    unfold Node.live at hnlive hklive
    exact db.sound .nodesSingleRootPerOwner was hwas was' hwas'
      (by unfold Node.live; rw [htrashed]; exact hnlive)
      (by unfold Node.live; rw [htrashed']; exact hklive) (by rw [hparent, hp])
      (by rw [hparent', hp']) (by rw [hof, hof', howner])
  | nodesNameCheck =>
    intro n hn
    obtain ⟨was, hwas, -, -, hparent, hnamed, -⟩ := hback n hn
    have hcheck := db.sound .nodesNameCheck was hwas
    unfold Store.nameCheck at hcheck ⊢
    rwa [hparent, hnamed] at hcheck
  | nodesForeign =>
    intro n hn
    obtain ⟨was, hwas, -, hof, hparent, -, htrashed, hblob⟩ := hback n hn
    obtain ⟨huser, hp, hr, -⟩ := db.sound .nodesForeign was hwas
    rw [hof] at huser
    rw [hparent] at hp
    unfold Node.trashRoot at hr
    rw [htrashed] at hr
    exact ⟨huser, fun q hq => hstays q (hp q hq), fun r hroot => hstays r (hr r hroot), hblob⟩
  | versionsForeign =>
    intro v hv
    obtain ⟨hn, hrest⟩ := db.sound .versionsForeign v hv
    exact ⟨hstays _ hn, hrest⟩
  | grantsForeign =>
    intro g hg
    obtain ⟨hn, hrest⟩ := db.sound .grantsForeign g hg
    exact ⟨hstays _ hn, hrest⟩
  | locksForeign =>
    intro l hl
    obtain ⟨hn, hrest⟩ := db.sound .locksForeign l hl
    exact ⟨hstays _ hn, hrest⟩
  | usersUniqueEmail => exact db.sound .usersUniqueEmail
  | blobsCheck => exact db.sound .blobsCheck
  | thumbnailsForeign => exact db.sound .thumbnailsForeign
  | quotasCheck => exact db.sound .quotasCheck
  | grantsOncePerAddress => exact db.sound .grantsOncePerAddress
  | grantsMountNames => exact db.sound .grantsMountNames
  | grantsMountNameCheck => exact db.sound .grantsMountNameCheck
  | locksOnePerNode => exact db.sound .locksOnePerNode

/-- **A file takes other content.** -/
theorem storeFile_overwrites (ownerId : Uuid) (parent : Node) (name : NodeName) (size : Nat)
    (hfind : db.nodes.find old.id = some old)
    (hblob : (db.blobs.find hash).isSome = true) :
    ∃ db', (storeFile ownerId parent name (some old) hash size).Returns db
      { old with body := .file hash size, etag := .file hash } db' ∧
      db'.versions = db.versions ∧ db'.quotas = db.quotas := by
  have hholds : ∀ c, ({ db.toStore with
      nodes := db.nodes.update (·.id = old.id)
        (fun n => { n with body := .file hash size, etag := .file hash }) fun _ => rfl } :
          Store).Holds c :=
    holds_filled (fun n hn => ?_) fun k => isSome_find_update (by intro _; rfl)
  · refine ⟨⟨_, hholds⟩, ?_, rfl, rfl⟩
    refine bind_returns.mpr ⟨(), ⟨_, hholds⟩, execute_returns.mpr rfl, bind_returns.mpr
      ⟨_, ⟨_, hholds⟩, query_returns.mpr ⟨rfl, rfl⟩, orFail_returns.mpr ⟨?_, rfl⟩⟩⟩
    show (db.nodes.update (·.id = old.id)
      (fun n => { n with body := .file hash size, etag := .file hash }) fun _ => rfl).find old.id = _
    rw [find_update_id, hfind, Option.map_some, if_pos rfl]
  · obtain ⟨was, hwas, rfl⟩ := List.mem_map.mp hn
    refine ⟨was, hwas, ?_⟩
    split_ifs with hid
    · refine ⟨rfl, rfl, rfl, rfl, rfl, fun h hh => ?_⟩
      cases hh
      exact hblob
    · exact ⟨rfl, rfl, rfl, rfl, rfl, (db.sound .nodesForeign was hwas).2.2.2⟩

/-- The history with the replaced content on top, where it is kept. -/
def topped (versioned : Bool) (replaced : Version) (held : List Version) : List Version :=
  if versioned then replaced :: held else held

/-- **What follows the charge goes through**, and leaves as many versions as are to be kept. -/
theorem settles (parent : Node) (name : NodeName) (size : Nat) (versionsKept : Int) {oldSize : Nat}
    {versioned : Bool} (h : Stands base ownerId old.id used max held m.toStore)
    (hfind : m.nodes.find old.id = some old) (hbody : old.body = .file oldHash oldSize)
    (hblob : (m.blobs.find hash).isSome = true) (hnonneg : ∀ v ∈ held, 0 ≤ v.size)
    (hlow : sizes held + (if versioned then old.size else 0) ≤ used) (hmax : used ≤ max) :
    ∃ m₁ m₂ db' id, (acquireBlob hash).Returns m () m₁ ∧
      (retire ownerId (some (old.id, oldHash, old.size)) versioned versionsKept).Returns m₁ () m₂ ∧
      (storeFile ownerId parent name (some old) hash size).Returns m₂
        { old with body := .file hash size, etag := .file hash } db' ∧
      db'.versionsOf old.id =
        (topped versioned ⟨id, old.id, oldHash, old.size⟩ held).take versionsKept.toNat ∧
      ∀ k, k ≠ old.id → db'.versionsOf k = base.versionsOf k := by
  obtain ⟨m₁, hacquire⟩ := acquireBlob_succeeds m hash
  have h₁ := acquireBlob_stands h hacquire
  have hfind₁ : m₁.nodes.find old.id = some old := by rw [execute_returns.mp hacquire]; exact hfind
  have hold : (m₁.blobs.find oldHash).isSome = true :=
    (m₁.sound .nodesForeign old (Table.find_mem hfind₁)).2.2.2 oldHash
      (by rw [Node.blobHash, hbody]; rfl)
  have hblob₁ : (m₁.blobs.find hash).isSome = true :=
    (Counting.acquire (R := Beside) hash hacquire).blobs hash hblob
  have hsize : 0 ≤ old.size := by rw [Node.size, hbody]; exact Int.natCast_nonneg oldSize
  have hheld := sizes_nonneg hnonneg
  obtain ⟨m₂, id, hkeep, h₂⟩ : ∃ m₂ id, (keepOrRelease versioned old.id oldHash old.size).Returns
      m₁ () m₂ ∧ Stands base ownerId old.id used max
        (topped versioned ⟨id, old.id, oldHash, old.size⟩ held) m₂.toStore := by
    cases versioned with
    | true =>
      obtain ⟨m₂, hkeep, h₂⟩ := keep_stands h₁ (by rw [hfind₁]; rfl) hold hsize
      exact ⟨m₂, m₁.next, hkeep, h₂⟩
    | false =>
      obtain ⟨m₂, hrelease⟩ := releaseBlob_succeeds m₁ oldHash
      exact ⟨m₂, 0, hrelease, releaseBlob_stands h₁ hrelease⟩
  have hall : 0 ≤ sizes ((topped versioned ⟨id, old.id, oldHash, old.size⟩ held).drop
      versionsKept.toNat) ∧ sizes ((topped versioned ⟨id, old.id, oldHash, old.size⟩ held).drop
        versionsKept.toNat) ≤ used := by
    have htop : ∀ v ∈ topped versioned ⟨id, old.id, oldHash, old.size⟩ held, 0 ≤ v.size := by
      intro v hv
      unfold topped at hv
      split_ifs at hv
      · rcases List.mem_cons.mp hv with rfl | hv
        · exact hsize
        · exact hnonneg v hv
      · exact hnonneg v hv
    have htotal : sizes (topped versioned ⟨id, old.id, oldHash, old.size⟩ held) ≤ used := by
      refine le_trans (le_of_eq ?_) hlow
      unfold topped
      split_ifs
      · exact add_comm old.size (sizes held)
      · exact (add_zero _).symm
    have hsplit := sizes_append
      ((topped versioned ⟨id, old.id, oldHash, old.size⟩ held).take versionsKept.toNat)
      ((topped versioned ⟨id, old.id, oldHash, old.size⟩ held).drop versionsKept.toNat)
    rw [List.take_append_drop] at hsplit
    have htake : 0 ≤ sizes ((topped versioned ⟨id, old.id, oldHash, old.size⟩ held).take
        versionsKept.toNat) := sizes_nonneg fun v hv => htop v (List.mem_of_mem_take hv)
    exact ⟨sizes_nonneg fun v hv => htop v (List.mem_of_mem_drop hv), by omega⟩
  obtain ⟨m₃, hprune, h₃⟩ := pruneBeyond_stands versionsKept h₂ hall.2 (by omega)
  have hretire : (retire ownerId (some (old.id, oldHash, old.size)) versioned
      versionsKept).Returns m₁ () m₃ := bind_returns.mpr ⟨(), m₂, hkeep, hprune⟩
  have hbeside := keeps_retire (R := Beside) (fun _ _ => beside_insertVersion) hretire
  obtain ⟨db', hstore, hversions, -⟩ := storeFile_overwrites ownerId parent name size
    (by rw [hbeside.nodes]; exact hfind₁) (hbeside.blobs hash hblob₁)
  exact ⟨m₁, m₃, db', id, hacquire, hretire, hstore, (versionsOf_congr hversions _).trans h₃.held,
    fun k hk => (versionsOf_congr hversions k).trans (h₃.others k hk)⟩

/-! ## A file overwritten -/

theorem stands_of_opened (hquota : db.quotas.find ownerId = some ⟨ownerId, used, max⟩)
    (hnodes : m.nodes = db.nodes) (hversions : m.versions = db.versions)
    (hquotas : m.quotas = db.quotas) (nodeId : Uuid) :
    Stands db.toStore ownerId nodeId used max (db.versionsOf nodeId) m.toStore :=
  ⟨by rw [hquotas, hquota], versionsOf_congr hversions _, fun k _ => versionsOf_congr hversions k,
    hnodes⟩

/-- What is charged where the replaced content is not kept. -/
theorem chargeForPut_replaces
    (hkept : ¬ (0 < versionsKept ∧ 0 < previousSize ∧ oldHash ≠ hash)) :
    chargeForPut ownerId (some (nodeId, oldHash, previousSize)) hash size versionsKept =
      chargeInstead ownerId size previousSize :=
  if_neg hkept

/-- What is charged where it would be kept, but no version can stay. -/
theorem chargeForPut_instead (hkept : 0 < versionsKept ∧ 0 < previousSize ∧ oldHash ≠ hash)
    (h : Stands base ownerId nodeId used max held db.toStore)
    (hspared : spared (max - used) size held.reverse = none) (hmax : used ≤ max)
    (hlow : sizes held ≤ used) :
    ∃ m, Stands base ownerId nodeId (used - sizes held) max [] m.toStore ∧
      chargeForPut ownerId (some (nodeId, oldHash, previousSize)) hash size versionsKept db =
        chargeInstead ownerId size previousSize m := by
  have hnonneg : ∀ v ∈ held.reverse, 0 ≤ v.size := fun v hv =>
    size_nonneg_of_held (h.held ▸ List.mem_reverse.mp hv)
  have hlength : (db.versionsOf nodeId).length = held.reverse.length := by
    rw [h.held, List.length_reverse]
  rw [← List.reverse_reverse held] at h
  obtain ⟨m, h', heq⟩ := makeRoomIn_instead previousSize h hspared (Nat.lt_succ_self _) hmax hnonneg
    (by rw [sizes_reverse]; omega)
  refine ⟨m, by rw [sizes_reverse] at h'; exact h', ?_⟩
  unfold chargeForPut
  dsimp only
  rw [if_pos hkept]
  unfold makeRoom
  rw [bind_of_returns (query_returns.mpr ⟨rfl, rfl⟩), hlength]
  exact heq

section Overwrite

variable {oldSize : Nat} (hold : db.child parent.id name.str = some old)
  (hbody : old.body = .file oldHash oldSize)
  (hquota : db.quotas.find ownerId = some ⟨ownerId, used, max⟩) (hmax : used ≤ max)
  (hbooked : old.size + sizes (db.versionsOf old.id) ≤ used)
include hold hbody

/-- Up to the charge. -/
theorem putFile_opens (ownerId : Uuid) (hash : BlobHash) (size : Nat) (versionsKept : Int) :
    ∃ m, m.nodes = db.nodes ∧ m.versions = db.versions ∧ m.quotas = db.quotas ∧
    (m.blobs.find hash).isSome = true ∧ putFile ownerId parent name hash size versionsKept db =
      (chargeForPut ownerId (some (old.id, oldHash, old.size)) hash size versionsKept >>=
        fun versioned => acquireBlob hash >>= fun _ =>
          retire ownerId (some (old.id, oldHash, old.size)) versioned versionsKept >>= fun _ =>
            storeFile ownerId parent name (some old) hash size) m := by
  obtain ⟨m, hblob⟩ := insertBlob_succeeds db hash size
  have hs := execute_returns.mp hblob
  have hchild : (child parent.id name).Returns m (some old) m := by
    refine child_returns.mpr ⟨?_, rfl⟩
    rw [← hold, hs]
    rfl
  have hdir : ¬ Option.any Node.isDirectory (some old) = true := by
    rw [Option.any_some, Node.isDirectory, hbody]
    exact Bool.false_ne_true
  have hprev : previousOf (some old) = some (old.id, oldHash, old.size) := by
    rw [previousOf, Option.bind_some, Node.blobHash, hbody, Option.map_some]
  refine ⟨m, by rw [hs], by rw [hs], by rw [hs],
    (insertBlob_ledger (ledger_any db.toStore) hblob).2.2, ?_⟩
  unfold putFile
  rw [bind_of_returns hblob, bind_of_returns hchild, if_neg hdir, hprev]

/-- What is charged for the bytes is all that can stop `put_file`. -/
theorem putFile_charged (used' max : Int) (held : List Version) (versioned : Bool)
    (hcharge : ∀ {m : Db}, m.nodes = db.nodes → m.versions = db.versions → m.quotas = db.quotas →
      ∃ m', (chargeForPut ownerId (some (old.id, oldHash, old.size)) hash size versionsKept).Returns
        m versioned m' ∧ Stands db.toStore ownerId old.id used' max held m'.toStore)
    (hnonneg : ∀ v ∈ held, 0 ≤ v.size)
    (hlow : sizes held + (if versioned then old.size else 0) ≤ used') (hmax' : used' ≤ max) :
    ∃ db' id, (putFile ownerId parent name hash size versionsKept).Returns db
        { old with body := .file hash size, etag := .file hash } db' ∧
      db'.versionsOf old.id =
        (topped versioned ⟨id, old.id, oldHash, old.size⟩ held).take versionsKept.toNat ∧
      ∀ k, k ≠ old.id → db'.versionsOf k = db.versionsOf k := by
  obtain ⟨m, hnodes, hversions, hquotas, hblob, heq⟩ := putFile_opens hold hbody ownerId
    hash size versionsKept
  obtain ⟨m', hx, h'⟩ := hcharge hnodes hversions hquotas
  have hbeside := keeps_chargeForPut (R := Beside) hx
  obtain ⟨m₁, m₂, db', id, hacquire, hretire, hstore, hheld, hothers⟩ := settles parent name
    size versionsKept h'
    (by rw [h'.nodes]; exact Table.mem_iff_find.mp (child_eq_some hold).1) hbody
    (hbeside.blobs hash hblob) hnonneg hlow hmax'
  refine ⟨db', id, heq.trans ?_, hheld, hothers⟩
  exact bind_returns.mpr ⟨versioned, m', hx, bind_returns.mpr ⟨(), m₁, hacquire, bind_returns.mpr
    ⟨(), m₂, hretire, hstore⟩⟩⟩

/-- What stops the charge stops `put_file`. -/
theorem putFile_stopped (hcharge : ∀ {m : Db}, m.nodes = db.nodes → m.versions = db.versions →
    m.quotas = db.quotas →
      Exceeds (chargeForPut ownerId (some (old.id, oldHash, old.size)) hash size versionsKept) m) :
    Exceeds (putFile ownerId parent name hash size versionsKept) db := by
  obtain ⟨m, hnodes, hversions, hquotas, -, heq⟩ := putFile_opens hold hbody ownerId hash size
    versionsKept
  unfold Exceeds
  rw [heq]
  exact exceeds_of_first (hcharge hnodes hversions hquotas)

include hquota hmax hbooked

/-- **The replaced content is kept** where the bytes fit beside what `make_room` spares. -/
theorem putFile_keeps_replaced (hkept : 0 < versionsKept ∧ 0 < old.size ∧ oldHash ≠ hash)
    (hspared : spared (max - used) size (db.versionsOf old.id).reverse = some rest) :
    ∃ db' id, (putFile ownerId parent name hash size versionsKept).Returns db
        { old with body := .file hash size, etag := .file hash } db' ∧
      db'.versionsOf old.id =
        (⟨id, old.id, oldHash, old.size⟩ :: rest.reverse).take versionsKept.toNat ∧
      ∀ k, k ≠ old.id → db'.versionsOf k = db.versionsOf k := by
  obtain ⟨n, -, rfl, hroom, -⟩ := spared_some hspared
  have hsplit := sizes_append ((db.versionsOf old.id).reverse.take n)
    ((db.versionsOf old.id).reverse.drop n)
  rw [List.take_append_drop, sizes_reverse] at hsplit
  have hnonneg : ∀ v ∈ (db.versionsOf old.id).reverse, 0 ≤ v.size := fun v hv =>
    size_nonneg_of_held (List.mem_reverse.mp hv)
  have hrest := sizes_nonneg fun v hv => hnonneg v (List.mem_of_mem_drop (i := n) hv)
  refine putFile_charged hold hbody (used - (sizes (db.versionsOf old.id) -
    sizes ((db.versionsOf old.id).reverse.drop n)) + size) max _ true
    (fun {m} hnodes hversions hquotas => ?_) (fun v hv => ?_) ?_ ?_
  · have h := stands_of_opened hquota hnodes hversions hquotas old.id
    rw [← List.reverse_reverse (db.versionsOf old.id)] at h
    obtain ⟨m', hx, h'⟩ := makeRoomIn_spares old.size h hspared
      (Nat.lt_succ_self _) hmax hnonneg (by rw [sizes_reverse]; omega)
    refine ⟨m', ?_, by rw [sizes_reverse] at h'; exact h'⟩
    unfold chargeForPut
    dsimp only
    rw [if_pos hkept]
    refine bind_returns.mpr ⟨_, m, query_returns.mpr ⟨rfl, rfl⟩, ?_⟩
    rw [versionsOf_congr hversions, ← List.length_reverse]
    exact hx
  · exact hnonneg v (List.mem_of_mem_drop (List.mem_reverse.mp hv))
  · rw [sizes_reverse, if_pos rfl]
    omega
  · omega

/-- **The history is given up** where the bytes fit beside no version, but in place of all of it. -/
theorem putFile_gives_up (hkept : 0 < versionsKept ∧ 0 < old.size ∧ oldHash ≠ hash)
    (hspared : spared (max - used) size (db.versionsOf old.id).reverse = none)
    (hroom : size ≤ max - used + old.size + sizes (db.versionsOf old.id)) :
    ∃ db', (putFile ownerId parent name hash size versionsKept).Returns db
        { old with body := .file hash size, etag := .file hash } db' ∧
      db'.versionsOf old.id = [] ∧ ∀ k, k ≠ old.id → db'.versionsOf k = db.versionsOf k := by
  have hsize : 0 ≤ (size : Int) := Int.natCast_nonneg size
  obtain ⟨db', id, hx, hheld, hothers⟩ := putFile_charged hold hbody
    (used - sizes (db.versionsOf old.id) + (size - old.size)) max [] false
    (fun {m} hnodes hversions hquotas => by
      obtain ⟨m', h', heq⟩ := chargeForPut_instead hkept
        (stands_of_opened hquota hnodes hversions hquotas old.id) hspared hmax (by omega)
      obtain ⟨m'', hx, h''⟩ := chargeQuota_stands (size - old.size) h'
        (Or.inr ⟨by omega, by omega⟩)
      exact ⟨m'', heq.trans (bind_returns.mpr ⟨(), m'', hx, pure_returns.mpr ⟨rfl, rfl⟩⟩), h''⟩)
    (fun _ hv => absurd hv List.not_mem_nil)
    (by rw [if_neg Bool.false_ne_true, show sizes [] = 0 from rfl]; omega) (by omega)
  exact ⟨db', hx, by rw [hheld]; exact List.take_nil, hothers⟩

/-- Bytes that do not fit in place of the file and all its history are refused. -/
theorem putFile_stopped_kept (hkept : 0 < versionsKept ∧ 0 < old.size ∧ oldHash ≠ hash)
    (hroom : max - used + old.size + sizes (db.versionsOf old.id) < size) :
    Exceeds (putFile ownerId parent name hash size versionsKept) db := by
  have hnone : spared (max - used) size (db.versionsOf old.id).reverse = none := by
    cases hspared : spared (max - used) size (db.versionsOf old.id).reverse with
    | none => rfl
    | some rest =>
      obtain ⟨n, -, -, hfits, -⟩ := spared_some hspared
      have hsplit := sizes_append ((db.versionsOf old.id).reverse.take n)
        ((db.versionsOf old.id).reverse.drop n)
      rw [List.take_append_drop, sizes_reverse] at hsplit
      have hrest : 0 ≤ sizes ((db.versionsOf old.id).reverse.drop n) := sizes_nonneg fun v hv =>
        size_nonneg_of_held (List.mem_reverse.mp (List.mem_of_mem_drop hv))
      omega
  refine putFile_stopped hold hbody fun {m} hnodes hversions hquotas => ?_
  have hheld : 0 ≤ sizes (db.versionsOf old.id) := sizes_nonneg fun _ => size_nonneg_of_held
  obtain ⟨m', h', heq⟩ := chargeForPut_instead hkept
    (stands_of_opened hquota hnodes hversions hquotas old.id) hnone hmax (by omega)
  unfold Exceeds
  rw [heq]
  exact exceeds_of_first (chargeQuota_exceeds_iff.mpr (h'.not_fits (by omega) (by omega)))

omit hmax in
/-- **Content that is not kept is replaced**, and the history pruned. -/
theorem putFile_replaces (hkept : ¬ (0 < versionsKept ∧ 0 < old.size ∧ oldHash ≠ hash))
    (hroom : size ≤ max - used + old.size) :
    ∃ db', (putFile ownerId parent name hash size versionsKept).Returns db
        { old with body := .file hash size, etag := .file hash } db' ∧
      db'.versionsOf old.id = (db.versionsOf old.id).take versionsKept.toNat ∧
      ∀ k, k ≠ old.id → db'.versionsOf k = db.versionsOf k := by
  have hnonneg : ∀ v ∈ db.versionsOf old.id, 0 ≤ v.size := fun _ => size_nonneg_of_held
  have hheld := sizes_nonneg hnonneg
  obtain ⟨db', id, hx, hheld, hothers⟩ := putFile_charged hold hbody (used + (size - old.size)) max
    (db.versionsOf old.id) false (fun {m} hnodes hversions hquotas => by
      obtain ⟨m', hx, h'⟩ := chargeQuota_stands (size - old.size)
        (stands_of_opened hquota hnodes hversions hquotas old.id) (Or.inr ⟨by omega, by omega⟩)
      rw [chargeForPut_replaces hkept]
      exact ⟨m', bind_returns.mpr ⟨(), m', hx, pure_returns.mpr ⟨rfl, rfl⟩⟩, h'⟩)
    hnonneg (by rw [if_neg Bool.false_ne_true]; omega) (by omega)
  exact ⟨db', hx, hheld, hothers⟩

omit hbooked in
theorem putFile_stopped_replacing (hkept : ¬ (0 < versionsKept ∧ 0 < old.size ∧ oldHash ≠ hash))
    (hroom : max - used + old.size < size) :
    Exceeds (putFile ownerId parent name hash size versionsKept) db := by
  refine putFile_stopped hold hbody fun {m} hnodes hversions hquotas => ?_
  rw [chargeForPut_replaces hkept]
  exact exceeds_of_first (chargeQuota_exceeds_iff.mpr
    ((stands_of_opened hquota hnodes hversions hquotas old.id).not_fits (by omega) (by omega)))

end Overwrite

/-! ## A file that is new -/

/-- **A name that is free takes a node.** -/
theorem insertNode_succeeds (body : Body) (etag : Etag)
    (hparent : db.nodes.find parent.id = some parent) (hchild : db.child parent.id name.str = none)
    (hblob : ∀ h n, body = .file h n → (db.blobs.find h).isSome = true) :
    ∃ db', (insertNode parent.ownerId (some parent.id) name.str body etag).Returns db
      ⟨db.next, parent.ownerId, some parent.id, name.str, body, etag, none⟩ db' ∧
      db'.versions = db.versions ∧ db'.quotas = db.quotas := by
  have hkeys := (db.sound .primaryKey).1
  obtain ⟨nodes, hins⟩ := Table.insert_isSome (t := db.nodes)
    (r := ⟨db.next, parent.ownerId, some parent.id, name.str, body, etag, none⟩)
    (Table.find_eq_none_iff.mpr fun n hn => (hkeys n hn).ne)
  have hrows := (Table.insert_eq_some hins).2
  have hmem : ∀ n ∈ nodes.rows, n ∈ db.nodes.rows ∨
      n = ⟨db.next, parent.ownerId, some parent.id, name.str, body, etag, none⟩ := by
    intro n hn
    rw [hrows, List.mem_append, List.mem_singleton] at hn
    exact hn
  have hstays : ∀ {k}, (db.nodes.find k).isSome = true → (nodes.find k).isSome = true := by
    intro k hk
    rw [Table.find_insert hins]
    split_ifs
    · rfl
    · exact hk
  have hfree := child_eq_none hchild
  have hholds : ∀ c, ({ db.toStore with next := db.next + 1, nodes } : Store).Holds c := by
    intro c
    cases c with
    | primaryKey =>
      obtain ⟨-, hv, hg, hl⟩ := db.sound .primaryKey
      refine ⟨fun n hn => ?_, fun v h => (hv v h).trans (Nat.lt_succ_self _),
        fun g h => (hg g h).trans (Nat.lt_succ_self _),
        fun l h => (hl l h).trans (Nat.lt_succ_self _)⟩
      rcases hmem n hn with hn | rfl
      · exact (hkeys n hn).trans (Nat.lt_succ_self _)
      · exact Nat.lt_succ_self _
    | nodesUniqueNamePerParent =>
      intro n hn k hk hnlive hklive hp hsame hname
      rcases hmem n hn with hn | rfl <;> rcases hmem k hk with hk | rfl
      · exact db.sound .nodesUniqueNamePerParent n hn k hk hnlive hklive hp hsame hname
      · rw [hfree n hn hsame hname] at hnlive
        cases hnlive
      · rw [hfree k hk hsame.symm hname.symm] at hklive
        cases hklive
      · rfl
    | nodesSingleRootPerOwner =>
      intro n hn k hk hnlive hklive hp hp' howner
      rcases hmem n hn with hn | rfl
      · rcases hmem k hk with hk | rfl
        · exact db.sound .nodesSingleRootPerOwner n hn k hk hnlive hklive hp hp' howner
        · cases hp'
      · cases hp
    | nodesNameCheck =>
      intro n hn
      rcases hmem n hn with hn | rfl
      · exact db.sound .nodesNameCheck n hn
      · show (decide (name.str ≠ []) && decide ('/' ∉ name.str)) = true
        rw [decide_eq_true (NodeName.ne_nil name.valid),
          decide_eq_true (NodeName.slash_not_mem name.valid)]
        rfl
    | nodesForeign =>
      intro n hn
      rcases hmem n hn with hn | rfl
      · obtain ⟨huser, hp, hr, hb⟩ := db.sound .nodesForeign n hn
        exact ⟨huser, fun q hq => hstays (hp q hq), fun r hroot => hstays (hr r hroot), hb⟩
      · refine ⟨(db.sound .nodesForeign parent (Table.find_mem hparent)).1, fun q hq => ?_,
          fun r hroot => absurd hroot (Option.not_mem_none r), fun h hh => ?_⟩
        · cases hq
          exact hstays (by rw [hparent]; rfl)
        · cases body with
          | directory => cases hh
          | file h' n =>
            cases hh
            exact hblob h n rfl
    | versionsForeign =>
      intro v hv
      obtain ⟨hn, hrest⟩ := db.sound .versionsForeign v hv
      exact ⟨hstays hn, hrest⟩
    | grantsForeign =>
      intro g hg
      obtain ⟨hn, hrest⟩ := db.sound .grantsForeign g hg
      exact ⟨hstays hn, hrest⟩
    | locksForeign =>
      intro l hl
      obtain ⟨hn, hrest⟩ := db.sound .locksForeign l hl
      exact ⟨hstays hn, hrest⟩
    | usersUniqueEmail => exact db.sound .usersUniqueEmail
    | blobsCheck => exact db.sound .blobsCheck
    | thumbnailsForeign => exact db.sound .thumbnailsForeign
    | quotasCheck => exact db.sound .quotasCheck
    | grantsOncePerAddress => exact db.sound .grantsOncePerAddress
    | grantsMountNames => exact db.sound .grantsMountNames
    | grantsMountNameCheck => exact db.sound .grantsMountNameCheck
    | locksOnePerNode => exact db.sound .locksOnePerNode
  refine ⟨⟨_, hholds⟩, ?_, rfl, rfl⟩
  refine bind_returns.mpr ⟨db.next, ⟨_, holds_next (Nat.le_succ db.next)⟩,
    fresh_returns.mpr ⟨rfl, rfl⟩, bind_returns.mpr ⟨(), ⟨_, hholds⟩, insertRow_returns.mpr ?_,
      pure_returns.mpr ⟨rfl, rfl⟩⟩⟩
  show (db.nodes.insert _).map _ = _
  rw [hins]
  rfl

/-- Up to the charge, where the name is free. -/
theorem putFile_opens_new (ownerId : Uuid) (hash : BlobHash) (size : Nat) (versionsKept : Int)
    (hfree : db.child parent.id name.str = none) : ∃ m, m.nodes = db.nodes ∧
      m.versions = db.versions ∧ m.quotas = db.quotas ∧ (m.blobs.find hash).isSome = true ∧
      putFile ownerId parent name hash size versionsKept db =
        (chargeQuota ownerId size >>= fun _ => acquireBlob hash >>= fun _ =>
          insertNode ownerId (some parent.id) name.str (.file hash size) (.file hash)) m := by
  obtain ⟨m, hblob⟩ := insertBlob_succeeds db hash size
  have hs := execute_returns.mp hblob
  have hchild : (child parent.id name).Returns m none m := by
    refine child_returns.mpr ⟨?_, rfl⟩
    rw [← hfree, hs]
    rfl
  refine ⟨m, by rw [hs], by rw [hs], by rw [hs],
    (insertBlob_ledger (ledger_any db.toStore) hblob).2.2, ?_⟩
  unfold putFile
  rw [bind_of_returns hblob, bind_of_returns hchild, Option.any_none, if_neg Bool.false_ne_true]
  simp only [previousOf, Option.bind_none, chargeForPut, retire, storeFile, bind_assoc, pure_bind]

/-- **A new file** of bytes that fit. -/
theorem putFile_creates (hash : BlobHash) (size : Nat) (versionsKept : Int)
    (hparent : db.nodes.find parent.id = some parent)
    (hfree : db.child parent.id name.str = none)
    (hquota : db.quotas.find parent.ownerId = some ⟨parent.ownerId, used, max⟩)
    (hlow : 0 ≤ used) (hroom : used + size ≤ max) :
    ∃ node db', (putFile parent.ownerId parent name hash size versionsKept).Returns db node db' ∧
      node.body = .file hash size ∧ ∀ k, db'.versionsOf k = db.versionsOf k := by
  obtain ⟨m, hnodes, hversions, hquotas, hblob, heq⟩ := putFile_opens_new parent.ownerId hash size
    versionsKept hfree
  obtain ⟨m₁, hcharge, h₁⟩ := chargeQuota_stands size
    (stands_of_opened hquota hnodes hversions hquotas parent.id) (Or.inr ⟨by omega, hroom⟩)
  obtain ⟨m₂, hacquire⟩ := acquireBlob_succeeds m₁ hash
  have h₂ := acquireBlob_stands h₁ hacquire
  have hcharged := keeps_chargeQuota (R := Beside) hcharge
  have hblob₂ := (Counting.acquire (R := Beside) hash hacquire).blobs hash (hcharged.blobs hash hblob)
  obtain ⟨db', hinsert, hversions', -⟩ := insertNode_succeeds (.file hash size) (.file hash)
    (h₂.nodes ▸ hparent : m₂.nodes.find parent.id = some parent)
    (by rw [← hfree]; unfold Store.child; rw [h₂.nodes] : m₂.child parent.id name.str = none)
    fun h n hh => by cases hh; exact hblob₂
  refine ⟨_, db', heq.trans (bind_returns.mpr ⟨(), m₁, hcharge, bind_returns.mpr
    ⟨(), m₂, hacquire, hinsert⟩⟩), rfl, fun k => (versionsOf_congr hversions' k).trans ?_⟩
  by_cases hk : k = parent.id
  · rw [hk, h₂.held]
  · exact h₂.others k hk

theorem putFile_stopped_new (hfree : db.child parent.id name.str = none)
    (hquota : db.quotas.find ownerId = some ⟨ownerId, used, max⟩) (hmax : used ≤ max)
    (hroom : max < used + size) :
    Exceeds (putFile ownerId parent name hash size versionsKept) db := by
  obtain ⟨m, hnodes, hversions, hquotas, -, heq⟩ := putFile_opens_new ownerId hash size versionsKept
    hfree
  unfold Exceeds
  rw [heq]
  exact exceeds_of_first (chargeQuota_exceeds_iff.mpr
    ((stands_of_opened hquota hnodes hversions hquotas parent.id).not_fits (by omega) hroom))

end Stashden.Api
