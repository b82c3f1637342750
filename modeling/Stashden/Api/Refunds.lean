import Stashden.Api.Accounts
import Stashden.Api.Sound

/-!
# Refunds (`api/src/db.rs`, `trash.rs`, `versions.rs`)

The one guarded statement of `charge_quota` serves refunds as well: it reaches no row where what is
left of the usage is still over the limit, and the refund is refused like a charge.
`refunds_iff` says of every operation that frees bytes when that stops it; an account whose limit was
set below its usage cannot free a little (`refunds_refused`).
-/

namespace Stashden.Api

open Lib Stashden.Core Tx

variable {α β : Type} {db m : Db} {ownerId nodeId id : Uuid} {hash : BlobHash} {size : Nat}
  {delta versionsKept : Int} {node old parent : Node} {name : NodeName}

/-- Stopped by the quota. -/
def Exceeds (x : Tx α) (db : Db) : Prop := x db = .error .quotaExceeded

/-- A charge that changes nothing, or leaves the account within its limit. -/
def Fits (s : Store) (ownerId : Uuid) (delta : Int) : Prop :=
  delta = 0 ∨ ∃ q, s.quotas.find ownerId = some q ∧ q.bytesUsed + delta ≤ q.bytesMax

/-- A charge that goes through, by exactly that amount. -/
def Charges (db : Db) (ownerId : Uuid) (delta : Int) : Prop :=
  ∃ db', (chargeQuota ownerId delta).Returns db () db' ∧
    ∀ o, db'.bytesUsed o = db.bytesUsed o + bytes ownerId delta o

theorem exceeds_bind {x : Tx α} {f : α → Tx β} {a : α} (h : x.Returns db a m) :
    Exceeds (x >>= f) db ↔ Exceeds (f a) m := by
  unfold Exceeds
  rw [bind_of_returns h]

theorem not_exceeds_of_returns {x : Tx α} {a : α} (h : x.Returns db a m) : ¬ Exceeds x db := by
  unfold Exceeds
  rw [show x db = .ok (a, m) from h]
  simp

/-- A statement is never stopped by the quota. -/
theorem execute_not_exceeds {h : Store → Store} : ¬ Exceeds (execute h) db := by
  show ¬ Exceeds (read >>= fun s => write (h s)) db
  rw [exceeds_bind (read_returns.mpr ⟨rfl, rfl⟩)]
  unfold Exceeds write
  split <;> simp

theorem bind_exceeds {x : Tx α} {f : α → Tx β} (hx : ¬ Exceeds x db) (h : Exceeds (x >>= f) db) :
    ∃ a m, x.Returns db a m ∧ Exceeds (f a) m := by
  cases hr : x db with
  | ok p => exact ⟨p.1, p.2, hr, (exceeds_bind hr).mp h⟩
  | error e =>
    refine absurd ?_ hx
    unfold Exceeds at h ⊢
    rw [bind_of_error hr] at h
    cases h
    exact hr

/-- A charge that fits no row is refused, and the tables stay as they are. -/
theorem charged_refused (hnone : ¬ ∃ q, db.quotas.find ownerId = some q ∧
    q.bytesUsed + delta ≤ q.bytesMax) : (charged ownerId delta).Returns db false db := by
  have hreached : false = (db.quotas.find ownerId).any fun q =>
      decide (q.bytesUsed + delta ≤ q.bytesMax) := by
    refine (Bool.eq_false_iff.mpr fun hyes => ?_).symm
    obtain ⟨q, hq, hroom⟩ := (Option.any_eq_true _ _).mp hyes
    exact hnone ⟨q, hq, of_decide_eq_true hroom⟩
  have hsame : (execute fun s => { s with
      quotas := s.quotas.update
        (fun q => q.ownerId = ownerId && decide (q.bytesUsed + delta ≤ q.bytesMax))
        (fun q => { q with bytesUsed := q.bytesUsed + delta }) fun _ => rfl }).Returns db () db := by
    refine execute_returns.mpr ?_
    rw [Table.update_of_none]
    intro q hq
    by_contra hyes
    simp only [Bool.not_eq_false, Bool.and_eq_true, decide_eq_true_eq] at hyes
    exact hnone ⟨q, hyes.1 ▸ Table.mem_iff_find.mp hq, hyes.2⟩
  exact bind_returns.mpr ⟨false, db, query_returns.mpr ⟨hreached, rfl⟩, bind_returns.mpr
    ⟨(), db, hsame, pure_returns.mpr ⟨rfl, rfl⟩⟩⟩

/-- **`charge_quota` is stopped** exactly where the charge does not fit. -/
theorem chargeQuota_exceeds_iff :
    Exceeds (chargeQuota ownerId delta) db ↔ ¬ Fits db.toStore ownerId delta := by
  unfold chargeQuota tryCharge Fits
  by_cases hzero : delta = 0
  · rw [if_pos hzero, exceeds_bind (pure_returns.mpr ⟨rfl, rfl⟩)]
    exact iff_of_false (not_exceeds_of_returns (pure_returns.mpr ⟨rfl, rfl⟩))
      fun h => h (Or.inl hzero)
  · rw [if_neg hzero, or_iff_right hzero]
    by_cases hroom : ∃ q, db.quotas.find ownerId = some q ∧ q.bytesUsed + delta ≤ q.bytesMax
    · refine iff_of_false (fun h => ?_) fun h => h hroom
      obtain ⟨q, hq, hle⟩ := hroom
      have hreached : ((db.quotas.find ownerId).any fun q =>
          decide (q.bytesUsed + delta ≤ q.bytesMax)) = true := by
        rw [hq, Option.any_some, decide_eq_true hle]
      unfold charged at h
      rw [bind_assoc, exceeds_bind (query_returns.mpr ⟨rfl, rfl⟩), bind_assoc] at h
      obtain ⟨_, m, -, h⟩ := bind_exceeds execute_not_exceeds h
      rw [hreached, exceeds_bind (pure_returns.mpr ⟨rfl, rfl⟩)] at h
      exact not_exceeds_of_returns (pure_returns.mpr ⟨rfl, rfl⟩) h
    · refine iff_of_true ?_ hroom
      rw [exceeds_bind (charged_refused hroom)]
      rfl

/-- A charge that goes through is by exactly that amount. -/
theorem chargeQuota_bytesUsed {u : Unit} {db' : Db}
    (h : (chargeQuota ownerId delta).Returns db u db') (o : Uuid) :
    db'.bytesUsed o = db.bytesUsed o + bytes ownerId delta o := by
  obtain ⟨hbooks, hbooked⟩ := chargeQuota_ledger (ledger_any db.toStore) h
  have hused := hbooks.bytesUsed o
  rw [hbooked.usage] at hused
  omega

/-- **A charge goes through** exactly where it fits and leaves no usage below nothing. -/
theorem charges_iff : Charges db ownerId delta ↔ delta = 0 ∨ ∃ q,
    db.quotas.find ownerId = some q ∧ 0 ≤ q.bytesUsed + delta ∧
      q.bytesUsed + delta ≤ q.bytesMax := by
  constructor
  · rintro ⟨db', h, hused⟩
    by_cases hzero : delta = 0
    · exact Or.inl hzero
    · have hfits : Fits db.toStore ownerId delta := by
        by_contra hno
        exact not_exceeds_of_returns h (chargeQuota_exceeds_iff.mpr hno)
      obtain ⟨q, hq, hroom⟩ := hfits.resolve_left hzero
      refine Or.inr ⟨q, hq, ?_, hroom⟩
      have hleft := hused ownerId
      unfold bytes Store.bytesUsed at hleft
      rw [if_pos rfl, Table.value_of_find hq] at hleft
      obtain ⟨q', hq'⟩ := Option.isSome_iff_exists.mp
        ((keeps_chargeQuota (R := Beside) h).quotas ownerId (by rw [hq]; rfl))
      rw [Table.value_of_find hq'] at hleft
      have hcheck := (db'.sound .quotasCheck q' (Table.find_mem hq')).2.1
      omega
  · intro h
    obtain ⟨db', h⟩ := chargeQuota_succeeds h
    exact ⟨db', h, chargeQuota_bytesUsed h⟩

theorem fits_congr {s s' : Store} (h : s'.quotas = s.quotas) :
    Fits s' ownerId delta ↔ Fits s ownerId delta := by
  unfold Fits
  rw [h]

/-! ## What frees bytes -/

/-- The quotas as they were. -/
def SameQuotas (s s' : Store) : Prop := s'.quotas = s.quotas

instance : IsPreorder Store SameQuotas where
  refl _ := rfl
  trans _ _ _ h h' := h'.trans h

theorem sameQuotas_releaseBlob : Keeps SameQuotas (releaseBlob hash) := by
  intro db a db' h
  unfold SameQuotas
  rw [execute_returns.mp h]

theorem sameQuotas_release {held : List Version} : Keeps SameQuotas (release held) :=
  keeps_bind (keeps_forEach (fun _ => sameQuotas_releaseBlob) held) fun _ => keeps_pure

theorem booked_release {held : List Version} : Keeps Booked (release held) :=
  keeps_bind (keeps_forEach (fun _ => booked_releaseBlob) held) fun _ => keeps_pure

/-- The bytes a node takes to the trash. -/
def freedBySend (s : Store) (id : Uuid) : Int :=
  ((s.marked id).map Node.size).sum + s.versionsUnder ((s.marked id).map Node.id)

/-- What `send` marks, marked. -/
theorem holds_marked (id : Uuid) (c : Constraint) : ({ db.toStore with
    nodes := db.nodes.update (fun n => n.id ∈ (db.marked id).map Node.id)
      (fun n => { n with trashed := some ⟨db.now, id⟩ }) fun _ => rfl } : Store).Holds c := by
  refine holds_trashed (fun k => ?_) (fun n hn hlive => ?_) (fun n hn r hr => ?_) c
  · rw [Table.find_update, Option.map_map]
    refine Option.map_congr fun r _ => ?_
    rw [Function.comp_apply]
    split_ifs <;> rfl
  · obtain ⟨old, hold, rfl⟩ := List.mem_map.mp hn
    split_ifs at hlive ⊢
    · cases hlive
    · exact hold
  · obtain ⟨old, hold, rfl⟩ := List.mem_map.mp hn
    split_ifs at hr with hm
    · cases hr
      by_contra hno
      rw [marked_of_dead fun ⟨row, hrow, _⟩ => hno (by rw [hrow]; rfl)] at hm
      simp at hm
    · exact (db.sound .nodesForeign old hold).2.2.1 r hr

theorem send_exceeds_iff : Exceeds (send node) db ↔
    ¬ Fits db.toStore node.ownerId (-freedBySend db.toStore node.id) := by
  obtain ⟨m, hm⟩ := execute_succeeds (h := fun s => { s with
    nodes := s.nodes.update (fun n => n.id ∈ (db.marked node.id).map Node.id)
      (fun n => { n with trashed := some ⟨s.now, node.id⟩ }) fun _ => rfl })
    (holds_marked node.id)
  have hs := execute_returns.mp hm
  have hunder : (sizeUnder ((db.marked node.id).map Node.id)).Returns m
      (db.versionsUnder ((db.marked node.id).map Node.id)) m := by
    refine query_returns.mpr ⟨?_, rfl⟩
    unfold Store.versionsUnder
    rw [hs]
  unfold send
  rw [exceeds_bind (query_returns.mpr ⟨rfl, rfl⟩), exceeds_bind hm, exceeds_bind hunder,
    chargeQuota_exceeds_iff, fits_congr (s := db.toStore) (by rw [hs])]
  rfl

/-- What `prune_beyond` drops. -/
def prunes (s : Store) (nodeId : Uuid) (kept : Int) : List Version :=
  (s.versionsOf nodeId).drop kept.toNat

theorem pruneBeyond_exceeds_iff : Exceeds (pruneBeyond ownerId nodeId versionsKept) db ↔
    ¬ Fits db.toStore ownerId (-sizes (prunes db.toStore nodeId versionsKept)) := by
  obtain ⟨m, hm⟩ :=
    deleteVersions_succeeds ((prunes db.toStore nodeId versionsKept).map Version.id) db
  obtain ⟨m', hm'⟩ := release_succeeds (prunes db.toStore nodeId versionsKept) m
  have hquotas : m'.quotas = db.quotas := by
    rw [show m'.quotas = m.quotas from sameQuotas_release hm', execute_returns.mp hm]
  unfold pruneBeyond
  rw [exceeds_bind (query_returns.mpr ⟨rfl, rfl⟩)]
  show Exceeds (deleteVersions ((prunes db.toStore nodeId versionsKept).map Version.id) >>= _) db ↔ _
  rw [exceeds_bind hm]
  show Exceeds (release (prunes db.toStore nodeId versionsKept) >>= _) m ↔ _
  rw [exceeds_bind hm', chargeQuota_exceeds_iff, fits_congr hquotas]
  rfl

theorem take_exceeds_iff {version : Version} (hfind : db.versions.find id = some version)
    (hof : version.nodeId = nodeId) :
    Exceeds (take ownerId nodeId id) db ↔ ¬ Fits db.toStore ownerId (-version.size) := by
  obtain ⟨m, hm⟩ := deleteVersions_succeeds [version.id] db
  obtain ⟨m', hm'⟩ := releaseBlob_succeeds m version.hash
  have hquotas : m'.quotas = db.quotas := by
    rw [show m'.quotas = m.quotas from sameQuotas_releaseBlob hm', execute_returns.mp hm]
  have hfound : (db.versions.find id).filter (fun v => decide (v.nodeId = nodeId)) = some version := by
    rw [hfind, Option.filter_some, if_pos (decide_eq_true hof)]
  unfold take
  rw [exceeds_bind (query_returns.mpr ⟨rfl, rfl⟩), exceeds_bind (orFail_returns.mpr ⟨hfound, rfl⟩),
    exceeds_bind hm, exceeds_bind hm', ← fits_congr hquotas, ← chargeQuota_exceeds_iff]
  constructor
  · intro h
    by_contra hno
    obtain ⟨_, m'', -, h⟩ := bind_exceeds hno h
    exact not_exceeds_of_returns (pure_returns.mpr ⟨rfl, rfl⟩) h
  · intro h
    exact bind_of_error h

/-- What a charge leaves in the quotas. -/
theorem chargeQuota_find {u : Unit} {db' : Db} (h : (chargeQuota ownerId delta).Returns db u db')
    (o : Uuid) : db'.quotas.find o = (db.quotas.find o).map fun q =>
      if q.ownerId = ownerId then { q with bytesUsed := q.bytesUsed + delta } else q := by
  have hfits : Fits db.toStore ownerId delta := by
    by_contra hno
    exact not_exceeds_of_returns h (chargeQuota_exceeds_iff.mpr hno)
  obtain ⟨ok, m, htry, h⟩ := bind_returns.mp h
  cases ok with
  | false => exact absurd h fail_returns
  | true =>
    obtain ⟨-, rfl⟩ := pure_returns.mp h
    unfold tryCharge at htry
    split_ifs at htry with hzero
    · obtain ⟨-, rfl⟩ := pure_returns.mp htry
      cases db.quotas.find o with
      | none => rfl
      | some q => simp [hzero]
    · obtain ⟨q, hq, hroom⟩ := hfits.resolve_left hzero
      obtain ⟨reached, m₁, hreached, htry⟩ := bind_returns.mp htry
      obtain ⟨-, rfl⟩ := query_returns.mp hreached
      obtain ⟨_, m₂, hupdate, htry⟩ := bind_returns.mp htry
      obtain ⟨-, rfl⟩ := pure_returns.mp htry
      rw [execute_returns.mp hupdate, Table.find_update]
      refine Option.map_congr fun r hr => ?_
      by_cases ho : r.ownerId = ownerId
      · have hrq : db.quotas.find ownerId = some r := by
          rw [← ho, Table.find_key hr]
          exact hr
        rw [hq] at hrq
        cases hrq
        simp [ho, hroom]
      · simp [ho]

theorem updateNode_not_exceeds {f : Node → Node} {hf : ∀ n, (f n).id = n.id} :
    ¬ Exceeds (updateNode id f hf) db := by
  intro h
  obtain ⟨_, m, -, h⟩ := bind_exceeds execute_not_exceeds h
  rw [exceeds_bind (query_returns.mpr ⟨rfl, rfl⟩)] at h
  cases hrow : m.nodes.find id with
  | none =>
    rw [hrow] at h
    cases h
  | some row =>
    rw [hrow] at h
    exact not_exceeds_of_returns (pure_returns.mpr ⟨rfl, rfl⟩) h

theorem exceeds_of_first {x : Tx α} {f : α → Tx β} (h : Exceeds x db) : Exceeds (x >>= f) db :=
  bind_of_error h

/-- What overwriting a file without history charges first, and what it credits with the versions. -/
theorem overwrite_exceeds_iff (hkept : versionsKept ≤ 0)
    (hold : db.child parent.id name.str = some old) (hfile : old.isDirectory = false) :
    Exceeds (putFile ownerId parent name hash size versionsKept) db ↔
      ¬ (Fits db.toStore ownerId (size - old.size) ∧
        (sizes (db.versionsOf old.id) = 0 ∨ ∃ q, db.quotas.find ownerId = some q ∧
          q.bytesUsed + (size - old.size) - sizes (db.versionsOf old.id) ≤ q.bytesMax)) := by
  obtain ⟨m₁, hblob⟩ := insertBlob_succeeds db hash size
  have hs₁ := execute_returns.mp hblob
  have hchild : (child parent.id name).Returns m₁ (some old) m₁ := by
    refine child_returns.mpr ⟨?_, rfl⟩
    rw [← hold, hs₁]
    rfl
  obtain ⟨oldHash, oldSize, hbody⟩ : ∃ oldHash oldSize, old.body = .file oldHash oldSize := by
    cases hbody : old.body with
    | directory =>
      rw [Node.isDirectory, hbody] at hfile
      cases hfile
    | file oldHash oldSize => exact ⟨oldHash, oldSize, rfl⟩
  have hprev : previousOf (some old) = some (old.id, oldHash, old.size) := by
    rw [previousOf, Option.bind_some, Node.blobHash, hbody, Option.map_some]
  have hdir : ¬ Option.any Node.isDirectory (some old) = true := by
    rw [Option.any_some, hfile]
    exact Bool.false_ne_true
  have hcharge : chargeForPut ownerId (some (old.id, oldHash, old.size)) hash size versionsKept =
      chargeQuota ownerId (size - old.size) >>= fun _ => pure false :=
    if_neg fun h => absurd h.1 (not_lt.mpr hkept)
  unfold putFile
  rw [exceeds_bind hblob, exceeds_bind hchild, if_neg hdir, hprev, hcharge, bind_assoc]
  by_cases hfits : Fits db.toStore ownerId (size - old.size)
  · rw [and_iff_right hfits]
    by_cases hok : ∃ m₂, (chargeQuota ownerId (size - old.size)).Returns m₁ () m₂
    · obtain ⟨m₂, hm₂⟩ := hok
      obtain ⟨m₃, hm₃⟩ := acquireBlob_succeeds m₂ hash
      obtain ⟨m₄, hm₄⟩ := releaseBlob_succeeds m₃ oldHash
      have hquotas : m₄.quotas = m₂.quotas := by
        rw [execute_returns.mp hm₄, execute_returns.mp hm₃]
      have hversions : m₄.versionsOf old.id = db.versionsOf old.id := by
        have hbooked := (chargeQuota_ledger (ledger_any m₁.toStore) hm₂).2
        unfold Store.versionsOf
        rw [execute_returns.mp hm₄, execute_returns.mp hm₃, hbooked.versions, hs₁]
      have hprune : prunes m₄.toStore old.id versionsKept = db.versionsOf old.id := by
        unfold prunes
        rw [Int.toNat_of_nonpos hkept, List.drop_zero, hversions]
      rw [exceeds_bind hm₂, exceeds_bind (pure_returns.mpr ⟨rfl, rfl⟩), exceeds_bind hm₃]
      show Exceeds ((releaseBlob oldHash >>= fun _ => pruneBeyond ownerId old.id versionsKept) >>=
        fun _ => storeFile ownerId parent name (some old) hash size) m₃ ↔ _
      rw [bind_assoc, exceeds_bind hm₄]
      have hlast : Exceeds (pruneBeyond ownerId old.id versionsKept >>= fun _ =>
          storeFile ownerId parent name (some old) hash size) m₄ ↔
          Exceeds (pruneBeyond ownerId old.id versionsKept) m₄ := by
        refine ⟨fun h => ?_, exceeds_of_first⟩
        by_contra hno
        obtain ⟨_, m, -, h⟩ := bind_exceeds hno h
        exact updateNode_not_exceeds h
      rw [hlast, pruneBeyond_exceeds_iff, hprune, fits_congr hquotas]
      refine not_congr ?_
      unfold Fits
      rw [chargeQuota_find hm₂, hs₁, neg_eq_zero]
      refine or_congr_right ?_
      cases hq : db.quotas.find ownerId with
      | none => simp
      | some q => simp [Table.find_key hq, sub_eq_add_neg]
    · -- only a usage below nothing stops a charge that fits
      have hlow : ∃ q, db.quotas.find ownerId = some q ∧ q.bytesUsed + (size - old.size) < 0 := by
        by_contra hno
        refine hok (chargeQuota_succeeds ?_)
        rcases hfits with hzero | ⟨q, hq, hroom⟩
        · exact Or.inl hzero
        · refine Or.inr ⟨q, by rw [hs₁]; exact hq, ?_, hroom⟩
          by_contra hneg
          exact hno ⟨q, hq, not_le.mp hneg⟩
      obtain ⟨q, hq, hneg⟩ := hlow
      have hheld : 0 ≤ sizes (db.versionsOf old.id) := by
        refine List.sum_nonneg fun x hx => ?_
        obtain ⟨v, hv, rfl⟩ := List.mem_map.mp hx
        exact (db.sound .versionsForeign v (mem_versionsOf.mp hv).1).2.2
      have hmax := (db.sound .quotasCheck q (Table.find_mem hq)).2.2
      refine iff_of_false (fun h => ?_) fun h => h (Or.inr ⟨q, hq, by omega⟩)
      have hno : ¬ Exceeds (chargeQuota ownerId (size - old.size)) m₁ := by
        rw [chargeQuota_exceeds_iff, not_not]
        exact (fits_congr (by rw [hs₁])).mpr hfits
      obtain ⟨_, m, hm, -⟩ := bind_exceeds hno h
      exact hok ⟨m, hm⟩
  · refine iff_of_true (exceeds_of_first ?_) fun h => hfits h.1
    rw [chargeQuota_exceeds_iff]
    exact fun h => hfits ((fits_congr (by rw [hs₁])).mp h)

/-- **When what frees bytes is not stopped**: exactly where the usage it leaves is within the limit,
or it frees nothing. -/
theorem refunds_iff (db : Db) :
    (∀ ownerId delta, delta ≤ 0 → (Charges db ownerId delta ↔ delta = 0 ∨ ∃ q,
      db.quotas.find ownerId = some q ∧ 0 ≤ q.bytesUsed + delta ∧
        q.bytesUsed + delta ≤ q.bytesMax)) ∧
    (∀ node, ¬ Exceeds (send node) db ↔
      Fits db.toStore node.ownerId (-freedBySend db.toStore node.id)) ∧
    (∀ ownerId nodeId versionsKept, ¬ Exceeds (pruneBeyond ownerId nodeId versionsKept) db ↔
      Fits db.toStore ownerId (-sizes (prunes db.toStore nodeId versionsKept))) ∧
    (∀ ownerId nodeId id version, db.versions.find id = some version → version.nodeId = nodeId →
      (¬ Exceeds (take ownerId nodeId id) db ↔ Fits db.toStore ownerId (-version.size))) ∧
    (∀ (ownerId : Uuid) (parent : Node) (name : NodeName) (hash : BlobHash) (size : Nat)
        (versionsKept : Int) (old : Node), versionsKept ≤ 0 →
      db.child parent.id name.str = some old → old.isDirectory = false → (size : Int) ≤ old.size →
      (¬ Exceeds (putFile ownerId parent name hash size versionsKept) db ↔
        Fits db.toStore ownerId (size - old.size) ∧
          (sizes (db.versionsOf old.id) = 0 ∨ ∃ q, db.quotas.find ownerId = some q ∧
            q.bytesUsed + (size - old.size) - sizes (db.versionsOf old.id) ≤ q.bytesMax))) := by
  refine ⟨fun ownerId delta _ => charges_iff, fun node => ?_, fun ownerId nodeId versionsKept => ?_,
    fun ownerId nodeId id version hfind hof => ?_,
    fun ownerId parent name hash size versionsKept old hkept hold hfile _ => ?_⟩
  · rw [send_exceeds_iff, not_not]
  · rw [pruneBeyond_exceeds_iff, not_not]
  · rw [take_exceeds_iff hfind hof, not_not]
  · rw [overwrite_exceeds_iff hkept hold hfile, not_not]

/-! ## An account over its limit -/

/-- An account with a file of one byte and one of four, and a limit of ten. -/
def filled : Db where
  users := ⟨[⟨1, "ada@x.io".toList, "Ada".toList, true, true⟩], by decide⟩
  nodes := ⟨[⟨2, 1, none, [], .directory, .directory 2, none⟩,
    ⟨3, 1, some 2, "a".toList, .file ⟨0⟩ 1, .file ⟨0⟩, none⟩,
    ⟨4, 1, some 2, "b".toList, .file ⟨1⟩ 4, .file ⟨1⟩, none⟩], by decide⟩
  blobs := ⟨[⟨⟨0⟩, 1, 1, none⟩, ⟨⟨1⟩, 4, 1, none⟩], by decide⟩
  versions := .empty
  thumbnails := .empty
  quotas := ⟨[⟨1, 5, 10⟩], by decide⟩
  grants := .empty
  locks := .empty
  now := 1
  next := 5
  sound := by
    intro c
    cases c <;> decide +kernel

/-- The same account, its limit set to three. -/
def overLimit : Db where
  toStore := { filled.toStore with quotas := ⟨[⟨1, 5, 3⟩], by decide⟩ }
  sound := by
    intro c
    cases c <;> decide +kernel

/-- The file of one byte. -/
def smallFile : Node := ⟨3, 1, some 2, "a".toList, .file ⟨0⟩ 1, .file ⟨0⟩, none⟩

/-- **Freeing a little is refused** once the limit is set below what is left. -/
theorem refunds_refused : (setQuota 1 3).Returns filled () overLimit ∧
    smallFile ∈ overLimit.nodes.rows ∧ Exceeds (send smallFile) overLimit ∧
    ¬ Charges overLimit 1 (-1) := by
  have hquota : ∀ q, overLimit.quotas.find 1 = some q → q = ⟨1, 5, 3⟩ := fun q hq =>
    (Option.some.inj hq).symm
  refine ⟨mapViolated_returns.mpr (execute_returns.mpr (by decide +kernel)), by decide +kernel,
    ?_, ?_⟩
  · rw [send_exceeds_iff]
    rintro (hzero | ⟨q, hq, hroom⟩)
    · exact absurd hzero (by decide +kernel)
    · rw [hquota q hq] at hroom
      exact absurd hroom (by decide +kernel)
  · rw [charges_iff]
    rintro (hzero | ⟨q, hq, -, hroom⟩)
    · exact absurd hzero (by decide)
    · rw [hquota q hq] at hroom
      exact absurd hroom (by decide)

end Stashden.Api
