import Stashden.Api.Restore

/-!
# The books (`api/src/check.rs`)

`references` and `usage` are the sums `check.rs` recomputes. `Ledger pending ahead` says that the
counters agree with them, but for the references still to be given up and the bytes charged ahead of
what is stored; between two transactions nothing is pending and nothing ahead. The lemmas `*_ledger`
say what each statement does to both, so that a function keeps the books when it comes out even.
-/

namespace Stashden.Api

open Lib Stashden.Core Tx

namespace Store

/-- `expected_references`, of one blob. -/
def references (s : Store) (h : BlobHash) : Int :=
  s.nodes.total (fun n => if n.blobHash = some h then 1 else 0) +
    s.versions.total (fun v => if v.hash = h then 1 else 0) +
    s.thumbnails.total (fun t => if t.hash = h then 1 else 0)

/-- A node of an account that is not in the trash. -/
def chargedTo (s : Store) (ownerId nodeId : Uuid) : Bool :=
  (s.nodes.find nodeId).any fun n => n.ownerId = ownerId && n.live

/-- `expected_usage`, of one account. -/
def usage (s : Store) (ownerId : Uuid) : Int :=
  s.nodes.total (fun n => if n.ownerId = ownerId && n.live then n.size else 0) +
    s.versions.total (fun v => if s.chargedTo ownerId v.nodeId then v.size else 0)

/-- `ref_count`, of a blob with a row. -/
def refCount (s : Store) (h : BlobHash) : Int := s.blobs.value Blob.refCount h

/-- `bytes_used`, of an account with a row. -/
def bytesUsed (s : Store) (ownerId : Uuid) : Int := s.quotas.value Quota.bytesUsed ownerId

end Store

/-- The counters agree with what is stored, but for what is `pending` and what is `ahead`. -/
structure Ledger (pending : BlobHash → Int) (ahead : Uuid → Int) (s : Store) : Prop where
  refCount : ∀ h, s.refCount h = s.references h + pending h
  bytesUsed : ∀ ownerId, s.bytesUsed ownerId = s.usage ownerId + ahead ownerId

/-- Only counters differ. -/
def Booked (s s' : Store) : Prop := s' = { s with blobs := s'.blobs, quotas := s'.quotas }

instance : IsPreorder Store Booked where
  refl _ := rfl
  trans _ _ _ h h' := by
    unfold Booked at *
    rw [h', h]

variable {s s' : Store} {db db' m : Db} {pending : BlobHash → Int} {ahead : Uuid → Int}
  {ownerId nodeId id : Uuid} {hash : BlobHash} {size : Nat} {delta : Int} {u : Unit}
  {node row : Node}

/-! ## What the sums depend on -/

theorem references_congr (hn : s'.nodes = s.nodes) (hv : s'.versions = s.versions)
    (ht : s'.thumbnails = s.thumbnails) (h : BlobHash) : s'.references h = s.references h := by
  unfold Store.references
  rw [hn, hv, ht]

theorem usage_congr (hn : s'.nodes = s.nodes) (hv : s'.versions = s.versions) (ownerId : Uuid) :
    s'.usage ownerId = s.usage ownerId := by
  unfold Store.usage Store.chargedTo
  rw [hn, hv]

theorem Booked.references (h : Booked s s') (hash : BlobHash) :
    s'.references hash = s.references hash := by
  rw [h]
  rfl

theorem Booked.usage (h : Booked s s') (ownerId : Uuid) : s'.usage ownerId = s.usage ownerId := by
  rw [h]
  rfl

theorem Booked.nodes (h : Booked s s') : s'.nodes = s.nodes := by
  rw [h]

theorem Booked.versions (h : Booked s s') : s'.versions = s.versions := by
  rw [h]

theorem booked_releaseBlob : Keeps Booked (releaseBlob hash) := by
  intro db a db' h
  rw [execute_returns.mp h]
  rfl

theorem total_nonneg {ρ κ : Type} {key : ρ → κ} {t : Table ρ key} {f : ρ → Int}
    (h : ∀ r ∈ t.rows, 0 ≤ f r) : 0 ≤ t.total f := by
  refine List.sum_nonneg fun x hx => ?_
  obtain ⟨r, hr, rfl⟩ := List.mem_map.mp hx
  exact h r hr

theorem total_pos {ρ κ : Type} {key : ρ → κ} {t : Table ρ key} {f : ρ → Int}
    (h : ∀ r ∈ t.rows, 0 ≤ f r) {r : ρ} (hr : r ∈ t.rows) : f r ≤ t.total f := by
  refine List.single_le_sum (fun x hx => ?_) _ (List.mem_map_of_mem hr)
  obtain ⟨r', hr', rfl⟩ := List.mem_map.mp hx
  exact h r' hr'

theorem ite_nonneg_one {p : Prop} [Decidable p] : (0 : Int) ≤ if p then 1 else 0 := by
  split_ifs <;> omega

theorem references_nonneg (s : Store) (h : BlobHash) : 0 ≤ s.references h :=
  add_nonneg (add_nonneg (total_nonneg fun _ _ => ite_nonneg_one)
    (total_nonneg fun _ _ => ite_nonneg_one)) (total_nonneg fun _ _ => ite_nonneg_one)

/-- A blob a node holds. -/
theorem references_pos (hrow : s.nodes.find id = some row) (hb : row.blobHash = some hash) :
    0 < s.references hash := by
  have hone := total_pos (f := fun n : Node => if n.blobHash = some hash then 1 else 0)
    (fun _ _ => ite_nonneg_one) (Table.find_mem hrow)
  rw [if_pos hb] at hone
  have hv : 0 ≤ s.versions.total (fun v => if v.hash = hash then 1 else 0) :=
    total_nonneg fun _ _ => ite_nonneg_one
  have ht : 0 ≤ s.thumbnails.total (fun t => if t.hash = hash then 1 else 0) :=
    total_nonneg fun _ _ => ite_nonneg_one
  unfold Store.references
  omega

/-! ## Counting references -/

/-- One reference to a blob. -/
def one (hash : BlobHash) : BlobHash → Int := fun h => if h = hash then 1 else 0

/-- The references of a list of blobs. -/
def each (held : List BlobHash) : BlobHash → Int := fun h => (held.map fun b => one b h).sum

@[simp] theorem each_nil (h : BlobHash) : each [] h = 0 := rfl

@[simp] theorem each_cons (hash : BlobHash) (held : List BlobHash) (h : BlobHash) :
    each (hash :: held) h = one hash h + each held h := rfl

@[simp] theorem each_append (held held' : List BlobHash) (h : BlobHash) :
    each (held ++ held') h = each held h + each held' h := by
  unfold each
  rw [List.map_append, List.sum_append]

theorem one_nonneg (hash h : BlobHash) : 0 ≤ one hash h := ite_nonneg_one

theorem each_nonneg (held : List BlobHash) (h : BlobHash) : 0 ≤ each held h := by
  induction held with
  | nil => exact le_rfl
  | cons b held ih => exact add_nonneg (one_nonneg b h) ih

@[simp] theorem one_self (hash : BlobHash) : one hash hash = 1 := if_pos rfl

/-- Bytes of one account. -/
def bytes (ownerId : Uuid) (delta : Int) : Uuid → Int := fun o => if o = ownerId then delta else 0

theorem bytes_add (ownerId : Uuid) (a b : Int) (o : Uuid) :
    bytes ownerId (a + b) o = bytes ownerId a o + bytes ownerId b o := by
  unfold bytes
  split_ifs <;> omega

theorem bytes_neg (ownerId : Uuid) (a : Int) (o : Uuid) : bytes ownerId (-a) o = -bytes ownerId a o := by
  unfold bytes
  split_ifs <;> omega

@[simp] theorem bytes_zero (ownerId o : Uuid) : bytes ownerId 0 o = 0 := ite_self 0

theorem Ledger.of_eq {pending' : BlobHash → Int} {ahead' : Uuid → Int} (h : Ledger pending ahead s)
    (hp : ∀ h, pending h = pending' h) (ha : ∀ o, ahead o = ahead' o) : Ledger pending' ahead' s :=
  ⟨fun hash => by rw [h.refCount, hp], fun o => by rw [h.bytesUsed, ha]⟩

/-- Any tables, by what is pending and ahead in them. -/
theorem ledger_any (s : Store) : Ledger (fun b => s.refCount b - s.references b)
    (fun o => s.bytesUsed o - s.usage o) s :=
  ⟨fun _ => by omega, fun _ => by omega⟩

/-- **What changes in the tables is still to be booked.** -/
theorem Ledger.shift (h : Ledger pending ahead s) (hb : s'.blobs = s.blobs)
    (hq : s'.quotas = s.quotas) :
    Ledger (fun hash => pending hash + (s.references hash - s'.references hash))
      (fun o => ahead o + (s.usage o - s'.usage o)) s' := by
  refine ⟨fun hash => ?_, fun o => ?_⟩
  · have hr := h.refCount hash
    unfold Store.refCount at hr ⊢
    rw [hb]
    omega
  · have hu := h.bytesUsed o
    unfold Store.bytesUsed at hu ⊢
    rw [hq]
    omega

/-- Tables the books are not about. -/
theorem Ledger.frame (h : Ledger pending ahead s) (hn : s'.nodes = s.nodes)
    (hv : s'.versions = s.versions) (ht : s'.thumbnails = s.thumbnails) (hb : s'.blobs = s.blobs)
    (hq : s'.quotas = s.quotas) : Ledger pending ahead s' :=
  (h.shift hb hq).of_eq (fun hash => by rw [references_congr hn hv ht]; omega)
    fun o => by rw [usage_congr hn hv]; omega

theorem value_insert {ρ κ : Type} {key : ρ → κ} [DecidableEq κ] {t t' : Table ρ key} {r : ρ}
    (h : t.insert r = some t') (f : ρ → Int) (k : κ) :
    t'.value f k = t.value f k + if k = key r then f r else 0 := by
  by_cases hk : k = key r
  · have hmissing : t.value f k = 0 := Table.value_of_missing (hk ▸ (Table.insert_eq_some h).1)
    rw [if_pos hk, hmissing, zero_add]
    exact Table.value_of_find (by rw [Table.find_insert h, if_pos hk])
  · rw [if_neg hk, add_zero, Table.value, Table.value, Table.find_insert h, if_neg hk]

/-- A row a count starts from nothing in. -/
theorem value_insert_getD {ρ κ : Type} {key : ρ → κ} [DecidableEq κ] (t : Table ρ key) {r : ρ}
    (f : ρ → Int) (hf : f r = 0) (k : κ) : ((t.insert r).getD t).value f k = t.value f k := by
  cases hins : t.insert r with
  | none => rfl
  | some t' => rw [Option.getD_some, value_insert hins, hf, ite_self, add_zero]

theorem insertBlob_ledger (h : Ledger pending ahead db.toStore)
    (hx : (insertBlob hash size).Returns db u db') :
    Ledger pending ahead db'.toStore ∧ Booked db.toStore db'.toStore ∧
      (db'.blobs.find hash).isSome = true := by
  have hs := execute_returns.mp hx
  have hbooked : Booked db.toStore db'.toStore := by rw [hs]; rfl
  refine ⟨⟨fun b => ?_, fun o => ?_⟩, hbooked, ?_⟩
  · rw [hbooked.references, ← h.refCount, Store.refCount, Store.refCount, hs]
    exact value_insert_getD _ Blob.refCount rfl b
  · rw [hbooked.usage, ← h.bytesUsed, Store.bytesUsed, hs]
    rfl
  · rw [hs]
    cases hins : db.blobs.insert ⟨hash, size, 0, none⟩ with
    | none =>
      cases hfind : db.blobs.find hash with
      | some b => exact congrArg Option.isSome hfind
      | none =>
        obtain ⟨t, ht⟩ : ∃ t, db.blobs.insert ⟨hash, size, 0, none⟩ = some t :=
          Table.insert_isSome hfind
        rw [hins] at ht
        cases ht
    | some t => rw [Option.getD_some, Table.find_insert hins, if_pos rfl]; rfl

theorem registerBlob_ledger (h : Ledger pending ahead db.toStore)
    (hx : (registerBlob hash size).Returns db u db') :
    Ledger pending ahead db'.toStore ∧ Booked db.toStore db'.toStore := by
  have hs := execute_returns.mp hx
  have hbooked : Booked db.toStore db'.toStore := by rw [hs]; rfl
  refine ⟨⟨fun b => ?_, fun o => ?_⟩, hbooked⟩
  · rw [hbooked.references, ← h.refCount, Store.refCount, Store.refCount, hs]
    exact value_insert_getD _ Blob.refCount rfl b
  · rw [hbooked.usage, ← h.bytesUsed, Store.bytesUsed, hs]
    rfl

theorem value_update_key {ρ κ : Type} {key : ρ → κ} [DecidableEq κ] (t : Table ρ key)
    {p : ρ → Bool} {g : ρ → ρ} (hg : ∀ r, key (g r) = key r) (f : ρ → Int) {k₀ : κ} {d : Int}
    (hp : ∀ r, p r = true → key r = k₀) (hd : ∀ r, t.find k₀ = some r → p r = true ∧ f (g r) = f r + d)
    (hk₀ : (t.find k₀).isSome = true) (k : κ) :
    (t.update p g hg).value f k = t.value f k + if k = k₀ then d else 0 := by
  unfold Table.value
  rw [Table.find_update]
  by_cases hk : k = k₀
  · obtain ⟨r, hr⟩ := Option.isSome_iff_exists.mp hk₀
    obtain ⟨hpr, hfr⟩ := hd r hr
    rw [if_pos hk, hk, hr, Option.map_some, if_pos hpr]
    exact hfr
  · rw [if_neg hk, add_zero]
    cases hr : t.find k with
    | none => rfl
    | some r =>
      rw [Option.map_some, if_neg]
      intro hpr
      exact hk ((Table.find_key hr).symm.trans (hp r hpr))

theorem total_update_key {ρ κ : Type} {key : ρ → κ} [DecidableEq κ] (t : Table ρ key)
    {p : ρ → Bool} {g : ρ → ρ} (hg : ∀ r, key (g r) = key r) (f : ρ → Int) {k₀ : κ} {d : Int}
    (hp : ∀ r, p r = true → key r = k₀) (hd : ∀ r, t.find k₀ = some r → p r = true ∧ f (g r) = f r + d)
    (hk₀ : (t.find k₀).isSome = true) : (t.update p g hg).total f = t.total f + d := by
  have hsum : (t.update p g hg).total f = t.total f + ([k₀].map fun _ => d).sum :=
    Table.total_add_of_value (List.nodup_singleton k₀) fun k => by
      rw [value_update_key t hg f hp hd hk₀ k]
      simp only [List.mem_singleton]
  rwa [List.map_singleton, List.sum_singleton] at hsum

theorem acquireBlob_ledger (h : Ledger pending ahead db.toStore)
    (hrow : (db.blobs.find hash).isSome = true) (hx : (acquireBlob hash).Returns db u db') :
    Ledger (fun b => pending b + one hash b) ahead db'.toStore ∧ Booked db.toStore db'.toStore := by
  have hs := execute_returns.mp hx
  have hbooked : Booked db.toStore db'.toStore := by rw [hs]; rfl
  refine ⟨⟨fun b => ?_, fun o => ?_⟩, hbooked⟩
  · have hold := h.refCount b
    rw [hbooked.references, ← add_assoc, ← hold, Store.refCount, Store.refCount, hs]
    exact value_update_key _ (by intro _; rfl) Blob.refCount (fun r hr => by simpa using hr)
      (fun r hr => ⟨by simpa using Table.find_key hr, rfl⟩) hrow b
  · rw [hbooked.usage, ← h.bytesUsed, Store.bytesUsed, hs]
    rfl

theorem refCount_pos (h : 0 < s.refCount hash) :
    ∃ b, s.blobs.find hash = some b ∧ 0 < b.refCount := by
  unfold Store.refCount Table.value at h
  cases hb : s.blobs.find hash with
  | none =>
    rw [hb] at h
    exact absurd h (lt_irrefl _)
  | some b =>
    rw [hb] at h
    exact ⟨b, rfl, h⟩

/-- **A reference given up**, where one is counted. -/
theorem releaseBlob_ledger (h : Ledger pending ahead db.toStore)
    (hpos : 0 < db.references hash + pending hash) (hx : (releaseBlob hash).Returns db u db') :
    Ledger (fun b => pending b - one hash b) ahead db'.toStore ∧ Booked db.toStore db'.toStore := by
  have hs := execute_returns.mp hx
  have hbooked : Booked db.toStore db'.toStore := by rw [hs]; rfl
  obtain ⟨blob, hblob, hcount⟩ := refCount_pos (by rw [h.refCount]; exact hpos)
  refine ⟨⟨fun b => ?_, fun o => ?_⟩, hbooked⟩
  · have hvalue : db'.refCount b = db.refCount b + if b = hash then -1 else 0 := by
      unfold Store.refCount
      rw [hs]
      refine value_update_key _ (by intro _; rfl) Blob.refCount (fun r hr => ?_) (fun r hr => ?_)
        (by rw [hblob]; rfl) b
      · simp only [Bool.and_eq_true, decide_eq_true_eq] at hr
        exact hr.1
      · rw [hblob] at hr
        cases hr
        exact ⟨by simp [Table.find_key hblob, hcount], rfl⟩
    rw [hbooked.references, hvalue, h.refCount, one]
    split_ifs <;> omega
  · rw [hbooked.usage, ← h.bytesUsed, Store.bytesUsed, hs]
    rfl

/-- **References given up one by one.** -/
theorem releaseEach_ledger {held : List BlobHash}
    (h : Ledger (fun b => pending b + each held b) ahead db.toStore)
    (hpos : ∀ b, 0 ≤ db.references b + pending b)
    (hx : (forEach releaseBlob held).Returns db u db') :
    Ledger pending ahead db'.toStore ∧ Booked db.toStore db'.toStore := by
  induction held generalizing db with
  | nil =>
    rw [← forEach_nil_returns.mp hx]
    exact ⟨h.of_eq (fun b => by rw [each_nil, add_zero]) fun _ => rfl, refl _⟩
  | cons hash held ih =>
    obtain ⟨m, hone, hrest⟩ := forEach_cons_returns.mp hx
    obtain ⟨hm, hbooked⟩ := releaseBlob_ledger h (by
      have h0 := hpos hash
      have h1 := each_nonneg held hash
      rw [each_cons, one_self]
      omega) hone
    obtain ⟨h', hbooked'⟩ := ih (hm.of_eq (fun b => by rw [each_cons]; omega) fun _ => rfl)
      (fun b => by rw [hbooked.references]; exact hpos b) hrest
    exact ⟨h', IsTrans.trans _ _ _ hbooked hbooked'⟩

/-! ## Charging -/

/-- A charge that goes through is booked; one that does not leaves everything. -/
theorem tryCharge_ledger {ok : Bool} (h : Ledger pending ahead db.toStore)
    (hx : (tryCharge ownerId delta).Returns db ok db') :
    (ok = true → Ledger pending (fun o => ahead o + bytes ownerId delta o) db'.toStore) ∧
      (ok = false → db' = db) ∧ Booked db.toStore db'.toStore := by
  unfold tryCharge at hx
  split_ifs at hx with hzero
  · obtain ⟨rfl, rfl⟩ := pure_returns.mp hx
    refine ⟨fun _ => h.of_eq (fun _ => rfl) fun o => ?_, fun hno => ?_, refl _⟩
    · rw [hzero, bytes_zero, add_zero]
    · cases hno
  · unfold charged at hx
    obtain ⟨reached, m, hreached, hx⟩ := bind_returns.mp hx
    obtain ⟨hreach, rfl⟩ := query_returns.mp hreached
    obtain ⟨_, m, hupdate, hx⟩ := bind_returns.mp hx
    obtain ⟨rfl, rfl⟩ := pure_returns.mp hx
    have hs := execute_returns.mp hupdate
    have hbooked : Booked db.toStore m.toStore := by rw [hs]; rfl
    refine ⟨fun hok => ⟨fun b => ?_, fun o => ?_⟩, fun hno => ?_, hbooked⟩
    · rw [hbooked.references, ← h.refCount, Store.refCount, hs]
      rfl
    · rw [hok] at hreach
      obtain ⟨q, hq, hroom⟩ := (Option.any_eq_true _ _).mp hreach.symm
      rw [decide_eq_true_eq] at hroom
      have hvalue : m.bytesUsed o = db.bytesUsed o + if o = ownerId then delta else 0 := by
        unfold Store.bytesUsed
        rw [hs]
        refine value_update_key _ (by intro _; rfl) Quota.bytesUsed (fun r hr => ?_) (fun r hr => ?_)
          (by rw [hq]; rfl) o
        · simp only [Bool.and_eq_true, decide_eq_true_eq] at hr
          exact hr.1
        · rw [hq] at hr
          cases hr
          exact ⟨by simp [Table.find_key hq, hroom], rfl⟩
      rw [hbooked.usage, hvalue, h.bytesUsed, bytes]
      omega
    · refine Db.ext_store (hs.trans ?_)
      rw [Table.update_of_none]
      intro q hq
      rw [hno] at hreach
      by_contra hyes
      simp only [Bool.not_eq_false, Bool.and_eq_true, decide_eq_true_eq] at hyes
      have hfind := Table.mem_iff_find.mp hq
      rw [hyes.1] at hfind
      rw [hfind, Option.any_some] at hreach
      simp [hyes.2] at hreach

theorem chargeQuota_ledger (h : Ledger pending ahead db.toStore)
    (hx : (chargeQuota ownerId delta).Returns db u db') :
    Ledger pending (fun o => ahead o + bytes ownerId delta o) db'.toStore ∧
      Booked db.toStore db'.toStore := by
  unfold chargeQuota at hx
  obtain ⟨ok, m, hcharge, hx⟩ := bind_returns.mp hx
  obtain ⟨hok, -, hbooked⟩ := tryCharge_ledger h hcharge
  cases ok with
  | false => exact absurd hx fail_returns
  | true =>
    obtain ⟨-, rfl⟩ := pure_returns.mp hx
    exact ⟨hok rfl, hbooked⟩

/-! ## Versions -/

/-- The bytes of some versions of one file. -/
def sizes (held : List Version) : Int := (held.map Version.size).sum

theorem each_hashes (held : List Version) (h : BlobHash) :
    (held.map fun v : Version => if v.hash = h then (1 : Int) else 0).sum =
      each (held.map Version.hash) h := by
  unfold each one
  rw [List.map_map]
  refine congrArg List.sum (List.map_congr_left fun v _ => ?_)
  rw [Function.comp_apply]
  exact if_congr eq_comm rfl rfl

/-- Whom a live file is charged to. -/
theorem chargedTo_eq (hrow : s.nodes.find nodeId = some row) (hlive : row.live = true) (o : Uuid) :
    s.chargedTo o nodeId = decide (o = row.ownerId) := by
  unfold Store.chargedTo
  rw [hrow, Option.any_some, hlive, Bool.and_true]
  exact decide_eq_decide.mpr eq_comm

/-- **Versions dropped**: their references are still to be given up, their bytes charged still. -/
theorem deleteVersions_ledger {held : List Version} (h : Ledger pending ahead db.toStore)
    (hheld : ∀ v ∈ held, db.versions.find v.id = some v) (hnodup : (held.map Version.id).Nodup)
    (hof : ∀ v ∈ held, v.nodeId = nodeId) (hrow : db.nodes.find nodeId = some row)
    (hlive : row.live = true) (hx : (deleteVersions (held.map Version.id)).Returns db u db') :
    Ledger (fun b => pending b + each (held.map Version.hash) b)
      (fun o => ahead o + bytes row.ownerId (sizes held) o) db'.toStore := by
  have hs := execute_returns.mp hx
  have hshift := h.shift (show db'.blobs = db.blobs by rw [hs])
    (show db'.quotas = db.quotas by rw [hs])
  refine hshift.of_eq (fun b => ?_) fun o => ?_
  · have htotal := Table.total_delete_held (fun v : Version => if v.hash = b then 1 else 0)
      hheld hnodup
    rw [each_hashes] at htotal
    unfold Store.references
    rw [hs]
    dsimp only
    omega
  · have htotal := Table.total_delete_held
      (fun v : Version => if db.chargedTo o v.nodeId then v.size else 0) hheld hnodup
    have hsum : (held.map fun v : Version => if db.chargedTo o v.nodeId then v.size else 0).sum =
        bytes row.ownerId (sizes held) o := by
      have hmap : (held.map fun v : Version => if db.chargedTo o v.nodeId then v.size else 0) =
          held.map fun v => if o = row.ownerId then v.size else 0 := by
        refine List.map_congr_left fun v hv => ?_
        rw [hof v hv, chargedTo_eq hrow hlive]
        simp only [decide_eq_true_eq]
      rw [hmap]
      unfold bytes sizes
      split_ifs
      · rfl
      · simp
    rw [hsum] at htotal
    have hcharged : db'.chargedTo o = db.chargedTo o := by
      unfold Store.chargedTo
      rw [hs]
    unfold Store.usage
    rw [hcharged, hs]
    dsimp only
    omega

theorem keep_returns {size : Int} (h : (keep nodeId hash size).Returns db u db') :
    ∃ versions, db.versions.insert ⟨db.next, nodeId, hash, size⟩ = some versions ∧
      db'.toStore = { db.toStore with next := db.next + 1, versions } := by
  unfold keep at h
  simp only [bind_returns, fresh_returns, insertRow_returns] at h
  obtain ⟨id, m, ⟨rfl, hm⟩, hins⟩ := h
  obtain ⟨versions, hv, hs⟩ := Option.map_eq_some_iff.mp hins
  rw [hm] at hv hs
  exact ⟨versions, hv, hs.symm⟩

/-- **A version kept.** -/
theorem keep_ledger {size : Int} (h : Ledger pending ahead db.toStore)
    (hrow : db.nodes.find nodeId = some row) (hlive : row.live = true)
    (hx : (keep nodeId hash size).Returns db u db') :
    Ledger (fun b => pending b - one hash b) (fun o => ahead o - bytes row.ownerId size o)
      db'.toStore := by
  obtain ⟨versions, hins, hs⟩ := keep_returns hx
  have hshift := h.shift (show db'.blobs = db.blobs by rw [hs])
    (show db'.quotas = db.quotas by rw [hs])
  refine hshift.of_eq (fun b => ?_) fun o => ?_
  · have htotal := Table.total_insert hins fun v => if v.hash = b then 1 else 0
    have hone : (if hash = b then (1 : Int) else 0) = one hash b := if_congr eq_comm rfl rfl
    rw [hs]
    unfold Store.references
    simp only [htotal, hone]
    omega
  · have htotal := Table.total_insert hins fun v => if db.chargedTo o v.nodeId then v.size else 0
    have hbytes : (if db.chargedTo o nodeId = true then size else 0) = bytes row.ownerId size o := by
      rw [chargedTo_eq hrow hlive]
      simp only [decide_eq_true_eq]
      rfl
    have hcharged : db'.chargedTo o = db.chargedTo o := by
      unfold Store.chargedTo
      rw [hs]
    unfold Store.usage
    rw [hcharged, hs]
    simp only [htotal, hbytes]
    omega

theorem mem_versionsOf {v : Version} : v ∈ s.versionsOf nodeId ↔
    v ∈ s.versions.rows ∧ v.nodeId = nodeId := by
  unfold Store.versionsOf
  rw [List.mem_insertionSort, Table.mem_select, decide_eq_true_eq]

theorem versionsOf_nodup (s : Store) (nodeId : Uuid) :
    ((s.versionsOf nodeId).map Version.id).Nodup := by
  unfold Store.versionsOf
  rw [((List.perm_insertionSort _ _).map Version.id).nodup_iff]
  exact s.versions.nodup.sublist (List.filter_sublist.map _)

/-- What is pending may be one short where a node still holds the blob. -/
def Covered (pending : BlobHash → Int) (t : Table Node Node.id) : Prop :=
  ∀ b, 0 ≤ pending b ∨ -1 ≤ pending b ∧ ∃ id row, t.find id = some row ∧ row.blobHash = some b

theorem covered_zero {t : Table Node Node.id} : Covered (fun _ => 0) t := fun _ => Or.inl le_rfl

theorem Covered.nonneg (h : Covered pending s.nodes) (b : BlobHash) :
    0 ≤ s.references b + pending b := by
  rcases h b with hp | ⟨hp, id, row, hrow, hb⟩
  · exact add_nonneg (references_nonneg s b) hp
  · have hpos := references_pos hrow hb
    omega

/-- **Versions dropped, their references given up and their bytes credited**: the books as before. -/
theorem drop_ledger {held : List Version} {m₁ m₂ : Db} {freed : Int} {u₁ u₂ : Unit}
    (h : Ledger pending ahead db.toStore) (hcovered : Covered pending db.nodes)
    (hheld : ∀ v ∈ held, v ∈ db.versionsOf nodeId) (hnodup : (held.map Version.id).Nodup)
    (hrow : db.nodes.find nodeId = some row) (hlive : row.live = true)
    (hdelete : (deleteVersions (held.map Version.id)).Returns db u₁ m₁)
    (hrelease : (release held).Returns m₁ freed m₂)
    (hcharge : (chargeQuota row.ownerId (-freed)).Returns m₂ u₂ db') :
    Ledger pending ahead db'.toStore := by
  have hbooks := deleteVersions_ledger h
    (fun v hv => Table.mem_iff_find.mp (mem_versionsOf.mp (hheld v hv)).1) hnodup
    (fun v hv => (mem_versionsOf.mp (hheld v hv)).2) hrow hlive hdelete
  have hnodes : m₁.nodes = db.nodes := by rw [execute_returns.mp hdelete]
  obtain ⟨_, m, hgive, hrelease⟩ := bind_returns.mp hrelease
  obtain ⟨rfl, rfl⟩ := pure_returns.mp hrelease
  have hgive' : (forEach releaseBlob (held.map Version.hash)).Returns m₁ () m := by
    rw [← forEach_map]
    exact hgive
  obtain ⟨hbooks', -⟩ := releaseEach_ledger hbooks
    (fun b => (hnodes.symm ▸ hcovered : Covered pending m₁.nodes).nonneg b) hgive'
  refine ((chargeQuota_ledger hbooks' hcharge).1).of_eq (fun _ => rfl) fun o => ?_
  have hneg := bytes_neg row.ownerId (sizes held) o
  show ahead o + bytes row.ownerId (sizes held) o + bytes row.ownerId (-sizes held) o = ahead o
  omega

theorem take_ledger {version : Version} (h : Ledger pending ahead db.toStore)
    (hcovered : Covered pending db.nodes) (hrow : db.nodes.find nodeId = some row)
    (hlive : row.live = true) (hx : (take row.ownerId nodeId id).Returns db version db') :
    Ledger pending ahead db'.toStore := by
  unfold take at hx
  obtain ⟨found, m, hfound, hx⟩ := bind_returns.mp hx
  obtain ⟨rfl, rfl⟩ := query_returns.mp hfound
  obtain ⟨taken, m, htaken, hx⟩ := bind_returns.mp hx
  obtain ⟨hfind, rfl⟩ := orFail_returns.mp htaken
  obtain ⟨_, m₁, hdelete, hx⟩ := bind_returns.mp hx
  obtain ⟨_, m₂, hrelease, hx⟩ := bind_returns.mp hx
  obtain ⟨_, m₃, hcharge, hx⟩ := bind_returns.mp hx
  obtain ⟨rfl, rfl⟩ := pure_returns.mp hx
  obtain ⟨hversion, hof⟩ := Option.filter_eq_some_iff.mp hfind
  rw [decide_eq_true_eq] at hof
  refine drop_ledger h hcovered (fun v (hv : v ∈ [version]) => ?_) (List.nodup_singleton _) hrow
    hlive hdelete ?_ hcharge
  · rw [List.mem_singleton.mp hv]
    exact mem_versionsOf.mpr ⟨Table.find_mem hversion, hof⟩
  · unfold release
    refine bind_returns.mpr ⟨(), m₂, forEach_cons_returns.mpr ⟨m₂, hrelease, ?_⟩, ?_⟩
    · exact forEach_nil_returns.mpr rfl
    · exact pure_returns.mpr ⟨by simp, rfl⟩

theorem dropOldest_ledger {dropped : Bool} (h : Ledger pending ahead db.toStore)
    (hcovered : Covered pending db.nodes) (hrow : db.nodes.find nodeId = some row)
    (hlive : row.live = true) (hx : (dropOldest row.ownerId nodeId).Returns db dropped db') :
    Ledger pending ahead db'.toStore := by
  unfold dropOldest at hx
  obtain ⟨oldest, m, holdest, hx⟩ := bind_returns.mp hx
  obtain ⟨hlast, rfl⟩ := query_returns.mp holdest
  cases oldest with
  | none =>
    obtain ⟨-, rfl⟩ := pure_returns.mp hx
    exact h
  | some oldest =>
    obtain ⟨_, m₁, hdelete, hx⟩ := bind_returns.mp hx
    obtain ⟨freed, m₂, hrelease, hx⟩ := bind_returns.mp hx
    obtain ⟨_, m₃, hcharge, hx⟩ := bind_returns.mp hx
    obtain ⟨-, rfl⟩ := pure_returns.mp hx
    refine drop_ledger h hcovered (fun v (hv : v ∈ [oldest]) => ?_) (List.nodup_singleton _)
      hrow hlive hdelete hrelease hcharge
    rw [List.mem_singleton.mp hv]
    exact List.mem_of_getLast? hlast.symm

theorem pruneBeyond_ledger {kept : Int} (h : Ledger pending ahead db.toStore)
    (hcovered : Covered pending db.nodes) (hrow : db.nodes.find nodeId = some row)
    (hlive : row.live = true) (hx : (pruneBeyond row.ownerId nodeId kept).Returns db u db') :
    Ledger pending ahead db'.toStore := by
  unfold pruneBeyond at hx
  obtain ⟨dropped, m, hdropped, hx⟩ := bind_returns.mp hx
  obtain ⟨rfl, rfl⟩ := query_returns.mp hdropped
  obtain ⟨_, m₁, hdelete, hx⟩ := bind_returns.mp hx
  obtain ⟨freed, m₂, hrelease, hcharge⟩ := bind_returns.mp hx
  refine drop_ledger h hcovered (fun v hv => List.mem_of_mem_drop hv) ?_ hrow hlive hdelete
    hrelease hcharge
  rw [List.map_drop]
  exact (versionsOf_nodup _ _).sublist (List.drop_sublist _ _)

theorem chargeInstead_ledger {size previousSize : Int} {versioned : Bool}
    (h : Ledger pending ahead db.toStore)
    (hx : (chargeInstead ownerId size previousSize).Returns db versioned db') :
    versioned = false ∧
      Ledger pending (fun o => ahead o + bytes ownerId (size - previousSize) o) db'.toStore := by
  obtain ⟨_, m, hcharge, hx⟩ := bind_returns.mp hx
  obtain ⟨rfl, rfl⟩ := pure_returns.mp hx
  exact ⟨rfl, (chargeQuota_ledger h hcharge).1⟩

/-- What `put_file` charges, by whether it keeps what it replaces. -/
def chargedFor (versioned : Bool) (size previousSize : Int) : Int :=
  if versioned then size else size - previousSize

theorem makeRoomIn_ledger {size previousSize : Int} {versioned : Bool} {rounds : Nat}
    (h : Ledger pending ahead db.toStore) (hcovered : Covered pending db.nodes)
    (hrow : db.nodes.find nodeId = some row) (hlive : row.live = true)
    (hx : (makeRoomIn row.ownerId nodeId size previousSize rounds).Returns db versioned db') :
    Ledger pending (fun o => ahead o + bytes row.ownerId (chargedFor versioned size previousSize) o)
      db'.toStore := by
  induction rounds generalizing db with
  | zero =>
    obtain ⟨rfl, hbooks⟩ := chargeInstead_ledger h hx
    exact hbooks
  | succ rounds ih =>
    rw [makeRoomIn] at hx
    obtain ⟨fits, m, hfits, hx⟩ := bind_returns.mp hx
    obtain ⟨hbooked, hnot, -⟩ := tryCharge_ledger h hfits
    cases fits with
    | true =>
      obtain ⟨rfl, rfl⟩ := pure_returns.mp hx
      exact hbooked rfl
    | false =>
      rw [hnot rfl, if_neg Bool.false_ne_true] at hx
      obtain ⟨dropped, m', hdropped, hx⟩ := bind_returns.mp hx
      have hbooks := dropOldest_ledger h hcovered hrow hlive hdropped
      have hbeside := keeps_dropOldest (R := Beside) hdropped
      cases dropped with
      | true =>
        exact ih hbooks (hbeside.nodes.symm ▸ hcovered) (by rw [hbeside.nodes]; exact hrow) hx
      | false =>
        obtain ⟨rfl, hlast⟩ := chargeInstead_ledger hbooks hx
        exact hlast

theorem chargeForPut_ledger {previous : Option (Uuid × BlobHash × Int)} {versionsKept : Int}
    {versioned : Bool} (h : Ledger pending ahead db.toStore) (hcovered : Covered pending db.nodes)
    (hprevious : ∀ p ∈ previous, ∃ row, db.nodes.find p.1 = some row ∧ row.live = true ∧
      row.ownerId = ownerId)
    (hx : (chargeForPut ownerId previous hash size versionsKept).Returns db versioned db') :
    Ledger pending (fun o => ahead o +
      bytes ownerId (chargedFor versioned size (previous.elim 0 fun p => p.2.2)) o) db'.toStore := by
  cases previous with
  | none =>
    obtain ⟨_, m, hcharge, hx⟩ := bind_returns.mp hx
    obtain ⟨rfl, rfl⟩ := pure_returns.mp hx
    refine (chargeQuota_ledger h hcharge).1.of_eq (fun _ => rfl) fun o => ?_
    rw [chargedFor, if_neg Bool.false_ne_true, Option.elim_none, sub_zero]
  | some p =>
    obtain ⟨previousId, previousHash, previousSize⟩ := p
    obtain ⟨row, hrow, hlive, rfl⟩ := hprevious _ rfl
    unfold chargeForPut at hx
    dsimp only at hx
    split_ifs at hx
    · obtain ⟨held, m, hheld, hx⟩ := bind_returns.mp hx
      obtain ⟨-, rfl⟩ := query_returns.mp hheld
      exact makeRoomIn_ledger h hcovered hrow hlive hx
    · obtain ⟨_, m, hcharge, hx⟩ := bind_returns.mp hx
      obtain ⟨rfl, rfl⟩ := pure_returns.mp hx
      exact (chargeQuota_ledger h hcharge).1

/-- **What a file held is retired**: a reference to it is given up or becomes a version's. -/
theorem retire_ledger {previousId : Uuid} {previousHash : BlobHash} {previousSize kept : Int}
    {versioned : Bool} (h : Ledger pending ahead db.toStore)
    (hpending : ∀ b, 0 ≤ pending b) (hrow : db.nodes.find previousId = some row)
    (hlive : row.live = true) (hblob : row.blobHash = some previousHash)
    (hx : (retire row.ownerId (some (previousId, previousHash, previousSize)) versioned
      kept).Returns db u db') :
    Ledger (fun b => pending b - one previousHash b)
      (fun o => ahead o - bytes row.ownerId (if versioned then previousSize else 0) o)
      db'.toStore := by
  have hcovered : ∀ {t : Table Node Node.id}, t = db.nodes →
      Covered (fun b => pending b - one previousHash b) t := by
    rintro t rfl b
    have hp := hpending b
    by_cases hb : b = previousHash
    · have hone : one previousHash b = 1 := if_pos hb
      exact Or.inr ⟨show -1 ≤ pending b - one previousHash b by omega, previousId, row, hrow,
        hb ▸ hblob⟩
    · have hzero : one previousHash b = 0 := if_neg hb
      exact Or.inl (show 0 ≤ pending b - one previousHash b by omega)
  obtain ⟨_, m, hkeep, hprune⟩ := bind_returns.mp hx
  unfold keepOrRelease at hkeep
  cases versioned with
  | true =>
    obtain ⟨versions, -, hs⟩ := keep_returns hkeep
    have hnodes : m.nodes = db.nodes := by rw [hs]
    exact pruneBeyond_ledger (keep_ledger h hrow hlive hkeep) (hcovered hnodes)
      (by rw [hnodes]; exact hrow) hlive hprune
  | false =>
    obtain ⟨hbooks, hbooked⟩ := releaseBlob_ledger h
      (add_pos_of_pos_of_nonneg (references_pos hrow hblob) (hpending _)) hkeep
    have hafter := pruneBeyond_ledger hbooks (hcovered hbooked.nodes)
      (by rw [hbooked.nodes]; exact hrow) hlive hprune
    exact hafter.of_eq (fun _ => rfl) fun o => by
      rw [if_neg Bool.false_ne_true, bytes_zero, sub_zero]

/-! ## Nodes -/

/-- The reference a node holds. -/
def heldRef (o : Option BlobHash) : BlobHash → Int := fun b => if o = some b then 1 else 0

@[simp] theorem heldRef_none (b : BlobHash) : heldRef none b = 0 := rfl

@[simp] theorem heldRef_some (hash b : BlobHash) : heldRef (some hash) b = one hash b := by
  unfold heldRef one
  exact if_congr (by rw [Option.some.injEq, eq_comm]) rfl rfl

/-- A version's node is there. -/
theorem chargedTo_congr {t : Table Node Node.id} {s' : Store} (hs : s'.nodes = t)
    (h : ∀ k, (s.nodes.find k).isSome = true →
      (t.find k).map (fun n => (n.ownerId, n.live)) = (s.nodes.find k).map fun n => (n.ownerId, n.live))
    (o k : Uuid) (hk : (s.nodes.find k).isSome = true) : s'.chargedTo o k = s.chargedTo o k := by
  unfold Store.chargedTo
  rw [hs]
  have hsame := h k hk
  cases hrow : s.nodes.find k <;> cases hrow' : t.find k <;> simp_all

/-- **A new live node.** -/
theorem insertNode_ledger {parentId : Option Uuid} {name : Str} {body : Body} {etag : Etag}
    (h : Ledger pending ahead db.toStore)
    (hx : (insertNode ownerId parentId name body etag).Returns db node db') :
    Ledger (fun b => pending b - heldRef node.blobHash b)
      (fun o => ahead o - bytes ownerId node.size o) db'.toStore := by
  obtain ⟨hnode, nodes, hins, hs⟩ := insertNode_returns hx
  have hshift := h.shift (show db'.blobs = db.blobs by rw [hs])
    (show db'.quotas = db.quotas by rw [hs])
  refine hshift.of_eq (fun b => ?_) fun o => ?_
  · have htotal := Table.total_insert hins fun n => if n.blobHash = some b then 1 else 0
    unfold Store.references heldRef
    rw [hs]
    dsimp only
    omega
  · have htotal := Table.total_insert hins fun n => if n.ownerId = o && n.live then n.size else 0
    have hbytes : (if (decide (node.ownerId = o) && node.live) = true then node.size else 0) =
        bytes ownerId node.size o := by
      rw [hnode]
      unfold bytes
      simp only [Node.live, Option.isNone_none, Bool.and_true, decide_eq_true_eq]
      exact if_congr eq_comm rfl rfl
    have hversions : db'.versions.total (fun v => if db'.chargedTo o v.nodeId then v.size else 0) =
        db.versions.total fun v => if db.chargedTo o v.nodeId then v.size else 0 := by
      rw [show db'.versions = db.versions by rw [hs]]
      refine Table.total_congr fun v hv => ?_
      rw [chargedTo_congr (t := nodes) (by rw [hs]) (fun k hk => ?_) o v.nodeId
        (db.sound .versionsForeign v hv).1]
      obtain ⟨row, hrow⟩ := Option.isSome_iff_exists.mp hk
      rw [hrow, find_of_insert hins hrow]
    unfold Store.usage
    rw [hversions, show db'.nodes = nodes by rw [hs], htotal, hbytes]
    omega

/-- **One live node changed**, its owner and its place in or out of the trash apart. -/
theorem updateNode_ledger {f : Node → Node} {hf : ∀ n, (f n).id = n.id}
    (h : Ledger pending ahead db.toStore) (hrow : db.nodes.find id = some row)
    (hlive : row.live = true) (hkeep : ∀ n, (f n).ownerId = n.ownerId ∧ (f n).trashed = n.trashed)
    (hx : (updateNode id f hf).Returns db node db') :
    Ledger (fun b => pending b + heldRef row.blobHash b - heldRef (f row).blobHash b)
      (fun o => ahead o + bytes row.ownerId (row.size - (f row).size) o) db'.toStore := by
  obtain ⟨hs, -⟩ := updateNode_returns hx
  have hshift := h.shift (show db'.blobs = db.blobs by rw [hs])
    (show db'.quotas = db.quotas by rw [hs])
  have htotal : ∀ g : Node → Int, (db.nodes.update (·.id = id) f hf).total g =
      db.nodes.total g + (g (f row) - g row) := by
    intro g
    refine total_update_key _ hf g (fun r hr => by simpa using hr) (fun r hr => ?_)
      (by rw [hrow]; rfl)
    rw [hrow] at hr
    cases hr
    exact ⟨by simpa using Table.find_key hrow, by omega⟩
  refine hshift.of_eq (fun b => ?_) fun o => ?_
  · have hnodes := htotal fun n => if n.blobHash = some b then 1 else 0
    unfold Store.references heldRef
    rw [hs]
    dsimp only
    omega
  · have hnodes := htotal fun n => if n.ownerId = o && n.live then n.size else 0
    have hbytes : (if (decide ((f row).ownerId = o) && (f row).live) = true then (f row).size else 0)
        - (if (decide (row.ownerId = o) && row.live) = true then row.size else 0) =
        - bytes row.ownerId (row.size - (f row).size) o := by
      rw [Node.live, (hkeep row).1, (hkeep row).2, ← Node.live, hlive]
      unfold bytes
      simp only [Bool.and_true, decide_eq_true_eq, eq_comm (a := o)]
      split_ifs <;> omega
    have hversions : db'.versions.total (fun v => if db'.chargedTo o v.nodeId then v.size else 0) =
        db.versions.total fun v => if db.chargedTo o v.nodeId then v.size else 0 := by
      rw [show db'.versions = db.versions by rw [hs]]
      refine Table.total_congr fun v hv => ?_
      rw [chargedTo_congr (t := db'.nodes) rfl (fun k _ => ?_) o v.nodeId
        (db.sound .versionsForeign v hv).1]
      rw [hs, find_update_id, Option.map_map]
      refine Option.map_congr fun r _ => ?_
      rw [Function.comp_apply]
      split_ifs
      · rw [Node.live, (hkeep r).1, (hkeep r).2, ← Node.live]
      · rfl
    unfold Store.usage
    rw [hversions, show db'.nodes = db.nodes.update (·.id = id) f hf by rw [hs], hnodes, hbytes]
    omega

/-- **`put_file` keeps the books.** -/
theorem putFile_ledger {parent : Node} {name : NodeName} {versionsKept : Int}
    (h : Ledger (fun _ => 0) (fun _ => 0) db.toStore)
    (hchild : ∀ old, db.child parent.id name.str = some old → old.ownerId = ownerId)
    (hx : (putFile ownerId parent name hash size versionsKept).Returns db node db') :
    Ledger (fun _ => 0) (fun _ => 0) db'.toStore := by
  unfold putFile at hx
  obtain ⟨_, m₁, hblob, hx⟩ := bind_returns.mp hx
  obtain ⟨existing, m, hexisting, hx⟩ := bind_returns.mp hx
  obtain ⟨hex, rfl⟩ := child_returns.mp hexisting
  obtain ⟨h₁, hb₁, hisSome⟩ := insertBlob_ledger h hblob
  have hsame : m₁.child parent.id name.str = db.child parent.id name.str := by
    unfold Store.child
    rw [hb₁.nodes]
  obtain ⟨hdir, hx⟩ := of_guard hx
  obtain ⟨versioned, m₂, hcharge, hx⟩ := bind_returns.mp hx
  obtain ⟨_, m₃, hacquire, hx⟩ := bind_returns.mp hx
  obtain ⟨_, m₄, hretire, hx⟩ := bind_returns.mp hx
  have hbeside₂ := keeps_chargeForPut (R := Beside) hcharge
  have hprevious : ∀ p ∈ previousOf existing, ∃ row, m₁.nodes.find p.1 = some row ∧
      row.live = true ∧ row.ownerId = ownerId := by
    intro p hp
    obtain ⟨old, hold, hp⟩ := Option.bind_eq_some_iff.mp hp
    obtain ⟨b, -, rfl⟩ := Option.map_eq_some_iff.mp hp
    rw [hold] at hex
    obtain ⟨hmem, -, -, hlive⟩ := child_eq_some hex.symm
    exact ⟨old, Table.mem_iff_find.mp hmem, hlive, hchild old (hsame ▸ hex.symm)⟩
  have h₂ := chargeForPut_ledger h₁ covered_zero hprevious hcharge
  obtain ⟨h₃, hb₃⟩ := acquireBlob_ledger h₂ (hbeside₂.blobs _ hisSome) hacquire
  cases existing with
  | none =>
    obtain ⟨-, rfl⟩ := pure_returns.mp hretire
    refine (insertNode_ledger h₃ hx).of_eq (fun b => ?_) fun o => ?_
    · obtain ⟨rfl, -⟩ := insertNode_returns hx
      rw [show Node.blobHash _ = some hash from rfl, heldRef_some]
      omega
    · obtain ⟨rfl, -⟩ := insertNode_returns hx
      have hv : versioned = false := by
        obtain ⟨_, m, -, hv⟩ := bind_returns.mp hcharge
        exact (pure_returns.mp hv).1
      rw [hv, chargedFor, if_neg Bool.false_ne_true]
      show 0 + bytes ownerId (↑size - 0) o - bytes ownerId ↑size o = 0
      rw [sub_zero]
      omega
  | some old =>
    obtain ⟨hmem, -, -, hlive⟩ := child_eq_some hex.symm
    have howner := hchild old (hsame ▸ hex.symm)
    have hfind : m₃.nodes.find old.id = some old := by
      rw [hb₃.nodes, hbeside₂.nodes]
      exact Table.mem_iff_find.mp hmem
    obtain ⟨oldHash, oldSize, hbody⟩ : ∃ oldHash oldSize, old.body = .file oldHash oldSize := by
      cases hbody : old.body with
      | directory =>
        refine absurd ?_ hdir
        rw [Option.any_some, Node.isDirectory, hbody]
      | file oldHash oldSize => exact ⟨oldHash, oldSize, rfl⟩
    have hhash : old.blobHash = some oldHash := by rw [Node.blobHash, hbody]
    have hsize : old.size = oldSize := by rw [Node.size, hbody]
    have hprev : previousOf (some old) = some (old.id, oldHash, old.size) := by
      rw [previousOf, Option.bind_some, hhash, Option.map_some]
    rw [hprev] at hretire h₃
    subst howner
    have h₄ := retire_ledger h₃ (fun b => by rw [zero_add]; exact one_nonneg hash b) hfind hlive
      hhash hretire
    have hb₄ := keeps_retire (R := Beside) (fun _ _ => beside_insertVersion) hretire
    have h₅ := updateNode_ledger h₄ (by rw [hb₄.nodes]; exact hfind) hlive
      (by intro _; exact ⟨rfl, rfl⟩) hx
    refine h₅.of_eq (fun b => ?_) fun o => ?_
    · rw [hhash, heldRef_some, show Node.blobHash _ = some hash from rfl, heldRef_some]
      omega
    · show 0 + bytes old.ownerId (chargedFor versioned size old.size) o -
        bytes old.ownerId (if versioned then old.size else 0) o +
        bytes old.ownerId (old.size - ↑size) o = 0
      unfold bytes chargedFor
      split_ifs <;> omega

end Stashden.Api
