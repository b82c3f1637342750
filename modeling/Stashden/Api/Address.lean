import Stashden.Api.Grants

/-!
# Changing an address (`users::set_email` over `grants::reassign`)

`KeepsShares` is what the shares received should do when an account moves from one address to
another: each node is granted to the new address with the stronger of the accesses it had, mount
names stay apart, other addresses keep their grants, and the previous address is left with none.

`set_email` keeps them exactly when the address changes or nothing was granted to it
(`keepsShares_iff`): with both addresses equal, every grant being moved finds itself as the one the
address already has, and is deleted (`reassign_same`). `setEmail_returns_iff` says when it answers at
all: the account exists and no other one has the address, for no round of `reassign` violates a
constraint.
-/

namespace Stashden.Api

open Lib Stashden.Core Tx

variable {db db' : Db} {previous new : Str} {r g : Grant} {n : Uuid} {u : Unit}

/-- What becomes of the shares received when an account moves from `previous` to `new`. -/
structure KeepsShares (previous new : Str) (db db' : Db) : Prop where
  merged : ∀ n, granted db'.toStore new n =
    Option.merge stronger (granted db.toStore previous n) (granted db.toStore new n)
  names : ∀ g ∈ db'.grants.rows, ∀ h ∈ db'.grants.rows, g.grantee = new → h.grantee = new →
    g.mountName = h.mountName → g = h
  others : ∀ g, g.grantee ≠ previous → g.grantee ≠ new →
    (g ∈ db'.grants.rows ↔ g ∈ db.grants.rows)
  cleared : previous ≠ new → ∀ g ∈ db'.grants.rows, g.grantee ≠ previous

/-! ## The grants being moved -/

/-- The grants `reassign` goes through. -/
def moving (s : Store) (previous : Str) : List Grant :=
  (s.grants.select fun g => g.grantee = previous).insertionSort fun g h => g.createdAt ≤ h.createdAt

theorem mem_moving : g ∈ moving db.toStore previous ↔ g ∈ db.grants.rows ∧ g.grantee = previous := by
  simp [moving, Table.mem_select]

theorem moving_nodes_nodup : ((moving db.toStore previous).map Grant.nodeId).Nodup := by
  have hrows : (moving db.toStore previous).Nodup :=
    (List.perm_insertionSort _ _).nodup_iff.mpr ((List.Nodup.of_map _ db.grants.nodup).filter _)
  refine hrows.map_on fun g hg h hh hn => ?_
  rw [mem_moving] at hg hh
  exact Table.eq_of_key hg.1 hh.1
    (db.sound .grantsOncePerAddress g hg.1 h hh.1 hn (hg.2.trans hh.2.symm))

theorem among_moving : among (moving db.toStore previous) n = granted db.toStore previous n := by
  refine Option.ext fun a => ?_
  rw [granted_eq_some_iff, among, Option.map_eq_some_iff]
  constructor
  · rintro ⟨g, hg, ha⟩
    obtain ⟨hmem, hprev⟩ := mem_moving.mp (List.mem_of_find?_eq_some hg)
    exact ⟨g, hmem, hprev, by simpa using List.find?_some hg, ha⟩
  · rintro ⟨g, hmem, hprev, hn, ha⟩
    cases hf : (moving db.toStore previous).find? fun g => g.nodeId = n with
    | none =>
      have hno := List.find?_eq_none.mp hf g (mem_moving.mpr ⟨hmem, hprev⟩)
      exact absurd (decide_eq_true hn) hno
    | some g' =>
      obtain ⟨hmem', hprev'⟩ := mem_moving.mp (List.mem_of_find?_eq_some hf)
      have hn' : g'.nodeId = n := by simpa using List.find?_some hf
      have hsame := Table.eq_of_key hmem' hmem (db.sound .grantsOncePerAddress g' hmem' g hmem
        (hn'.trans hn.symm) (hprev'.trans hprev.symm))
      exact ⟨g', rfl, hsame ▸ ha⟩

theorem reassign_returns : (reassign previous new).Returns db u db' ↔
    (forEach (reassignOne new) (moving db.toStore previous)).Returns db u db' := by
  unfold reassign
  simp [moving]

/-- **What `reassign` does** between two addresses. -/
theorem reassign_spec (hne : previous ≠ new) (h : (reassign previous new).Returns db u db') :
    (∀ g, g.grantee ≠ new →
      (g ∈ db'.grants.rows ↔ g ∈ db.grants.rows ∧ g.grantee ≠ previous)) ∧
    ∀ n, granted db'.toStore new n =
      Option.merge stronger (granted db.toStore previous n) (granted db.toStore new n) := by
  obtain ⟨hothers, hgranted⟩ := forEach_reassignOne_spec (fun r hr => (mem_moving.mp hr).1)
    (fun r hr => (mem_moving.mp hr).2 ▸ hne) moving_nodes_nodup (reassign_returns.mp h)
  constructor
  · intro g hg
    rw [hothers g hg]
    refine and_congr_right fun hmem => ⟨fun hid hprev => ?_, fun hprev r hr hid => ?_⟩
    · exact hid g (mem_moving.mpr ⟨hmem, hprev⟩) rfl
    · obtain ⟨hrmem, hrprev⟩ := mem_moving.mp hr
      exact hprev (Table.eq_of_key hmem hrmem hid ▸ hrprev)
  · intro n
    rw [hgranted, among_moving]

/-! ## One address twice -/

/-- A round for a grant the address has already deletes it. -/
theorem reassignOne_same (hr : r ∈ db.grants.rows) (hnew : r.grantee = new)
    (h : (reassignOne new r).Returns db u db') :
    ∀ g, g ∈ db'.grants.rows ↔ g ∈ db.grants.rows ∧ g.id ≠ r.id := by
  have hself : grantTo db.toStore new r.nodeId = some r :=
    grantTo_eq_some_iff.mpr ⟨hr, hnew, rfl⟩
  intro g
  obtain ⟨existing, hex, hrows⟩ | ⟨hnone, -⟩ := reassignOne_cases h
  · obtain rfl : r = existing := Option.some.inj (hself.symm.trans hex)
    rw [hrows, and_comm]
    refine and_congr_left fun hid => ⟨?_, fun hmem => ⟨g, hmem, by rw [if_neg hid]⟩⟩
    rintro ⟨g₀, hg₀, rfl⟩
    split_ifs at hid ⊢ with h₀
    · exact absurd h₀ hid
    · exact hg₀
  · rw [hself] at hnone
    cases hnone

theorem forEach_reassignOne_same {list : List Grant} (hmem : ∀ r ∈ list, r ∈ db.grants.rows)
    (hnew : ∀ r ∈ list, r.grantee = new) (hids : (list.map Grant.id).Nodup)
    (h : (forEach (reassignOne new) list).Returns db u db') :
    ∀ g, g ∈ db'.grants.rows ↔ g ∈ db.grants.rows ∧ ∀ r ∈ list, g.id ≠ r.id := by
  induction list generalizing db with
  | nil =>
    obtain rfl := forEach_nil_returns.mp h
    simp
  | cons r list ih =>
    obtain ⟨m, hone, hrest⟩ := forEach_cons_returns.mp h
    have hrows := reassignOne_same (hmem r List.mem_cons_self) (hnew r List.mem_cons_self) hone
    have hid := (List.nodup_cons.mp hids).1
    have hrows' := ih
      (fun r' hr' => (hrows r').mpr ⟨hmem r' (List.mem_cons_of_mem _ hr'), fun e =>
        hid (e ▸ List.mem_map_of_mem hr')⟩)
      (fun r' hr' => hnew r' (List.mem_cons_of_mem _ hr')) (List.nodup_cons.mp hids).2 hrest
    intro g
    rw [hrows', hrows, List.forall_mem_cons, and_assoc]

/-- **`reassign` from an address to itself deletes its grants.** -/
theorem reassign_same (h : (reassign new new).Returns db u db') :
    ∀ g, g ∈ db'.grants.rows ↔ g ∈ db.grants.rows ∧ g.grantee ≠ new := by
  have hids : ((moving db.toStore new).map Grant.id).Nodup :=
    ((List.perm_insertionSort _ _).map _).nodup_iff.mpr
      (db.grants.nodup.sublist (List.filter_sublist.map _))
  intro g
  rw [forEach_reassignOne_same (fun r hr => (mem_moving.mp hr).1)
    (fun r hr => (mem_moving.mp hr).2) hids (reassign_returns.mp h) g]
  refine and_congr_right fun hmem => ⟨fun hid hnew => ?_, fun hnew r hr hid => ?_⟩
  · exact hid g (mem_moving.mpr ⟨hmem, hnew⟩) rfl
  · obtain ⟨hrmem, hrnew⟩ := mem_moving.mp hr
    exact hnew (Table.eq_of_key hmem hrmem hid ▸ hrnew)

/-! ## `set_email` -/

variable {id : Uuid} {email : Str} {account user : User}

/-- `set_email` renames the account and reassigns its grants. -/
theorem setEmail_cases (h : (setEmail id email).Returns db user db') :
    ∃ account m, db.users.find id = some account ∧ m.grants = db.grants ∧
      (reassign account.email email).Returns m () db' := by
  unfold setEmail at h
  simp only [bind_returns, read_returns, orFail_returns, mapViolated_returns, write_returns,
    pure_returns] at h
  obtain ⟨_, _, ⟨rfl, rfl⟩, account, _, ⟨hfound, rfl⟩, _, m, hm, _, _, hre, -, rfl⟩ := h
  exact ⟨account, m, hfound, by rw [hm], hre⟩

/-- **`set_email` keeps the shares received iff the address changes, or had none.** -/
theorem keepsShares_iff (hfound : db.users.find id = some account)
    (h : (setEmail id email).Returns db user db') :
    KeepsShares account.email email db db' ↔
      account.email ≠ email ∨ ∀ g ∈ db.grants.rows, g.grantee ≠ account.email := by
  obtain ⟨account', m, hfound', hgrants, hre⟩ := setEmail_cases h
  obtain rfl : account = account' := Option.some.inj (hfound.symm.trans hfound')
  have hgranted : ∀ address n, granted m.toStore address n = granted db.toStore address n :=
    fun address n => granted_congr fun g _ _ => by rw [hgrants]
  have hnames : ∀ g ∈ db'.grants.rows, ∀ h ∈ db'.grants.rows, g.grantee = email →
      h.grantee = email → g.mountName = h.mountName → g = h := fun g hg k hk hge hke hname =>
    Table.eq_of_key hg hk (db'.sound .grantsMountNames g hg k hk (hge.trans hke.symm) hname)
  by_cases hne : account.email = email
  · rw [hne] at hre ⊢
    have hrows := reassign_same hre
    rw [hgrants] at hrows
    constructor
    · intro hkeeps
      refine Or.inr fun g hg hge => ?_
      have hsome : granted db.toStore email g.nodeId = some g.access :=
        granted_eq_some_iff.mpr ⟨g, hg, hge, rfl, rfl⟩
      have hmerged := hkeeps.merged g.nodeId
      rw [hsome] at hmerged
      obtain ⟨g', hg', hge', -⟩ := granted_eq_some_iff.mp hmerged
      exact ((hrows g').mp hg').2 hge'
    · rintro (hno | hno)
      · exact absurd rfl hno
      · have hiff : ∀ g, g ∈ db'.grants.rows ↔ g ∈ db.grants.rows := fun g => by
          rw [hrows, and_iff_left_of_imp (hno g)]
        refine ⟨fun n => ?_, hnames, fun g _ _ => hiff g, fun hdiff => absurd rfl hdiff⟩
        have hnone : granted db.toStore email n = none :=
          Option.eq_none_iff_forall_ne_some.mpr fun a ha => by
            obtain ⟨g, hg, hge, -⟩ := granted_eq_some_iff.mp ha
            exact hno g hg hge
        rw [granted_congr fun g _ _ => hiff g, hnone]
        rfl
  · obtain ⟨hothers, hmerged⟩ := reassign_spec hne hre
    rw [hgrants] at hothers
    refine iff_of_true ⟨fun n => ?_, hnames, fun g hp hn => ?_, fun _ g hg hp => ?_⟩ (Or.inl hne)
    · rw [hmerged, hgranted, hgranted]
    · rw [hothers g hn, and_iff_left hp]
    · exact ((hothers g (hp ▸ hne)).mp hg).2 hp

/-! ## No round fails -/

/-- What a write to the grants alone has to keep. -/
theorem holds_grants {t : Table Grant Grant.id} (hlt : ∀ g ∈ t.rows, g.id < db.next)
    (honce : ∀ g ∈ t.rows, ∀ h ∈ t.rows, g.nodeId = h.nodeId → g.grantee = h.grantee → g.id = h.id)
    (hnames : ∀ g ∈ t.rows, ∀ h ∈ t.rows, g.grantee = h.grantee → g.mountName = h.mountName →
      g.id = h.id)
    (hrow : ∀ g ∈ t.rows, (g.mountName ≠ [] ∧ '/' ∉ g.mountName) ∧
      ((db.nodes.find g.nodeId).isSome = true ∧ (db.users.find g.createdBy).isSome = true)) :
    ∀ c, ({ db.toStore with grants := t } : Store).Holds c := by
  intro c
  cases c with
  | primaryKey =>
    obtain ⟨hn, hv, -, hl⟩ := db.sound .primaryKey
    exact ⟨hn, hv, hlt, hl⟩
  | grantsOncePerAddress => exact honce
  | grantsMountNames => exact hnames
  | grantsMountNameCheck => exact fun g hg => (hrow g hg).1
  | grantsForeign => exact fun g hg => (hrow g hg).2
  | usersUniqueEmail => exact db.sound .usersUniqueEmail
  | nodesUniqueNamePerParent => exact db.sound .nodesUniqueNamePerParent
  | nodesSingleRootPerOwner => exact db.sound .nodesSingleRootPerOwner
  | nodesNameCheck => exact db.sound .nodesNameCheck
  | nodesForeign => exact db.sound .nodesForeign
  | blobsCheck => exact db.sound .blobsCheck
  | versionsForeign => exact db.sound .versionsForeign
  | thumbnailsForeign => exact db.sound .thumbnailsForeign
  | quotasCheck => exact db.sound .quotasCheck
  | locksOnePerNode => exact db.sound .locksOnePerNode
  | locksForeign => exact db.sound .locksForeign

theorem write_returns_of_holds (db : Db) {s : Store} (h : ∀ c, s.Holds c) :
    ∃ db', (Tx.write s).Returns db () db' := ⟨⟨s, h⟩, write_returns.mpr rfl⟩

/-- A grant's own row constraints. -/
theorem grant_row (hg : g ∈ db.grants.rows) : (g.mountName ≠ [] ∧ '/' ∉ g.mountName) ∧
    ((db.nodes.find g.nodeId).isSome = true ∧ (db.users.find g.createdBy).isSome = true) :=
  ⟨db.sound .grantsMountNameCheck g hg, db.sound .grantsForeign g hg⟩

theorem deleteGrant_total (id : Uuid) : ∃ db', (deleteGrant id).Returns db () db' := by
  have hmem : ∀ g ∈ (db.grants.delete fun g => g.id = id).rows, g ∈ db.grants.rows :=
    fun g hg => (Table.mem_delete.mp hg).1
  obtain ⟨db', h⟩ := write_returns_of_holds db (holds_grants
    (t := db.grants.delete fun g => g.id = id)
    (fun g hg => (db.sound .primaryKey).2.2.1 g (hmem g hg))
    (fun g hg h hh => db.sound .grantsOncePerAddress g (hmem g hg) h (hmem h hh))
    (fun g hg h hh => db.sound .grantsMountNames g (hmem g hg) h (hmem h hh))
    fun g hg => grant_row (hmem g hg))
  exact ⟨db', deleteGrant_returns.mpr (write_returns.mp h)⟩

theorem setAccess_total (id : Uuid) (a : Access) : ∃ db', (setAccess id a).Returns db () db' := by
  have hmem : ∀ g ∈ (db.grants.update (fun g => g.id = id) (fun g => { g with access := a })
      fun _ => rfl).rows, ∃ g₀ ∈ db.grants.rows, g.id = g₀.id ∧ g.nodeId = g₀.nodeId ∧
        g.grantee = g₀.grantee ∧ g.mountName = g₀.mountName ∧ g.createdBy = g₀.createdBy := by
    intro g hg
    obtain ⟨g₀, hg₀, rfl⟩ := mem_grants_update.mp hg
    refine ⟨g₀, hg₀, ?_⟩
    split_ifs <;> exact ⟨rfl, rfl, rfl, rfl, rfl⟩
  obtain ⟨db', h⟩ := write_returns_of_holds db (holds_grants
    (t := db.grants.update (fun g => g.id = id) (fun g => { g with access := a }) fun _ => rfl)
    (fun g hg => by
      obtain ⟨g₀, hg₀, hid, -⟩ := hmem g hg
      exact hid ▸ (db.sound .primaryKey).2.2.1 g₀ hg₀)
    (fun g hg k hk => by
      obtain ⟨g₀, hg₀, hid, hn, he, -⟩ := hmem g hg
      obtain ⟨k₀, hk₀, kid, kn, ke, -⟩ := hmem k hk
      rw [hid, hn, he, kid, kn, ke]
      exact db.sound .grantsOncePerAddress g₀ hg₀ k₀ hk₀)
    (fun g hg k hk => by
      obtain ⟨g₀, hg₀, hid, -, he, hm, -⟩ := hmem g hg
      obtain ⟨k₀, hk₀, kid, -, ke, km, -⟩ := hmem k hk
      rw [hid, he, hm, kid, ke, km]
      exact db.sound .grantsMountNames g₀ hg₀ k₀ hk₀)
    fun g hg => by
      obtain ⟨g₀, hg₀, -, hn, -, hm, hc⟩ := hmem g hg
      rw [hn, hm, hc]
      exact grant_row hg₀)
  exact ⟨db', setAccess_returns.mpr (write_returns.mp h)⟩

/-- A grant moves to an address that has neither its node nor the mount name. -/
theorem moveGrant_total {name : Str} (hr : r ∈ db.grants.rows)
    (hnone : grantTo db.toStore new r.nodeId = none)
    (hfree : ∀ g ∈ db.grants.rows, g.grantee = new → g.mountName ≠ name)
    (hname : name ≠ [] ∧ '/' ∉ name) : ∃ db', (moveGrant r.id new name).Returns db () db' := by
  rw [grantTo_eq_none_iff] at hnone
  have hmem : ∀ g ∈ (db.grants.update (fun g => g.id = r.id)
      (fun g => { g with grantee := new, mountName := name }) fun _ => rfl).rows,
      (g = { r with grantee := new, mountName := name }) ∨ (g ∈ db.grants.rows ∧ g.id ≠ r.id) := by
    intro g hg
    obtain ⟨g₀, hg₀, rfl⟩ := mem_grants_update.mp hg
    split_ifs with hid
    · exact Or.inl (by rw [Table.eq_of_key hg₀ hr hid])
    · exact Or.inr ⟨hg₀, hid⟩
  obtain ⟨db', h⟩ := write_returns_of_holds db (holds_grants
    (t := db.grants.update (fun g => g.id = r.id)
      (fun g => { g with grantee := new, mountName := name }) fun _ => rfl)
    (fun g hg => by
      obtain rfl | ⟨hg, -⟩ := hmem g hg
      · exact (db.sound .primaryKey).2.2.1 r hr
      · exact (db.sound .primaryKey).2.2.1 g hg)
    (fun g hg k hk hn he => by
      obtain rfl | ⟨hg, -⟩ := hmem g hg <;> obtain rfl | ⟨hk, -⟩ := hmem k hk
      · rfl
      · exact absurd hn.symm (hnone k hk he.symm)
      · exact absurd hn (hnone g hg he)
      · exact db.sound .grantsOncePerAddress g hg k hk hn he)
    (fun g hg k hk he hm => by
      obtain rfl | ⟨hg, -⟩ := hmem g hg <;> obtain rfl | ⟨hk, -⟩ := hmem k hk
      · rfl
      · exact absurd hm.symm (hfree k hk he.symm)
      · exact absurd hm (hfree g hg he)
      · exact db.sound .grantsMountNames g hg k hk he hm)
    fun g hg => by
      obtain rfl | ⟨hg, -⟩ := hmem g hg
      · exact ⟨hname, (grant_row hr).2⟩
      · exact grant_row hg)
  exact ⟨db', moveGrant_returns.mpr (write_returns.mp h)⟩

/-- **A round never violates a constraint.** -/
theorem reassignOne_total (hr : r ∈ db.grants.rows) :
    ∃ db', (reassignOne new r).Returns db () db' := by
  unfold reassignOne
  simp only [bind_returns, read_returns]
  cases hex : grantTo db.toStore new r.nodeId with
  | some existing =>
    by_cases hw : (r.access.mayWrite && !existing.access.mayWrite) = true
    · obtain ⟨m, hset⟩ := setAccess_total existing.id r.access
      obtain ⟨db', hdel⟩ := deleteGrant_total r.id
      refine ⟨db', _, _, ⟨rfl, rfl⟩, ?_⟩
      simp only [hex, if_pos hw]
      exact bind_returns.mpr ⟨(), m, hset, hdel⟩
    · obtain ⟨db', hdel⟩ := deleteGrant_total r.id
      refine ⟨db', _, _, ⟨rfl, rfl⟩, ?_⟩
      simp only [hex, if_neg hw]
      exact hdel
  | none =>
    have hvalid := (grant_row hr).1
    have hfree : ∀ g ∈ db.grants.rows, g.grantee = new → g.mountName ≠
        freeName ((db.grants.select fun g => g.grantee = new).map Grant.mountName) r.mountName := by
      intro g hg hge hname
      have htaken : g.mountName ∈
          (db.grants.select fun g => g.grantee = new).map Grant.mountName :=
        List.mem_map_of_mem (Table.mem_select.mpr ⟨hg, decide_eq_true hge⟩)
      rw [hname] at htaken
      exact freeName_not_mem _ _ htaken
    obtain ⟨db', hmove⟩ := moveGrant_total hr hex hfree (nextFree_valid hvalid.2 hvalid)
    refine ⟨db', _, _, ⟨rfl, rfl⟩, ?_⟩
    simp only [hex]
    exact bind_returns.mpr ⟨_, db, freeMountName_returns.mpr ⟨rfl, rfl⟩, hmove⟩

theorem forEach_reassignOne_total {list : List Grant} (hmem : ∀ r ∈ list, r ∈ db.grants.rows)
    (hprev : ∀ r ∈ list, r.grantee = previous) (hids : (list.map Grant.id).Nodup) :
    ∃ db', (forEach (reassignOne new) list).Returns db () db' := by
  induction list generalizing db with
  | nil => exact ⟨db, forEach_nil_returns.mpr rfl⟩
  | cons r list ih =>
    obtain ⟨m, hone⟩ := reassignOne_total (hmem r List.mem_cons_self)
    have hkept : ∀ g, g.grantee = previous →
        (g ∈ m.grants.rows ↔ g ∈ db.grants.rows ∧ g.id ≠ r.id) := by
      intro g hg
      by_cases hne : previous = new
      · exact reassignOne_same (hmem r List.mem_cons_self)
          ((hprev r List.mem_cons_self).trans hne) hone g
      · exact (reassignOne_spec (hmem r List.mem_cons_self)
          (hprev r List.mem_cons_self ▸ hne) hone).1 g (hg ▸ hne)
    obtain ⟨db', hrest⟩ := ih
      (fun r' hr' => (hkept r' (hprev r' (List.mem_cons_of_mem _ hr'))).mpr
        ⟨hmem r' (List.mem_cons_of_mem _ hr'), fun e =>
          (List.nodup_cons.mp hids).1 (e ▸ List.mem_map_of_mem hr')⟩)
      (fun r' hr' => hprev r' (List.mem_cons_of_mem _ hr')) (List.nodup_cons.mp hids).2
    exact ⟨db', forEach_cons_returns.mpr ⟨m, hone, hrest⟩⟩

theorem reassign_total (previous new : Str) : ∃ db', (reassign previous new).Returns db () db' := by
  have hids : ((moving db.toStore previous).map Grant.id).Nodup :=
    ((List.perm_insertionSort _ _).map _).nodup_iff.mpr
      (db.grants.nodup.sublist (List.filter_sublist.map _))
  obtain ⟨db', h⟩ := forEach_reassignOne_total (fun r hr => (mem_moving.mp hr).1)
    (fun r hr => (mem_moving.mp hr).2) hids
  exact ⟨db', reassign_returns.mpr h⟩

/-- What an account's new address has to keep. -/
theorem holds_users {t : Table User User.id} (hids : ∀ k, (t.find k).isSome = (db.users.find k).isSome)
    (hemail : ∀ u ∈ t.rows, ∀ v ∈ t.rows, u.email = v.email → u.id = v.id) :
    ∀ c, ({ db.toStore with users := t } : Store).Holds c := by
  intro c
  cases c with
  | usersUniqueEmail => exact hemail
  | nodesForeign =>
    intro n hn
    have h := db.sound .nodesForeign n hn
    exact ⟨(hids _).trans h.1, h.2⟩
  | quotasCheck =>
    intro q hq
    have h := db.sound .quotasCheck q hq
    exact ⟨(hids _).trans h.1, h.2⟩
  | grantsForeign =>
    intro g hg
    have h := db.sound .grantsForeign g hg
    exact ⟨h.1, (hids _).trans h.2⟩
  | locksForeign =>
    intro l hl
    have h := db.sound .locksForeign l hl
    exact ⟨h.1, (hids _).trans h.2⟩
  | primaryKey => exact db.sound .primaryKey
  | nodesUniqueNamePerParent => exact db.sound .nodesUniqueNamePerParent
  | nodesSingleRootPerOwner => exact db.sound .nodesSingleRootPerOwner
  | nodesNameCheck => exact db.sound .nodesNameCheck
  | blobsCheck => exact db.sound .blobsCheck
  | versionsForeign => exact db.sound .versionsForeign
  | thumbnailsForeign => exact db.sound .thumbnailsForeign
  | grantsOncePerAddress => exact db.sound .grantsOncePerAddress
  | grantsMountNames => exact db.sound .grantsMountNames
  | grantsMountNameCheck => exact db.sound .grantsMountNameCheck
  | locksOnePerNode => exact db.sound .locksOnePerNode

theorem id_with_email (email : Str) (u : User) : ({ u with email } : User).id = u.id := rfl

/-- The accounts with one of them at a new address. -/
def withEmail (s : Store) (id : Uuid) (email : Str) : Table User User.id :=
  s.users.update (fun u => u.id = id) (fun u => { u with email }) (id_with_email email)

theorem mem_withEmail {v : User} : v ∈ (withEmail db.toStore id email).rows ↔
    ∃ u ∈ db.users.rows, v = if u.id = id then { u with email } else u := by
  rw [withEmail, Table.mem_update]
  simp only [decide_eq_true_eq]
  constructor <;> exact fun ⟨u, hu, h⟩ => ⟨u, hu, h.symm⟩

theorem setEmail_returns_iff : (∃ user db', (setEmail id email).Returns db user db') ↔
    ∃ account, db.users.find id = some account ∧
      ∀ u ∈ db.users.rows, u.email = email → u.id = id := by
  have hshape : ∀ user db', (setEmail id email).Returns db user db' ↔
      ∃ account m, db.users.find id = some account ∧
        m.toStore = { db.toStore with users := withEmail db.toStore id email } ∧
        (reassign account.email email).Returns m () db' ∧ user = { account with email } := by
    intro user db'
    unfold setEmail withEmail
    simp only [bind_returns, read_returns, orFail_returns, mapViolated_returns, write_returns,
      pure_returns]
    constructor
    · rintro ⟨_, _, ⟨rfl, rfl⟩, account, _, ⟨hfound, rfl⟩, _, m, hm, _, _, hre, huser, rfl⟩
      exact ⟨account, m, hfound, hm, hre, huser⟩
    · rintro ⟨account, m, hfound, hm, hre, huser⟩
      exact ⟨_, _, ⟨rfl, rfl⟩, account, _, ⟨hfound, rfl⟩, (), m, hm, (), _, hre, huser, rfl⟩
  constructor
  · rintro ⟨user, db', h⟩
    obtain ⟨account, m, hfound, hm, -⟩ := (hshape user db').mp h
    refine ⟨account, hfound, fun u hu hemail => ?_⟩
    have hmem : ∀ v ∈ (withEmail db.toStore id email).rows, v ∈ m.users.rows := by
      rw [hm]
      exact fun v hv => hv
    have haccount : { account with email } ∈ (withEmail db.toStore id email).rows :=
      mem_withEmail.mpr ⟨account, Table.find_mem hfound, by rw [if_pos (Table.find_key hfound)]⟩
    by_contra hid
    have hother : u ∈ (withEmail db.toStore id email).rows :=
      mem_withEmail.mpr ⟨u, hu, by rw [if_neg hid]⟩
    have hkey : account.id = id := Table.find_key hfound
    exact hid ((m.sound .usersUniqueEmail u (hmem u hother) _ (hmem _ haccount) hemail).trans hkey)
  · rintro ⟨account, hfound, hfree⟩
    have hids : ∀ k, ((withEmail db.toStore id email).find k).isSome = (db.users.find k).isSome := by
      intro k
      rw [withEmail, Table.find_update, Option.isSome_map]
    have hemail : ∀ v ∈ (withEmail db.toStore id email).rows,
        ∀ w ∈ (withEmail db.toStore id email).rows, v.email = w.email → v.id = w.id := by
      intro v hv w hw he
      obtain ⟨v₀, hv₀, rfl⟩ := mem_withEmail.mp hv
      obtain ⟨w₀, hw₀, rfl⟩ := mem_withEmail.mp hw
      split_ifs at he ⊢ with h₁ h₂ h₂
      · exact h₁.trans h₂.symm
      · exact absurd (hfree w₀ hw₀ he.symm) h₂
      · exact absurd (hfree v₀ hv₀ he) h₁
      · exact db.sound .usersUniqueEmail v₀ hv₀ w₀ hw₀ he
    let m : Db := ⟨_, holds_users hids hemail⟩
    obtain ⟨db', hre⟩ := reassign_total account.email email
    exact ⟨_, db', (hshape _ db').mpr ⟨account, m, hfound, rfl, hre, rfl⟩⟩

/-! ## Two accounts and a grant -/

/-- `ada@x.io` has been granted a folder of `ben@x.io`. -/
def folderGranted : Db where
  users := ⟨[⟨1, "ada@x.io".toList, "Ada".toList, true, true⟩,
    ⟨2, "ben@x.io".toList, "Ben".toList, true, true⟩], by decide⟩
  nodes := ⟨[⟨3, 2, none, [], .directory, .directory 3, none⟩,
    ⟨4, 2, some 3, "Photos".toList, .directory, .directory 4, none⟩], by decide⟩
  blobs := .empty
  versions := .empty
  thumbnails := .empty
  quotas := .empty
  grants := ⟨[⟨5, 4, "ada@x.io".toList, .write, "Photos".toList, 2, 0⟩], by decide⟩
  locks := .empty
  now := 1
  next := 6
  sound := by
    intro c
    cases c <;> decide +kernel

/-- Moving the account to an address of its own keeps the shares. -/
theorem keepsShares_moved : ∃ user db',
    (setEmail 1 "cy@x.io".toList).Returns folderGranted user db' ∧
      KeepsShares "ada@x.io".toList "cy@x.io".toList folderGranted db' := by
  obtain ⟨user, db', h⟩ := setEmail_returns_iff.mpr
    ⟨⟨1, "ada@x.io".toList, "Ada".toList, true, true⟩, by decide +kernel,
      (by decide +kernel : ∀ u ∈ folderGranted.users.rows, u.email = "cy@x.io".toList → u.id = 1)⟩
  have hfound : folderGranted.users.find 1 =
      some ⟨1, "ada@x.io".toList, "Ada".toList, true, true⟩ := by decide +kernel
  have hkeeps := keepsShares_iff hfound h
  exact ⟨user, db', h, hkeeps.mpr (Or.inl (by decide))⟩

/-- Setting the address an account already has deletes the share it received. -/
theorem shares_lost : ¬ ∀ (db db' : Db) (id : Uuid) (email : Str) (account user : User),
    db.users.find id = some account → (setEmail id email).Returns db user db' →
      KeepsShares account.email email db db' := by
  intro hall
  obtain ⟨user, db', h⟩ := setEmail_returns_iff.mpr
    ⟨⟨1, "ada@x.io".toList, "Ada".toList, true, true⟩, by decide +kernel,
      (by decide +kernel : ∀ u ∈ folderGranted.users.rows, u.email = "ada@x.io".toList → u.id = 1)⟩
  have hfound : folderGranted.users.find 1 =
      some ⟨1, "ada@x.io".toList, "Ada".toList, true, true⟩ := by decide +kernel
  have hkeeps := hall folderGranted db' 1 "ada@x.io".toList _ user hfound h
  obtain ⟨account, m, hfound', hgrants, hre⟩ := setEmail_cases h
  obtain rfl := Option.some.inj (hfound.symm.trans hfound')
  have hbefore : granted folderGranted.toStore "ada@x.io".toList 4 = some .write := by
    decide +kernel
  have hmerged := hkeeps.merged 4
  rw [hbefore] at hmerged
  obtain ⟨g, hg, hge, -⟩ := granted_eq_some_iff.mp hmerged
  exact ((reassign_same hre g).mp hg).2 hge

end Stashden.Api
