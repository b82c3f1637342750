import Stashden.Api.System

/-!
# Every mount has a name a path can say (`grants::free_mount_name`)

A mount goes by the name of its node, numbered where the address has that name already.
`check_numbered` says that a numbered name is a name still, as long as the number is no longer than
an id can be, and `Reached.mounts_named` carries it through every run: `Lending` is what each step
does to the grants, which is to take some away but for the two functions that name mounts.
-/

namespace Stashden.Api

open Lib Stashden.Core Tx

variable {s s' : Store} {db db' m : Db} {ownerId nodeId id : Uuid} {node parent : Node}
  {name : NodeName} {hash : BlobHash} {size : Nat} {delta versionsKept quota : Int} {u : Unit}
  {taken : List Str} {wanted candidate str : Str} {tries ordinal : Nat}

/-- An id is 128 bits. -/
def MAX_IDS : Nat := 2 ^ 128

/-! ## Numbered names -/

/-- A digit is one byte, and none of the characters a name may not have. -/
theorem digit_spec {c : Char} (h : c ∈ Nat.toDigits 10 ordinal) :
    c.utf8Size = 1 ∧ c ≠ '/' ∧ c ≠ '\\' ∧ isControl c = false := by
  have hdigit : c.isDigit = true := Nat.isDigit_of_mem_toDigits (by omega) (by omega) h
  obtain ⟨hlow, hhigh⟩ := Char.isDigit_iff_toNat.mp hdigit
  have hten : ∀ n ∈ List.range' 48 10, (Char.ofNat n).utf8Size = 1 ∧ Char.ofNat n ≠ '/' ∧
      Char.ofNat n ≠ '\\' ∧ isControl (Char.ofNat n) = false := by decide
  have hc := hten c.toNat (List.mem_range'_1.mpr ⟨hlow, Nat.lt_succ_of_le hhigh⟩)
  rwa [Char.ofNat_toNat] at hc

theorem byteLen_of_one {s : Str} (h : ∀ c ∈ s, c.utf8Size = 1) : byteLen s = s.length := by
  induction s with
  | nil => rfl
  | cons c s ih =>
    rw [byteLen_cons, h c List.mem_cons_self, List.length_cons,
      ih fun d hd => h d (List.mem_cons_of_mem c hd)]
    omega

/-- The number of a mount is no longer than an id can be. -/
theorem byteLen_ordinalSuffix (h : ordinal ≤ MAX_IDS + 2) : byteLen (ordinalSuffix ordinal) ≤ 42 := by
  have hlen : (Nat.toDigits 10 ordinal).length ≤ 39 := by
    rw [Nat.length_toDigits_le_iff (by omega) (by omega)]
    exact h.trans_lt (by decide)
  unfold ordinalSuffix
  rw [byteLen_cons, byteLen_cons, byteLen_append, byteLen_of_one fun c hc => (digit_spec hc).1]
  show 1 + (1 + ((Nat.toDigits 10 ordinal).length + 1)) ≤ 42
  omega

/-- **A numbered name is a name.** -/
theorem check_numbered (hname : NodeName.check wanted = none) (h : ordinal ≤ MAX_IDS + 2) :
    NodeName.check (numbered wanted ordinal) = none := by
  obtain ⟨-, -, -, ⟨hslash, hback⟩, hcontrol⟩ := NodeName.check_eq_none_iff.mp hname
  have hsuffix := byteLen_ordinalSuffix h
  obtain ⟨kept, hkept⟩ := takeBytes_boundaryBelow wanted
    (min (MAX_NAME_LEN - byteLen (ordinalSuffix ordinal)) (byteLen wanted))
  obtain ⟨hpre, hlen⟩ := takeBytes_eq_some hkept
  have hcut := boundaryBelow_le wanted
    (min (MAX_NAME_LEN - byteLen (ordinalSuffix ordinal)) (byteLen wanted))
  have hnumbered : numbered wanted ordinal = kept ++ ordinalSuffix ordinal := by
    unfold numbered
    dsimp only
    rw [hkept]
    rfl
  have hlast : (numbered wanted ordinal).getLast? = some ')' := by
    rw [hnumbered, show ordinalSuffix ordinal = (' ' :: '(' :: Nat.toDigits 10 ordinal) ++ [')'] from rfl,
      ← List.append_assoc, List.getLast?_concat]
  have hchars : ∀ c ∈ numbered wanted ordinal, c ≠ '/' ∧ c ≠ '\\' ∧ isControl c = false := by
    intro c hc
    rw [hnumbered, List.mem_append] at hc
    rcases hc with hc | hc
    · have hmem := hpre.subset hc
      exact ⟨fun he => hslash (he ▸ hmem), fun he => hback (he ▸ hmem), hcontrol c hmem⟩
    · unfold ordinalSuffix at hc
      rw [List.mem_cons, List.mem_cons, List.mem_append, List.mem_singleton] at hc
      rcases hc with rfl | rfl | hc | rfl
      · decide
      · decide
      · exact (digit_spec hc).2
      · decide
  refine NodeName.check_eq_none_iff.mpr ⟨fun hnil => ?_, ?_, ⟨fun hdot => ?_, fun hdots => ?_⟩,
    ⟨fun hmem => (hchars _ hmem).1 rfl, fun hmem => (hchars _ hmem).2.1 rfl⟩,
    fun c hc => (hchars c hc).2.2⟩
  · rw [hnil] at hlast
    cases hlast
  · rw [hnumbered, byteLen_append, hlen]
    have hmax : MAX_NAME_LEN = 255 := rfl
    omega
  · rw [hdot] at hlast
    cases hlast
  · rw [hdots] at hlast
    cases hlast

/-- A name the loop finds is a name. -/
theorem check_nextFree (hname : NodeName.check wanted = none)
    (hcandidate : NodeName.check candidate = none) (h : ordinal + tries ≤ MAX_IDS + 3) :
    NodeName.check (nextFree taken wanted tries candidate ordinal) = none := by
  induction tries generalizing candidate ordinal with
  | zero => exact hcandidate
  | succ tries ih =>
    unfold nextFree
    split_ifs
    · exact ih (check_numbered hname (by omega)) (by omega)
    · exact hcandidate

theorem check_freeName (hname : NodeName.check wanted = none) (h : taken.length ≤ MAX_IDS) :
    NodeName.check (freeName taken wanted) = none :=
  check_nextFree hname hname (by omega)

/-! ## What a step does to the grants -/

/-- No id is taken back, and no grant is new. -/
structure FewerGrants (s s' : Store) : Prop where
  next : s.next ≤ s'.next
  grants : s'.grants.rows ⊆ s.grants.rows

instance : IsPreorder Store FewerGrants where
  refl _ := ⟨le_rfl, List.Subset.refl _⟩
  trans _ _ _ h h' := ⟨h.next.trans h'.next, fun _ hg => h.grants (h'.grants hg)⟩

theorem fewerGrants_of_eq (hnext : s'.next = s.next) (hgrants : s'.grants = s.grants) :
    FewerGrants s s' :=
  ⟨hnext.ge, hgrants ▸ List.Subset.refl _⟩

theorem fewerGrants_execute {h : Store → Store} (hnext : ∀ s, (h s).next = s.next)
    (hgrants : ∀ s, (h s).grants = s.grants) : Keeps FewerGrants (execute h) :=
  keeps_execute fun s => fewerGrants_of_eq (hnext s) (hgrants s)

instance : Planting FewerGrants where
  fresh := keeps_fresh fun _ => ⟨Nat.le_succ _, List.Subset.refl _⟩
  acquire _ := fewerGrants_execute (fun _ => rfl) fun _ => rfl
  release _ := fewerGrants_execute (fun _ => rfl) fun _ => rfl
  charge _ _ := keeps_bind keeps_query fun _ =>
    keeps_bind (fewerGrants_execute (fun _ => rfl) fun _ => rfl) fun _ => keeps_pure
  drop _ := fewerGrants_execute (fun _ => rfl) fun _ => rfl
  nodes _ _ := fewerGrants_of_eq rfl rfl

theorem fewerGrants_deleteNodes (p : Node → Bool) : FewerGrants s (s.deleteNodes p) :=
  ⟨le_rfl, fun _ hg => (Table.mem_delete.mp hg).1⟩

theorem fewerGrants_ensureRoot : Keeps FewerGrants (ensureRoot ownerId quota) :=
  keeps_ensureRoot (fewerGrants_execute (fun _ => rfl) fun _ => rfl)

theorem fewerGrants_putFile :
    Keeps FewerGrants (putFile ownerId parent name hash size versionsKept) := by
  intro db node db' hx
  obtain ⟨hsteady, -⟩ := putFile_nodes hx
  exact ⟨hsteady.next, hsteady.grants ▸ List.Subset.refl _⟩

theorem fewerGrants_purge : Keeps FewerGrants (purge ownerId id) :=
  keeps_bind keeps_trashRoot fun _ => keeps_bind keeps_query fun _ =>
    keeps_bind (keeps_execute fun _ => fewerGrants_deleteNodes _) fun _ =>
      keeps_forEach (fun _ => Counting.release _) _

theorem fewerGrants_purgeAll {ids : List Uuid} : Keeps FewerGrants (purgeAll ownerId ids) := by
  induction ids with
  | nil => exact keeps_pure
  | cons id ids ih =>
    refine keeps_bind (fun db a db' hx => ?_) fun _ => keeps_bind ih fun _ => keeps_pure
    rcases orElseNotFound_cases hx with hx | ⟨-, hx⟩
    · exact keeps_bind fewerGrants_purge (fun _ => keeps_pure) hx
    · exact keeps_pure hx

theorem fewerGrants_emptyTrash : Keeps FewerGrants (emptyTrash ownerId) :=
  keeps_bind keeps_query fun _ => fewerGrants_purgeAll

theorem fewerGrants_expireAll (due : List Node) (db : Db) :
    FewerGrants db.toStore (expireAll due db).2.toStore := by
  induction due generalizing db with
  | nil => exact refl _
  | cons root due ih =>
    unfold expireAll
    split
    · rename_i m hpurge
      exact IsTrans.trans _ _ _ (fewerGrants_purge hpurge) (ih m)
    · exact ih db

theorem fewerGrants_freeFolderName {parentId : Uuid} :
    Keeps FewerGrants (freeFolderName parentId wanted) := by
  unfold freeFolderName
  generalize MAX_ATTEMPTS = left
  generalize 1 = attempt
  induction left generalizing attempt with
  | zero => exact keeps_fail
  | succ left ih =>
    refine keeps_bind ?_ fun _ => keeps_bind keeps_query fun _ => keeps_ite (ih _) keeps_pure
    unfold parseName
    split
    · exact keeps_pure
    · exact keeps_fail

theorem fewerGrants_handOverTo {leaving : User} {receiver : Option Uuid} :
    Keeps FewerGrants (handOverTo leaving quota receiver) := by
  cases receiver with
  | none => exact keeps_pure
  | some receiver =>
    refine keeps_bind (keeps_bind keeps_query fun _ => keeps_orFail) fun recipient =>
      keeps_ite keeps_fail (keeps_bind keeps_query fun oldRoot => ?_)
    cases oldRoot with
    | none => exact keeps_pure
    | some oldRoot =>
      exact keeps_bind fewerGrants_ensureRoot fun _ => keeps_bind fewerGrants_freeFolderName fun _ =>
        keeps_bind keeps_createDirectories fun _ =>
          keeps_bind (keeps_execute fun _ => Planting.nodes _ _) fun _ =>
            keeps_bind (keeps_execute fun _ => Planting.nodes _ _) fun _ =>
              keeps_bind keeps_query fun _ => keeps_chargeQuota

theorem fewerGrants_removeAccount {receiver : Option Uuid} :
    Keeps FewerGrants (removeAccount id receiver quota) := by
  refine keeps_bind (keeps_bind keeps_query fun _ => keeps_orFail) fun _ =>
    keeps_bind fewerGrants_emptyTrash fun _ => keeps_bind fewerGrants_handOverTo fun _ =>
      keeps_bind keeps_query fun _ => keeps_bind (keeps_execute fun s => ?_) fun _ =>
        keeps_bind (keeps_execute fun s => ?_) fun _ => keeps_forEach (fun _ => Counting.release _) _
  · exact ⟨le_rfl, fun _ hg => (Table.mem_delete.mp hg).1⟩
  · exact ⟨le_rfl, fun _ hg => (Table.mem_delete.mp (Table.mem_delete.mp hg).1).1⟩

theorem fewerGrants_createUser {email displayName : Str} {mayWriteRole : Bool} :
    Keeps FewerGrants (createUser email displayName mayWriteRole) := by
  refine keeps_bind Counting.fresh fun _ => keeps_bind (keeps_mapViolated ?_) fun _ => keeps_pure
  refine keeps_insertRow fun s s' h => ?_
  obtain ⟨users, -, rfl⟩ := Option.map_eq_some_iff.mp h
  exact fewerGrants_of_eq rfl rfl

theorem fewerGrants_setQuota : Keeps FewerGrants (setQuota id delta) :=
  keeps_ite keeps_fail (keeps_mapViolated (fewerGrants_execute (fun _ => rfl) fun _ => rfl))

theorem fewerGrants_takeLock {deep : Bool} {seconds : Nat} :
    Keeps FewerGrants (takeLock node ownerId deep seconds) := by
  refine keeps_bind (fewerGrants_execute (fun _ => rfl) fun _ => rfl) fun _ =>
    keeps_bind Counting.fresh fun token => keeps_bind (keeps_mapViolated ?_) fun _ =>
      keeps_bind keeps_query fun _ => keeps_orFail
  refine keeps_insertRow fun s s' h => ?_
  obtain ⟨locks, -, rfl⟩ := Option.map_eq_some_iff.mp h
  exact fewerGrants_of_eq rfl rfl

theorem fewerGrants_remember {source thumbnail : BlobHash} {edge : Nat} :
    Keeps FewerGrants (remember source edge thumbnail) :=
  keeps_bind keeps_query fun _ =>
    keeps_bind (fewerGrants_execute (fun _ => rfl) fun _ => rfl) fun _ =>
      keeps_ite (Counting.acquire _) keeps_pure

theorem fewerGrants_forgetOrphans : Keeps FewerGrants forgetOrphans :=
  keeps_bind keeps_query fun _ =>
    keeps_bind (fewerGrants_execute (fun _ => rfl) fun _ => rfl) fun _ =>
      keeps_forEach (fun _ => Counting.release _) _

theorem fewerGrants_setDisabled {disabled : Bool} : Keeps FewerGrants (setDisabled id disabled) :=
  keeps_bind (fewerGrants_execute (fun _ => rfl) fun _ => rfl) fun _ =>
    keeps_bind keeps_query fun _ => keeps_orFail

theorem fewerGrants_setRole {mayWriteRole : Bool} : Keeps FewerGrants (setRole id mayWriteRole) :=
  keeps_bind (fewerGrants_execute (fun _ => rfl) fun _ => rfl) fun _ =>
    keeps_bind keeps_query fun _ => keeps_orFail

theorem fewerGrants_refresh {token : Uuid} {seconds : Nat} :
    Keeps FewerGrants (refresh token node seconds) :=
  keeps_bind keeps_query fun _ =>
    keeps_bind (fewerGrants_execute (fun _ => rfl) fun _ => rfl) fun _ => keeps_query

theorem fewerGrants_releaseLock {token : Uuid} : Keeps FewerGrants (releaseLock node token) :=
  keeps_bind keeps_query fun _ =>
    keeps_bind (fewerGrants_execute (fun _ => rfl) fun _ => rfl) fun _ => keeps_pure

theorem fewerGrants_purgeExpired : Keeps FewerGrants purgeExpired :=
  fewerGrants_execute (fun _ => rfl) fun _ => rfl

theorem fewerGrants_registerBlob : Keeps FewerGrants (registerBlob hash size) :=
  fewerGrants_execute (fun _ => rfl) fun _ => rfl

theorem fewerGrants_sweepBlob {grace : Nat} : Keeps FewerGrants (sweepBlob hash grace) :=
  fewerGrants_execute (fun _ => rfl) fun _ => rfl

/-! ## The functions that name mounts -/

/-- Every mount has a name a path can say. -/
def MountsNamed (s : Store) : Prop := ∀ g ∈ s.grants.rows, NodeName.check g.mountName = none

/-- As long as there are ids, mounts that had names have them. -/
structure Lending (s s' : Store) : Prop where
  next : s.next ≤ s'.next
  named : s'.next ≤ MAX_IDS → MountsNamed s → MountsNamed s'

instance : IsPreorder Store Lending where
  refl _ := ⟨le_rfl, fun _ h => h⟩
  trans _ _ _ h h' := ⟨h.next.trans h'.next, fun hids hs => h'.named hids
    (h.named (h'.next.trans hids) hs)⟩

theorem FewerGrants.lending (h : FewerGrants s s') : Lending s s' :=
  ⟨h.next, fun _ hs g hg => hs g (h.grants hg)⟩

/-- There are no more grants than ids. -/
theorem length_grants_le (db : Db) : db.grants.rows.length ≤ db.next := by
  have hsub : (db.grants.rows.map Grant.id) ⊆ List.range db.next := by
    intro id hid
    obtain ⟨g, hg, rfl⟩ := List.mem_map.mp hid
    exact List.mem_range.mpr ((db.sound .primaryKey).2.2.1 g hg)
  have hlen := (List.Nodup.subperm db.grants.nodup hsub).length_le
  rwa [List.length_map, List.length_range] at hlen

theorem check_freeMountName {grantee : Str} (hids : db.next ≤ MAX_IDS)
    (hname : NodeName.check wanted = none)
    (h : (freeMountName grantee wanted).Returns db str db') : NodeName.check str = none := by
  obtain ⟨-, rfl⟩ := freeMountName_returns.mp h
  refine check_freeName hname ?_
  rw [List.length_map]
  exact (List.length_filter_le _ _).trans ((length_grants_le db).trans hids)

theorem lending_reassignOne {new : Str} {moving : Grant}
    (hmoving : NodeName.check moving.mountName = none) : Keeps Lending (reassignOne new moving) := by
  have hdelete : Keeps Lending (deleteGrant moving.id) := fun db _ db' h => by
    rw [deleteGrant_returns.mp h]
    exact ⟨le_rfl, fun _ hs g hg => hs g (Table.mem_delete.mp hg).1⟩
  have hset : ∀ id a, Keeps Lending (setAccess id a) := fun id a db _ db' h => by
    have hs' := setAccess_returns.mp h
    refine ⟨by rw [hs'], fun _ hs g hg => ?_⟩
    rw [hs'] at hg
    dsimp only at hg
    rw [mem_grants_update] at hg
    obtain ⟨g₀, hg₀, rfl⟩ := hg
    split_ifs
    · exact hs g₀ hg₀
    · exact hs g₀ hg₀
  intro db a db' h
  unfold reassignOne at h
  obtain ⟨s, m, hread, h⟩ := bind_returns.mp h
  obtain ⟨rfl, rfl⟩ := read_returns.mp hread
  split at h
  · split_ifs at h
    · exact keeps_bind (hset _ _) (fun _ => hdelete) h
    · exact hdelete h
  · obtain ⟨mountName, m, hname, h⟩ := bind_returns.mp h
    obtain ⟨rfl, -⟩ := freeMountName_returns.mp hname
    have hs' := moveGrant_returns.mp h
    refine ⟨by rw [hs'], fun hids hs g hg => ?_⟩
    rw [hs'] at hids hg
    dsimp only at hg
    rw [mem_grants_update] at hg
    obtain ⟨g₀, hg₀, rfl⟩ := hg
    split_ifs
    · exact check_freeMountName hids hmoving hname
    · exact hs g₀ hg₀

theorem lending_setEmail {email : Str} {user : User}
    (hx : (setEmail id email).Returns db user db') : Lending db.toStore db'.toStore := by
  unfold setEmail at hx
  simp only [bind_returns, read_returns, orFail_returns, mapViolated_returns, write_returns,
    pure_returns] at hx
  obtain ⟨_, _, ⟨rfl, rfl⟩, account, _, ⟨-, rfl⟩, _, m, hm, _, _, hre, -, rfl⟩ := hx
  have hloop := reassign_returns.mp hre
  have hsame : db.next ≤ m.next := by rw [hm]
  have hgrants : m.grants = db.grants := by rw [hm]
  have hnext := (keeps_forEach (fun _ => regranted_reassignOne) _ hloop : Regranted _ _)
  refine ⟨by rw [hnext]; exact hsame, fun hids hs => ?_⟩
  have hnamed : ∀ g ∈ m.grants.rows, NodeName.check g.mountName = none := by rw [hgrants]; exact hs
  have key : ∀ (moving : List Grant) {m db' : Db}, (∀ r ∈ moving, NodeName.check r.mountName = none) →
      (forEach (reassignOne email) moving).Returns m () db' → Lending m.toStore db'.toStore := by
    intro moving
    induction moving with
    | nil =>
      intro m db' _ h
      rw [forEach_nil_returns.mp h]
      exact refl _
    | cons r moving ih =>
      intro m db' hvalid h
      obtain ⟨m₁, hone, hrest⟩ := forEach_cons_returns.mp h
      exact IsTrans.trans _ _ _ (lending_reassignOne (hvalid r List.mem_cons_self) hone)
        (ih (fun k hk => hvalid k (List.mem_cons_of_mem r hk)) hrest)
  refine (key _ (fun r hr => ?_) hloop).named hids hnamed
  exact hnamed r (mem_moving.mp hr).1

/-- The name of a root would be no mount's, and the check of the table refuses it. -/
theorem lending_give {owner : User} {grantee : Str} {access : Access} {given : Given}
    (hname : node.name = [] ∨ NodeName.check node.name = none)
    (hx : (give owner node grantee access).Returns db given db') :
    Lending db.toStore db'.toStore := by
  unfold give at hx
  obtain ⟨-, hx⟩ := of_guard hx
  obtain ⟨reached, m, hreached, hx⟩ := bind_returns.mp hx
  obtain ⟨rfl, rfl⟩ := query_returns.mp hreached
  obtain ⟨_, m, hrefused, hx⟩ := bind_returns.mp hx
  have hsame : FewerGrants db.toStore m.toStore := by
    refine keeps_forEach (fun r => ?_) _ hrefused
    exact keeps_bind keeps_query fun _ => keeps_ite keeps_fail <|
      keeps_bind keeps_query fun _ => keeps_ite keeps_fail keeps_pure
  obtain ⟨mountName, m', hmount, hx⟩ := bind_returns.mp hx
  obtain ⟨rfl, -⟩ := freeMountName_returns.mp hmount
  obtain ⟨grant, m', hinsert, hx⟩ := bind_returns.mp hx
  obtain ⟨-, rfl⟩ := pure_returns.mp hx
  rw [mapViolated_returns] at hinsert
  unfold insertGrant at hinsert
  simp only [bind_returns, fresh_returns, read_returns, insertRow_returns, pure_returns] at hinsert
  obtain ⟨_, m₁, ⟨rfl, hfresh⟩, _, _, ⟨rfl, rfl⟩, _, m₂, hins, -, rfl⟩ := hinsert
  obtain ⟨grants, hgrants, hs⟩ := Option.map_eq_some_iff.mp hins
  have hnext : m₂.next = m.next + 1 := by rw [← hs, hfresh]
  have hrow : ∀ g, g ∈ m₂.grants.rows ↔ g ∈ m.grants.rows ∨
      g = ⟨m.next, node.id, grantee, access, mountName, owner.id, m₁.now⟩ := by
    intro g
    rw [← hs]
    dsimp only
    rw [(Table.insert_eq_some hgrants).2, List.mem_append, List.mem_singleton, hfresh]
  have hchecked := m₂.sound .grantsMountNameCheck _ ((hrow _).mpr (Or.inr rfl))
  refine IsTrans.trans _ _ _ hsame.lending
    ⟨by rw [hnext]; exact Nat.le_succ _, fun hids hnamed g hg => ?_⟩
  rcases (hrow g).mp hg with hg | rfl
  · exact hnamed g hg
  · rcases hname with hempty | hname
    · rw [hempty] at hmount
      obtain ⟨-, rfl⟩ := freeMountName_returns.mp hmount
      refine absurd ?_ hchecked.1
      refine nextFree_of_not_mem fun htaken => ?_
      obtain ⟨k, hk, hkname⟩ := List.mem_map.mp htaken
      exact (m.sound .grantsMountNameCheck k (Table.mem_select.mp hk).1).1 hkname
    · exact check_freeMountName (Nat.le_of_succ_le (hnext.ge.trans hids)) hname hmount

/-- A node has a name, but for the roots. -/
theorem empty_or_named (hs : Sane db.toStore) (hnode : db.nodes.find id = some node) :
    node.name = [] ∨ NodeName.check node.name = none := by
  by_cases hp : node.parentId = none
  · have hcheck := db.sound .nodesNameCheck node (Table.find_mem hnode)
    unfold Store.nameCheck at hcheck
    rw [hp] at hcheck
    exact Or.inl (of_decide_eq_true hcheck)
  · exact Or.inr (hs.named hnode hp)

/-- **One step keeps the names of mounts.** -/
theorem step_lending (h : Step db db') (hs : Sane db.toStore) : Lending db.toStore db'.toStore := by
  cases h with
  | tick hnow heq => exact (fewerGrants_of_eq (by rw [heq]) (by rw [heq])).lending
  | createUser hx => exact (fewerGrants_createUser hx).lending
  | setDisabled hx => exact (fewerGrants_setDisabled hx).lending
  | setRole hx => exact (fewerGrants_setRole hx).lending
  | setEmail hx => exact lending_setEmail hx
  | setQuota hx => exact (fewerGrants_setQuota hx).lending
  | give hnode hx =>
    exact lending_give (empty_or_named hs (liveNode_eq_some.mp hnode).1) hx
  | withdraw hx =>
    rw [withdraw_returns hx]
    exact ⟨le_rfl, fun _ hnamed g hg => hnamed g (Table.mem_delete.mp hg).1⟩
  | takeLock hx => exact (fewerGrants_takeLock hx).lending
  | refresh hx => exact (fewerGrants_refresh hx).lending
  | releaseLock hx => exact (fewerGrants_releaseLock hx).lending
  | purgeExpired hx => exact (fewerGrants_purgeExpired hx).lending
  | ensureRoot hx => exact (fewerGrants_ensureRoot hx).lending
  | createDirectories hroot hx => exact (keeps_createDirectories (R := FewerGrants) hx).lending
  | registerBlob hx => exact (fewerGrants_registerBlob hx).lending
  | putFile hparent hdir hx => exact (fewerGrants_putFile hx).lending
  | restoreVersion hnode hparent hdir hx =>
    exact (keeps_bind keeps_take (fun _ => fewerGrants_putFile) hx).lending
  | copyTree hsource hparent hx => exact (keeps_copyTree (R := FewerGrants) hx).lending
  | rename hnode hparent howner hx => exact (keeps_rename (R := FewerGrants) hx).lending
  | send hnode hchild hx => exact (keeps_send (R := FewerGrants) hx).lending
  | restore hx => exact (keeps_restore (R := FewerGrants) hx).lending
  | purge hx => exact (fewerGrants_purge hx).lending
  | emptyTrash hx => exact (fewerGrants_emptyTrash hx).lending
  | expire retention => exact (fewerGrants_expireAll _ _).lending
  | remember hx => exact (fewerGrants_remember hx).lending
  | forgetOrphans hx => exact (fewerGrants_forgetOrphans hx).lending
  | sweepBlob hx => exact (fewerGrants_sweepBlob hx).lending
  | removeAccount hother hx => exact (fewerGrants_removeAccount hx).lending

/-- **Every mount has a name a path can say**, after every run that did not use its ids up. -/
theorem Reached.mounts_named (h : Reached db) (hids : db.next ≤ MAX_IDS) : MountsNamed db.toStore := by
  induction h with
  | start now => exact fun g hg => absurd hg List.not_mem_nil
  | step h hstep ih =>
    have hlending := step_lending hstep h.sane
    exact hlending.named hids (ih (hlending.next.trans hids))

end Stashden.Api
