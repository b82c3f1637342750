import Stashden.Api.Tx
import Stashden.Core.Text

/-!
# Grants, and the address they follow (`api/src/grants.rs`, `users::set_email`)

`freeMountName` numbers a wanted name until no mount of the address has it; as many tries as there
are mounts, and one, are enough, for the numbered names are distinct (`numbered_injective`).
`reassign` takes every grant of an address to another one: `reassignOne_spec` says what one round
does to the grants and `reassign_spec` what all of them do.
-/

namespace Stashden.Api

open Lib Stashden.Core Tx

/-! ## Mount names -/

/-- `" ({ordinal})"`. -/
def ordinalSuffix (ordinal : Nat) : Str := ' ' :: '(' :: (Nat.toDigits 10 ordinal ++ [')'])

/-- `numbered`. -/
def numbered (name : Str) (ordinal : Nat) : Str :=
  let suffix := ordinalSuffix ordinal
  let cut := boundaryBelow name (min (MAX_NAME_LEN - byteLen suffix) (byteLen name))
  (takeBytes cut name).getD [] ++ suffix

/-- The loop of `free_mount_name`. -/
def nextFree (taken : List Str) (wanted : Str) : Nat → Str → Nat → Str
  | 0, candidate, _ => candidate
  | tries + 1, candidate, ordinal =>
    if candidate ∈ taken then nextFree taken wanted tries (numbered wanted ordinal) (ordinal + 1)
    else candidate

/-- `free_mount_name`, over the names the address has. -/
def freeName (taken : List Str) (wanted : Str) : Str :=
  nextFree taken wanted (taken.length + 1) wanted 2

def freeMountName (grantee wanted : Str) : Tx Str := do
  let s ← read
  pure (freeName ((s.grants.select fun g => g.grantee = grantee).map Grant.mountName) wanted)

/-- The digits before the closing bracket are the ordinal. -/
theorem digits_of_numbered (name : Str) (ordinal : Nat) :
    (numbered name ordinal).reverse.tail.takeWhile Char.isDigit =
      (Nat.toDigits 10 ordinal).reverse := by
  have hdigits : ∀ c ∈ (Nat.toDigits 10 ordinal).reverse, c.isDigit = true := fun c hc =>
    Nat.isDigit_of_mem_toDigits (by omega) (by omega) (List.mem_reverse.mp hc)
  unfold numbered ordinalSuffix
  simp only [List.reverse_append, List.reverse_cons, List.reverse_nil, List.nil_append,
    List.append_assoc, List.cons_append, List.tail_cons]
  rw [List.takeWhile_append_of_pos hdigits]
  simp [List.takeWhile]

theorem numbered_injective (name : Str) {i j : Nat} (h : numbered name i = numbered name j) :
    i = j := by
  have hd : (Nat.toDigits 10 i).reverse = (Nat.toDigits 10 j).reverse := by
    rw [← digits_of_numbered name i, h, digits_of_numbered]
  have hi := Nat.ofDigitChars_ten_toDigits (n := i)
  have hj := Nat.ofDigitChars_ten_toDigits (n := j)
  rw [← hi, List.reverse_injective hd, hj]

theorem nextFree_of_not_mem {taken : List Str} {wanted candidate : Str} {tries ordinal : Nat}
    (h : candidate ∉ taken) : nextFree taken wanted tries candidate ordinal = candidate := by
  cases tries with
  | zero => rfl
  | succ tries => rw [nextFree, if_neg h]

/-- A loop that ends on a taken name went through as many numbered names. -/
theorem numbered_mem_of_nextFree {taken : List Str} {wanted : Str} {tries : Nat} {candidate : Str}
    {ordinal : Nat} (h : nextFree taken wanted tries candidate ordinal ∈ taken) :
    ∀ k < tries, numbered wanted (ordinal + k) ∈ taken := by
  induction tries generalizing candidate ordinal with
  | zero => exact fun k hk => absurd hk (Nat.not_lt_zero k)
  | succ tries ih =>
    unfold nextFree at h
    split_ifs at h with hc
    · intro k hk
      cases k with
      | zero =>
        by_contra hno
        rw [Nat.add_zero] at hno
        rw [nextFree_of_not_mem hno] at h
        exact hno h
      | succ k =>
        have hk' := ih h k (by omega)
        rwa [show ordinal + (k + 1) = ordinal + 1 + k by omega]
    · exact absurd h hc

/-- **The name found is free.** -/
theorem freeName_not_mem (taken : List Str) (wanted : Str) : freeName taken wanted ∉ taken := by
  intro h
  have hall := numbered_mem_of_nextFree h
  have hsub : (List.range (taken.length + 1)).map (fun k => numbered wanted (2 + k)) ⊆ taken := by
    intro name hname
    obtain ⟨k, hk, rfl⟩ := List.mem_map.mp hname
    exact hall k (List.mem_range.mp hk)
  have hnodup : ((List.range (taken.length + 1)).map fun k => numbered wanted (2 + k)).Nodup := by
    refine List.nodup_range.map fun i j hij => ?_
    have := numbered_injective wanted hij
    omega
  have hlen := (hnodup.subperm hsub).length_le
  rw [List.length_map, List.length_range] at hlen
  omega

theorem slash_not_mem_numbered {name : Str} (h : '/' ∉ name) (ordinal : Nat) :
    '/' ∉ numbered name ordinal := by
  unfold numbered ordinalSuffix
  intro hmem
  rcases List.mem_append.mp hmem with hmem | hmem
  · obtain ⟨kept, hkept⟩ := takeBytes_boundaryBelow name
      (min (MAX_NAME_LEN - byteLen (ordinalSuffix ordinal)) (byteLen name))
    unfold ordinalSuffix at hkept
    rw [hkept, Option.getD_some] at hmem
    exact h ((takeBytes_eq_some hkept).1.subset hmem)
  · have hdigit : '/' ∉ Nat.toDigits 10 ordinal := fun hd =>
      absurd (Nat.isDigit_of_mem_toDigits (by omega) (by omega) hd) (by decide)
    simp [hdigit] at hmem

/-- A name found from a valid name is valid. -/
theorem nextFree_valid {taken : List Str} {wanted candidate : Str} {tries ordinal : Nat}
    (hw : '/' ∉ wanted) (hc : candidate ≠ [] ∧ '/' ∉ candidate) :
    nextFree taken wanted tries candidate ordinal ≠ [] ∧
      '/' ∉ nextFree taken wanted tries candidate ordinal := by
  induction tries generalizing candidate ordinal with
  | zero => exact hc
  | succ tries ih =>
    unfold nextFree
    split_ifs
    · exact ih ⟨by simp [numbered, ordinalSuffix], slash_not_mem_numbered hw ordinal⟩
    · exact hc

/-! ## Statements on grants -/

/-- `UPDATE grants SET access = $2 WHERE id = $1`. -/
def setAccess (id : Uuid) (access : Access) : Tx Unit := do
  let s ← read
  write { s with
    grants := s.grants.update (fun g => g.id = id) (fun g => { g with access }) fun _ => rfl }

/-- `DELETE FROM grants WHERE id = $1`. -/
def deleteGrant (id : Uuid) : Tx Unit := do
  let s ← read
  write { s with grants := s.grants.delete fun g => g.id = id }

/-- `UPDATE grants SET grantee_email = $2, mount_name = $3 WHERE id = $1`. -/
def moveGrant (id : Uuid) (grantee mountName : Str) : Tx Unit := do
  let s ← read
  write { s with
    grants := s.grants.update (fun g => g.id = id) (fun g => { g with grantee, mountName })
      fun _ => rfl }

/-- `SELECT id, access FROM grants WHERE grantee_email = $1 AND node_id = $2`. -/
def grantTo (s : Store) (grantee : Str) (nodeId : Uuid) : Option Grant :=
  (s.grants.select fun g => g.grantee = grantee && g.nodeId = nodeId).head?

/-- The round of `reassign` for one grant. -/
def reassignOne (new : Str) (moving : Grant) : Tx Unit := do
  let s ← read
  match grantTo s new moving.nodeId with
  | some existing =>
    if moving.access.mayWrite && !existing.access.mayWrite then
      setAccess existing.id moving.access
      deleteGrant moving.id
    else deleteGrant moving.id
  | none =>
    let mountName ← freeMountName new moving.mountName
    moveGrant moving.id new mountName

/-- `reassign`. -/
def reassign (previous new : Str) : Tx Unit := do
  let s ← read
  forEach (reassignOne new) <|
    (s.grants.select fun g => g.grantee = previous).insertionSort fun g h => g.createdAt ≤ h.createdAt

/-- `users::set_email`. -/
def setEmail (id : Uuid) (email : Str) : Tx User := do
  let s ← read
  let user ← orFail .notFound (s.users.find id)
  mapViolated (fun c => if c = .usersUniqueEmail then .conflict email else .database c) <|
    write { s with
      users := s.users.update (fun u => u.id = id) (fun u => { u with email }) fun _ => rfl }
  reassign user.email email
  pure { user with email }

/-! ## What a round does -/

/-- The stronger of two accesses. -/
def stronger : Access → Access → Access
  | .write, _ => .write
  | .read, b => b

/-- The access an address has been granted to a node. -/
def granted (s : Store) (grantee : Str) (nodeId : Uuid) : Option Access :=
  (grantTo s grantee nodeId).map Grant.access

variable {db db' : Db} {new previous : Str} {r g : Grant} {n : Uuid} {u : Unit}

theorem grantTo_eq_some_iff :
    grantTo db.toStore new n = some g ↔ g ∈ db.grants.rows ∧ g.grantee = new ∧ g.nodeId = n := by
  have hmem : ∀ h : Grant, h ∈ (db.grants.select fun g => g.grantee = new && g.nodeId = n) ↔
      h ∈ db.grants.rows ∧ h.grantee = new ∧ h.nodeId = n := fun h => by
    simp [Table.mem_select]
  unfold grantTo
  constructor
  · exact fun h => (hmem g).mp (List.mem_of_mem_head? h)
  · intro h
    cases hs : (db.grants.select fun g => g.grantee = new && g.nodeId = n) with
    | nil =>
      have hg := (hmem g).mpr h
      rw [hs] at hg
      exact absurd hg List.not_mem_nil
    | cons g' rest =>
      have hg' := (hmem g').mp (hs ▸ List.mem_cons_self)
      have hid := db.sound .grantsOncePerAddress g' hg'.1 g h.1 (hg'.2.2.trans h.2.2.symm)
        (hg'.2.1.trans h.2.1.symm)
      rw [Table.eq_of_key hg'.1 h.1 hid]
      rfl

theorem grantTo_eq_none_iff :
    grantTo db.toStore new n = none ↔ ∀ g ∈ db.grants.rows, g.grantee = new → g.nodeId ≠ n := by
  rw [Option.eq_none_iff_forall_ne_some]
  constructor
  · exact fun h g hg hnew hn => h g (grantTo_eq_some_iff.mpr ⟨hg, hnew, hn⟩)
  · intro h g hg
    obtain ⟨hmem, hnew, hn⟩ := grantTo_eq_some_iff.mp hg
    exact h g hmem hnew hn

theorem granted_eq_some_iff {a : Access} : granted db.toStore new n = some a ↔
    ∃ g ∈ db.grants.rows, g.grantee = new ∧ g.nodeId = n ∧ g.access = a := by
  unfold granted
  rw [Option.map_eq_some_iff]
  simp only [grantTo_eq_some_iff, and_assoc]

theorem setAccess_returns {id : Uuid} {a : Access} : (setAccess id a).Returns db u db' ↔
    db'.toStore = { db.toStore with
      grants := db.grants.update (fun g => g.id = id) (fun g => { g with access := a })
        fun _ => rfl } := by
  simp [setAccess]

theorem deleteGrant_returns {id : Uuid} : (deleteGrant id).Returns db u db' ↔
    db'.toStore = { db.toStore with grants := db.grants.delete fun g => g.id = id } := by
  simp [deleteGrant]

theorem moveGrant_returns {id : Uuid} {mountName : Str} :
    (moveGrant id new mountName).Returns db u db' ↔
      db'.toStore = { db.toStore with
        grants := db.grants.update (fun g => g.id = id)
          (fun g => { g with grantee := new, mountName }) fun _ => rfl } := by
  simp [moveGrant]

theorem freeMountName_returns {wanted name : Str} :
    (freeMountName new wanted).Returns db name db' ↔
      db = db' ∧ name =
        freeName ((db.grants.select fun g => g.grantee = new).map Grant.mountName) wanted := by
  simp [freeMountName]

/-- What the rows of a table are after one of the updates above. -/
theorem mem_grants_update {t : Table Grant Grant.id} {id : Uuid} {f : Grant → Grant}
    {hf : ∀ g, (f g).id = g.id} :
    g ∈ (t.update (fun g => g.id = id) f hf).rows ↔
      ∃ g₀ ∈ t.rows, g = if g₀.id = id then f g₀ else g₀ := by
  rw [Table.mem_update]
  simp only [decide_eq_true_eq]
  constructor <;> exact fun ⟨g₀, hg₀, h⟩ => ⟨g₀, hg₀, h.symm⟩

/-- A round either merges the grant into the one the address already has, or moves it. -/
theorem reassignOne_cases (h : (reassignOne new r).Returns db u db') :
    (∃ existing, grantTo db.toStore new r.nodeId = some existing ∧
      ∀ g, g ∈ db'.grants.rows ↔ g.id ≠ r.id ∧ ∃ g₀ ∈ db.grants.rows,
        g = if g₀.id = existing.id then { g₀ with access := stronger r.access existing.access }
          else g₀) ∨
    (grantTo db.toStore new r.nodeId = none ∧ ∃ mountName, ∀ g, g ∈ db'.grants.rows ↔
      ∃ g₀ ∈ db.grants.rows, g = if g₀.id = r.id then { g₀ with grantee := new, mountName }
        else g₀) := by
  unfold reassignOne at h
  simp only [bind_returns, read_returns] at h
  obtain ⟨_, _, ⟨rfl, rfl⟩, h⟩ := h
  split at h
  · rename_i existing hex
    refine Or.inl ⟨existing, hex, fun g => ?_⟩
    have hmem := (grantTo_eq_some_iff.mp hex).1
    split_ifs at h with hw
    · obtain ⟨_, m, hset, hdel⟩ := bind_returns.mp h
      rw [setAccess_returns] at hset
      rw [deleteGrant_returns] at hdel
      rw [hdel, hset, Table.mem_delete, mem_grants_update, and_comm, decide_eq_false_iff_not]
      cases hr : r.access with
      | read => rw [hr] at hw; exact absurd hw (by simp [Access.mayWrite])
      | write => rfl
    · rw [deleteGrant_returns] at h
      have hsame : stronger r.access existing.access = existing.access := by
        cases hr : r.access with
        | read => rfl
        | write =>
          cases he : existing.access with
          | read => rw [hr, he] at hw; exact absurd rfl hw
          | write => rfl
      have hkeep : ∀ g₀ ∈ db.grants.rows, (if g₀.id = existing.id then
          { g₀ with access := stronger r.access existing.access } else g₀) = g₀ := by
        intro g₀ hg₀
        split_ifs with hid
        · rw [Table.eq_of_key hg₀ hmem hid, hsame]
        · rfl
      rw [h, Table.mem_delete, and_comm, decide_eq_false_iff_not]
      refine and_congr_right fun _ => ⟨fun hg => ⟨g, hg, (hkeep g hg).symm⟩, ?_⟩
      rintro ⟨g₀, hg₀, rfl⟩
      rw [hkeep g₀ hg₀]
      exact hg₀
  · rename_i hnone
    obtain ⟨name, m, hname, hmove⟩ := bind_returns.mp h
    obtain ⟨rfl, -⟩ := freeMountName_returns.mp hname
    rw [moveGrant_returns] at hmove
    exact Or.inr ⟨hnone, name, fun g => by rw [hmove, mem_grants_update]⟩

theorem granted_congr (h : ∀ g : Grant, g.grantee = new → g.nodeId = n →
    (g ∈ db'.grants.rows ↔ g ∈ db.grants.rows)) :
    granted db'.toStore new n = granted db.toStore new n := by
  refine Option.ext fun a => ?_
  rw [granted_eq_some_iff, granted_eq_some_iff]
  refine exists_congr fun g => ⟨?_, ?_⟩
  · rintro ⟨hmem, hnew, hn, ha⟩
    exact ⟨(h g hnew hn).mp hmem, hnew, hn, ha⟩
  · rintro ⟨hmem, hnew, hn, ha⟩
    exact ⟨(h g hnew hn).mpr hmem, hnew, hn, ha⟩

/-- What is granted once `r` has been merged in. -/
def mergedWith (r : Grant) (before : Option Access) : Option Access :=
  Option.merge stronger (some r.access) before

/-- **A round for another address's grant**: that grant is gone from its address, the new address is
granted its node with the stronger access, and nothing else changes. -/
theorem reassignOne_spec (hr : r ∈ db.grants.rows) (hne : r.grantee ≠ new)
    (h : (reassignOne new r).Returns db u db') :
    (∀ g, g.grantee ≠ new → (g ∈ db'.grants.rows ↔ g ∈ db.grants.rows ∧ g.id ≠ r.id)) ∧
    ∀ n, granted db'.toStore new n =
      if n = r.nodeId then mergedWith r (granted db.toStore new n) else granted db.toStore new n := by
  obtain ⟨existing, hex, hrows⟩ | ⟨hnone, name, hrows⟩ := reassignOne_cases h
  · obtain ⟨hemem, henew, hnode⟩ := grantTo_eq_some_iff.mp hex
    constructor
    · intro g hg
      rw [hrows, and_comm]
      refine and_congr_left fun _ => ⟨?_, fun hmem => ⟨g, hmem, ?_⟩⟩
      · rintro ⟨g₀, hg₀, rfl⟩
        split_ifs at hg ⊢ with hid
        · rw [Table.eq_of_key hg₀ hemem hid] at hg
          exact absurd henew hg
        · exact hg₀
      · rw [if_neg]
        intro hid
        rw [Table.eq_of_key hmem hemem hid] at hg
        exact hg henew
    · intro n
      have hself : existing.id ≠ r.id := fun hid =>
        hne (Table.eq_of_key hemem hr hid ▸ henew)
      split_ifs with hn
      · have hbefore : granted db.toStore new n = some existing.access :=
          granted_eq_some_iff.mpr ⟨existing, hemem, henew, hnode.trans hn.symm, rfl⟩
        rw [hbefore]
        refine granted_eq_some_iff.mpr
          ⟨{ existing with access := stronger r.access existing.access }, ?_, henew,
            hnode.trans hn.symm, rfl⟩
        exact (hrows _).mpr ⟨hself, existing, hemem, by rw [if_pos rfl]⟩
      · refine granted_congr fun g hg hgn => ?_
        rw [hrows]
        constructor
        · rintro ⟨-, g₀, hg₀, rfl⟩
          split_ifs at hgn ⊢ with hid
          · rw [Table.eq_of_key hg₀ hemem hid] at hgn
            exact absurd (hgn.symm.trans hnode) hn
          · exact hg₀
        · intro hmem
          refine ⟨fun hid => hne (Table.eq_of_key hmem hr hid ▸ hg), g, hmem, ?_⟩
          rw [if_neg]
          intro hid
          rw [Table.eq_of_key hmem hemem hid] at hgn
          exact hn (hgn.symm.trans hnode)
  · constructor
    · intro g hg
      rw [hrows]
      constructor
      · rintro ⟨g₀, hg₀, rfl⟩
        split_ifs at hg ⊢ with hid
        · exact absurd rfl hg
        · exact ⟨hg₀, hid⟩
      · rintro ⟨hmem, hid⟩
        exact ⟨g, hmem, by rw [if_neg hid]⟩
    · intro n
      split_ifs with hn
      · have hbefore : granted db.toStore new n = none := by
          rw [hn, granted, hnone]
          rfl
        rw [hbefore]
        refine granted_eq_some_iff.mpr
          ⟨{ r with grantee := new, mountName := name }, ?_, rfl, hn.symm, rfl⟩
        exact (hrows _).mpr ⟨r, hr, by rw [if_pos rfl]⟩
      · refine granted_congr fun g hg hgn => ?_
        rw [hrows]
        constructor
        · rintro ⟨g₀, hg₀, rfl⟩
          split_ifs at hgn ⊢ with hid
          · rw [Table.eq_of_key hg₀ hr hid] at hgn
            exact absurd hgn.symm hn
          · exact hg₀
        · intro hmem
          refine ⟨g, hmem, ?_⟩
          rw [if_neg]
          intro hid
          exact hne (Table.eq_of_key hmem hr hid ▸ hg)

/-! ## The whole loop -/

/-- The grant of a node among those being moved. -/
def among (moving : List Grant) (n : Uuid) : Option Access :=
  (moving.find? fun g => g.nodeId = n).map Grant.access

theorem forEach_reassignOne_spec {moving : List Grant} (hmem : ∀ r ∈ moving, r ∈ db.grants.rows)
    (hne : ∀ r ∈ moving, r.grantee ≠ new) (hnodes : (moving.map Grant.nodeId).Nodup)
    (h : (forEach (reassignOne new) moving).Returns db u db') :
    (∀ g, g.grantee ≠ new →
      (g ∈ db'.grants.rows ↔ g ∈ db.grants.rows ∧ ∀ r ∈ moving, g.id ≠ r.id)) ∧
    ∀ n, granted db'.toStore new n =
      Option.merge stronger (among moving n) (granted db.toStore new n) := by
  induction moving generalizing db with
  | nil =>
    obtain rfl := forEach_nil_returns.mp h
    exact ⟨fun g _ => by simp, fun n => by cases hg : granted db.toStore new n <;> rfl⟩
  | cons r moving ih =>
    obtain ⟨m, hone, hrest⟩ := forEach_cons_returns.mp h
    obtain ⟨hothers, hgranted⟩ :=
      reassignOne_spec (hmem r List.mem_cons_self) (hne r List.mem_cons_self) hone
    have hnode : r.nodeId ∉ moving.map Grant.nodeId := (List.nodup_cons.mp hnodes).1
    have hid : ∀ r' ∈ moving, r'.id ≠ r.id := fun r' hr' hid => by
      rw [← Table.eq_of_key (hmem r' (List.mem_cons_of_mem _ hr')) (hmem r List.mem_cons_self) hid]
        at hnode
      exact hnode (List.mem_map_of_mem hr')
    obtain ⟨hothers', hgranted'⟩ := ih
      (fun r' hr' => (hothers r' (hne r' (List.mem_cons_of_mem _ hr'))).mpr
        ⟨hmem r' (List.mem_cons_of_mem _ hr'), hid r' hr'⟩)
      (fun r' hr' => hne r' (List.mem_cons_of_mem _ hr')) (List.nodup_cons.mp hnodes).2 hrest
    constructor
    · intro g hg
      rw [hothers' g hg, hothers g hg, List.forall_mem_cons, and_assoc]
    · intro n
      rw [hgranted', hgranted]
      by_cases hn : n = r.nodeId
      · have hnone : among moving n = none := by
          rw [among, Option.map_eq_none_iff, List.find?_eq_none]
          rintro g hg hgn
          rw [decide_eq_true_eq] at hgn
          exact hnode (hn ▸ hgn ▸ List.mem_map_of_mem hg)
        have hsome : among (r :: moving) n = some r.access := by
          rw [among, List.find?_cons_of_pos (by simpa using hn.symm)]
          rfl
        rw [if_pos hn, hnone, hsome]
        cases granted db.toStore new n <;> rfl
      · have hskip : among (r :: moving) n = among moving n := by
          rw [among, List.find?_cons_of_neg (by simpa using fun e => hn e.symm)]
          rfl
        rw [if_neg hn, hskip]

end Stashden.Api
