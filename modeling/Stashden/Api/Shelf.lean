import Stashden.Api.Listing
import Stashden.Api.Requests

/-!
# No node stands in front of the shelf (`departure.rs`, `routes/users.rs`, `sweeper.rs`)

Requests ask `refuse_reserved`. An account that goes hands its tree over in a folder whose name nobody
typed: it ends in a parenthesis, or in a number, or is too long to be the shelf's
(`freeFolderName_ne`). `Serviced` are the requests of all callers, those of administrators, and the
sweeper's tasks; `shelfFree_run` is that however they are interleaved, no root comes to hold a node
named like the shelf, and `Served.unreserved` that there is none in a service that began with empty
tables.
-/

namespace Stashden.Api

open Lib Stashden.Core Tx

variable {app : AppState} {tagText : Etag → Str} {s s' : Store} {db db' m : Db}
  {ownerId leavingId recipientId oldRoot folderId id k : Uuid} {root folder row : Node}
  {leaving recipient user : User} {receiver : Option Uuid} {name : NodeName} {wanted email new : Str}
  {quota : Int} {u : Unit} {r : Grant}

/-! ## The name of the folder -/

theorem fitted_of_le {who : Str}
    (hle : byteLen (who.map fun c => if c = '/' ∨ c = '\\' ∨ isControl c = true then '-' else c) ≤
      MAX_FOLDER_NAME_BYTES) :
    fitted who = who.map fun c => if c = '/' ∨ c = '\\' ∨ isControl c = true then '-' else c := by
  unfold fitted
  generalize who.map _ = cleaned at hle ⊢
  have hwhole : isCharBoundary cleaned (byteLen cleaned) = true := by
    unfold isCharBoundary
    rw [takeBytes_byteLen]
    rfl
  have hend : boundaryBelow cleaned (byteLen cleaned) = byteLen cleaned :=
    Nat.le_antisymm (boundaryBelow_le _ _) (le_boundaryBelow hwhole le_rfl)
  dsimp only
  rw [Nat.min_eq_left hle, hend, takeBytes_byteLen]
  rfl

/-- What is cut off leaves most of the limit. -/
theorem byteLen_fitted {who : Str}
    (hlong : MAX_FOLDER_NAME_BYTES <
      byteLen (who.map fun c => if c = '/' ∨ c = '\\' ∨ isControl c = true then '-' else c)) :
    MAX_FOLDER_NAME_BYTES < byteLen (fitted who) + 4 := by
  unfold fitted
  generalize who.map _ = cleaned at hlong ⊢
  dsimp only
  rw [Nat.min_eq_right hlong.le]
  obtain ⟨kept, hkept⟩ := takeBytes_boundaryBelow cleaned MAX_FOLDER_NAME_BYTES
  rw [hkept, Option.getD_some, (takeBytes_eq_some hkept).2]
  exact boundaryBelow_near hlong.le

theorem folderName_ne : folderName leaving ≠ sharedWithMe := by
  intro hname
  unfold folderName at hname
  generalize trim leaving.displayName ++ (' ' :: '(' :: leaving.email) = who at hname
  rcases Nat.lt_or_ge MAX_FOLDER_NAME_BYTES
    (byteLen ((who ++ [')']).map fun c =>
      if c = '/' ∨ c = '\\' ∨ isControl c = true then '-' else c)) with hlong | hle
  · have hlen := byteLen_fitted hlong
    rw [hname] at hlen
    revert hlen
    decide
  · rw [fitted_of_le hle, List.map_append] at hname
    have hlast := congrArg List.getLast? hname
    rw [List.map_singleton, List.getLast?_concat] at hlast
    revert hlast
    decide

theorem numbered_ne : wanted ++ ' ' :: Nat.toDigits 10 k ≠ sharedWithMe := by
  intro hname
  have hlast : 'e' ∈ Nat.toDigits 10 k := by
    have hend : (wanted ++ ' ' :: Nat.toDigits 10 k).getLast? = some 'e' := by
      rw [hname]
      rfl
    have hsome : (Nat.toDigits 10 k).getLast? ≠ none := by
      rw [Ne, List.getLast?_eq_none_iff]
      exact Nat.toDigits_ne_nil
    obtain ⟨last, hlast⟩ := Option.ne_none_iff_exists'.mp hsome
    rw [List.getLast?_append, List.getLast?_cons, hlast] at hend
    have hsame : last = 'e' := by simpa using hend
    exact hsame ▸ List.mem_of_getLast? hlast
  have hdigit := Nat.isDigit_of_mem_toDigits (by decide) (by decide) hlast
  revert hdigit
  decide

/-- **The name found is not the shelf's.** -/
theorem freeFolderName_ne {parentId : Uuid}
    (h : (freeFolderName parentId (folderName leaving)).Returns db name db') :
    name.str ≠ sharedWithMe := by
  unfold freeFolderName at h
  generalize 1 = attempt at h
  generalize MAX_ATTEMPTS = left at h
  induction left generalizing attempt with
  | zero => exact absurd h fail_returns
  | succ left ih =>
    rw [nextFolderName] at h
    obtain ⟨candidate, m, hparse, h⟩ := bind_returns.mp h
    obtain ⟨taken, m', hchild, h⟩ := bind_returns.mp h
    obtain rfl := parseName_returns hparse
    obtain ⟨rfl, rfl⟩ := child_returns.mp hchild
    split_ifs at h with htaken
    · exact ih _ h
    · obtain ⟨rfl, -⟩ := pure_returns.mp h
      rw [parseName_str hparse]
      split_ifs
      · exact folderName_ne
      · exact numbered_ne

/-! ## An account goes -/

/-- A tree below a folder of a root is below no root. -/
theorem ShelfFree.handedOver (h : ShelfFree s)
    (hnodes : HandedOver leavingId recipientId oldRoot folderId s.nodes s'.nodes)
    (hgrants : s'.grants = s.grants) (hfolder : Deep s.nodes folderId) : ShelfFree s' where
  named hrow hp hroot hnone := by
    obtain ⟨old, hold, rfl⟩ := hnodes.back hrow
    obtain ⟨top, htop, rfl⟩ := hnodes.back hroot
    simp only [Api.handedOver] at hp hnone
    split_ifs at hnone
    split_ifs at hp
    · obtain ⟨deep, hdeep, hparent⟩ := hfolder
      rw [← Option.some.inj hp, hdeep] at htop
      cases htop
      exact absurd hnone hparent
    · have hname := h.named hold hp htop hnone
      exact hname
  shared g hg row hrow := by
    obtain ⟨old, hold, rfl⟩ := hnodes.back hrow
    have hparent := h.shared g (hgrants ▸ hg) hold
    simp only [Api.handedOver]
    split_ifs
    · exact Option.some_ne_none _
    · exact hparent

theorem ShelfFree.handOverTree (h : ShelfFree db.toStore)
    (hx : (Api.handOverTree leaving recipient oldRoot quota).Returns db u db') :
    ShelfFree db'.toStore := by
  obtain ⟨root, m₁, hensure, hx⟩ := bind_returns.mp hx
  obtain ⟨name, m₂, hname, hx⟩ := bind_returns.mp hx
  obtain ⟨folder, m₃, hfolder, hx⟩ := bind_returns.mp hx
  obtain ⟨_, m₄, hnodes, hx⟩ := bind_returns.mp hx
  obtain ⟨_, m₅, howners, hx⟩ := bind_returns.mp hx
  obtain ⟨used, m₆, hread, hcharge⟩ := bind_returns.mp hx
  obtain ⟨hused, rfl⟩ := query_returns.mp hread
  have hnodes := execute_returns.mp hnodes
  have howners := execute_returns.mp howners
  have hne := freeFolderName_ne hname
  obtain ⟨rfl, hfree⟩ := freeFolderName_returns hname
  obtain ⟨hlive, -⟩ := ensureRoot_live hensure
  have hmade := (h.opens (opens_ensureRoot hensure)).createDirectories (liveNode_eq_some.mp hlive).1
    (fun first hfirst _ => by
      cases hfirst
      exact hne) hfolder
  obtain ⟨-, hins, _, _, hnode⟩ := newFolder_returns hfree hfolder
  have hsettled := settle_returns hnodes howners (by
    rw [hused, howners, hnodes]
    unfold Store.bytesUsed Table.value
    cases m₃.quotas.find leaving.id <;> rfl) hcharge
  refine hmade.handedOver hsettled.nodes (by rw [hsettled.rest]) ⟨folder, find_insert_self hins, ?_⟩
  rw [hnode]
  exact Option.some_ne_none _

theorem ShelfFree.removeAccount (h : ShelfFree db.toStore) (hs : Sane db.toStore)
    (hother : receiver ≠ some id) (hx : (Api.removeAccount id receiver quota).Returns db u db') :
    ShelfFree db'.toStore := by
  obtain ⟨leaving, purged, m₁, m₂, -, rfl, hempty, hhand, hend⟩ := removeAccount_returns hx
  have hs₁ := emptyTrash_sane hs hempty
  have hemptied := h.purges hs.forest (emptyTrash_purges hempty)
  have hgone : ∀ {m : Db}, WellFormed m.nodes → ShelfFree m.toStore →
      Left leaving.id m.toStore db'.toStore → ShelfFree db'.toStore := by
    intro m hw hfree hleft
    refine hfree.of_placed hleft.grants fun hrow => ?_
    rw [hleft.nodes] at hrow
    exact ⟨_, ((deleteUser_find hw).mp hrow).1, rfl, rfl⟩
  cases handOverTo_returns hhand with
  | nobody => exact hgone hs₁.forest hemptied (hend 0 hs₁.toLeaving).2
  | nothing => exact hgone hs₁.forest hemptied (hend 0 hs₁.toLeaving).2
  | tree hfind htop htree =>
    obtain ⟨htop, howner, hnone⟩ := oldRootOf_eq_some htop
    obtain ⟨root, folder, m, -, hs₂, hhanding, hsettled⟩ := handOverTree_returns hs₁ htop hnone
      howner (fun hsame => hother (by rw [hsame])) htree
    have hleaving := hsettled.toLeaving hhanding hs₂
    exact hgone hleaving.forest (hemptied.handOverTree htree) (hend _ hleaving).2

/-! ## Requests, and the sweeper -/

/-- Every node that is shared was shared. -/
def GrantedBefore (s s' : Store) : Prop :=
  ∀ g' ∈ s'.grants.rows, ∃ g ∈ s.grants.rows, g.nodeId = g'.nodeId

instance : IsPreorder Store GrantedBefore where
  refl _ g hg := ⟨g, hg, rfl⟩
  trans _ _ _ h h' g hg := by
    obtain ⟨g', hg', hnode'⟩ := h' g hg
    obtain ⟨g'', hg'', hnode⟩ := h g' hg'
    exact ⟨g'', hg'', hnode.trans hnode'⟩

theorem grantedBefore_reassignOne : Keeps GrantedBefore (reassignOne new r) := by
  intro db u db' h g hg
  obtain ⟨existing, -, hrows⟩ | ⟨-, mountName, hrows⟩ := reassignOne_cases h
  · obtain ⟨-, g₀, hg₀, rfl⟩ := (hrows g).mp hg
    exact ⟨g₀, hg₀, by split_ifs <;> rfl⟩
  · obtain ⟨g₀, hg₀, rfl⟩ := (hrows g).mp hg
    exact ⟨g₀, hg₀, by split_ifs <;> rfl⟩

theorem ShelfFree.setEmail (h : ShelfFree db.toStore)
    (hx : (Api.setEmail id email).Returns db user db') : ShelfFree db'.toStore := by
  obtain ⟨account, m, -, hgrants, hre⟩ := setEmail_cases hx
  have hbefore := keeps_forEach (fun _ => grantedBefore_reassignOne) _ (reassign_returns.mp hre)
  have hnodes := (aside_setEmail hx).nodes
  refine ⟨fun hrow hp htop => h.named (hnodes ▸ hrow) hp (hnodes ▸ htop), fun g hg row hrow => ?_⟩
  obtain ⟨g₀, hg₀, hnode⟩ := hbefore g hg
  exact h.shared g₀ (hgrants ▸ hg₀) (by rw [hnode, ← hnodes]; exact hrow)

theorem ShelfFree.of_untouched (h : ShelfFree s) (hsame : Untouched s s') : ShelfFree s' :=
  h.of_same hsame.grants hsame.nodes

theorem ShelfFree.administers (h : ShelfFree db.toStore) (hs : Sane db.toStore)
    (hx : Administers ownerId db db') : ShelfFree db'.toStore := by
  cases hx with
  | createUser hx => exact h.of_untouched (untouched_createUser hx)
  | setDisabled hx => exact h.of_untouched (untouched_setDisabled hx)
  | setRole hx => exact h.of_untouched (untouched_setRole hx)
  | setEmail hx => exact h.setEmail hx
  | setQuota hx => exact h.of_untouched (untouched_setQuota hx)
  | removeAccount _ _ hother hx => exact h.removeAccount hs hother hx

/-- A transaction of a request of any caller, of an administrator's, or of the sweeper's; or time going
on. -/
inductive Serviced (app : AppState) (tagText : Etag → Str) : Db → Db → Prop
  | request {db db' : Db} {caller : User} (hx : Serves app tagText caller db db') :
      Serviced app tagText db db'
  | administers {db db' : Db} {ownerId : Uuid} (hx : Administers ownerId db db') :
      Serviced app tagText db db'
  | tick {db db' : Db} {now : Nat} (hnow : db.now ≤ now)
      (hs : db'.toStore = { db.toStore with now := now }) : Serviced app tagText db db'
  | expire (db : Db) (retention : Nat) : Serviced app tagText db (expire retention db).2
  | purgeExpired {db db' : Db} (hx : purgeExpired.Returns db () db') : Serviced app tagText db db'
  | forgetOrphans {db db' : Db} (hx : forgetOrphans.Returns db () db') : Serviced app tagText db db'
  | sweepBlob {db db' : Db} {hash : BlobHash} {grace : Nat}
      (hx : (sweepBlob hash grace).Returns db () db') : Serviced app tagText db db'

theorem untouched_forgetOrphans : Keeps Untouched forgetOrphans :=
  keeps_bind keeps_query fun _ => keeps_bind (keeps_execute fun _ => ⟨rfl, rfl⟩) fun _ =>
    keeps_forEach (fun _ => keeps_execute fun _ => ⟨rfl, rfl⟩) _

/-- One of them keeps to the service, and the shelf's name free. -/
theorem Serviced.kept (hx : Serviced app tagText db db') (h : Reached db)
    (hfree : ShelfFree db.toStore) : Reached db' ∧ ShelfFree db'.toStore := by
  have hsame : Step db db' → Untouched db.toStore db'.toStore → Reached db' ∧ ShelfFree db'.toStore :=
    fun hstep huntouched => ⟨h.step hstep, hfree.of_untouched huntouched⟩
  cases hx with
  | request hx =>
    obtain ⟨hsteps, -, hkept⟩ := serves_goes h hx
    exact ⟨h.steps hsteps, hkept hfree⟩
  | administers hx => exact ⟨h.step hx.step, hfree.administers h.sane hx⟩
  | tick hnow hs => exact hsame (.tick hnow hs) (by rw [hs]; exact ⟨rfl, rfl⟩)
  | expire retention =>
    exact ⟨h.step (.expire db retention), hfree.purges h.sane.forest (expireAll_purges _ db)⟩
  | purgeExpired hx => exact hsame (.purgeExpired hx) (keeps_execute (fun _ => ⟨rfl, rfl⟩) hx)
  | forgetOrphans hx => exact hsame (.forgetOrphans hx) (untouched_forgetOrphans hx)
  | sweepBlob hx => exact hsame (.sweepBlob hx) (keeps_execute (fun _ => ⟨rfl, rfl⟩) hx)

/-- **However requests and sweeps are interleaved**, no root comes to hold a node named like the
shelf. -/
theorem shelfFree_run (h : Reached db) (hfree : ShelfFree db.toStore)
    (hrun : Relation.ReflTransGen (Serviced app tagText) db db') :
    Reached db' ∧ ShelfFree db'.toStore := by
  induction hrun with
  | refl => exact ⟨h, hfree⟩
  | tail _ hstep ih => exact hstep.kept ih.1 ih.2

theorem shelfFree_noRows (now : Nat) : ShelfFree (noRows now).toStore where
  named hrow := by cases hrow
  shared _ hg := absurd hg List.not_mem_nil

/-- What the service comes to from empty tables. -/
def Served (app : AppState) (tagText : Etag → Str) (db : Db) : Prop :=
  ∃ now, Relation.ReflTransGen (Serviced app tagText) (noRows now) db

/-- **In a service that began empty, the shelf is in front of nothing.** -/
theorem Served.unreserved (h : Served app tagText db) :
    Reached db ∧ ∀ {root}, db.rootOf ownerId = some root → Unreserved db.toStore root := by
  obtain ⟨now, hrun⟩ := h
  obtain ⟨hreached, hfree⟩ := shelfFree_run (.start now) (shelfFree_noRows now) hrun
  refine ⟨hreached, fun hroot => ?_⟩
  obtain ⟨hfind, -, hnone, -⟩ := mem_rootOf hroot
  exact hfree.unreserved hfind hnone

end Stashden.Api
