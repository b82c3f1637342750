import Stashden.Api.OneWay
import Stashden.Api.System

/-!
# What looking a path up does (`api/src/access.rs`)

`locate`, `directory_for_write` and `file_target` write one thing, the root of the caller that has
none yet: `Opens` is that. What they answer is live (`locate_live`, `directoryForWrite_live`).
-/

namespace Stashden.Api

open Lib Stashden.Core Tx

variable {s s' : Store} {db db' m : Db} {ownerId parentId id k : Uuid} {parent node root row : Node}
  {name : NodeName} {str : Str} {quota : Int} {caller : User} {segments : List NodeName}
  {place : Place}

/-- At most the root of one account is new, and the row its usage is counted in. -/
structure Opens (ownerId : Uuid) (s s' : Store) : Prop where
  users : s'.users = s.users
  grants : s'.grants = s.grants
  locks : s'.locks = s.locks
  versions : s'.versions = s.versions
  blobs : s'.blobs = s.blobs
  thumbnails : s'.thumbnails = s.thumbnails
  now : s'.now = s.now
  bytesUsed : ∀ o, s'.bytesUsed o = s.bytesUsed o
  nodes : ∃ added, s'.nodes.rows = s.nodes.rows ++ added ∧ ∀ r ∈ added,
    r.parentId = none ∧ r.ownerId = ownerId ∧ r.trashed = none ∧ r.isDirectory = true

instance : IsPreorder Store (Opens ownerId) where
  refl _ := ⟨rfl, rfl, rfl, rfl, rfl, rfl, rfl, fun _ => rfl, [], (List.append_nil _).symm,
    fun _ h => absurd h List.not_mem_nil⟩
  trans _ _ _ h h' := by
    obtain ⟨added, hrows, hall⟩ := h.nodes
    obtain ⟨added', hrows', hall'⟩ := h'.nodes
    refine ⟨h'.users.trans h.users, h'.grants.trans h.grants, h'.locks.trans h.locks,
      h'.versions.trans h.versions, h'.blobs.trans h.blobs, h'.thumbnails.trans h.thumbnails,
      h'.now.trans h.now, fun o => (h'.bytesUsed o).trans (h.bytesUsed o), added ++ added', ?_,
      fun r hr => (List.mem_append.mp hr).elim (hall r) (hall' r)⟩
    rw [hrows', hrows, List.append_assoc]

namespace Opens

theorem find (h : Opens ownerId s s') (hrow : s.nodes.find k = some row) :
    s'.nodes.find k = some row := by
  obtain ⟨added, hrows, -⟩ := h.nodes
  obtain ⟨hmem, rfl⟩ := Table.find_eq_some_iff.mp hrow
  exact Table.mem_iff_find.mp (hrows ▸ List.mem_append_left _ hmem)

/-- What is new is a root. -/
theorem find_back (h : Opens ownerId s s') (hrow : s'.nodes.find k = some row) :
    s.nodes.find k = some row ∨ s.nodes.find k = none ∧ row.parentId = none ∧
      row.ownerId = ownerId ∧ row.trashed = none := by
  obtain ⟨added, hrows, hall⟩ := h.nodes
  obtain ⟨hmem, rfl⟩ := Table.find_eq_some_iff.mp hrow
  rw [hrows] at hmem
  rcases List.mem_append.mp hmem with hmem | hmem
  · exact Or.inl (Table.mem_iff_find.mp hmem)
  · refine Or.inr ⟨?_, (hall _ hmem).1, (hall _ hmem).2.1, (hall _ hmem).2.2.1⟩
    have hnodup := s'.nodes.nodup
    rw [hrows, List.map_append] at hnodup
    exact Table.find_eq_none_iff.mpr fun r hr hid => (List.nodup_append.mp hnodup).2.2 _
      (List.mem_map_of_mem hr) _ (List.mem_map_of_mem hmem) hid

theorem child (h : Opens ownerId s s') : s'.child parentId str = s.child parentId str := by
  obtain ⟨added, hrows, hall⟩ := h.nodes
  unfold Store.child
  have hnone : added.find? (fun n => n.parentId = some parentId && n.name = str && n.live) = none :=
    List.find?_eq_none.mpr fun r hr => by rw [(hall r hr).1]; simp
  rw [hrows, List.find?_append, hnone, Option.or_none]

theorem childrenIn (h : Opens ownerId s s') : s'.childrenIn parentId = s.childrenIn parentId := by
  obtain ⟨added, hrows, hall⟩ := h.nodes
  unfold Store.childrenIn Table.select
  rw [hrows, List.filter_append, List.append_right_eq_self, List.filter_eq_nil_iff]
  intro r hr
  rw [(hall r hr).1]
  simp

theorem liveNode (h : Opens ownerId s s') (hnode : s.liveNode id = some node) :
    s'.liveNode id = some node := by
  rw [liveNode_eq_some] at hnode ⊢
  exact ⟨h.find hnode.1, hnode.2⟩

end Opens

/-! ## The functions -/

theorem opens_ensureRoot : Keeps (Opens ownerId) (ensureRoot ownerId quota) := by
  refine keeps_bind (keeps_execute fun s => ?_) fun _ => keeps_bind keeps_query fun root => ?_
  · refine ⟨rfl, rfl, rfl, rfl, rfl, rfl, rfl, fun o => ?_, [], (List.append_nil _).symm,
      fun _ h => absurd h List.not_mem_nil⟩
    unfold Store.bytesUsed
    exact value_insert_getD _ Quota.bytesUsed rfl o
  · have hfresh : Keeps (Opens ownerId) fresh := keeps_fresh fun _ => ⟨rfl, rfl, rfl, rfl, rfl, rfl,
      rfl, fun _ => rfl, [], (List.append_nil _).symm, fun _ h => absurd h List.not_mem_nil⟩
    cases root with
    | some root => exact keeps_pure
    | none =>
      refine keeps_bind (keeps_bind hfresh fun _ => keeps_pure) fun etag => ?_
      intro db root db' hx
      obtain ⟨hnode, nodes, hins, hs⟩ := insertNode_returns hx
      rw [hs]
      refine ⟨rfl, rfl, rfl, rfl, rfl, rfl, rfl, fun _ => rfl, [root],
        (Table.insert_eq_some hins).2, fun r hr => ?_⟩
      rw [List.mem_singleton.mp hr, hnode]
      exact ⟨rfl, rfl, rfl, rfl⟩

theorem directoryForWrite_eq : directoryForWrite caller segments false quota =
    topForWrite caller segments quota >>= fun top => resolve top.1 top.2 >>= fun directory =>
      if directory.isDirectory then pure directory else fail (.wrongKind "directory") := rfl

section Looking

variable {R : Store → Store → Prop} [IsPreorder Store R]

theorem keeps_resolve : Keeps R (resolve root segments) := by
  intro db node db' h
  obtain ⟨rfl, -⟩ := resolve_up h
  exact refl _

theorem keeps_mount {grantee : Str} : Keeps R (mount grantee name) := by
  intro db top db' h
  obtain ⟨rfl, -⟩ := mount_returns h
  exact refl _

theorem keeps_locate (hroot : Keeps R (ensureRoot caller.id quota)) :
    Keeps R (locate caller segments quota) := by
  unfold locate
  split
  · exact keeps_bind hroot fun _ => keeps_pure
  · split_ifs
    · split
      · exact keeps_pure
      · exact keeps_bind keeps_mount fun _ => keeps_bind keeps_resolve fun _ => keeps_pure
    · exact keeps_bind hroot fun _ => keeps_bind keeps_resolve fun _ => keeps_pure

theorem keeps_topForWrite (hroot : Keeps R (ensureRoot caller.id quota)) :
    Keeps R (topForWrite caller segments quota) := by
  unfold topForWrite
  split
  · exact keeps_bind hroot fun _ => keeps_pure
  · split_ifs
    · split
      · exact keeps_fail
      · exact keeps_bind keeps_mount fun _ => keeps_ite keeps_pure keeps_fail
    · exact keeps_bind hroot fun _ => keeps_pure

theorem keeps_directoryForWrite (hroot : Keeps R (ensureRoot caller.id quota)) :
    Keeps R (directoryForWrite caller segments false quota) := by
  rw [directoryForWrite_eq]
  exact keeps_bind (keeps_topForWrite hroot) fun _ => keeps_bind keeps_resolve fun _ =>
    keeps_ite keeps_pure keeps_fail

end Looking

/-- What holds between two transactions holds still. -/
def KeepsSane (s s' : Store) : Prop := Sane s → Sane s'

instance : IsPreorder Store KeepsSane where
  refl _ h := h
  trans _ _ _ h h' hs := h' (h hs)

theorem sane_ensureRoot : Keeps KeepsSane (ensureRoot ownerId quota) :=
  fun _ _ _ h hs => ensureRoot_sane hs h

/-! ## What they answer -/

theorem ensureRoot_live (h : (ensureRoot ownerId quota).Returns db root db') :
    db'.liveNode root.id = some root ∧ root.ownerId = ownerId ∧ root.parentId = none := by
  obtain ⟨-, howner, hparent, hlive, ⟨hroot, hnodes⟩ | ⟨-, hins, -, -⟩⟩ := ensureRoot_returns h
  · refine ⟨liveNode_eq_some.mpr ⟨?_, hlive⟩, howner, hparent⟩
    rw [hnodes]
    exact Table.mem_iff_find.mp (List.mem_of_find?_eq_some hroot)
  · exact ⟨liveNode_eq_some.mpr ⟨find_insert_self hins, hlive⟩, howner, hparent⟩

/-- What `resolve` goes down to is live, and below what it starts from it is a child. -/
theorem resolve_live (hroot : db.liveNode root.id = some root)
    (h : (resolve root segments).Returns db node db') :
    db = db' ∧ db.liveNode node.id = some node ∧ (segments ≠ [] → node.parentId ≠ none) := by
  induction segments generalizing root with
  | nil =>
    obtain ⟨rfl, rfl⟩ := pure_returns.mp h
    exact ⟨rfl, hroot, fun hne => absurd rfl hne⟩
  | cons segment segments ih =>
    unfold resolve at h
    obtain ⟨found, m, hfound, h⟩ := bind_returns.mp h
    obtain ⟨hchild, rfl⟩ := child_returns.mp hfound
    obtain ⟨next, m, hnext, h⟩ := bind_returns.mp h
    obtain ⟨hsome, rfl⟩ := orFail_returns.mp hnext
    obtain ⟨hmem, hp, -, hlive⟩ := child_eq_some (hchild.symm.trans hsome)
    obtain ⟨hsame, hnode, hbelow⟩ :=
      ih (liveNode_eq_some.mpr ⟨Table.mem_iff_find.mp hmem, hlive⟩) h
    refine ⟨hsame, hnode, fun _ => ?_⟩
    cases segments with
    | nil =>
      obtain ⟨rfl, -⟩ := pure_returns.mp h
      rw [hp]
      exact Option.some_ne_none _
    | cons _ _ => exact hbelow (List.cons_ne_nil _ _)

/-- The node of a place. -/
def Place.reached : Place → Option Node
  | own node => some node
  | sharedWithMe => none
  | shared node _ _ => some node

/-- **What `locate` finds** is live, and below the root it was there. -/
theorem locate_live (h : (locate caller segments quota).Returns db place db')
    (hnode : place.reached = some node) : db'.liveNode node.id = some node ∧
      (segments ≠ [] → db.liveNode node.id = some node) := by
  unfold locate at h
  split at h
  · obtain ⟨root, m, hroot, h⟩ := bind_returns.mp h
    obtain ⟨rfl, rfl⟩ := pure_returns.mp h
    cases hnode
    exact ⟨(ensureRoot_live hroot).1, fun hne => absurd rfl hne⟩
  · split_ifs at h
    · split at h
      · obtain ⟨rfl, -⟩ := pure_returns.mp h
        cases hnode
      · obtain ⟨top, m, htop, h⟩ := bind_returns.mp h
        obtain ⟨rfl, g, -, -, -, -, hfind, hlive⟩ := mount_returns htop
        obtain ⟨found, m, hfound, h⟩ := bind_returns.mp h
        obtain ⟨rfl, rfl⟩ := pure_returns.mp h
        cases hnode
        have hmounted : db.liveNode top.2.id = some top.2 :=
          liveNode_eq_some.mpr ⟨by rw [Table.find_key hfind]; exact hfind, hlive⟩
        obtain ⟨rfl, hfound', -⟩ := resolve_live hmounted hfound
        exact ⟨hfound', fun _ => hfound'⟩
    · obtain ⟨root, m, hroot, h⟩ := bind_returns.mp h
      obtain ⟨found, m', hfound, h⟩ := bind_returns.mp h
      obtain ⟨rfl, rfl⟩ := pure_returns.mp h
      cases hnode
      obtain ⟨rfl, hlive, hchild⟩ := resolve_live (ensureRoot_live hroot).1 hfound
      refine ⟨hlive, fun _ => ?_⟩
      obtain ⟨hfind, hl⟩ := liveNode_eq_some.mp hlive
      refine liveNode_eq_some.mpr ⟨?_, hl⟩
      exact ((opens_ensureRoot hroot).find_back hfind).resolve_right fun hnew =>
        hchild (List.cons_ne_nil _ _) hnew.2.1

/-- **Where `directory_for_write` leads** is a live folder. -/
theorem directoryForWrite_live
    (h : (directoryForWrite caller segments false quota).Returns db parent db') :
    db'.liveNode parent.id = some parent ∧ parent.isDirectory = true := by
  rw [directoryForWrite_eq] at h
  obtain ⟨top, m, htop, h⟩ := bind_returns.mp h
  obtain ⟨directory, m', hdirectory, h⟩ := bind_returns.mp h
  split_ifs at h with hdir
  · obtain ⟨rfl, rfl⟩ := pure_returns.mp h
    refine ⟨?_, hdir⟩
    have hlive : m.liveNode top.1.id = some top.1 := by
      unfold topForWrite at htop
      split at htop
      · obtain ⟨root, m, hroot, htop⟩ := bind_returns.mp htop
        obtain ⟨rfl, rfl⟩ := pure_returns.mp htop
        exact (ensureRoot_live hroot).1
      · split_ifs at htop
        · split at htop
          · exact absurd htop fail_returns
          · obtain ⟨mounted, m, hmounted, htop⟩ := bind_returns.mp htop
            obtain ⟨rfl, g, -, -, -, -, hfind, hlive⟩ := mount_returns hmounted
            split_ifs at htop
            · obtain ⟨rfl, rfl⟩ := pure_returns.mp htop
              exact liveNode_eq_some.mpr ⟨by rw [Table.find_key hfind]; exact hfind, hlive⟩
            · exact absurd htop fail_returns
        · obtain ⟨root, m, hroot, htop⟩ := bind_returns.mp htop
          obtain ⟨rfl, rfl⟩ := pure_returns.mp htop
          exact (ensureRoot_live hroot).1
    obtain ⟨rfl, hparent, -⟩ := resolve_live hlive hdirectory
    exact hparent
  · exact absurd h fail_returns

end Stashden.Api
