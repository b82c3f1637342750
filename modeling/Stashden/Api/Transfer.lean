import Stashden.Api.Copying
import Stashden.Api.Located
import Stashden.Api.Room
import Stashden.Api.Undelete

/-!
# COPY and MOVE (`api/src/dav/transfer.rs`)

`Asked` is what a request is about, once its paths are looked up. `transfer_returns` takes a request
that succeeds apart: what stood at the destination goes to the trash (`Displaced`), and what is asked
for is copied or moved there. `transfer_exact` is the whole.
-/

namespace Stashden.Api

open Lib Stashden.Core Tx

variable {app : AppState} {caller : User} {moving overwrite : Bool}
  {fromPath toPath : List NodeName} {submitted : List Uuid} {db db' m m₁ : Db}
  {source parent node row occupant : Node} {name : NodeName} {id k : Uuid} {u : Unit}
  {t t' : Table Node Node.id}

/-! ## What a request is about -/

/-- The paths lead to a source, and to a folder and a name in it. -/
def Asked (app : AppState) (caller : User) (moving : Bool) (fromPath toPath : List NodeName)
    (db m : Db) (source parent : Node) (name : NodeName) : Prop :=
  ∃ found m₁ m₂, (locate caller fromPath app.defaultQuotaBytes).Returns db found m₁ ∧
    (Dav.sourceOf moving found).Returns m₁ source m₂ ∧
    (directoryForWrite caller toPath.dropLast false app.defaultQuotaBytes).Returns m₂ parent m ∧
    toPath.getLast? = some name

/-- The node a place stands for, perhaps under the name of its mount. -/
theorem sourceOf_returns {found : Place} (h : (Dav.sourceOf moving found).Returns db source db') :
    db = db' ∧ ∃ node, found.reached = some node ∧ source = { node with name := source.name } ∧
      (moving = true → source = node) := by
  unfold Dav.sourceOf at h
  split_ifs at h with hmoving hwritable
  · cases found with
    | own node =>
      obtain ⟨rfl, rfl⟩ := pure_returns.mp h
      exact ⟨rfl, _, rfl, rfl, fun _ => rfl⟩
    | sharedWithMe => exact absurd h fail_returns
    | shared node way atMount =>
      cases atMount with
      | true => exact absurd h fail_returns
      | false =>
        obtain ⟨rfl, rfl⟩ := pure_returns.mp h
        exact ⟨rfl, _, rfl, rfl, fun _ => rfl⟩
  · exact absurd h fail_returns
  · cases found with
    | own node =>
      obtain ⟨rfl, rfl⟩ := pure_returns.mp h
      exact ⟨rfl, _, rfl, rfl, fun _ => rfl⟩
    | sharedWithMe => exact absurd h fail_returns
    | shared node way atMount =>
      obtain ⟨rfl, rfl⟩ := pure_returns.mp h
      refine ⟨rfl, node, rfl, ?_, fun hm => absurd hm hmoving⟩
      split_ifs <;> rfl

/-- What the request names is there. -/
theorem Asked.found (h : Asked app caller moving fromPath toPath db m source parent name)
    (hfrom : fromPath ≠ []) (hs : Sane db.toStore) : Opens caller.id db.toStore m.toStore ∧
      Sane m.toStore ∧ (∃ row, db.liveNode source.id = some row ∧
        source = { row with name := source.name } ∧ (moving = true → source = row)) ∧
      m.liveNode parent.id = some parent ∧ parent.isDirectory = true := by
  obtain ⟨found, m₁, m₂, hlocate, hsource, hparent, -⟩ := h
  obtain ⟨rfl, node, hreached, hsame, hmoved⟩ := sourceOf_returns hsource
  have hopens : Opens caller.id db.toStore m₁.toStore := keeps_locate opens_ensureRoot hlocate
  have hopens' : Opens caller.id m₁.toStore m.toStore :=
    keeps_directoryForWrite opens_ensureRoot hparent
  have hid : source.id = node.id := by rw [hsame]
  refine ⟨IsTrans.trans _ _ _ hopens hopens', ?_, ⟨node, ?_, hsame, hmoved⟩,
    directoryForWrite_live hparent⟩
  · exact keeps_directoryForWrite (R := KeepsSane) sane_ensureRoot hparent
      (keeps_locate (R := KeepsSane) sane_ensureRoot hlocate hs)
  · rw [hid]
    exact (locate_live hlocate hreached).2 hfrom

theorem allows_returns {limit : Limit} (h : (allows limit node submitted).Returns db u db') :
    db = db' := by
  unfold allows covering at h
  obtain ⟨lock, m, hlock, h⟩ := bind_returns.mp h
  obtain ⟨rfl, rfl⟩ := query_returns.mp hlock
  split at h
  · exact (pure_returns.mp h).2
  · split_ifs at h
    · exact (pure_returns.mp h).2
    · exact absurd h fail_returns

theorem noneBelow_returns (h : (noneBelow node submitted).Returns db u db') : db = db' := by
  unfold noneBelow at h
  obtain ⟨held, m, hheld, h⟩ := bind_returns.mp h
  obtain ⟨rfl, rfl⟩ := query_returns.mp hheld
  split at h
  · exact (pure_returns.mp h).2
  · exact absurd h fail_returns

theorem mapNotFound_returns {α : Type} {e : ApiError} {x : Tx α} {a : α} :
    (mapNotFound e x).Returns db a db' ↔ x.Returns db a db' := by
  unfold Returns mapNotFound
  cases hx : x db with
  | ok answer => rfl
  | error e => cases e <;> simp

theorem refuseReserved_returns (h : (refuseReserved parent name).Returns db u db') : db = db' := by
  unfold refuseReserved at h
  split_ifs at h
  · exact absurd h fail_returns
  · exact (pure_returns.mp h).2

/-- Asking the locks whether the source may leave looks a path up. -/
theorem mayLeave_returns
    (h : (Dav.mayLeave app caller moving fromPath submitted source).Returns db u db') :
    Opens caller.id db.toStore db'.toStore ∧ (Sane db.toStore → Sane db'.toStore) := by
  unfold Dav.mayLeave at h
  split_ifs at h
  · obtain ⟨_, m₁, hallows, h⟩ := bind_returns.mp h
    obtain rfl := allows_returns hallows
    obtain ⟨_, m₂, hbelow, h⟩ := bind_returns.mp h
    obtain rfl := noneBelow_returns hbelow
    obtain ⟨above, m₃, habove, h⟩ := bind_returns.mp h
    obtain ⟨leaving, m₄, hleaving, h⟩ := bind_returns.mp h
    obtain rfl := allows_returns h
    have hsame : m₃ = m₄ := by
      cases above with
      | own node => exact (pure_returns.mp hleaving).2
      | sharedWithMe => exact absurd hleaving fail_returns
      | shared node way atMount => exact (pure_returns.mp hleaving).2
    subst hsame
    exact ⟨keeps_locate opens_ensureRoot habove,
      keeps_locate (R := KeepsSane) sane_ensureRoot habove⟩
  · obtain ⟨-, rfl⟩ := pure_returns.mp h
    exact ⟨refl _, fun hs => hs⟩

/-- What stood at the destination is sent to the trash, unless the source is in it. -/
theorem replace_returns {occupant : Option Node} (hsource : (db.nodes.find source.id).isSome = true)
    (hoccupant : ∀ o ∈ occupant, db.nodes.find o.id = some o)
    (h : (Dav.replace app submitted overwrite source occupant).Returns db u db') :
    (occupant = none ∧ db = db') ∨ ∃ o, occupant = some o ∧ overwrite = true ∧
      ¬ AtOrBelow db.nodes source.id o.id ∧ (send o).Returns db () db' := by
  cases occupant with
  | none => exact Or.inl ⟨rfl, (pure_returns.mp h).2⟩
  | some o =>
    refine Or.inr ⟨o, rfl, ?_⟩
    unfold Dav.replace at h
    obtain ⟨hover, h⟩ := of_guard h
    obtain ⟨inside, m, hinside, h⟩ := bind_returns.mp h
    obtain ⟨rfl, rfl⟩ := query_returns.mp hinside
    obtain ⟨hno, h⟩ := of_guard h
    obtain ⟨_, m₁, hallows, h⟩ := bind_returns.mp h
    obtain rfl := allows_returns hallows
    obtain ⟨_, m₂, hbelow, h⟩ := bind_returns.mp h
    obtain rfl := noneBelow_returns hbelow
    refine ⟨by simpa using hover, fun hup => ?_, h⟩
    obtain ⟨row, hrow⟩ := Option.isSome_iff_exists.mp hsource
    exact hno (List.any_eq_true.mpr ⟨o, (mem_ancestry_iff hrow).mpr
      ⟨Table.find_mem (hoccupant o rfl), hup⟩, decide_eq_true rfl⟩)

/-- **A request that succeeds**: the source is not in what is replaced, and is then copied or
moved. -/
theorem transfer_returns (hs : Sane db.toStore)
    (h : (Dav.transfer app caller moving fromPath toPath overwrite submitted).Returns db node db') :
    fromPath ≠ [] ∧ ∃ source parent name m, Asked app caller moving fromPath toPath db m source
        parent name ∧ (moving = true → parent.ownerId = source.ownerId) ∧
      ∃ m₁ m₂, Opens caller.id db.toStore m₁.toStore ∧ Sane m₁.toStore ∧
        m₁.liveNode parent.id = some parent ∧ parent.isDirectory = true ∧
        (Dav.replace app submitted overwrite source (db.child parent.id name.str)).Returns m₁ () m₂ ∧
        (if moving then rename source parent name
          else copyTree parent.ownerId source parent name).Returns m₂ node db' := by
  unfold Dav.transfer at h
  obtain ⟨_, m, hwriter, h⟩ := bind_returns.mp h
  have hsame : db = m := by
    unfold Dav.writer at hwriter
    split_ifs at hwriter
    · exact (pure_returns.mp hwriter).2
    · exact absurd hwriter fail_returns
  subst hsame
  obtain ⟨hfrom, h⟩ := of_guard h
  obtain ⟨name, m, hlast, h⟩ := bind_returns.mp h
  obtain ⟨hname, rfl⟩ := orFail_returns.mp hlast
  obtain ⟨found, m₁, hlocate, h⟩ := bind_returns.mp h
  obtain ⟨source, m₂, hsource, h⟩ := bind_returns.mp h
  obtain ⟨parent, m₃, hparent, h⟩ := bind_returns.mp h
  have hparent := mapNotFound_returns.mp hparent
  obtain ⟨_, m₄, hreserved, h⟩ := bind_returns.mp h
  obtain rfl := refuseReserved_returns hreserved
  obtain ⟨howner, h⟩ := of_guard h
  obtain ⟨_, m₄, hleave, h⟩ := bind_returns.mp h
  obtain ⟨_, m₅, hallows, h⟩ := bind_returns.mp h
  obtain rfl := allows_returns hallows
  obtain ⟨occupant, m₅, hoccupant, h⟩ := bind_returns.mp h
  obtain ⟨rfl, rfl⟩ := child_returns.mp hoccupant
  obtain ⟨_, m₅, hreplace, h⟩ := bind_returns.mp h
  have hasked : Asked app caller moving fromPath toPath db m₃ source parent name :=
    ⟨found, m₁, m₂, hlocate, hsource, hparent, hname⟩
  obtain ⟨hopens, hsane, -, hlive, hdir⟩ := hasked.found hfrom hs
  obtain ⟨hopens', hsane'⟩ := mayLeave_returns hleave
  have hall := IsTrans.trans _ _ _ hopens hopens'
  rw [hall.child] at hreplace
  refine ⟨hfrom, source, parent, name, m₃, hasked, fun hm => ?_, m₄, m₅, hall, hsane' hsane,
    hopens'.liveNode hlive, hdir, hreplace, h⟩
  by_contra hne
  exact howner ⟨hm, hne⟩

/-! ## What stood at the destination -/

/-- **What is live below a node** is so still where the rows on the way are. -/
theorem liveBelow_of_kept
    (hto : ∀ k row, k ≠ id → t.find k = some row → LiveBelow t k id → t'.find k = some row)
    (h : LiveBelow t k id) : LiveBelow t' k id := by
  induction h using Relation.ReflTransGen.head_induction_on with
  | refl => exact .refl
  | @head n p hstep hup ih =>
    by_cases hn : n = id
    · rw [hn]
      exact .refl
    · obtain ⟨⟨r, hr, hlive⟩, hparent⟩ := hstep
      have hr' := hto _ r hn hr (hup.head ⟨⟨r, hr, hlive⟩, hparent⟩)
      refine ih.head ⟨⟨r, hr', hlive⟩, ?_⟩
      rw [parentOf_of_find hr', ← parentOf_of_find hr, hparent]

theorem liveBelow_congr
    (hto : ∀ k row, t.find k = some row → LiveBelow t k id → t'.find k = some row)
    (hback : ∀ k row, t'.find k = some row → LiveBelow t' k id → t.find k = some row) :
    t'.find k = some row ∧ LiveBelow t' k id ↔ t.find k = some row ∧ LiveBelow t k id :=
  ⟨fun ⟨hrow, hbelow⟩ => ⟨hback k row hrow hbelow, liveBelow_of_kept (fun k r _ => hback k r) hbelow⟩,
    fun ⟨hrow, hbelow⟩ => ⟨hto k row hrow hbelow, liveBelow_of_kept (fun k r _ => hto k r) hbelow⟩⟩

/-- A root is below nothing but itself. -/
theorem Opens.liveBelow (h : Opens caller.id db.toStore m.toStore)
    (hid : (db.nodes.find id).isSome = true) :
    m.nodes.find k = some row ∧ LiveBelow m.nodes k id ↔
      db.nodes.find k = some row ∧ LiveBelow db.nodes k id := by
  refine liveBelow_congr (fun k row hrow _ => h.find hrow) fun k row hrow hbelow => ?_
  refine (h.find_back hrow).resolve_right fun ⟨hnone, hparent, _⟩ => ?_
  have hsame := hbelow.atOrBelow.eq_of_none ((parentOf_of_find hrow).trans hparent)
  rw [← hsame, hnone] at hid
  cases hid

theorem Opens.parentOf (h : Opens caller.id db.toStore m.toStore) {a b : Uuid} :
    parentOf m.nodes a = some b ↔ parentOf db.nodes a = some b := by
  constructor
  · intro hab
    obtain ⟨r, hr, hp⟩ := find_of_parentOf hab
    rcases h.find_back hr with hold | ⟨-, hnone, -⟩
    · rw [parentOf_of_find hold, hp]
    · rw [hnone] at hp
      cases hp
  · intro hab
    obtain ⟨r, hr, hp⟩ := find_of_parentOf hab
    rw [parentOf_of_find (h.find hr), hp]

/-- What a node takes to the trash is not another thing for a new root. -/
theorem Opens.freedBySend (h : Opens caller.id db.toStore m.toStore)
    (hnode : db.liveNode node.id = some node) :
    freedBySend m.toStore node.id = freedBySend db.toStore node.id := by
  obtain ⟨hfind, hlive⟩ := liveNode_eq_some.mp hnode
  have hperm : (m.marked node.id).Perm (db.marked node.id) := by
    refine (List.perm_ext_iff_of_nodup (List.Nodup.of_map _ (marked_nodup _))
      (List.Nodup.of_map _ (marked_nodup _))).mpr fun r => ?_
    rw [mem_marked (h.find hfind) hlive, mem_marked hfind hlive]
    exact h.liveBelow (by rw [hfind]; rfl)
  have hunder : m.versionsUnder ((m.marked node.id).map Node.id) =
      db.versionsUnder ((db.marked node.id).map Node.id) := by
    unfold Store.versionsUnder
    rw [h.versions]
    refine congrArg (fun l => (List.map Version.size l).sum) (List.filter_congr fun v _ => ?_)
    rw [decide_eq_decide]
    exact (hperm.map Node.id).mem_iff
  unfold Api.freedBySend
  rw [hunder, (hperm.map Node.size).sum_eq]

/-- What was put in the trash under `o` comes back as it was, whenever its place is free and its
owner has room. -/
def Restorable (o : Node) (db db' : Db) : Prop :=
  ∀ d p, Reached d → (∀ row, row ∈ d.batch o.id ↔ row ∈ db'.batch o.id) → o.parentId = some p →
    LiveAt d.nodes p → d.child p o.name = none →
    (∀ q, d.quotas.find o.ownerId = some q → q.bytesUsed + d.batchBytes o.id ≤ q.bytesMax) →
    ∃ back d', (restore o.ownerId o.id).Returns d back d' ∧
      ∀ k row, db.nodes.find k = some row → LiveBelow db.nodes k o.id → d'.nodes.find k = some row

/-- What stood at the destination is one batch of the trash, and can be restored. -/
structure Displaced (occupant : Option Node) (db db' : Db) : Prop where
  gone : ∀ o ∈ occupant, ∀ k row, db.nodes.find k = some row → LiveBelow db.nodes k o.id →
    db'.nodes.find k = some { row with trashed := some ⟨db.now, o.id⟩ }
  batch : ∀ o ∈ occupant, ∀ row ∈ db'.batch o.id, LiveBelow db.nodes row.id o.id
  listed : ∀ o ∈ occupant, { o with trashed := some ⟨db.now, o.id⟩ } ∈ db'.trashOf o.ownerId
  restorable : ∀ o ∈ occupant, Restorable o db db'

theorem restorable_of_batch {o : Node} (ho : db.liveNode o.id = some o)
    (hgone : ∀ k row, db.nodes.find k = some row → LiveBelow db.nodes k o.id →
      db'.nodes.find k = some { row with trashed := some ⟨db.now, o.id⟩ })
    (hbatch : ∀ row ∈ db'.batch o.id, LiveBelow db.nodes row.id o.id)
    (hback : ∀ row ∈ db'.batch o.id, (db.nodes.find row.id).isSome = true) :
    Restorable o db db' := by
  obtain ⟨hfind, hlive⟩ := liveNode_eq_some.mp ho
  intro d p hreached hsame hparent hplive hfree hroom
  have hs := hreached.sane
  -- a row of the batch, as it was when it was live
  have hwas : ∀ row ∈ d.batch o.id, ∃ old, db.nodes.find row.id = some old ∧
      LiveBelow db.nodes row.id o.id ∧ row = { old with trashed := some ⟨db.now, o.id⟩ } := by
    intro row hrow
    have hrow' := (hsame row).mp hrow
    obtain ⟨old, hold⟩ := Option.isSome_iff_exists.mp (hback row hrow')
    refine ⟨old, hold, hbatch row hrow', ?_⟩
    have hnow := hgone _ old hold (hbatch row hrow')
    rw [(mem_batch.mp hrow').1] at hnow
    exact Option.some.inj hnow
  have hin : ∀ k row, db.nodes.find k = some row → LiveBelow db.nodes k o.id →
      d.nodes.find k = some { row with trashed := some ⟨db.now, o.id⟩ } := by
    intro k row hrow hbelow
    obtain rfl := Table.find_key hrow
    have hmem : { row with trashed := some ⟨db.now, o.id⟩ } ∈ d.batch o.id :=
      (hsame _).mpr (mem_batch.mpr ⟨hgone _ row hrow hbelow, rfl⟩)
    exact (mem_batch.mp hmem).1
  have hlives : ∀ k row, db.nodes.find k = some row → LiveBelow db.nodes k o.id →
      row.live = true := by
    intro k row hrow hbelow
    obtain ⟨r, hr, hl⟩ := WellFormed.live_of_liveBelow ⟨o, hfind, hlive⟩ hbelow
    rw [hrow] at hr
    cases hr
    exact hl
  have hroot := hin o.id o hfind .refl
  obtain ⟨back, d', hx⟩ := restore_succeeds hs hroot rfl rfl hparent hplive hfree
    (fun a ha b hb hp hname => by
      obtain ⟨a₀, ha₀, habelow, rfl⟩ := hwas a ha
      obtain ⟨b₀, hb₀, hbbelow, rfl⟩ := hwas b hb
      refine db.sound .nodesUniqueNamePerParent a₀ (Table.find_mem ha₀) b₀ (Table.find_mem hb₀)
        (hlives _ _ ha₀ habelow) (hlives _ _ hb₀ hbbelow) ?_ hp hname
      refine Option.isSome_iff_ne_none.mpr fun hnone => ?_
      have htop := habelow.atOrBelow.eq_of_none ((parentOf_of_find ha₀).trans hnone)
      rw [show ({ a₀ with trashed := some ⟨db.now, o.id⟩ } : Node).id = a₀.id from rfl] at htop ha₀
      rw [htop, hfind] at ha₀
      cases ha₀
      rw [hparent] at hnone
      cases hnone) hroom
  refine ⟨back, d', hx, fun k row hrow hbelow => ?_⟩
  have hgiven := restore_gives_back hs hx
  have hrow' := hin k row hrow hbelow
  have hsame' := hgiven.nodes k
  rw [hrow', Option.map_some, Option.map_eq_some_iff] at hsame'
  obtain ⟨now, hnow, huntrashed⟩ := hsame'
  have hnowlive := (hgiven.live k _ now hrow' hnow).mpr (Or.inr (Or.inl rfl))
  rw [hnow]
  have hrowlive := hlives k row hrow hbelow
  rw [WellFormed.live_iff] at hnowlive hrowlive
  cases now
  cases row
  cases hnowlive
  cases hrowlive
  simpa [Node.untrashed] using huntrashed

/-- What stood there, once it is out of the way. -/
structure Vacated (callerId : Uuid) (parent : Node) (occupant : Option Node) (db m : Db) :
    Prop where
  sane : Sane m.toStore
  folder : m.liveNode parent.id = some parent
  kept : ∀ k row, db.nodes.find k = some row → (∀ o ∈ occupant, ¬ LiveBelow db.nodes k o.id) →
    m.nodes.find k = some row
  gone : ∀ o ∈ occupant, ∀ k row, db.nodes.find k = some row → LiveBelow db.nodes k o.id →
    m.nodes.find k = some { row with trashed := some ⟨db.now, o.id⟩ }
  back : ∀ k row, m.nodes.find k = some row → (db.nodes.find k).isSome = true ∨
    row.parentId = none ∧ row.ownerId = callerId ∧ row.trashed = none
  batch : ∀ o ∈ occupant, ∀ row ∈ m.batch o.id, LiveBelow db.nodes row.id o.id
  bytesUsed : ∀ u, m.bytesUsed u = db.bytesUsed u +
    bytes parent.ownerId (-occupant.elim 0 fun o => freedBySend db.toStore o.id) u

/-- The occupant of a name. -/
theorem child_live {o : Node} (hs : Sane db.toStore) (ho : db.child parent.id name.str = some o)
    (hparent : ∀ row, db.nodes.find parent.id = some row → row = parent) :
    db.liveNode o.id = some o ∧ o.parentId = some parent.id ∧ o.ownerId = parent.ownerId := by
  obtain ⟨hmem, hp, -, hlive⟩ := child_eq_some ho
  have hfind := Table.mem_iff_find.mp hmem
  obtain ⟨above, habove, -, howner, -⟩ := hs.forest.parent hfind hp
  rw [hparent above habove] at howner
  exact ⟨liveNode_eq_some.mpr ⟨hfind, hlive⟩, hp, howner.symm⟩

theorem replace_vacates (hs : Sane db.toStore) (hopens : Opens caller.id db.toStore m.toStore)
    (hsane : Sane m.toStore) (hparent : m.liveNode parent.id = some parent)
    (hsource : db.liveNode source.id = some row)
    (h : (Dav.replace app submitted overwrite source (db.child parent.id name.str)).Returns m u m₁) :
    Vacated caller.id parent (db.child parent.id name.str) db m₁ ∧
      ∀ o ∈ db.child parent.id name.str, ¬ AtOrBelow db.nodes source.id o.id := by
  have hplace : ∀ row, db.nodes.find parent.id = some row → row = parent := fun row hrow => by
    have hfound := (liveNode_eq_some.mp hparent).1
    rw [hopens.find hrow] at hfound
    exact Option.some.inj hfound
  have hfound := hopens.find (liveNode_eq_some.mp hsource).1
  have hthere : ∀ o ∈ db.child parent.id name.str, m.nodes.find o.id = some o := fun o ho =>
    hopens.find (liveNode_eq_some.mp (child_live hs ho hplace).1).1
  rcases replace_returns (by rw [hfound]; rfl) hthere h with ⟨hnone, rfl⟩ | ⟨o, ho, -, hapart, hsend⟩
  · rw [hnone]
    refine ⟨⟨hsane, hparent, fun k row hrow _ => hopens.find hrow, (fun _ ho => nomatch ho),
      fun k row hrow => ?_, (fun _ ho => nomatch ho), fun u => ?_⟩, fun _ ho => nomatch ho⟩
    · exact (hopens.find_back hrow).imp (fun hold => by rw [hold]; rfl) And.right
    · rw [hopens.bytesUsed, Option.elim_none, neg_zero, bytes_zero, add_zero]
  · rw [ho]
    obtain ⟨holive, hop, howner⟩ := child_live hs ho hplace
    obtain ⟨hofind, hol⟩ := liveNode_eq_some.mp holive
    have homfind := hopens.find hofind
    have hsent := send_sent hsend
    have hbelow : ∀ {k row}, m.nodes.find k = some row ∧ LiveBelow m.nodes k o.id ↔
        db.nodes.find k = some row ∧ LiveBelow db.nodes k o.id :=
      hopens.liveBelow (by rw [hofind]; rfl)
    have hmarked : ∀ {k row}, m.nodes.find k = some row →
        (k ∈ (m.marked o.id).map Node.id ↔ LiveBelow m.nodes k o.id) := by
      intro k row hrow
      constructor
      · intro hk
        obtain ⟨r, hr, rfl⟩ := List.mem_map.mp hk
        exact ((mem_marked homfind hol).mp hr).2
      · intro hk
        exact List.mem_map.mpr ⟨row, (mem_marked homfind hol).mpr
          ⟨by rw [Table.find_key hrow]; exact hrow, by rwa [Table.find_key hrow]⟩,
          Table.find_key hrow⟩
    have hfind : ∀ k, m₁.nodes.find k = (m.nodes.find k).map fun r =>
        if r.id ∈ (m.marked o.id).map Node.id then { r with trashed := some ⟨m.now, o.id⟩ } else r := by
      intro k
      rw [hsent.nodes, Table.find_update]
      simp only [decide_eq_true_eq]
    have hto : ∀ k row, m.nodes.find k = some row → LiveBelow m.nodes k o.id →
        m₁.nodes.find k = some { row with trashed := some ⟨db.now, o.id⟩ } := by
      intro k row hrow hk
      rw [hfind, hrow, Option.map_some, Table.find_key hrow, if_pos ((hmarked hrow).mpr hk),
        hopens.now]
    have hnot : ∀ k row, m.nodes.find k = some row → ¬ LiveBelow m.nodes k o.id →
        m₁.nodes.find k = some row := by
      intro k row hrow hk
      rw [hfind, hrow, Option.map_some, Table.find_key hrow, if_neg fun h => hk ((hmarked hrow).mp h)]
    refine ⟨⟨send_sane hsane homfind hol (by rw [hop]; exact Option.some_ne_none _) hsend, ?_,
      fun k row hrow hk => ?_, fun o' ho' k row hrow hk => ?_, fun k row hrow => ?_,
      fun o' ho' row hrow => ?_, fun u => ?_⟩, fun o' ho' hup => ?_⟩
    · obtain ⟨hpfind, hpl⟩ := liveNode_eq_some.mp hparent
      refine liveNode_eq_some.mpr ⟨hnot _ _ hpfind fun hk => ?_, hpl⟩
      exact (hsane.forest.grounded o.id).not_up_parent ((parentOf_of_find homfind).trans hop)
        hk.atOrBelow
    · exact hnot k row (hopens.find hrow) fun hm =>
        hk o rfl (hbelow.mp ⟨hopens.find hrow, hm⟩).2
    · cases ho'
      obtain ⟨hm, hmk⟩ := hbelow.mpr ⟨hrow, hk⟩
      exact hto k row hm hmk
    · obtain ⟨old, hold, -⟩ := hsent.retrashed.symm.find hrow
      rcases hopens.find_back hold with hwas | ⟨hnone, hroot⟩
      · exact Or.inl (by rw [hwas]; rfl)
      · have hsame := hnot k old hold fun hm => by
          rw [(hbelow.mp ⟨hold, hm⟩).1] at hnone
          cases hnone
        rw [hrow] at hsame
        cases hsame
        exact Or.inr hroot
    · cases ho'
      obtain ⟨hrow₁, hb⟩ := mem_batch.mp hrow
      obtain ⟨old, hold, -⟩ := hsent.retrashed.symm.find hrow₁
      by_cases hm : LiveBelow m.nodes row.id o.id
      · exact (hbelow.mp ⟨hold, hm⟩).2
      · have hsame := hnot _ old hold hm
        rw [hrow₁] at hsame
        cases hsame
        exact absurd hb (hsane.forest.no_batch homfind hol hold)
    · obtain ⟨q, hq⟩ := Option.isSome_iff_exists.mp (hsane.backed.quota homfind)
      rw [Option.elim_some, ← hopens.freedBySend holive, ← hopens.bytesUsed, ← howner]
      unfold Store.bytesUsed Table.value bytes
      rw [hsent.quotas]
      by_cases hu : u = o.ownerId
      · rw [hu, if_pos rfl, hq, Option.map_some, if_pos (Table.find_key hq), Option.elim_some,
          Option.elim_some]
        rfl
      · rw [if_neg hu, add_zero]
        cases hfound : m.quotas.find u with
        | none => rfl
        | some q => rw [Option.map_some, if_neg (by rwa [Table.find_key hfound])]
    · cases ho'
      exact hapart (hup.mono fun a b => hopens.parentOf.mpr)

/-- What comes after leaves the trash alone. -/
theorem Vacated.displaced {occupant : Option Node} (h : Vacated id parent occupant db m)
    (hlive : ∀ o ∈ occupant, db.liveNode o.id = some o)
    (hkept : ∀ k row, m.nodes.find k = some row → row.trashed ≠ none → db'.nodes.find k = some row)
    (hback : ∀ k row, db'.nodes.find k = some row → row.trashed ≠ none →
      m.nodes.find k = some row) : Displaced occupant db db' := by
  have hgone : ∀ o ∈ occupant, ∀ k row, db.nodes.find k = some row → LiveBelow db.nodes k o.id →
      db'.nodes.find k = some { row with trashed := some ⟨db.now, o.id⟩ } :=
    fun o ho k row hrow hk => hkept k _ (h.gone o ho k row hrow hk) (Option.some_ne_none _)
  have hbatch : ∀ o ∈ occupant, ∀ row ∈ db'.batch o.id, row ∈ m.batch o.id := fun o ho row hrow => by
    obtain ⟨hrow, hb⟩ := mem_batch.mp hrow
    exact mem_batch.mpr ⟨hback _ row hrow (trashed_of_trashRoot hb), hb⟩
  refine ⟨hgone, fun o ho row hrow => h.batch o ho row (hbatch o ho row hrow), fun o ho => ?_,
    fun o ho => restorable_of_batch (hlive o ho) (hgone o ho)
      (fun row hrow => h.batch o ho row (hbatch o ho row hrow)) fun row hrow => ?_⟩
  · exact mem_trashOf.mpr ⟨hgone o ho o.id o (liveNode_eq_some.mp (hlive o ho)).1 .refl, rfl, rfl⟩
  · obtain ⟨hfind, hb⟩ := mem_batch.mp (hbatch o ho row hrow)
    exact (h.back _ row hfind).resolve_right fun hroot => trashed_of_trashRoot hb hroot.2.2

/-- What is in what is the same, but for a new root. -/
theorem Vacated.parentOf {occupant : Option Node} (h : Vacated id parent occupant db m) {a b : Uuid}
    (hab : parentOf db.nodes a = some b) : parentOf m.nodes a = some b := by
  obtain ⟨r, hr, hp⟩ := find_of_parentOf hab
  by_cases hgone : ∃ o ∈ occupant, LiveBelow db.nodes a o.id
  · obtain ⟨o, ho, hbelow⟩ := hgone
    rw [parentOf_of_find (h.gone o ho a r hr hbelow)]
    exact hp
  · rw [parentOf_of_find (h.kept a r hr fun o ho hbelow => hgone ⟨o, ho, hbelow⟩), hp]

/-- The source is out of the way of what is replaced, and what it holds with it. -/
theorem Vacated.source_apart {occupant : Option Node}
    (h : Vacated caller.id parent occupant db m) (hsource : db.liveNode source.id = some row)
    (hoccupant : ∀ o ∈ occupant, db.liveNode o.id = some o ∧ o.parentId = some parent.id)
    (hapart : ∀ o ∈ occupant, ¬ AtOrBelow db.nodes source.id o.id)
    (hparent : ¬ AtOrBelow m.nodes parent.id source.id) :
    (∀ k r, db.nodes.find k = some r → AtOrBelow db.nodes k source.id →
      ∀ o ∈ occupant, ¬ LiveBelow db.nodes k o.id) ∧
    ∀ k r, m.nodes.find k = some r ∧ LiveBelow m.nodes k source.id ↔
      db.nodes.find k = some r ∧ LiveBelow db.nodes k source.id := by
  obtain ⟨hfind, hlive⟩ := liveNode_eq_some.mp hsource
  have hstays : ∀ k r, db.nodes.find k = some r → AtOrBelow db.nodes k source.id →
      ∀ o ∈ occupant, ¬ LiveBelow db.nodes k o.id := by
    intro k r hr hk o ho hbelow
    obtain ⟨holive, hop⟩ := hoccupant o ho
    rcases hk.total hbelow.atOrBelow with hso | hos
    · exact hapart o ho hso
    · obtain hsame | ⟨p, hp, hps⟩ := hos.cases_head
      · exact hapart o ho (hsame ▸ .refl)
      · rw [parentOf_of_find (liveNode_eq_some.mp holive).1, hop] at hp
        cases hp
        exact hparent (hps.mono fun a b => h.parentOf)
  refine ⟨hstays, fun k r => liveBelow_congr (fun k r hr hk => ?_) fun k r hr hk => ?_⟩
  · exact h.kept k r hr (hstays k r hr hk.atOrBelow)
  · have hold : (db.nodes.find k).isSome = true := by
      rcases h.back k r hr with hold | hroot
      · exact hold
      · rw [hk.atOrBelow.eq_of_none ((parentOf_of_find hr).trans hroot.1), hfind]
        rfl
    obtain ⟨old, hold⟩ := Option.isSome_iff_exists.mp hold
    by_cases hgone : ∃ o ∈ occupant, LiveBelow db.nodes k o.id
    · obtain ⟨o, ho, hbelow⟩ := hgone
      have hdead := h.gone o ho k old hold hbelow
      rcases hk.cases_head with hsame | ⟨p, ⟨⟨r', hr', hl⟩, -⟩, -⟩
      · exact absurd hbelow (hstays k old hold (hsame ▸ .refl) o ho)
      · rw [hdead] at hr'
        cases hr'
        cases hl
    · rw [h.kept k old hold fun o ho hbelow => hgone ⟨o, ho, hbelow⟩] at hr
      cases hr
      exact hold

/-! ## The two requests -/

/-- What of an occupant is taken off its owner's usage. -/
def freedBy (db : Db) (occupant : Option Node) : Int :=
  occupant.elim 0 fun o => freedBySend db.toStore o.id

/-- **A COPY.** -/
structure CopiedTo (callerId : Uuid) (source parent : Node) (name : NodeName)
    (occupant : Option Node) (copy : Node) (db db' : Db) (pairs : List (Node × Node)) : Prop where
  tree : CopiedTree db.nodes db'.nodes source.id copy.id pairs
  copy : CopyIn parent.ownerId parent.id name.str source copy
  owner : ∀ p ∈ pairs, p.2.ownerId = parent.ownerId ∧ p.2.trashed = none
  /-- The source is what it was. -/
  still : ∀ k row, db'.nodes.find k = some row ∧ LiveBelow db'.nodes k source.id ↔
    db.nodes.find k = some row ∧ LiveBelow db.nodes k source.id
  /-- And so is everything else but the occupant. -/
  kept : ∀ k row, db.nodes.find k = some row → (∀ o ∈ occupant, ¬ LiveBelow db.nodes k o.id) →
    db'.nodes.find k = some row
  /-- New are the copies, and perhaps the caller's root. -/
  fresh : ∀ k row, db'.nodes.find k = some row → db.nodes.find k = none →
    row ∈ pairs.map Prod.snd ∨ row.parentId = none ∧ row.ownerId = callerId ∧ row.trashed = none
  displaced : Displaced occupant db db'
  bytesUsed : ∀ u, db'.bytesUsed u = db.bytesUsed u +
    bytes parent.ownerId ((pairs.map fun p => p.1.size).sum - freedBy db occupant) u

/-- **A MOVE.** -/
structure MovedTo (callerId : Uuid) (source parent : Node) (name : NodeName)
    (occupant : Option Node) (moved : Node) (db db' : Db) : Prop where
  renamed : ∃ etag, moved = { source with parentId := some parent.id, name := name.str, etag }
  stands : db'.nodes.find source.id = some moved
  /-- The same nodes are below it. -/
  tree : ∀ k, LiveBelow db'.nodes k source.id ↔ LiveBelow db.nodes k source.id
  kept : ∀ k row, db.nodes.find k = some row → (∀ o ∈ occupant, ¬ LiveBelow db.nodes k o.id) →
    k ≠ source.id → db'.nodes.find k = some row
  fresh : ∀ k row, db'.nodes.find k = some row → db.nodes.find k = none →
    row.parentId = none ∧ row.ownerId = callerId ∧ row.trashed = none
  displaced : Displaced occupant db db'
  bytesUsed : ∀ u, db'.bytesUsed u = db.bytesUsed u + bytes parent.ownerId (-freedBy db occupant) u

theorem isSome_of_back {callerId : Uuid} {occupant : Option Node}
    (h : Vacated callerId parent occupant db m) (hrow : m.nodes.find k = some row)
    (hnone : db.nodes.find k = none) :
    row.parentId = none ∧ row.ownerId = callerId ∧ row.trashed = none := by
  refine (h.back k row hrow).resolve_left fun hsome => ?_
  rw [hnone] at hsome
  cases hsome

theorem copy_copies {copy : Node} (hs : Sane db.toStore)
    (h : (Dav.transfer app caller false fromPath toPath overwrite submitted).Returns db copy db') :
    ∃ source parent name m pairs, Asked app caller false fromPath toPath db m source parent name ∧
      CopiedTo caller.id source parent name (db.child parent.id name.str) copy db db' pairs ∧
      ¬ AtOrBelow m.nodes parent.id source.id ∧
      ∀ o ∈ db.child parent.id name.str, ¬ AtOrBelow db.nodes source.id o.id := by
  obtain ⟨hfrom, source, parent, name, m, hasked, -, m₁, m₂, hopens, hsane, hparent, hdir, hreplace,
    hcopy⟩ := transfer_returns hs h
  obtain ⟨hopens₀, -, ⟨row, hsource, hsame, -⟩, hparent₀, -⟩ := hasked.found hfrom hs
  have hcopy : (copyTree parent.ownerId source parent name).Returns m₂ copy db' := hcopy
  obtain ⟨hvacated, hapart⟩ := replace_vacates hs hopens hsane hparent hsource hreplace
  obtain ⟨hsfind, hslive⟩ := liveNode_eq_some.mp hsource
  obtain ⟨hpfind, hplive⟩ := liveNode_eq_some.mp hvacated.folder
  have hplace : ∀ row, db.nodes.find parent.id = some row → row = parent := fun row hrow => by
    have hfound := (liveNode_eq_some.mp hparent).1
    rw [hopens.find hrow] at hfound
    exact Option.some.inj hfound
  have hoccupant : ∀ o ∈ db.child parent.id name.str,
      db.liveNode o.id = some o ∧ o.parentId = some parent.id :=
    fun o ho => ⟨(child_live hs ho hplace).1, (child_live hs ho hplace).2.1⟩
  have hsfind₂ := hvacated.kept _ row hsfind fun o ho hbelow => hapart o ho hbelow.atOrBelow
  obtain ⟨hinto, -, pairs, hdup, hused⟩ :=
    copyTree_copies hvacated.sane hsfind₂ (by rw [hsame]) hpfind hplive hcopy
  obtain ⟨-, hbelow⟩ := hvacated.source_apart hsource hoccupant hapart hinto
  have hnew : ∀ {k r}, m₂.nodes.find k = some r → db'.nodes.find k = some r := by
    intro k r hr
    obtain ⟨hmem, rfl⟩ := Table.find_eq_some_iff.mp hr
    refine Table.mem_iff_find.mp ?_
    rw [hdup.rows]
    exact List.mem_append_left _ hmem
  have hback : ∀ {k r}, db'.nodes.find k = some r → m₂.nodes.find k = some r ∨
      r ∈ pairs.map Prod.snd := by
    intro k r hr
    obtain ⟨hmem, rfl⟩ := Table.find_eq_some_iff.mp hr
    rw [hdup.rows, List.mem_append] at hmem
    exact hmem.imp_left Table.mem_iff_find.mp
  refine ⟨source, parent, name, m, pairs, hasked, ⟨?_, hdup.copy, hdup.owner, fun k r => ?_,
    fun k r hr hk => hnew (hvacated.kept k r hr hk), fun k r hr hnone => ?_,
    hvacated.displaced (fun o ho => (hoccupant o ho).1) (fun k r hr _ => hnew hr)
      fun k r hr hdead => ?_, fun u => ?_⟩, ?_, hapart⟩
  · exact { hdup.tree with
      originals := fun r => (hdup.tree.originals r).trans (hbelow r.id r) }
  · exact (hdup.still k r).trans (hbelow k r)
  · rcases hback hr with hr | hcopied
    · exact Or.inr (isSome_of_back hvacated hr hnone)
    · exact Or.inl hcopied
  · refine (hback hr).resolve_right fun hcopied => ?_
    obtain ⟨p, hp, rfl⟩ := List.mem_map.mp hcopied
    exact hdead (hdup.owner p hp).2
  · rw [hused, hvacated.bytesUsed]
    unfold freedBy bytes
    split_ifs <;> omega
  · exact fun hup => hinto (hup.mono fun a b hab => hvacated.parentOf (hopens₀.parentOf.mp hab))

theorem sameQuotas_rename : Keeps SameQuotas (rename node parent name) := by
  refine keeps_ite keeps_fail (keeps_bind keeps_query fun _ => keeps_ite keeps_fail
    (keeps_bind keeps_query fun _ => keeps_ite keeps_fail (keeps_bind ?_ fun _ =>
      keeps_mapViolated (keeps_bind (keeps_execute fun _ => rfl) fun _ =>
        keeps_bind keeps_query fun _ => keeps_orFail))))
  exact keeps_bind (keeps_fresh fun _ => rfl) fun _ => keeps_pure

theorem move_moves {moved : Node} (hs : Sane db.toStore)
    (h : (Dav.transfer app caller true fromPath toPath overwrite submitted).Returns db moved db') :
    ∃ source parent name m, Asked app caller true fromPath toPath db m source parent name ∧
      MovedTo caller.id source parent name (db.child parent.id name.str) moved db db' ∧
      parent.ownerId = source.ownerId ∧ ¬ AtOrBelow m.nodes parent.id source.id ∧
      ∀ o ∈ db.child parent.id name.str, ¬ AtOrBelow db.nodes source.id o.id := by
  obtain ⟨hfrom, source, parent, name, m, hasked, howner, m₁, m₂, hopens, hsane, hparent, hdir,
    hreplace, hmove⟩ := transfer_returns hs h
  obtain ⟨hopens₀, -, ⟨row, hsource, -, hsame⟩, -, -⟩ := hasked.found hfrom hs
  obtain rfl := hsame rfl
  have hmove : (rename source parent name).Returns m₂ moved db' := hmove
  obtain ⟨hvacated, hapart⟩ := replace_vacates hs hopens hsane hparent hsource hreplace
  obtain ⟨hsfind, hslive⟩ := liveNode_eq_some.mp hsource
  obtain ⟨hpfind, -⟩ := liveNode_eq_some.mp hvacated.folder
  have hplace : ∀ row, db.nodes.find parent.id = some row → row = parent := fun row hrow => by
    have hfound := (liveNode_eq_some.mp hparent).1
    rw [hopens.find hrow] at hfound
    exact Option.some.inj hfound
  have hoccupant : ∀ o ∈ db.child parent.id name.str,
      db.liveNode o.id = some o ∧ o.parentId = some parent.id :=
    fun o ho => ⟨(child_live hs ho hplace).1, (child_live hs ho hplace).2.1⟩
  have hsfind₂ := hvacated.kept _ source hsfind fun o ho hbelow => hapart o ho hbelow.atOrBelow
  obtain ⟨-, -, -, hinside, etag, hfind, old, hold, hmoved⟩ := rename_nodes hmove
  rw [hsfind₂] at hold
  cases hold
  have hinto : ¬ AtOrBelow m₂.nodes parent.id source.id :=
    not_below_source hvacated.sane.forest hsfind₂ rfl hpfind hdir fun ⟨hd, hany⟩ => by
      rw [hinside hd] at hany
      cases hany
  obtain ⟨-, hbelow⟩ := hvacated.source_apart hsource hoccupant hapart hinto
  have hother : ∀ {k r}, k ≠ source.id → (db'.nodes.find k = some r ↔ m₂.nodes.find k = some r) := by
    intro k r hk
    rw [hfind, Option.map_eq_some_iff]
    constructor
    · rintro ⟨r', hr', rfl⟩
      rw [if_neg (by rwa [Table.find_key hr']), hr']
    · intro hr
      exact ⟨r, hr, if_neg (by rwa [Table.find_key hr])⟩
  have hstands : db'.nodes.find source.id = some moved := by
    rw [hfind, hsfind₂, Option.map_some, if_pos rfl, hmoved]
  have hmlive : moved.trashed = none := by
    rw [hmoved]
    exact WellFormed.live_iff.mp hslive
  refine ⟨source, parent, name, m, hasked, ⟨⟨etag, hmoved⟩, hstands, fun k => ⟨fun hk => ?_,
    fun hk => ?_⟩, fun k r hr hk hne => (hother hne).mpr (hvacated.kept k r hr hk),
    fun k r hr hnone => ?_, hvacated.displaced (fun o ho => (hoccupant o ho).1)
      (fun k r hr hdead => ?_) fun k r hr hdead => ?_, fun u => ?_⟩, howner rfl, ?_, hapart⟩
  · refine liveBelow_of_kept (fun k r _ hr hk => ((hbelow k r).mp ⟨hr, hk⟩).1) ?_
    exact liveBelow_of_kept (fun k r hne hr _ => (hother hne).mp hr) hk
  · refine liveBelow_of_kept (fun k r hne hr _ => (hother hne).mpr hr) ?_
    exact liveBelow_of_kept (fun k r _ hr hk => ((hbelow k r).mpr ⟨hr, hk⟩).1) hk
  · have hne : k ≠ source.id := by
      rintro rfl
      rw [hsfind] at hnone
      cases hnone
    exact isSome_of_back hvacated ((hother hne).mp hr) hnone
  · have hne : k ≠ source.id := by
      rintro rfl
      rw [hsfind₂] at hr
      cases hr
      exact hdead (WellFormed.live_iff.mp hslive)
    exact (hother hne).mpr hr
  · have hne : k ≠ source.id := by
      rintro rfl
      rw [hstands] at hr
      cases hr
      exact hdead hmlive
    exact (hother hne).mp hr
  · have hquotas : db'.quotas = m₂.quotas := sameQuotas_rename hmove
    have hused : db'.bytesUsed u = m₂.bytesUsed u := by
      unfold Store.bytesUsed
      rw [hquotas]
    rw [hused, hvacated.bytesUsed]
    rfl
  · exact fun hup => hinto (hup.mono fun a b hab => hvacated.parentOf (hopens₀.parentOf.mp hab))

/-! ## After every run -/

theorem Asked.unique {m' : Db} {source' parent' : Node} {name' : NodeName}
    (h : Asked app caller moving fromPath toPath db m source parent name)
    (h' : Asked app caller moving fromPath toPath db m' source' parent' name') :
    m = m' ∧ source = source' ∧ parent = parent' ∧ name = name' := by
  obtain ⟨found, m₁, m₂, hlocate, hsource, hparent, hname⟩ := h
  obtain ⟨found', m₁', m₂', hlocate', hsource', hparent', hname'⟩ := h'
  obtain ⟨rfl, rfl⟩ := hlocate.unique hlocate'
  obtain ⟨rfl, rfl⟩ := hsource.unique hsource'
  obtain ⟨rfl, rfl⟩ := hparent.unique hparent'
  rw [hname] at hname'
  exact ⟨rfl, rfl, rfl, Option.some.inj hname'⟩

/-- What stands in the way of a request. -/
def Barred (moving overwrite : Bool) (source parent : Node) (occupant : Option Node) (db m : Db) :
    Prop :=
  AtOrBelow m.nodes parent.id source.id ∨
  (∃ o ∈ occupant, AtOrBelow db.nodes source.id o.id) ∨
  (occupant.isSome = true ∧ overwrite = false) ∨
  (moving = true ∧ parent.ownerId ≠ source.ownerId)

theorem transfer_barred (hs : Sane db.toStore)
    (hasked : Asked app caller moving fromPath toPath db m source parent name)
    (hbarred : Barred moving overwrite source parent (db.child parent.id name.str) db m) :
    ∃ e, Pool.commit (Dav.transfer app caller moving fromPath toPath overwrite submitted) db =
      (.error e, db) := by
  cases hx : Dav.transfer app caller moving fromPath toPath overwrite submitted db with
  | error e => exact ⟨e, by unfold Pool.commit; rw [hx]⟩
  | ok answer =>
    exfalso
    obtain ⟨node, db'⟩ := answer
    obtain ⟨-, source', parent', name', m', hasked', howner, m₁, m₂, -, -, -, -, hreplace, -⟩ :=
      transfer_returns hs hx
    obtain ⟨rfl, rfl, rfl, rfl⟩ := hasked.unique hasked'
    -- a request that succeeds has its source and destination apart
    have hapart : ¬ AtOrBelow m.nodes parent.id source.id ∧
        ∀ o ∈ db.child parent.id name.str, ¬ AtOrBelow db.nodes source.id o.id := by
      cases moving with
      | false =>
        obtain ⟨s, p, n, m', pairs, hasked', -, hrest⟩ := copy_copies hs hx
        obtain ⟨rfl, rfl, rfl, rfl⟩ := hasked.unique hasked'
        exact hrest
      | true =>
        obtain ⟨s, p, n, m', hasked', -, -, hrest⟩ := move_moves hs hx
        obtain ⟨rfl, rfl, rfl, rfl⟩ := hasked.unique hasked'
        exact hrest
    rcases hbarred with hinto | ⟨o, ho, hup⟩ | ⟨hsome, hover⟩ | ⟨hmoving, hother⟩
    · exact hapart.1 hinto
    · exact hapart.2 o ho hup
    · obtain ⟨o, ho⟩ := Option.isSome_iff_exists.mp hsome
      rw [ho] at hreplace
      exact (of_guard hreplace).1 hover
    · exact hother (howner hmoving)

/-- **COPY and MOVE are exact and atomic**, after every run: one that succeeds copies or moves the
live tree of its source, and puts what it replaces in the trash; one that is barred or refused leaves
everything as it was; and the copying loop ends on every tree. -/
theorem transfer_exact (h : Reached db) (app : AppState) (caller : User)
    (fromPath toPath : List NodeName) (overwrite : Bool) (submitted : List Uuid) :
    (∀ copy db',
      (Dav.transfer app caller false fromPath toPath overwrite submitted).Returns db copy db' →
      ∃ source parent name m pairs, Asked app caller false fromPath toPath db m source parent name ∧
        CopiedTo caller.id source parent name (db.child parent.id name.str) copy db db' pairs) ∧
    (∀ moved db',
      (Dav.transfer app caller true fromPath toPath overwrite submitted).Returns db moved db' →
      ∃ source parent name m, Asked app caller true fromPath toPath db m source parent name ∧
        MovedTo caller.id source parent name (db.child parent.id name.str) moved db db') ∧
    (∀ moving source parent name m,
      Asked app caller moving fromPath toPath db m source parent name →
      Barred moving overwrite source parent (db.child parent.id name.str) db m →
      ∃ e, Pool.commit (Dav.transfer app caller moving fromPath toPath overwrite submitted) db =
        (.error e, db)) ∧
    (∀ moving e db',
      Pool.commit (Dav.transfer app caller moving fromPath toPath overwrite submitted) db =
        (.error e, db') → db' = db) ∧
    ∀ d : Db, Sane d.toStore → ∀ (source row parent root : Node) (str : Str) (m : Db),
      d.nodes.find source.id = some row → row.body = source.body →
      ¬ LiveBelow d.nodes parent.id source.id →
      (copyOne parent.ownerId parent.id str source).Returns d root m →
      CopyLoop parent.ownerId [(source.id, root.id)] m
        (copyPending parent.ownerId d.nodes.rows.length [(source.id, root.id)] m) := by
  have hs := h.sane
  refine ⟨fun copy db' hx => ?_, fun moved db' hx => ?_,
    fun moving source parent name m hasked hbarred => transfer_barred hs hasked hbarred,
    fun moving e db' hx => ?_, fun d hd source row parent root str m hrow hbody hapart hx => ?_⟩
  · obtain ⟨source, parent, name, m, pairs, hasked, hcopied, -⟩ := copy_copies hs hx
    exact ⟨source, parent, name, m, pairs, hasked, hcopied⟩
  · obtain ⟨source, parent, name, m, hasked, hmoved, -⟩ := move_moves hs hx
    exact ⟨source, parent, name, m, hasked, hmoved⟩
  · unfold Pool.commit at hx
    split at hx
    · cases hx
    · cases hx
      rfl
  · exact (Copying.start hd.forest hrow hbody hx).ends hd.forest hapart le_rfl

/-- `a` copied over the folder `d`. -/
theorem transfer_exact_written : ∃ copy source parent name m pairs,
    Asked keepsTwo adasUser false [noteName] [docsName] written m source parent name ∧
    CopiedTo 1 source parent name (written.child parent.id name.str) copy written
      (ran (Dav.transfer keepsTwo adasUser false [noteName] [docsName] true []) written) pairs := by
  have hcommits : commits (Dav.transfer keepsTwo adasUser false [noteName] [docsName] true [])
      written = true := by decide +kernel
  obtain ⟨copy, hx⟩ := returns_ran hcommits
  exact ⟨copy, (transfer_exact reached_written keepsTwo adasUser [noteName] [docsName] true []).1
    copy _ hx⟩

end Stashden.Api
