import Stashden.Api.System

/-!
# Retention (`api/src/trash.rs`, `expire`)

`Elapsed` is what every step does to the dates of the trash: the clock goes on, and what is newly in
the trash was sent there now (`step_elapsed`). So what was live since the retention began is dated
since then, everything it is in is dated no earlier (`Dated.below`), and no expiry takes it.
`expiry_safe` says that, and what an expiry does take.
-/

namespace Stashden.Api

open Lib Stashden.Core Tx

variable {s s' : Store} {db db' m : Db} {id k top : Uuid} {row node : Node} {retention : Nat}
  {u : Unit}

/-! ## Dates over a run -/

/-- The clock goes on, and what is newly in the trash was sent there in the meantime. -/
structure Elapsed (s s' : Store) : Prop where
  now : s.now ≤ s'.now
  dates : ∀ {k row' d'}, s'.nodes.find k = some row' → row'.trashed = some d' →
    (∃ row d, s.nodes.find k = some row ∧ row.trashed = some d ∧ d.deletedAt = d'.deletedAt) ∨
      s.now ≤ d'.deletedAt

instance : IsPreorder Store Elapsed where
  refl _ := ⟨le_rfl, fun hrow hd => Or.inl ⟨_, _, hrow, hd, rfl⟩⟩
  trans _ _ _ h h' := by
    refine ⟨h.now.trans h'.now, fun hrow'' hd'' => ?_⟩
    rcases h'.dates hrow'' hd'' with ⟨row', d', hrow', hd', hsame'⟩ | hlate
    · rcases h.dates hrow' hd' with ⟨row, d, hrow, hd, hsame⟩ | hlate
      · exact Or.inl ⟨row, d, hrow, hd, hsame.trans hsame'⟩
      · exact Or.inr (hsame' ▸ hlate)
    · exact Or.inr (h.now.trans hlate)

/-- Nothing newly in the trash. -/
theorem Elapsed.of_rows (hnow : s.now ≤ s'.now)
    (h : ∀ {k row'}, s'.nodes.find k = some row' →
      row'.trashed = none ∨ ∃ row, s.nodes.find k = some row ∧ row.trashed = row'.trashed) :
    Elapsed s s' := by
  refine ⟨hnow, fun hrow' hd' => Or.inl ?_⟩
  rcases h hrow' with hlive | ⟨row, hrow, hsame⟩
  · rw [hlive] at hd'
    cases hd'
  · exact ⟨row, _, hrow, hsame.trans hd', rfl⟩

theorem elapsed_nodes (hnow : s.now ≤ s'.now) (hnodes : s'.nodes = s.nodes) : Elapsed s s' :=
  .of_rows hnow fun hrow => Or.inr ⟨_, hnodes ▸ hrow, rfl⟩

theorem elapsed_aside (h : Aside s s') : Elapsed s s' := elapsed_nodes h.now.symm.le h.nodes

/-- Writes to other tables, at the same time. -/
structure Treeless (s s' : Store) : Prop where
  nodes : s'.nodes = s.nodes
  now : s'.now = s.now

instance : IsPreorder Store Treeless where
  refl _ := ⟨rfl, rfl⟩
  trans _ _ _ h h' := ⟨h'.nodes.trans h.nodes, h'.now.trans h.now⟩

theorem Treeless.elapsed (h : Treeless s s') : Elapsed s s' := elapsed_nodes h.now.symm.le h.nodes

theorem treeless_execute {h : Store → Store} (hh : ∀ s, (h s).nodes = s.nodes ∧ (h s).now = s.now) :
    Keeps Treeless (execute h) := keeps_execute fun s => ⟨(hh s).1, (hh s).2⟩

theorem treeless_remember {source thumbnail : BlobHash} {edge : Nat} :
    Keeps Treeless (remember source edge thumbnail) :=
  keeps_bind keeps_query fun _ => keeps_bind (treeless_execute fun _ => ⟨rfl, rfl⟩) fun _ =>
    keeps_ite (treeless_execute fun _ => ⟨rfl, rfl⟩) keeps_pure

theorem treeless_forgetOrphans : Keeps Treeless forgetOrphans :=
  keeps_bind keeps_query fun _ => keeps_bind (treeless_execute fun _ => ⟨rfl, rfl⟩) fun _ =>
    keeps_forEach (fun hash => show Keeps Treeless (releaseBlob hash) from
      treeless_execute fun _ => ⟨rfl, rfl⟩) _

theorem treeless_setQuota {bytesMax : Int} : Keeps Treeless (setQuota id bytesMax) :=
  keeps_ite keeps_fail (keeps_mapViolated (treeless_execute fun _ => ⟨rfl, rfl⟩))

theorem elapsed_insert (hnow : s.now ≤ s'.now) (hins : s.nodes.insert node = some s'.nodes)
    (hlive : node.trashed = none) : Elapsed s s' := by
  refine .of_rows hnow fun hrow => ?_
  rw [Table.find_insert hins] at hrow
  split_ifs at hrow
  · cases hrow
    exact Or.inl hlive
  · exact Or.inr ⟨_, hrow, rfl⟩

theorem elapsed_grown {ownerId : Uuid} (h : Grown (Planted ownerId top) s s') : Elapsed s s' := by
  refine .of_rows h.steady.now.symm.le fun hrow => ?_
  rcases h.find_back hrow with hrow | ⟨-, hlive, -⟩
  · exact Or.inr ⟨_, hrow, rfl⟩
  · exact Or.inl hlive

/-- What maps every row keeps the dates that it keeps in each. -/
theorem elapsed_map {f : Node → Node} (hnow : s.now ≤ s'.now)
    (h : ∀ k, s'.nodes.find k = (s.nodes.find k).map f)
    (hf : ∀ n, (f n).trashed = n.trashed ∨ ∃ root, (f n).trashed = some ⟨s.now, root⟩) :
    Elapsed s s' := by
  refine ⟨hnow, fun {k row' d'} hrow' hd' => ?_⟩
  rw [h] at hrow'
  obtain ⟨row, hrow, rfl⟩ := Option.map_eq_some_iff.mp hrow'
  rcases hf row with hsame | ⟨root, hnew⟩
  · exact Or.inl ⟨row, d', hrow, hsame.symm.trans hd', rfl⟩
  · rw [hnew] at hd'
    cases hd'
    exact Or.inr le_rfl

theorem elapsed_purges {dues : List (Uuid × Uuid)} (h : Purges dues db db')
    (hw : WellFormed db.nodes) : Elapsed db.toStore db'.toStore :=
  .of_rows h.frame.2.2.2.1.symm.le fun hrow => Or.inr ⟨_, ((h.find hw _ _).mp hrow).1, rfl⟩

theorem elapsed_removeAccount {receiver : Option Uuid} {quota : Int} (hs : Sane db.toStore)
    (hne : receiver ≠ some id) (hx : (removeAccount id receiver quota).Returns db u db') :
    Elapsed db.toStore db'.toStore := by
  obtain ⟨leaving, purged, m₁, m₂, -, rfl, hempty, hhand, hend⟩ := removeAccount_returns hx
  have hs₁ := emptyTrash_sane hs hempty
  have hcleared := elapsed_purges (emptyTrash_purges hempty) hs.forest
  have hgone : ∀ {owed}, Leaving leaving.id owed m₂.toStore → Elapsed m₂.toStore db'.toStore := by
    intro owed h
    obtain ⟨-, hleft⟩ := hend owed h
    refine .of_rows hleft.now.symm.le fun hrow => Or.inr ⟨_, ?_, rfl⟩
    rw [hleft.nodes] at hrow
    exact ((deleteUser_find h.forest).mp hrow).1
  cases handOverTo_returns hhand with
  | nobody => exact IsTrans.trans _ _ _ hcleared (hgone hs₁.toLeaving)
  | nothing => exact IsTrans.trans _ _ _ hcleared (hgone hs₁.toLeaving)
  | tree hfind htop htree =>
    obtain ⟨htop, howner, hnone⟩ := oldRootOf_eq_some htop
    obtain ⟨root, folder, m, hhost, hs₂, hhanding, hsettled⟩ := handOverTree_returns hs₁ htop hnone
      howner (fun hsame => hne (by rw [hsame])) htree
    have hhosted : Elapsed m₁.toStore m.toStore := by
      refine .of_rows hhost.rest.steady.now.symm.le fun hrow => ?_
      rcases hhost.find_back hrow with rfl | rfl | hrow
      · exact Or.inl (WellFormed.live_iff.mp hhost.made.2.2.2)
      · exact Or.inl (WellFormed.live_iff.mp hhost.top.2.2)
      · exact Or.inr ⟨_, hrow, rfl⟩
    have hmoved : Elapsed m.toStore m₂.toStore :=
      elapsed_map (by rw [hsettled.rest]) hsettled.nodes fun _ => Or.inl rfl
    exact IsTrans.trans _ _ _ hcleared (IsTrans.trans _ _ _ hhosted
      (IsTrans.trans _ _ _ hmoved (hgone (hsettled.toLeaving hhanding hs₂))))

theorem elapsed_putFile {ownerId : Uuid} {parent : Node} {name : NodeName} {hash : BlobHash}
    {size : Nat} {kept : Int} (hx : (putFile ownerId parent name hash size kept).Returns db node db') :
    Elapsed db.toStore db'.toStore := by
  obtain ⟨hsteady, ⟨old, -, -, -, hfind⟩ | ⟨-, hins, id, hnode⟩⟩ := putFile_nodes hx
  · exact elapsed_map hsteady.now.symm.le hfind fun n => Or.inl (by split_ifs <;> rfl)
  · exact elapsed_insert hsteady.now.symm.le hins (by rw [hnode])

/-- **The dates after one step.** -/
theorem step_elapsed (h : Step db db') (hs : Sane db.toStore) :
    Elapsed db.toStore db'.toStore := by
  cases h with
  | tick hnow heq => exact elapsed_nodes (by rw [heq]; exact hnow) (by rw [heq])
  | createUser hx => exact elapsed_aside (aside_createUser hx)
  | setDisabled hx => exact elapsed_aside (aside_setDisabled hx)
  | setRole hx => exact elapsed_aside (aside_setRole hx)
  | setEmail hx => exact elapsed_aside (aside_setEmail hx)
  | setQuota hx => exact (treeless_setQuota hx).elapsed
  | give hnode hx =>
    obtain ⟨-, -, -, grants, -, -, -, heq⟩ := give_returns (liveNode_eq_some.mp hnode).1 hx
    exact elapsed_nodes (by rw [heq]) (by rw [heq])
  | withdraw hx => exact elapsed_nodes (by rw [withdraw_returns hx]) (by rw [withdraw_returns hx])
  | takeLock hx => exact elapsed_aside (aside_takeLock hx)
  | refresh hx => exact elapsed_aside (aside_refresh hx)
  | releaseLock hx => exact elapsed_aside (aside_releaseLock hx)
  | purgeExpired hx => exact elapsed_aside (aside_purgeExpired hx)
  | ensureRoot hx =>
    obtain ⟨hsteady, -, -, -, ⟨-, hnodes⟩ | ⟨-, hins, -, hlive⟩⟩ := ensureRoot_returns hx
    · exact elapsed_nodes hsteady.now.symm.le hnodes
    · exact elapsed_insert hsteady.now.symm.le hins hlive
  | createDirectories hroot hx =>
    obtain ⟨hfind, hlive⟩ := liveNode_eq_some.mp hroot
    exact elapsed_grown (createDirectories_grown hs.forest hfind hlive rfl .refl hx).1
  | registerBlob hx =>
    exact elapsed_nodes (by rw [execute_returns.mp hx]) (by rw [execute_returns.mp hx])
  | putFile hparent hdir hx => exact elapsed_putFile hx
  | restoreVersion hnode hparent hdir hx =>
    obtain ⟨version, m, htake, hput⟩ := bind_returns.mp hx
    have htaken := keeps_take (R := Beside) htake
    exact IsTrans.trans _ _ _ (elapsed_nodes htaken.now.symm.le htaken.nodes) (elapsed_putFile hput)
  | copyTree hsource hparent hx =>
    obtain ⟨row, hrow, hsame⟩ := hsource
    obtain ⟨hpfind, hplive⟩ := liveNode_eq_some.mp hparent
    refine elapsed_grown (copyTree_grown hs.forest hs.named
      ⟨row, (liveNode_eq_some.mp hrow).1, by rw [hsame]⟩ ⟨_, hpfind, hplive⟩
      (fun above habove => ?_) .refl hx)
    rw [hpfind] at habove
    cases habove
    exact ⟨rfl, rfl⟩
  | rename hnode hparent howner hx =>
    obtain ⟨hsteady, -, -, -, etag, hfind, -⟩ := rename_nodes hx
    exact elapsed_map hsteady.now.symm.le hfind fun n => Or.inl (by split_ifs <;> rfl)
  | send hnode hchild hx =>
    obtain ⟨hsteady, hfind⟩ := send_nodes hx
    refine elapsed_map hsteady.now.symm.le hfind fun n => ?_
    dsimp only
    split_ifs
    · exact Or.inr ⟨_, rfl⟩
    · exact Or.inl rfl
  | restore hx =>
    obtain ⟨hsteady, -, hres, -⟩ := restore_nodes hs.forest hx
    refine ⟨hsteady.now.symm.le, fun {k row d} hrow hd => Or.inl ?_⟩
    obtain ⟨row₀, hrow₀, -⟩ := hres.retrashed.symm.find hrow
    have hdates := hres.dates hrow₀ hrow (by rw [Node.live, hd]; rfl)
    rw [hd] at hdates
    obtain ⟨d₀, hd₀, hdate⟩ := Option.map_eq_some_iff.mp hdates.symm
    exact ⟨row₀, d₀, hrow₀, hd₀, hdate⟩
  | purge hx => exact elapsed_purges (.purge hx (.nil _)) hs.forest
  | emptyTrash hx => exact elapsed_purges (emptyTrash_purges hx) hs.forest
  | expire retention => exact elapsed_purges (expireAll_purges _ db) hs.forest
  | remember hx => exact (treeless_remember hx).elapsed
  | forgetOrphans hx => exact (treeless_forgetOrphans hx).elapsed
  | sweepBlob hx =>
    exact elapsed_nodes (by rw [execute_returns.mp hx]) (by rw [execute_returns.mp hx])
  | removeAccount hother hx => exact elapsed_removeAccount hs hother hx

/-- **The dates after a run.** -/
theorem run_elapsed (h : Relation.ReflTransGen Step db db') (hs : Sane db.toStore) :
    Elapsed db.toStore db'.toStore ∧ Sane db'.toStore := by
  induction h with
  | refl => exact ⟨refl _, hs⟩
  | tail _ hstep ih =>
    exact ⟨IsTrans.trans _ _ _ ih.1 (step_elapsed hstep ih.2), step_sane hstep ih.2⟩

/-! ## What an expiry takes -/

/-- Nothing was trashed later than what it is in. -/
theorem Dated.below (h : Dated s) (hw : WellFormed s.nodes) {d d' : Trashed}
    (hrow : s.nodes.find k = some row) (hd : row.trashed = some d) (hup : AtOrBelow s.nodes k top)
    (htop : s.nodes.find top = some node) (hd' : node.trashed = some d') :
    d.deletedAt ≤ d'.deletedAt := by
  induction hup using Relation.ReflTransGen.head_induction_on generalizing row d with
  | refl =>
    rw [hrow] at htop
    cases htop
    rw [hd] at hd'
    cases hd'
    exact le_rfl
  | @head x y hxy hup ih =>
    rw [parentOf_of_find hrow] at hxy
    obtain ⟨above, habove, -⟩ := hw.parent hrow hxy
    have hdead : above.live = false :=
      hw.trashed_below habove hup htop (by rw [Node.live, hd']; rfl)
    cases hda : above.trashed with
    | none =>
      rw [Node.live, hda] at hdead
      cases hdead
    | some da => exact (h.order hrow hxy habove hd hda).trans (ih habove hda)

theorem mem_dueRoots (h : row ∈ s.dueRoots retention) : row ∈ s.nodes.rows ∧
    row.trashRoot = some row.id ∧ ∃ d, row.trashed = some d ∧ d.deletedAt + retention < s.now := by
  have hmem := List.mem_insertionSort _ |>.mp (List.mem_of_mem_take h)
  obtain ⟨hrow, hdue⟩ := Table.mem_select.mp hmem
  rw [Bool.and_eq_true, decide_eq_true_eq, Option.any_eq_true] at hdue
  obtain ⟨hroot, d, hd, hlate⟩ := hdue
  exact ⟨hrow, hroot, d, hd, of_decide_eq_true hlate⟩

/-- The roots that are due, however many. -/
def Store.due (s : Store) (retention : Nat) : List Node :=
  s.nodes.select fun n => n.trashRoot = some n.id &&
    n.trashed.any fun t => decide (t.deletedAt + retention < s.now)

theorem mem_dueRoots_of_few (hfew : (s.due retention).length ≤ EXPIRE_LIMIT)
    (h : row ∈ s.due retention) : row ∈ s.dueRoots retention := by
  unfold Store.dueRoots
  rw [List.take_of_length_le (by rw [List.length_insertionSort]; exact hfew),
    List.mem_insertionSort]
  exact h

/-- **What is gone after an expiry** is below a root that was due. -/
theorem expire_find (hw : WellFormed db.nodes) :
    (expire retention db).2.nodes.find k = some row ↔ db.nodes.find k = some row ∧
      ∀ root ∈ db.dueRoots retention, ¬ AtOrBelow db.nodes k root.id := by
  unfold expire
  rw [(expireAll_purges _ db).find hw]
  refine and_congr_right fun _ => ⟨fun h root hroot => ?_, fun h due hdue hlisted => ?_⟩
  · obtain ⟨hmem, hself, -⟩ := mem_dueRoots hroot
    exact h _ (List.mem_map.mpr ⟨root, hroot, rfl⟩)
      ⟨root, Table.mem_iff_find.mp hmem, rfl, hself⟩
  · obtain ⟨root, hroot, rfl⟩ := List.mem_map.mp hdue
    exact h root hroot

/-- What was sent to the trash within the retention stays. -/
theorem expire_keeps (hs : Sane db.toStore) (hrow : db.nodes.find k = some row)
    (hrecent : ∀ d, row.trashed = some d → db.now ≤ d.deletedAt + retention) :
    (expire retention db).2.nodes.find k = some row := by
  refine (expire_find hs.forest).mpr ⟨hrow, fun root hroot hup => ?_⟩
  obtain ⟨hmem, -, d', hd', hlate⟩ := mem_dueRoots hroot
  have htop := Table.mem_iff_find.mp hmem
  have hdead := hs.forest.trashed_below hrow hup htop (by rw [Node.live, hd']; rfl)
  cases hd : row.trashed with
  | none =>
    rw [Node.live, hd] at hdead
    cases hdead
  | some d =>
    have horder := hs.dated.below hs.forest hrow hd hup htop hd'
    have hwithin := hrecent d hd
    omega

/-- **Retention**: an expiry takes nothing that is live, nor what was still live when the retention
began; it takes every batch that is due, and gives up what it held once. -/
theorem expiry_safe (h : Reached db) :
    (∀ k row, db.nodes.find k = some row → row.live = true →
      (expire retention db).2.nodes.find k = some row) ∧
    (∀ sent, Reached sent → Relation.ReflTransGen Step sent db → db.now ≤ sent.now + retention →
      ∀ k row, LiveAt sent.nodes k → db.nodes.find k = some row →
        (expire retention db).2.nodes.find k = some row) ∧
    ((db.due retention).length ≤ EXPIRE_LIMIT → ∀ k row b root d, db.nodes.find k = some row →
      row.trashRoot = some b → db.nodes.find b = some root → root.trashed = some d →
        d.deletedAt + retention < db.now → (expire retention db).2.nodes.find k = none) ∧
    ∀ b, (expire retention db).2.refCount b = db.refCount b - each (db.blobsOf
      (db.nodes.select fun n => ((expire retention db).2.nodes.find n.id).isNone)) b := by
  have hs := h.sane
  refine ⟨fun k row hrow hlive => ?_, fun sent hsent hrun hwithin k row hlive hrow => ?_,
    fun hfew k row b root d hrow hb hroot hd hlate => ?_, fun b => ?_⟩
  · refine expire_keeps hs hrow fun d hd => ?_
    rw [Node.live, hd] at hlive
    cases hlive
  · refine expire_keeps hs hrow fun d hd => ?_
    rcases (run_elapsed hrun hsent.sane).1.dates hrow hd with ⟨row₀, d₀, hrow₀, hd₀, -⟩ | hlater
    · obtain ⟨row₁, hrow₁, hlive₁⟩ := hlive
      rw [hrow₀] at hrow₁
      cases hrow₁
      rw [Node.live, hd₀] at hlive₁
      cases hlive₁
    · omega
  · obtain ⟨⟨root', hroot', -, hself⟩, hup⟩ := listed_of_trashRoot hs.forest hrow hb
    rw [hroot] at hroot'
    cases hroot'
    have hid : root.id = b := Table.find_key hroot
    have hdue : root ∈ db.due retention := by
      refine Table.mem_select.mpr ⟨Table.find_mem hroot, ?_⟩
      simp [hid, hself, hd, hlate]
    rw [Option.eq_none_iff_forall_ne_some]
    intro left hleft
    exact ((expire_find hs.forest).mp hleft).2 root (mem_dueRoots_of_few hfew hdue) (hid ▸ hup)
  · have hpurges := expireAll_purges (db.dueRoots retention) db
    have hbook := hs.books.refCount b
    have hbook' := (expire_sane hs retention).books.refCount b
    have hgone : (expire retention db).2.references b = db.references b - each (db.blobsOf
        (db.nodes.select fun n => ((expire retention db).2.nodes.find n.id).isNone)) b :=
      references_gone (fun k row hrow => ((expire_find hs.forest).mp hrow).1)
        (hpurges.versions hs.forest)
        (fun v hv => (db.sound .versionsForeign v hv).1) hpurges.frame.1 b
    omega

/-- A month after something was sent to the trash. -/
def later : Db where
  toStore := { discarded.toStore with now := 31 }
  sound := by
    intro c
    cases c <;> decide +kernel

theorem reached_later : Reached later := reached_discarded.step (.tick (Nat.zero_le 31) rfl)

theorem expiry_safe_later : (expire 30 later).2.nodes.find 7 = none ∧
    (expire 30 later).2.nodes.find 4 = later.nodes.find 4 := by
  have hsafe := @expiry_safe later 30 reached_later
  have hfew : (later.due 30).length ≤ EXPIRE_LIMIT := by decide +kernel
  have hfolder : later.nodes.find 7 = some { adasFolder with trashed := some ⟨0, 7⟩ } := by
    decide +kernel
  have hfile : later.nodes.find 4 =
      some ⟨4, 1, some 3, "a".toList, .file otherBytes 5, .file otherBytes, none⟩ := by
    decide +kernel
  refine ⟨hsafe.2.2.1 hfew 7 _ 7 _ ⟨0, 7⟩ hfolder rfl hfolder rfl (by decide +kernel), ?_⟩
  rw [hfile]
  exact hsafe.1 4 _ hfile rfl

end Stashden.Api
