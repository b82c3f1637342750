import Stashden.Api.Effects

/-!
# What a restore does (`api/src/trash.rs`)

`restoreAncestors_nodes`: every node above comes back to life, for a live node has nothing but live
nodes above it, and the batches opened are those of the nodes it found trashed there. `Unsettled` is what
still has to be made a batch of its own; `rerootSurvivors_settles` takes one opened batch off it, so
nothing is left of it once all are done. `restore_nodes` puts them together.
-/

namespace Stashden.Api

open Lib Stashden.Core Tx

variable {s : Store} {db db' m : Db} {t t' : Table Node Node.id} {ownerId id top p batch : Uuid}
  {row root node : Node} {u : Unit}

/-! ## The nodes above -/

/-- How many nodes are trashed. -/
def trashedRows (t : Table Node Node.id) : Nat := (t.rows.filter fun n => !n.live).length

theorem trashedRows_revive {f : Node → Node} (hf : ∀ n, (f n).id = n.id) (hlive : ∀ n, (f n).live = true)
    (hrow : t.find id = some row) (htrashed : row.live = false) :
    trashedRows (t.update (·.id = id) f hf) < trashedRows t := by
  unfold trashedRows Table.update
  rw [List.filter_map, List.length_map]
  have hsub : (t.rows.filter ((fun n : Node => !n.live) ∘
      fun r => if decide (r.id = id) = true then f r else r)) =
      (t.rows.filter fun n => !n.live).filter fun r => !decide (r.id = id) := by
    rw [List.filter_filter]
    refine List.filter_congr fun r _ => ?_
    by_cases hid : r.id = id
    · simp [hid, hlive]
    · simp [hid]
  obtain ⟨hmem, hid⟩ := Table.find_eq_some_iff.mp hrow
  rw [hsub, List.length_filter_lt_length_iff_exists]
  exact ⟨row, List.mem_filter.mpr ⟨hmem, by simp [htrashed]⟩, by simp [hid]⟩

/-- What `restore_ancestors` needs to hold above the node it starts from. -/
structure Climbable (t : Table Node Node.id) (start : Uuid) : Prop where
  grounded : Grounded (parentOf t) start
  live : ∀ {x p row above}, AtOrBelow t start x → t.find x = some row → row.parentId = some p →
    t.find p = some above → row.live = true → above.live = true
  folder : ∀ {x row}, AtOrBelow t start x → t.find x = some row → row.isDirectory = true

theorem Climbable.live_above {start x : Uuid} (h : Climbable t start) (hrow : t.find start = some row)
    (hlive : row.live = true) (hup : AtOrBelow t start x) (hx : t.find x = some node) :
    node.live = true := by
  induction hup generalizing node with
  | refl =>
    rw [hrow] at hx
    cases hx
    exact hlive
  | @tail y z hy hyz ih =>
    obtain ⟨r, hr, hp⟩ := find_of_parentOf hyz
    exact h.live hy hr hp hx (ih hr)

/-- A node but for its trash columns. -/
def Node.untrashed (n : Node) : Node := { n with trashed := none }

theorem untrashed_eq {a b : Node} (h : a.untrashed = b.untrashed) : a.ownerId = b.ownerId ∧
    a.parentId = b.parentId ∧ a.name = b.name ∧ a.body = b.body := by
  unfold Node.untrashed at h
  injection h with _ ho hp hn hb
  exact ⟨ho, hp, hn, hb⟩

/-- The nodes with other trash columns. -/
def Retrashed (t t' : Table Node Node.id) : Prop :=
  ∀ k, (t'.find k).map Node.untrashed = (t.find k).map Node.untrashed

namespace Retrashed

theorem trans {t'' : Table Node Node.id} (h : Retrashed t t') (h' : Retrashed t' t'') :
    Retrashed t t'' := fun k => (h' k).trans (h k)

theorem symm (h : Retrashed t t') : Retrashed t' t := fun k => (h k).symm

theorem parentOf (h : Retrashed t t') (k : Uuid) : parentOf t' k = parentOf t k := by
  refine parentOf_congr ?_
  have hk := congrArg (Option.map Node.parentId) (h k)
  rwa [Option.map_map, Option.map_map] at hk

theorem up (h : Retrashed t t') {a b : Uuid} : AtOrBelow t' a b ↔ AtOrBelow t a b :=
  up_iff_of_still fun x _ => h.parentOf x

theorem find (h : Retrashed t t') {k : Uuid} (hrow : t.find k = some row) :
    ∃ row', t'.find k = some row' ∧ row'.untrashed = row.untrashed := by
  have hk := h k
  rw [hrow] at hk
  exact Option.map_eq_some_iff.mp hk

end Retrashed

/-- The nodes, some of them live again. -/
def Revived (X : Uuid → Prop) (t t' : Table Node Node.id) : Prop :=
  ∀ k, (X k → t'.find k = (t.find k).map Node.untrashed) ∧ (¬ X k → t'.find k = t.find k)

namespace Revived

variable {X Y : Uuid → Prop} {k : Uuid}

theorem retrashed (h : Revived X t t') : Retrashed t t' := by
  intro k
  by_cases hx : X k
  · rw [(h k).1 hx, Option.map_map]
    rfl
  · rw [(h k).2 hx]

theorem trans {t'' : Table Node Node.id} (h : Revived X t t') (h' : Revived Y t' t'') :
    Revived (fun k => X k ∨ Y k) t t'' := by
  refine fun k => ⟨fun hxy => ?_, fun hno => ?_⟩
  · by_cases hy : Y k
    · rw [(h' k).1 hy, h.retrashed k]
    · rw [(h' k).2 hy, (h k).1 (hxy.resolve_right hy)]
  · rw [(h' k).2 fun hy => hno (Or.inr hy), (h k).2 fun hx => hno (Or.inl hx)]

theorem congr (h : Revived X t t') (hXY : ∀ k, X k ↔ Y k) : Revived Y t t' := fun k =>
  ⟨fun hy => (h k).1 ((hXY k).mpr hy), fun hy => (h k).2 fun hx => hy ((hXY k).mp hx)⟩

/-- Reviving nothing that is trashed. -/
theorem still (h : ∀ k row, X k → t.find k = some row → row.trashed = none) : Revived X t t := by
  refine fun k => ⟨fun hx => ?_, fun _ => rfl⟩
  cases hk : t.find k with
  | none => rfl
  | some row =>
    rw [Option.map_some, Node.untrashed, ← h k row hx hk]

/-- A row that is trashed was so all along. -/
theorem of_trashed (h : Revived X t t') (hrow : t'.find k = some row) (hb : row.trashed ≠ none) :
    ¬ X k ∧ t.find k = some row := by
  by_cases hx : X k
  · rw [(h k).1 hx] at hrow
    obtain ⟨old, -, rfl⟩ := Option.map_eq_some_iff.mp hrow
    exact absurd rfl hb
  · exact ⟨hx, (h k).2 hx ▸ hrow⟩

theorem live_iff (h : Revived X t t') (hrow : t.find k = some row) (hrow' : t'.find k = some node) :
    node.live = true ↔ X k ∨ row.live = true := by
  by_cases hx : X k
  · rw [(h k).1 hx, hrow] at hrow'
    cases hrow'
    exact ⟨fun _ => Or.inl hx, fun _ => rfl⟩
  · rw [(h k).2 hx, hrow] at hrow'
    cases hrow'
    exact ⟨Or.inr, fun hl => hl.resolve_left hx⟩

end Revived

theorem Climbable.parent {start : Uuid} (h : Climbable t start) (hp : parentOf t start = some p)
    (hre : Revived (· = start) t t') : Climbable t' p where
  grounded := by
    obtain ⟨r, hr, hnone⟩ := h.grounded.of_up (.single hp)
    exact ⟨r, hre.retrashed.up.mpr hr, by rw [hre.retrashed.parentOf, hnone]⟩
  live := by
    intro x q row' above' hx hrow' hq habove' hlive
    obtain ⟨row, hrow, hsame⟩ := hre.retrashed.symm.find hrow'
    obtain ⟨above, habove, -⟩ := hre.retrashed.symm.find habove'
    have hxs := hre.retrashed.up.mp hx
    have hne : x ≠ start := by
      rintro rfl
      exact h.grounded.not_up_parent hp hxs
    have hl := ((hre.live_iff hrow hrow').mp hlive).resolve_left hne
    have hq' : row.parentId = some q := (untrashed_eq hsame).2.1.trans hq
    exact (hre.live_iff habove habove').mpr (Or.inr (h.live (hxs.head hp) hrow hq' habove hl))
  folder := by
    intro x row' hx hrow'
    obtain ⟨row, hrow, hsame⟩ := hre.retrashed.symm.find hrow'
    rw [← isDirectory_congr (untrashed_eq hsame).2.2.2]
    exact h.folder ((hre.retrashed.up.mp hx).head hp) hrow

theorem revive_nodes {q : Node → Bool} (h : (revive q).Returns db u db') :
    db'.toStore = { db.toStore with nodes := db'.nodes } ∧
      ∀ k, db'.nodes.find k = (db.nodes.find k).map fun r =>
        if q r then { r with trashed := none } else r := by
  have hs := execute_returns.mp h
  refine ⟨?_, fun k => ?_⟩
  · rw [hs]
  · rw [hs, Table.find_update]

theorem revive_one {id : Uuid} (h : (revive (·.id = id)).Returns db u db') :
    db'.toStore = { db.toStore with nodes := db'.nodes } ∧ Revived (· = id) db.nodes db'.nodes := by
  obtain ⟨hs, hfind⟩ := revive_nodes h
  refine ⟨hs, fun k => ⟨fun hk => ?_, fun hk => ?_⟩⟩
  · rw [hfind]
    refine Option.map_congr fun r hr => ?_
    rw [if_pos (by simpa [Table.find_key hr] using hk)]
    rfl
  · rw [hfind]
    cases hr : db.nodes.find k with
    | none => rfl
    | some r => rw [Option.map_some, if_neg (by simpa [Table.find_key hr] using hk)]

theorem trashed_of_trashRoot (h : node.trashRoot = some batch) : node.trashed ≠ none := by
  rintro hno
  rw [Node.trashRoot, hno] at h
  cases h

theorem size_of_directory (h : node.isDirectory = true) : node.size = 0 := by
  unfold Node.isDirectory at h
  unfold Node.size
  cases hb : node.body with
  | directory => rfl
  | file hash size =>
    rw [hb] at h
    cases h

theorem reviveAbove_none {rounds : Nat} {answer : Int × List Uuid}
    (h : (reviveAbove rounds none).Returns db answer db') : answer = (0, []) ∧ db = db' := by
  cases rounds <;> exact pure_returns.mp h

/-- **Everything above comes back to life**, and the batches it was in are opened. -/
theorem reviveAbove_nodes {rounds : Nat} {start : Uuid} {answer : Int × List Uuid}
    (hup : Climbable db.nodes start) (hrounds : trashedRows db.nodes < rounds)
    (h : (reviveAbove rounds (some start)).Returns db answer db') :
    db'.toStore = { db.toStore with nodes := db'.nodes } ∧
      Revived (AtOrBelow db.nodes start) db.nodes db'.nodes ∧ answer.1 = 0 ∧
      ∀ b, b ∈ answer.2 ↔ ∃ k row, AtOrBelow db.nodes start k ∧ db.nodes.find k = some row ∧
        row.trashRoot = some b := by
  induction rounds generalizing db start answer with
  | zero => exact absurd hrounds (Nat.not_lt_zero _)
  | succ rounds ih =>
    rw [reviveAbove] at h
    obtain ⟨trashed, m, htrashed, h⟩ := bind_returns.mp h
    obtain ⟨htr, rfl⟩ := query_returns.mp htrashed
    -- a node found live, or not at all: everything above is live already
    have hstop : (∀ k row, AtOrBelow db.nodes start k → db.nodes.find k = some row →
        row.trashed = none) → (pure (0, []) : Tx (Int × List Uuid)).Returns db answer db' →
        db'.toStore = { db.toStore with nodes := db'.nodes } ∧
          Revived (AtOrBelow db.nodes start) db.nodes db'.nodes ∧ answer.1 = 0 ∧
          ∀ b, b ∈ answer.2 ↔ ∃ k row, AtOrBelow db.nodes start k ∧
            db.nodes.find k = some row ∧ row.trashRoot = some b := by
      intro hall h
      obtain ⟨rfl, rfl⟩ := pure_returns.mp h
      refine ⟨rfl, Revived.still hall, rfl, fun b => ⟨fun hb => absurd hb List.not_mem_nil, ?_⟩⟩
      rintro ⟨k, row, ha, hk, hb⟩
      rw [Node.trashRoot, hall k row ha hk] at hb
      cases hb
    cases hrow : db.nodes.find start with
    | none =>
      rw [hrow] at htr
      subst htr
      refine hstop (fun k row ha hk => ?_) h
      rw [← ha.eq_of_none (by rw [parentOf, hrow]; rfl), hrow] at hk
      cases hk
    | some ancestor =>
      rw [hrow] at htr
      cases hlive : ancestor.live with
      | true =>
        have hnone : trashed = none := by rw [htr, Option.filter_some, hlive]; rfl
        subst hnone
        exact hstop (fun k row ha hk => WellFormed.live_iff.mp (hup.live_above hrow hlive ha hk)) h
      | false =>
        have hsome : trashed = some ancestor := by rw [htr, Option.filter_some, hlive]; rfl
        subst hsome
        obtain ⟨_, m, hrevive, h⟩ := bind_returns.mp h
        obtain ⟨rest, m', hrest, h⟩ := bind_returns.mp h
        obtain ⟨rfl, rfl⟩ := pure_returns.mp h
        have hrevive := mapViolated_returns.mp hrevive
        obtain ⟨hstore, hre⟩ := revive_one hrevive
        have hfewer : trashedRows m.nodes < trashedRows db.nodes := by
          rw [execute_returns.mp hrevive]
          exact trashedRows_revive (f := Node.untrashed) (fun _ => rfl) (fun _ => rfl) hrow hlive
        have hparent : parentOf db.nodes start = ancestor.parentId := parentOf_of_find hrow
        have hsize : ancestor.size = 0 := size_of_directory (hup.folder .refl hrow)
        cases hp : ancestor.parentId with
        | none =>
          rw [hp] at hrest hparent
          obtain ⟨rfl, rfl⟩ := reviveAbove_none hrest
          have honly : ∀ {k}, AtOrBelow db.nodes start k ↔ k = start :=
            ⟨fun ha => (ha.eq_of_none hparent).symm, fun e => e ▸ .refl⟩
          refine ⟨hstore, hre.congr fun k => honly.symm, by rw [hsize]; rfl, fun b => ?_⟩
          rw [List.filter_nil, List.append_nil, Option.mem_toList]
          constructor
          · exact fun hb => ⟨start, ancestor, .refl, hrow, hb⟩
          · rintro ⟨k, row, ha, hk, hb⟩
            rw [honly.mp ha, hrow] at hk
            cases hk
            exact hb
        | some p =>
          rw [hp] at hrest hparent
          have hstep : ∀ {k}, AtOrBelow db.nodes start k ↔ k = start ∨ AtOrBelow db.nodes p k := by
            refine ⟨fun ha => ?_, ?_⟩
            · rcases ha.cases_head with rfl | ⟨c, hc, hck⟩
              · exact Or.inl rfl
              · rw [hparent] at hc
                cases hc
                exact Or.inr hck
            · rintro (rfl | ha)
              · exact .refl
              · exact ha.head hparent
          obtain ⟨hstore', hre', hbytes, hopened⟩ := ih (hup.parent hparent hre) (by omega) hrest
          refine ⟨by rw [hstore', hstore], (hre.trans hre').congr fun k => ?_, ?_, fun b => ?_⟩
          · rw [hre.retrashed.up, hstep]
          · rw [hsize, hbytes]
            rfl
          · rw [List.mem_append, Option.mem_toList, List.mem_filter, hopened,
              decide_eq_true_eq]
            constructor
            · rintro (hb | ⟨⟨k, row, ha, hk, hb⟩, -⟩)
              · exact ⟨start, ancestor, .refl, hrow, hb⟩
              · exact ⟨k, row, hstep.mpr (Or.inr (hre.retrashed.up.mp ha)),
                  (hre.of_trashed hk (trashed_of_trashRoot hb)).2, hb⟩
            · rintro ⟨k, row, ha, hk, hb⟩
              by_cases hsame : some b = ancestor.trashRoot
              · exact Or.inl hsame.symm
              · refine Or.inr ⟨⟨k, row, ?_, ?_, hb⟩, hsame⟩
                · rcases hstep.mp ha with rfl | ha
                  · rw [hrow] at hk
                    cases hk
                    exact absurd hb.symm hsame
                  · exact hre.retrashed.up.mpr ha
                · rw [(hre k).2, hk]
                  rintro rfl
                  rw [hrow] at hk
                  cases hk
                  exact hsame hb.symm

/-! ## What is left of the batches opened -/

/-- A chain of nodes of a batch leads from `n` up to `top`, which may be of another. -/
def BatchBelow (t : Table Node Node.id) (batch n top : Uuid) : Prop :=
  Relation.ReflTransGen (fun n p => (∃ row, t.find n = some row ∧ row.trashRoot = some batch) ∧
    parentOf t n = some p) n top

theorem BatchBelow.atOrBelow {n : Uuid} (h : BatchBelow t batch n top) : AtOrBelow t n top :=
  h.lift id fun _ _ h => h.2

/-- **The recursive query of `stranded`** finds a row iff a chain of its batch leads up from it. -/
theorem mem_strandedBelow_iff {survivor : Node} (hmem : survivor ∈ db.nodes.rows) :
    row ∈ db.strandedBelow batch survivor ↔
      row ∈ db.nodes.rows ∧ BatchBelow db.nodes batch row.id survivor.id := by
  unfold Store.strandedBelow BatchBelow
  rw [← Relation.reflTransGen_swap, mem_query_iff (Function.swap fun n p =>
    (∃ row, db.nodes.find n = some row ∧ row.trashRoot = some batch) ∧
      parentOf db.nodes n = some p)]
  · intro a b ha hb
    show _ ↔ (∃ row, db.nodes.find b.id = some row ∧ row.trashRoot = some batch) ∧
      parentOf db.nodes b.id = some a.id
    rw [parentOf_of_mem hb, Bool.and_eq_true, decide_eq_true_eq, decide_eq_true_eq, and_comm,
      Table.mem_iff_find.mp hb]
    simp
  · rintro a b ⟨-, hp⟩
    obtain ⟨r, hr, hp⟩ := find_of_parentOf hp
    exact (db.sound .nodesForeign r (Table.find_mem hr)).2.1 a hp
  · exact hmem

/-- A node of a batch in a live folder. -/
def Survivor (t : Table Node Node.id) (batch id : Uuid) : Prop :=
  ∃ row p above, t.find id = some row ∧ row.trashRoot = some batch ∧ row.parentId = some p ∧
    t.find p = some above ∧ above.live = true

theorem mem_survivors_iff : row ∈ s.survivors batch ↔
    row ∈ s.nodes.rows ∧ Survivor s.nodes batch row.id := by
  unfold Store.survivors Survivor
  rw [Table.mem_select, Bool.and_eq_true, decide_eq_true_eq]
  refine and_congr_right fun hmem => ?_
  rw [Table.mem_iff_find.mp hmem]
  cases hp : row.parentId with
  | none => simp [hp]
  | some p => simp [hp, liveNode_isSome, LiveAt]

/-- **A node is stranded by the survivor a chain of its batch leads to.** -/
theorem strandedBy_eq_some {survivor : Uuid}
    (h : db.strandedBy batch id = some survivor) :
    Survivor db.nodes batch survivor ∧ BatchBelow db.nodes batch id survivor := by
  obtain ⟨sv, hfound, rfl⟩ := Option.map_eq_some_iff.mp h
  obtain ⟨hmem, hsv⟩ := mem_survivors_iff.mp (List.mem_of_find?_eq_some hfound)
  have hany := List.find?_some hfound
  obtain ⟨r, hr, hid⟩ := List.any_eq_true.mp hany
  rw [decide_eq_true_eq] at hid
  exact ⟨hsv, hid ▸ ((mem_strandedBelow_iff hmem).mp hr).2⟩

theorem strandedBy_isSome {survivor : Uuid} (hrow : db.nodes.find id = some row)
    (hsv : Survivor db.nodes batch survivor) (hbelow : BatchBelow db.nodes batch id survivor) :
    (db.strandedBy batch id).isSome = true := by
  unfold Store.strandedBy
  rw [Option.isSome_map, List.find?_isSome]
  obtain ⟨sv, p, above, hfind, hrest⟩ := hsv
  obtain ⟨hmem, rfl⟩ := Table.find_eq_some_iff.mp hfind
  refine ⟨sv, mem_survivors_iff.mpr ⟨hmem, sv, p, above, hfind, hrest⟩, ?_⟩
  obtain ⟨hrmem, rfl⟩ := Table.find_eq_some_iff.mp hrow
  exact List.any_eq_true.mpr ⟨row, (mem_strandedBelow_iff hmem).mpr ⟨hrmem, hbelow⟩, by simp⟩

theorem Survivor.trashRoot {survivor : Uuid} (h : Survivor t batch survivor)
    (hrow : t.find survivor = some row) : row.trashRoot = some batch := by
  obtain ⟨sv, -, -, hfind, hb, -⟩ := h
  rw [hrow] at hfind
  cases hfind
  exact hb

/-- Nothing of the batch goes on above a survivor. -/
theorem Survivor.not_batchBelow {survivor other : Uuid} (h : Survivor t batch survivor)
    (hp : parentOf t survivor = some p) (ho : Survivor t batch other) :
    ¬ BatchBelow t batch p other := by
  intro hbelow
  obtain ⟨sv, q, above, hfind, -, hq, habove, hlive⟩ := h
  rw [parentOf_of_find hfind, hq] at hp
  cases hp
  have hb : above.trashRoot = some batch := by
    obtain rfl | ⟨c, ⟨⟨r, hr, hb⟩, -⟩, -⟩ := Relation.ReflTransGen.cases_head hbelow
    · exact ho.trashRoot habove
    · rw [habove] at hr
      cases hr
      exact hb
  exact trashed_of_trashRoot hb (WellFormed.live_iff.mp hlive)

theorem Survivor.unique {n a b : Uuid} (ha : Survivor t batch a) (hb : Survivor t batch b)
    (hna : BatchBelow t batch n a) (hnb : BatchBelow t batch n b) : a = b := by
  induction hna using Relation.ReflTransGen.head_induction_on with
  | refl =>
    obtain rfl | ⟨c, ⟨-, hc⟩, hcb⟩ := Relation.ReflTransGen.cases_head hnb
    · rfl
    · exact absurd hcb (ha.not_batchBelow hc hb)
  | @head x y hxy hya ih =>
    obtain rfl | ⟨c, ⟨-, hc⟩, hcb⟩ := Relation.ReflTransGen.cases_head hnb
    · exact absurd hya (hb.not_batchBelow hxy.2 ha)
    · rw [hxy.2] at hc
      cases hc
      exact ih hcb

/-- Between the revival and the last batch made: what is left of the batches `opened`. -/
structure Unsettled (opened : List Uuid) (t : Table Node Node.id) : Prop where
  grounded : ∀ id, Grounded (parentOf t) id
  batch : ∀ {id row b}, t.find id = some row → row.trashRoot = some b → b = id ∨
    ∃ p above, row.parentId = some p ∧ t.find p = some above ∧
      (above.trashRoot = some b ∨ b ∈ opened ∧ above.live = true)
  gone : ∀ {b row}, b ∈ opened → t.find b = some row → row.live = true

/-- Every node of a batch opened is below a survivor. -/
theorem Unsettled.survivor {opened : List Uuid} (h : Unsettled opened t) (hb : batch ∈ opened)
    (hrow : t.find id = some row) (hroot : row.trashRoot = some batch) :
    ∃ survivor, Survivor t batch survivor ∧ BatchBelow t batch id survivor := by
  have key : ∀ row, t.find id = some row → row.trashRoot = some batch →
      ∃ survivor, Survivor t batch survivor ∧ BatchBelow t batch id survivor := by
    -- a node of the batch is not the one it is named after, which is live
    have step : ∀ {x row}, t.find x = some row → row.trashRoot = some batch →
        ∃ p above, row.parentId = some p ∧ t.find p = some above ∧
          (above.trashRoot = some batch ∨ above.live = true) := by
      intro x row hrow hroot
      rcases h.batch hrow hroot with rfl | ⟨p, above, hp, habove, hor⟩
      · exact absurd (WellFormed.live_iff.mp (h.gone hb hrow)) (trashed_of_trashRoot hroot)
      · exact ⟨p, above, hp, habove, hor.imp_right And.right⟩
    refine (h.grounded id).induction (motive := fun id => ∀ row, t.find id = some row →
      row.trashRoot = some batch → ∃ survivor, Survivor t batch survivor ∧
        BatchBelow t batch id survivor) (fun x hx row hrow hroot => ?_)
      fun x y hxy ih row hrow hroot => ?_
    · obtain ⟨p, above, hp, -⟩ := step hrow hroot
      rw [parentOf_of_find hrow, hp] at hx
      cases hx
    · obtain ⟨p, above, hp, habove, hor⟩ := step hrow hroot
      rcases hor with hsame | hlive
      · have hpx : parentOf t x = some p := by rw [parentOf_of_find hrow, hp]
        rw [hxy] at hpx
        cases hpx
        obtain ⟨survivor, hsv, hbelow⟩ := ih above habove hsame
        exact ⟨survivor, hsv, hbelow.head ⟨⟨row, hrow, hroot⟩, hxy⟩⟩
      · exact ⟨x, ⟨row, p, above, hrow, hroot, hp, habove, hlive⟩, .refl⟩
  exact key row hrow hroot

/-- Trash columns that differ in the batch at most. -/
def Rebatched (t t' : Table Node Node.id) : Prop :=
  ∀ k, (t'.find k).map (fun n => (n.untrashed, n.trashed.map Trashed.deletedAt)) =
    (t.find k).map fun n => (n.untrashed, n.trashed.map Trashed.deletedAt)

theorem Rebatched.refl (t : Table Node Node.id) : Rebatched t t := fun _ => rfl

theorem Rebatched.trans {t'' : Table Node Node.id} (h : Rebatched t t') (h' : Rebatched t' t'') :
    Rebatched t t'' := fun k => (h' k).trans (h k)

theorem Rebatched.symm (h : Rebatched t t') : Rebatched t' t := fun k => (h k).symm

theorem Rebatched.retrashed (h : Rebatched t t') : Retrashed t t' := by
  intro k
  have hk := congrArg (Option.map Prod.fst) (h k)
  rwa [Option.map_map, Option.map_map] at hk

theorem Rebatched.find (h : Rebatched t t') {k : Uuid} (hrow : t.find k = some row) :
    ∃ row', t'.find k = some row' ∧ row'.untrashed = row.untrashed ∧
      row'.trashed.map Trashed.deletedAt = row.trashed.map Trashed.deletedAt := by
  have hk := h k
  rw [hrow] at hk
  obtain ⟨row', hrow', hsame⟩ := Option.map_eq_some_iff.mp hk
  exact ⟨row', hrow', congrArg Prod.fst hsame, congrArg Prod.snd hsame⟩

theorem live_of_dates {a b : Node} (h : a.trashed.map Trashed.deletedAt =
    b.trashed.map Trashed.deletedAt) : a.live = b.live := by
  unfold Node.live
  cases ha : a.trashed <;> cases hb : b.trashed <;> simp_all

/-- **What `reroot_survivors` does to the nodes** of the batch: each has the survivor it is below for
its root. -/
theorem rerootSurvivors_nodes (h : (rerootSurvivors batch).Returns db u db') :
    db'.toStore = { db.toStore with nodes := db'.nodes } ∧ Rebatched db.nodes db'.nodes ∧
      ∀ {id row}, db.nodes.find id = some row → ∃ row', db'.nodes.find id = some row' ∧
        ((∃ survivor, Survivor db.nodes batch survivor ∧ BatchBelow db.nodes batch id survivor ∧
            row'.trashRoot = some survivor) ∨
          row' = row ∧ ¬ ∃ survivor, Survivor db.nodes batch survivor ∧
            BatchBelow db.nodes batch id survivor) := by
  have hs := execute_returns.mp h
  have hfind : ∀ k, db'.nodes.find k = (db.nodes.find k).map fun n =>
      if (db.strandedBy batch n.id).isSome then { n with trashed := n.trashed.map fun t =>
        { t with root := (db.strandedBy batch n.id).getD t.root } } else n := by
    intro k
    rw [hs, Table.find_update]
  refine ⟨by rw [hs], fun k => ?_, fun {id row} hrow => ?_⟩
  · rw [hfind, Option.map_map]
    refine Option.map_congr fun r _ => ?_
    rw [Function.comp_apply]
    by_cases hstranded : (db.strandedBy batch r.id).isSome = true
    · rw [if_pos hstranded, Option.map_map]
      rfl
    · rw [if_neg hstranded]
  · have hid := Table.find_key hrow
    refine ⟨_, by rw [hfind, hrow, Option.map_some], ?_⟩
    rw [hid]
    by_cases hstranded : (db.strandedBy batch id).isSome = true
    · obtain ⟨survivor, hsv⟩ := Option.isSome_iff_exists.mp hstranded
      obtain ⟨hsurvivor, hbelow⟩ := strandedBy_eq_some hsv
      refine Or.inl ⟨survivor, hsurvivor, hbelow, ?_⟩
      have hb : row.trashRoot = some batch := by
        obtain rfl | ⟨c, ⟨⟨r, hr, hb⟩, -⟩, -⟩ := Relation.ReflTransGen.cases_head hbelow
        · exact hsurvivor.trashRoot hrow
        · rw [hrow] at hr
          cases hr
          exact hb
      obtain ⟨d, hd, -⟩ := WellFormed.trashRoot_eq_some.mp hb
      rw [if_pos hstranded, Node.trashRoot, hd, hsv]
      rfl
    · refine Or.inr ⟨if_neg hstranded, ?_⟩
      rintro ⟨survivor, hsurvivor, hbelow⟩
      exact hstranded (strandedBy_isSome hrow hsurvivor hbelow)

/-- **One batch opened is made batches of their own.** -/
theorem rerootSurvivors_settles {opened : List Uuid} (hun : Unsettled (batch :: opened) db.nodes)
    (h : (rerootSurvivors batch).Returns db u db') : Unsettled opened db'.nodes := by
  obtain ⟨-, hre, hrows⟩ := rerootSurvivors_nodes h
  have hlive : ∀ {k row row'}, db.nodes.find k = some row → db'.nodes.find k = some row' →
      row'.live = row.live := by
    intro k row row' hrow hrow'
    obtain ⟨r, hr, -, hdates⟩ := hre.find hrow
    rw [hrow'] at hr
    cases hr
    exact live_of_dates hdates
  have hparents : ∀ {k row row'}, db.nodes.find k = some row → db'.nodes.find k = some row' →
      row'.parentId = row.parentId := by
    intro k row row' hrow hrow'
    rw [← parentOf_of_find hrow, ← parentOf_of_find hrow', hre.retrashed.parentOf]
  refine ⟨fun id => grounded_shrink (fun x => Or.inl (hre.retrashed.parentOf x)) (hun.grounded id),
    fun {id row' b} hrow' hb => ?_, fun {b row'} hb hrow' => ?_⟩
  · obtain ⟨row, hrow, -⟩ := hre.symm.find hrow'
    obtain ⟨r, hr, hcase⟩ := hrows hrow
    rw [hrow'] at hr
    cases hr
    rcases hcase with ⟨survivor, hsv, hbelow, hroot⟩ | ⟨rfl, hno⟩
    · rw [hroot] at hb
      cases hb
      obtain rfl | ⟨p, ⟨hstep, hp⟩, hrest⟩ := Relation.ReflTransGen.cases_head hbelow
      · exact Or.inl rfl
      · obtain ⟨above, habove⟩ : ∃ above, db.nodes.find p = some above := by
          obtain rfl | ⟨c, ⟨⟨r, hr, -⟩, -⟩, -⟩ := Relation.ReflTransGen.cases_head hrest
          · obtain ⟨sv, -, -, hfind, -⟩ := hsv
            exact ⟨sv, hfind⟩
          · exact ⟨r, hr⟩
        rw [parentOf_of_find hrow, ← hparents hrow hrow'] at hp
        obtain ⟨above', habove', hcase⟩ := hrows habove
        refine Or.inr ⟨p, above', hp, habove', Or.inl ?_⟩
        rcases hcase with ⟨other, hother, hbelow', hroot'⟩ | ⟨-, hno⟩
        · rw [hroot', hother.unique hsv hbelow' hrest]
        · exact absurd ⟨_, hsv, hrest⟩ hno
    · rcases hun.batch hrow hb with rfl | ⟨p, above, hp, habove, hor⟩
      · exact Or.inl rfl
      · obtain ⟨above', habove', hcase⟩ := hrows habove
        have hne : b ≠ batch := by
          rintro rfl
          exact hno (hun.survivor List.mem_cons_self hrow hb)
        refine Or.inr ⟨p, above', hp, habove', ?_⟩
        rcases hor with hsame | ⟨hmem, habl⟩
        · rcases hcase with ⟨other, hother, hbelow', -⟩ | ⟨rfl, -⟩
          · refine absurd ?_ hne
            obtain rfl | ⟨c, ⟨⟨r, hr, hroot⟩, -⟩, -⟩ := Relation.ReflTransGen.cases_head hbelow'
            · rw [hother.trashRoot habove] at hsame
              cases hsame
              rfl
            · rw [habove] at hr
              cases hr
              rw [hsame] at hroot
              cases hroot
              rfl
          · exact Or.inl hsame
        · exact Or.inr ⟨(List.mem_cons.mp hmem).resolve_left hne,
            by rw [hlive habove habove']; exact habl⟩
  · obtain ⟨row, hrow, -⟩ := hre.symm.find hrow'
    rw [hlive hrow hrow']
    exact hun.gone (List.mem_cons_of_mem _ hb) hrow

/-- **All of them are.** -/
theorem rerootAll_settles {opened : List Uuid} (hun : Unsettled opened db.nodes)
    (h : (forEach rerootSurvivors opened).Returns db u db') :
    db'.toStore = { db.toStore with nodes := db'.nodes } ∧ Rebatched db.nodes db'.nodes ∧
      Unsettled [] db'.nodes := by
  induction opened generalizing db with
  | nil =>
    rw [← forEach_nil_returns.mp h]
    exact ⟨rfl, .refl _, hun⟩
  | cons batch opened ih =>
    obtain ⟨m, hone, hrest⟩ := forEach_cons_returns.mp h
    obtain ⟨hs, hre, -⟩ := rerootSurvivors_nodes hone
    obtain ⟨hs', hre', hun'⟩ := ih (rerootSurvivors_settles hun hone) hrest
    exact ⟨by rw [hs', hs], hre.trans hre', hun'⟩

/-- **Well formed again**, once no batch is open. -/
theorem Unsettled.wellFormed (h : Unsettled [] t') (hw : WellFormed t) (hre : Retrashed t t')
    (hlive : ∀ {id row p above}, t'.find id = some row → row.parentId = some p →
      t'.find p = some above → row.live = true → above.live = true)
    (hroot : ∀ {id row}, t'.find id = some row → row.parentId = none → row.live = true) :
    WellFormed t' := by
  refine ⟨h.grounded, fun {id row' p} hrow' hp => ?_, fun {id row b} hrow hb => ?_,
    fun {id row'} hrow' hp => ⟨hroot hrow' hp, ?_⟩⟩
  · obtain ⟨row, hrow, hsame⟩ := hre.symm.find hrow'
    obtain ⟨howner, hparent, -, -⟩ := untrashed_eq hsame
    obtain ⟨above, habove, hdir, hown, -⟩ := hw.parent hrow (hparent.trans hp)
    obtain ⟨above', habove', hsame'⟩ := hre.find habove
    obtain ⟨howner', -, -, hbody⟩ := untrashed_eq hsame'
    exact ⟨above', habove', (isDirectory_congr hbody).trans hdir,
      howner'.trans (hown.trans howner), fun hl => hlive hrow' hp habove' hl⟩
  · rcases h.batch hrow hb with rfl | ⟨p, above, hp, habove, hor⟩
    · exact Or.inl rfl
    · rcases hor with hsame | ⟨hno, -⟩
      · exact Or.inr ⟨p, above, hp, habove, hsame⟩
      · exact absurd hno List.not_mem_nil
  · obtain ⟨row, hrow, hsame⟩ := hre.symm.find hrow'
    obtain ⟨-, hparent, -, hbody⟩ := untrashed_eq hsame
    rw [← isDirectory_congr hbody]
    exact (hw.root hrow (hparent.trans hp)).2

/-! ## A restore -/

/-- What a restore of `id` brings back: its batch, and what is above it. -/
def ComesBack (t : Table Node Node.id) (id k : Uuid) : Prop :=
  AtOrBelow t id k ∨ ∃ row, t.find k = some row ∧ row.trashRoot = some id

theorem WellFormed.folder_above (h : WellFormed t) {k : Uuid} (hrow : t.find id = some row)
    (hp : row.parentId = some p) (hup : AtOrBelow t p k) (hnode : t.find k = some node) :
    node.isDirectory = true := by
  induction hup generalizing node with
  | refl =>
    obtain ⟨above, habove, hdir, -⟩ := h.parent hrow hp
    rw [hnode] at habove
    cases habove
    exact hdir
  | tail _ hxy _ =>
    obtain ⟨r, hr, hq⟩ := find_of_parentOf hxy
    obtain ⟨above, habove, hdir, -⟩ := h.parent hr hq
    rw [hnode] at habove
    cases habove
    exact hdir

theorem trashRoot_returns {ownerId id : Uuid} (h : (trashRoot ownerId id).Returns db root db') :
    db = db' ∧ db.nodes.find id = some root ∧ root.ownerId = ownerId ∧ root.trashRoot = some id := by
  unfold trashRoot at h
  obtain ⟨found, m, hfound, h⟩ := bind_returns.mp h
  obtain ⟨rfl, rfl⟩ := query_returns.mp hfound
  obtain ⟨hroot, rfl⟩ := orFail_returns.mp h
  obtain ⟨hrow, hp⟩ := Option.filter_eq_some_iff.mp hroot
  simp only [Bool.and_eq_true, decide_eq_true_eq] at hp
  exact ⟨rfl, hrow, hp.1, by rw [hp.2, Table.find_key hrow]⟩

theorem WellFormed.climbable (h : WellFormed t) (hrow : t.find id = some row)
    (hp : row.parentId = some p) : Climbable t p where
  grounded := h.grounded p
  live := by
    intro x q r above _ hr hq habove hl
    obtain ⟨above', habove', -, -, hlive⟩ := h.parent hr hq
    rw [habove] at habove'
    cases habove'
    exact hlive hl
  folder := fun hup hnode => h.folder_above hrow hp hup hnode

theorem up_iff_of_parent {k : Uuid} (hp : parentOf t id = some p) :
    AtOrBelow t id k ↔ k = id ∨ AtOrBelow t p k := by
  refine ⟨fun ha => ?_, ?_⟩
  · rcases ha.cases_head with rfl | ⟨c, hc, hck⟩
    · exact Or.inl rfl
    · rw [hp] at hc
      cases hc
      exact Or.inr hck
  · rintro (rfl | ha)
    · exact .refl
    · exact ha.head hp

/-- What is brought back is brought back with what it stands in. -/
theorem comesBack_parent (hw : WellFormed t) {k q : Uuid} (h : ComesBack t id k)
    (hrow : t.find k = some row) (hq : row.parentId = some q) : ComesBack t id q := by
  have hup : parentOf t k = some q := by rw [parentOf_of_find hrow, hq]
  rcases h with hup' | ⟨r, hr, hb⟩
  · exact Or.inl (hup'.tail hup)
  · rw [hrow] at hr
    cases hr
    rcases hw.batch hrow hb with rfl | ⟨q', above, hq', habove, hb'⟩
    · exact Or.inl (.single hup)
    · rw [hq] at hq'
      cases hq'
      exact Or.inr ⟨above, habove, hb'⟩

/-- Once the batch and all above it are live, the other batches opened are what is unsettled. -/
theorem unsettled_of_revived {opened : List Uuid} (hw : WellFormed t) (hroot : t.find id = some root)
    (hbatch : root.trashRoot = some id) (hre : Revived (ComesBack t id) t t')
    (hopened : ∀ b, b ∈ opened ↔ ∃ k row, AtOrBelow t p k ∧ t.find k = some row ∧
      row.trashRoot = some b) (hp : root.parentId = some p) : Unsettled opened t' := by
  have hparent : parentOf t id = some p := by rw [parentOf_of_find hroot, hp]
  refine ⟨fun k => grounded_shrink (fun x => Or.inl (hre.retrashed.parentOf x)) (hw.grounded k),
    fun {k row b} hrow hb => ?_, fun {b row'} hb hrow' => ?_⟩
  · obtain ⟨hno, hold⟩ := hre.of_trashed hrow (trashed_of_trashRoot hb)
    rcases hw.batch hold hb with rfl | ⟨q, above, hq, habove, hsame⟩
    · exact Or.inl rfl
    · refine Or.inr ⟨q, ?_⟩
      by_cases hx : ComesBack t id q
      · refine ⟨above.untrashed, hq, by rw [(hre q).1 hx, habove]; rfl, Or.inr ⟨?_, rfl⟩⟩
        rcases hx with hup | ⟨r, hr, hroot'⟩
        · rcases (up_iff_of_parent hparent).mp hup with rfl | hup
          · rw [hroot] at habove
            cases habove
            rw [hbatch] at hsame
            cases hsame
            exact absurd (Or.inr ⟨row, hold, hb⟩) hno
          · exact (hopened b).mpr ⟨q, above, hup, habove, hsame⟩
        · rw [habove] at hr
          cases hr
          rw [hsame] at hroot'
          cases hroot'
          exact absurd (Or.inr ⟨row, hold, hb⟩) hno
      · exact ⟨above, hq, by rw [(hre q).2 hx, habove], Or.inl hsame⟩
  · obtain ⟨k, row, hup, hrow, hroot'⟩ := (hopened b).mp hb
    have habove : ComesBack t id b :=
      Or.inl ((hup.trans (hw.up_trashRoot hrow hroot')).head hparent)
    rw [(hre b).1 habove] at hrow'
    obtain ⟨r, -, rfl⟩ := Option.map_eq_some_iff.mp hrow'
    rfl

/-- Which nodes a restore brings back, and what it leaves of the others. -/
structure Restored (id : Uuid) (t t' : Table Node Node.id) : Prop where
  retrashed : Retrashed t t'
  live : ∀ {k row row'}, t.find k = some row → t'.find k = some row' →
    (row'.live = true ↔ row.live = true ∨ ComesBack t id k)
  dates : ∀ {k row row'}, t.find k = some row → t'.find k = some row' → row'.live = false →
    row'.trashed.map Trashed.deletedAt = row.trashed.map Trashed.deletedAt

theorem restored_of_rebatched (h : Revived (ComesBack t id) t t') {t'' : Table Node Node.id}
    (h' : Rebatched t' t'') : Restored id t t'' where
  retrashed := h.retrashed.trans h'.retrashed
  live := by
    intro k row row'' hrow hrow''
    obtain ⟨row', hrow', -⟩ := h.retrashed.find hrow
    obtain ⟨r, hr, -, hdates⟩ := h'.find hrow'
    rw [hrow''] at hr
    cases hr
    rw [live_of_dates hdates, h.live_iff hrow hrow', or_comm]
  dates := by
    intro k row row'' hrow hrow'' hdead
    obtain ⟨row', hrow', -⟩ := h.retrashed.find hrow
    obtain ⟨r, hr, -, hdates⟩ := h'.find hrow'
    rw [hrow''] at hr
    cases hr
    rw [live_of_dates hdates] at hdead
    rw [hdates]
    by_cases hx : ComesBack t id k
    · rw [(h.live_iff hrow hrow').mpr (Or.inl hx)] at hdead
      cases hdead
    · rw [(h k).2 hx, hrow] at hrow'
      cases hrow'
      rfl

/-- The nodes of one batch. -/
def BatchRows (t : Table Node Node.id) (batch : Uuid) (rows : List Node) : Prop :=
  (rows.map Node.id).Nodup ∧
    ∀ row, row ∈ rows ↔ t.find row.id = some row ∧ row.trashRoot = some batch

/-- Nothing of a batch is above its root. -/
theorem WellFormed.not_above_trashRoot (hw : WellFormed t) {k : Uuid}
    (hp : parentOf t id = some p) (hrow : t.find k = some row) (hb : row.trashRoot = some id) :
    ¬ AtOrBelow t p k := fun hup =>
  (hw.grounded id).not_up_parent hp (hup.trans (hw.up_trashRoot hrow hb))

/-- **A restore, up to what it charges.** -/
theorem restore_returns (hw : WellFormed db.nodes) (h : (restore ownerId id).Returns db node db') :
    ∃ root m restored, db.nodes.find id = some root ∧ root.ownerId = ownerId ∧
      root.trashRoot = some id ∧ BatchRows db.nodes id restored ∧
      m.toStore = { db.toStore with nodes := m.nodes } ∧ WellFormed m.nodes ∧
      Restored id db.nodes m.nodes ∧
      (chargeQuota ownerId ((restored.map Node.size).sum +
        db.versionsUnder (restored.map Node.id))).Returns m () db' ∧
      db'.nodes.find id = some node := by
  unfold restore at h
  obtain ⟨root, m, hroot, h⟩ := bind_returns.mp h
  obtain ⟨rfl, hfind, howner, hbatch⟩ := trashRoot_returns hroot
  obtain ⟨above, m₁, habove, h⟩ := bind_returns.mp h
  obtain ⟨restored, m, hrestored, h⟩ := bind_returns.mp h
  obtain ⟨hlist, rfl⟩ := query_returns.mp hrestored
  obtain ⟨_, m₂, hrevive, h⟩ := bind_returns.mp h
  obtain ⟨versions, m, hversions, h⟩ := bind_returns.mp h
  obtain ⟨hunder, rfl⟩ := query_returns.mp hversions
  obtain ⟨_, m₃, hreroot, h⟩ := bind_returns.mp h
  obtain ⟨_, m₄, hcharge, h⟩ := bind_returns.mp h
  obtain ⟨found, m, hfound, h⟩ := bind_returns.mp h
  obtain ⟨rfl, rfl⟩ := query_returns.mp hfound
  obtain ⟨hnode, rfl⟩ := orFail_returns.mp h
  unfold restoreAncestors at habove
  obtain ⟨rounds, m, hrounds, habove⟩ := bind_returns.mp habove
  obtain ⟨rfl, rfl⟩ := query_returns.mp hrounds
  obtain ⟨p, hp⟩ : ∃ p, root.parentId = some p := by
    by_contra hno
    have hl := (hw.root hfind (Option.eq_none_iff_forall_ne_some.mpr fun p hp => hno ⟨p, hp⟩)).1
    exact trashed_of_trashRoot hbatch (WellFormed.live_iff.mp hl)
  have hid : root.id = id := Table.find_key hfind
  have hparent : parentOf db.nodes id = some p := by rw [parentOf_of_find hfind, hp]
  rw [hp] at habove
  rw [hid] at hrevive hnode hlist
  obtain ⟨hs₁, hre₁, hzero, hopened⟩ := reviveAbove_nodes (hw.climbable hfind hp)
    (Nat.lt_succ_of_le (List.length_filter_le _ _)) habove
  obtain ⟨hs₂, hfind₂⟩ := revive_nodes (mapViolated_returns.mp hrevive)
  have hre₂ : Revived (ComesBack db.nodes id) db.nodes m₂.nodes := by
    refine fun k => ⟨fun hx => ?_, fun hno => ?_⟩
    · rw [hfind₂]
      by_cases hup : AtOrBelow db.nodes p k
      · rw [(hre₁ k).1 hup, Option.map_map]
        refine Option.map_congr fun r _ => ?_
        rw [Function.comp_apply]
        split_ifs <;> rfl
      · rw [(hre₁ k).2 hup]
        refine Option.map_congr fun r hr => ?_
        rw [if_pos, Node.untrashed]
        rw [decide_eq_true_eq]
        rcases hx with hx | ⟨r', hr', hb⟩
        · rcases (up_iff_of_parent hparent).mp hx with rfl | hx
          · rw [hfind] at hr
            cases hr
            exact hbatch
          · exact absurd hx hup
        · rw [hr] at hr'
          cases hr'
          exact hb
    · rw [hfind₂, (hre₁ k).2 fun hup => hno (Or.inl (hup.head hparent))]
      cases hk : db.nodes.find k with
      | none => rfl
      | some r =>
        rw [Option.map_some, if_neg]
        rw [decide_eq_true_eq]
        exact fun hb => hno (Or.inr ⟨r, hk, hb⟩)
  obtain ⟨hs₃, hre₃, hun⟩ :=
    rerootAll_settles (unsettled_of_revived hw hfind hbatch hre₂ hopened hp) hreroot
  have hres := restored_of_rebatched hre₂ hre₃
  refine ⟨root, m₃, restored, hfind, howner, hbatch, ⟨?_, fun row => ?_⟩, ?_, ?_, hres, ?_, hnode⟩
  · rw [hlist]
    exact m₁.nodes.nodup.sublist (List.filter_sublist.map _)
  · rw [hlist, Table.mem_select, decide_eq_true_eq, Table.mem_iff_find]
    refine and_congr_left fun hb => ⟨fun hrow => ?_, fun hrow => ?_⟩
    · exact (hre₁.of_trashed hrow (trashed_of_trashRoot hb)).2
    · rw [(hre₁ row.id).2 (hw.not_above_trashRoot hparent hrow hb)]
      exact hrow
  · rw [hs₃, hs₂, hs₁]
  · refine hun.wellFormed hw hres.retrashed (fun {k row' q above'} hrow' hq habove' hl => ?_)
      fun {k row'} hrow' hq => ?_
    · obtain ⟨row, hrow, hsame⟩ := hres.retrashed.symm.find hrow'
      have hq' : row.parentId = some q := (untrashed_eq hsame).2.1.trans hq
      obtain ⟨above, habove, -, -, habl⟩ := hw.parent hrow hq'
      refine (hres.live habove habove').mpr ?_
      exact ((hres.live hrow hrow').mp hl).imp habl fun hx => comesBack_parent hw hx hrow hq'
    · obtain ⟨row, hrow, hsame⟩ := hres.retrashed.symm.find hrow'
      exact (hres.live hrow hrow').mpr (Or.inl (hw.root hrow ((untrashed_eq hsame).2.1.trans hq)).1)
  · have hversions : m₂.versionsUnder (restored.map Node.id) =
        db.versionsUnder (restored.map Node.id) := by
      unfold Store.versionsUnder
      rw [hs₂, hs₁]
    rw [← hversions, ← hunder, ← zero_add (List.sum _), ← hzero]
    exact hcharge

/-- **What `restore` does to the nodes.** -/
theorem restore_nodes (hw : WellFormed db.nodes) (h : (restore ownerId id).Returns db node db') :
    Steady db.toStore db'.toStore ∧ WellFormed db'.nodes ∧ Restored id db.nodes db'.nodes ∧
      db'.nodes.find id = some node ∧
      ∃ root, db.nodes.find id = some root ∧ root.ownerId = ownerId ∧ root.trashRoot = some id := by
  obtain ⟨root, m, restored, hroot, howner, hbatch, -, hs, hwm, hres, hcharge, hnode⟩ :=
    restore_returns hw h
  have hb := keeps_chargeQuota (R := Beside) hcharge
  refine ⟨IsTrans.trans _ _ _ ?_ hb.toSteady, ?_, ?_, hnode, root, hroot, howner, hbatch⟩
  · rw [hs]
    exact ⟨rfl, rfl, rfl, rfl, le_rfl⟩
  · rw [hb.nodes]
    exact hwm
  · rw [hb.nodes]
    exact hres

end Stashden.Api
