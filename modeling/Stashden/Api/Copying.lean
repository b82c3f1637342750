import Stashden.Api.Refunds
import Stashden.Api.System

/-!
# The copying loop (`copy_tree` in `api/src/db.rs`)

`Copying` is the invariant of the loop: what is copied so far, pair by pair, and what is still to copy.
With the stack empty it says that the copy is the source's live tree over again (`CopiedTree`).
`CopyLoop` is the loop without a bound on its rounds; `Copying.ends` says that it ends, with what
`copyPending` answers.
-/

namespace Stashden.Api

open Lib Stashden.Core Tx

variable {db db' m : Db} {t t' : Table Node Node.id} {ownerId into id k : Uuid}
  {source parent copy root row original : Node} {name : NodeName} {str : Str}
  {done : List (Node × Node)} {pending : List (Uuid × Uuid)}

/-! ## One node, and the children of a folder -/

/-- `copy` has what `original` has, in a folder of this account. -/
structure CopyIn (ownerId into : Uuid) (str : Str) (original copy : Node) : Prop where
  parentId : copy.parentId = some into
  name : copy.name = str
  body : copy.body = original.body
  ownerId : copy.ownerId = ownerId
  trashed : copy.trashed = none

theorem copyOne_copies (h : (copyOne ownerId into str original).Returns db copy db') :
    CopyIn ownerId into str original copy ∧ db'.nodes.rows = db.nodes.rows ++ [copy] := by
  unfold copyOne at h
  obtain ⟨tag, m₁, htag, h⟩ := bind_returns.mp h
  obtain ⟨made, m₂, hmade, h⟩ := bind_returns.mp h
  obtain ⟨_, m₃, hacquire, h⟩ := bind_returns.mp h
  obtain ⟨rfl, rfl⟩ := pure_returns.mp h
  have hb := keeps_etagForDirectory (R := Beside) htag
  have hb' := keeps_acquireOf (R := Beside) hacquire
  obtain ⟨hnode, nodes, hins, hs⟩ := insertNode_returns (mapViolated_returns.mp hmade)
  refine ⟨?_, ?_⟩
  · rw [hnode]
    exact ⟨rfl, rfl, rfl, rfl, rfl⟩
  · rw [hb'.nodes, hs, ← hb.nodes]
    exact (Table.insert_eq_some hins).2

/-- The ids of an original and its copy, as they are on the stack. -/
def stacked (p : Node × Node) : Uuid × Uuid := (p.1.id, p.2.id)

/-- The folders among what was copied, the last one on top. -/
def folders (pairs : List (Node × Node)) : List (Uuid × Uuid) :=
  ((pairs.filter fun p => p.1.isDirectory).map stacked).reverse

theorem mem_folders {pairs : List (Node × Node)} {e : Uuid × Uuid} :
    e ∈ folders pairs ↔ ∃ p ∈ pairs, p.1.isDirectory = true ∧ stacked p = e := by
  simp only [folders, List.mem_reverse, List.mem_map, List.mem_filter, and_assoc]

/-- **The inner loop** copies each child once. -/
theorem copyChildren_copies {originals : List Node} {copied : List (Uuid × Uuid) × Int}
    (h : (copyChildren ownerId into originals).Returns db copied db') :
    ∃ pairs : List (Node × Node), pairs.map Prod.fst = originals ∧
      db'.nodes.rows = db.nodes.rows ++ pairs.map Prod.snd ∧ copied.1 = folders pairs ∧
      copied.2 = (originals.map Node.size).sum ∧
      ∀ p ∈ pairs, CopyIn ownerId into p.1.name p.1 p.2 := by
  induction originals generalizing db copied with
  | nil =>
    obtain ⟨rfl, rfl⟩ := pure_returns.mp h
    exact ⟨[], rfl, (List.append_nil _).symm, rfl, rfl, fun p hp => absurd hp List.not_mem_nil⟩
  | cons original originals ih =>
    rw [copyChildren] at h
    obtain ⟨copy, m, hcopy, h⟩ := bind_returns.mp h
    obtain ⟨rest, m', hrest, h⟩ := bind_returns.mp h
    obtain ⟨rfl, rfl⟩ := pure_returns.mp h
    obtain ⟨hin, hrows⟩ := copyOne_copies hcopy
    obtain ⟨pairs, hfst, hrows', hstack, hsize, hpairs⟩ := ih hrest
    refine ⟨(original, copy) :: pairs, by rw [List.map_cons, hfst], ?_, ?_, ?_, fun p hp => ?_⟩
    · rw [hrows', hrows, List.append_assoc]
      rfl
    · show (if original.isDirectory then rest.1 ++ [(original.id, copy.id)] else rest.1) = _
      rw [hstack, folders, folders, List.filter_cons]
      split_ifs
      · rw [List.map_cons, List.reverse_cons]
        rfl
      · rfl
    · rw [List.map_cons, List.sum_cons, hsize]
    · rcases List.mem_cons.mp hp with rfl | hp
      · exact hin
      · exact hpairs p hp

/-- A round: the live children of a folder, each with its copy in the copy of that folder. -/
structure Round (ownerId : Uuid) (t : Table Node Node.id) (top : Node × Node)
    (pairs : List (Node × Node)) : Prop where
  children : pairs.map Prod.fst = t.select fun n => n.parentId = some top.1.id && n.live
  copies : ∀ p ∈ pairs, CopyIn ownerId top.2.id p.1.name p.1 p.2

theorem Round.child {top p : Node × Node} {pairs : List (Node × Node)}
    (h : Round ownerId t top pairs) (hp : p ∈ pairs) :
    p.1 ∈ t.rows ∧ p.1.parentId = some top.1.id ∧ p.1.live = true := by
  have hmem : p.1 ∈ t.select fun n => n.parentId = some top.1.id && n.live :=
    h.children ▸ List.mem_map_of_mem hp
  simpa only [Table.mem_select, Bool.and_eq_true, decide_eq_true_eq] using hmem

theorem Round.once {top : Node × Node} {pairs : List (Node × Node)}
    (h : Round ownerId t top pairs) : (pairs.map fun p => p.1.id).Nodup := by
  have hnodup : ((pairs.map Prod.fst).map Node.id).Nodup := by
    rw [h.children]
    exact t.nodup.sublist (List.filter_sublist.map _)
  rwa [List.map_map] at hnodup

/-! ## The loop -/

/-- The loop of `copy_tree`, as long as it runs: the stack, the tables, and how it ends. -/
inductive CopyLoop (ownerId : Uuid) :
    List (Uuid × Uuid) → Db → Except ApiError (Int × Db) → Prop
  | done (db : Db) : CopyLoop ownerId [] db (.ok (0, db))
  | stops {db : Db} {source into : Uuid} {pending : List (Uuid × Uuid)} {e : ApiError}
      (h : copyChildren ownerId into (db.childrenIn source) db = .error e) :
      CopyLoop ownerId ((source, into) :: pending) db (.error e)
  | round {db m : Db} {source into : Uuid} {pending : List (Uuid × Uuid)}
      {copied : List (Uuid × Uuid) × Int} {answer : Except ApiError (Int × Db)}
      (h : (copyChildren ownerId into (db.childrenIn source)).Returns db copied m)
      (hrest : CopyLoop ownerId (copied.1 ++ pending) m answer) :
      CopyLoop ownerId ((source, into) :: pending) db
        (answer.map fun a => (copied.2 + a.1, a.2))

/-- Between two rounds: `done` are the originals with their copies, `pending` is the stack. -/
structure Copying (ownerId source into : Uuid) (t t' : Table Node Node.id)
    (done : List (Node × Node)) (pending : List (Uuid × Uuid)) : Prop where
  rows : t'.rows = t.rows ++ done.map Prod.snd
  original : ∀ p ∈ done, p.1 ∈ t.rows ∧ LiveBelow t p.1.id source
  once : (done.map fun p => p.1.id).Nodup
  content : ∀ p ∈ done, p.2.body = p.1.body ∧ p.2.ownerId = ownerId ∧ p.2.trashed = none
  placed : ∀ p ∈ done, p.1.id = source ∧ p.2.parentId = some into ∨ p.2.name = p.1.name ∧
    ∃ q ∈ done, p.1.parentId = some q.1.id ∧ p.2.parentId = some q.2.id
  stack : ∀ e ∈ pending, ∃ q ∈ done, stacked q = e
  stackOnce : (pending.map Prod.fst).Nodup
  ahead : ∀ e ∈ pending, ∀ p ∈ done, p.1.parentId ≠ some e.1
  covered : ∀ q ∈ done, stacked q ∉ pending → ∀ child ∈ t.rows, child.parentId = some q.1.id →
    child.live = true → child ∈ done.map Prod.fst

namespace Copying

/-- A copy is new. -/
theorem copy_new (h : Copying ownerId id into t t' done pending) {p : Node × Node} (hp : p ∈ done) :
    t.find p.2.id = none := by
  have hnodup := t'.nodup
  rw [h.rows, List.map_append] at hnodup
  refine Table.find_eq_none_iff.mpr fun r hr hid => ?_
  exact (List.nodup_append.mp hnodup).2.2 _ (List.mem_map_of_mem hr) _
    (List.mem_map_of_mem (List.mem_map_of_mem hp)) hid

theorem find_original (h : Copying ownerId id into t t' done pending) {p : Node × Node}
    (hp : p ∈ done) : t.find p.1.id = some p.1 := Table.mem_iff_find.mp (h.original p hp).1

theorem find_copy (h : Copying ownerId id into t t' done pending) {p : Node × Node}
    (hp : p ∈ done) : t'.find p.2.id = some p.2 := Table.mem_iff_find.mp (by
  rw [h.rows]
  exact List.mem_append_right _ (List.mem_map_of_mem hp))

theorem eq_of_original (h : Copying ownerId id into t t' done pending) {p q : Node × Node}
    (hp : p ∈ done) (hq : q ∈ done) (hid : p.1.id = q.1.id) : p = q :=
  List.inj_on_of_nodup_map h.once hp hq hid

/-- No copy is put into what is still to copy, so its children are those the source had. -/
theorem childrenIn (h : Copying ownerId id into t db.nodes done pending)
    (hapart : ¬ LiveBelow t into id) {e : Uuid × Uuid} (he : e ∈ pending) :
    db.childrenIn e.1 = t.select fun n => n.parentId = some e.1 && n.live := by
  obtain ⟨q, hq, rfl⟩ := h.stack e he
  unfold Store.childrenIn Table.select
  rw [h.rows, List.filter_append, List.append_right_eq_self, List.filter_eq_nil_iff]
  intro c hc
  obtain ⟨p, hp, rfl⟩ := List.mem_map.mp hc
  rw [Bool.and_eq_true, decide_eq_true_eq]
  rintro ⟨hparent, -⟩
  rcases h.placed p hp with ⟨-, hinto⟩ | ⟨-, r, hr, -, hr'⟩
  · rw [hinto] at hparent
    exact hapart (Option.some.inj hparent ▸ (h.original q hq).2)
  · rw [hr'] at hparent
    have hnew := h.copy_new hr
    rw [Option.some.inj hparent, show (stacked q).1 = q.1.id from rfl, h.find_original hq] at hnew
    cases hnew

variable {top : Node × Node} {pairs : List (Node × Node)}

/-- The children of the folder on top are below the source. -/
theorem below (h : Copying ownerId id into t t' done pending) (htop : top ∈ done)
    (hr : Round ownerId t top pairs) {p : Node × Node} (hp : p ∈ pairs) :
    LiveBelow t p.1.id id := by
  obtain ⟨hmem, hparent, hlive⟩ := hr.child hp
  exact (h.original top htop).2.head ⟨liveAt_of_mem hmem hlive,
    (parentOf_of_mem hmem).trans hparent⟩

/-- None of them is copied yet. -/
theorem fresh (h : Copying ownerId id into t t' done (stacked top :: pending))
    (hr : Round ownerId t top pairs) {p q : Node × Node} (hp : p ∈ pairs) (hq : q ∈ done) :
    p.1.id ≠ q.1.id := by
  obtain ⟨hmem, hparent, -⟩ := hr.child hp
  intro hid
  have hsame : p.1 = q.1 := Table.eq_of_key hmem (h.original q hq).1 hid
  exact h.ahead _ List.mem_cons_self q hq (hsame ▸ hparent)

/-- What is on the stack was copied, before or now. -/
theorem stack_next (h : Copying ownerId id into t t' done (stacked top :: pending)) :
    ∀ e ∈ folders pairs ++ pending, ∃ q ∈ done ++ pairs, stacked q = e := by
  intro e he
  rcases List.mem_append.mp he with he | he
  · obtain ⟨q, hq, -, hstack⟩ := mem_folders.mp he
    exact ⟨q, List.mem_append_right _ hq, hstack⟩
  · obtain ⟨q, hq, hstack⟩ := h.stack e (List.mem_cons_of_mem _ he)
    exact ⟨q, List.mem_append_left _ hq, hstack⟩

theorem stackOnce_next (h : Copying ownerId id into t t' done (stacked top :: pending))
    (hr : Round ownerId t top pairs) : ((folders pairs ++ pending).map Prod.fst).Nodup := by
  have hrest := h.stackOnce
  rw [List.map_cons, List.nodup_cons] at hrest
  rw [List.map_append]
  refine List.nodup_append.mpr ⟨?_, hrest.2, fun a ha b hb hab => ?_⟩
  · rw [folders, List.map_reverse, List.nodup_reverse, List.map_map]
    exact hr.once.sublist (List.filter_sublist.map _)
  · obtain ⟨e, he, rfl⟩ := List.mem_map.mp ha
    obtain ⟨p, hp, -, rfl⟩ := mem_folders.mp he
    obtain ⟨e', he', rfl⟩ := List.mem_map.mp hb
    obtain ⟨q, hq, rfl⟩ := h.stack e' (List.mem_cons_of_mem _ he')
    exact h.fresh hr hp hq hab

/-- Nothing in a folder on the stack is copied. -/
theorem ahead_next (hw : WellFormed t)
    (h : Copying ownerId id into t t' done (stacked top :: pending)) (htop : top ∈ done)
    (hr : Round ownerId t top pairs) :
    ∀ e ∈ folders pairs ++ pending, ∀ p ∈ done ++ pairs, p.1.parentId ≠ some e.1 := by
  intro e he p hp hparent
  rcases List.mem_append.mp he with he | he
  · obtain ⟨q, hq, -, rfl⟩ := mem_folders.mp he
    rcases List.mem_append.mp hp with hp | hp
    · rcases h.placed p hp with ⟨hid, -⟩ | ⟨-, r, hr', hparent', -⟩
      · -- nothing below the source is above it
        have hup := (parentOf_of_mem (h.original p hp).1).trans hparent
        exact (hw.grounded _).not_up_parent (hid ▸ hup) (h.below htop hr hq).atOrBelow
      · exact h.fresh hr hq hr' (Option.some.inj (hparent.symm.trans hparent'))
    · exact h.fresh hr hq htop (Option.some.inj (hparent.symm.trans (hr.child hp).2.1))
  · rcases List.mem_append.mp hp with hp | hp
    · exact h.ahead e (List.mem_cons_of_mem _ he) p hp hparent
    · have hrest := h.stackOnce
      rw [List.map_cons, List.nodup_cons] at hrest
      refine hrest.1 (List.mem_map.mpr ⟨e, he, ?_⟩)
      exact Option.some.inj (hparent.symm.trans (hr.child hp).2.1)

/-- The folder on top is covered by the round, and those copied in it are on the stack. -/
theorem covered_next (hw : WellFormed t)
    (h : Copying ownerId id into t t' done (stacked top :: pending)) (htop : top ∈ done)
    (hr : Round ownerId t top pairs) : ∀ q ∈ done ++ pairs, stacked q ∉ folders pairs ++ pending →
      ∀ child ∈ t.rows, child.parentId = some q.1.id → child.live = true →
        child ∈ (done ++ pairs).map Prod.fst := by
  intro q hq hno child hmem hparent hlive
  rw [List.map_append, List.mem_append]
  rcases List.mem_append.mp hq with hq | hq
  · by_cases hid : q = top
    · refine Or.inr (hr.children ▸ Table.mem_select.mpr ⟨hmem, ?_⟩)
      rw [hparent, hid, hlive, decide_eq_true rfl]
      rfl
    · refine Or.inl (h.covered q hq (fun hin => ?_) child hmem hparent hlive)
      rcases List.mem_cons.mp hin with hsame | hin
      · exact hid (h.eq_of_original hq htop (congrArg Prod.fst hsame))
      · exact hno (List.mem_append_right _ hin)
  · obtain ⟨above, habove, hdir, -⟩ := hw.parent (Table.mem_iff_find.mp hmem) hparent
    rw [Table.mem_iff_find.mp (hr.child hq).1] at habove
    cases habove
    exact absurd (List.mem_append_left _ (mem_folders.mpr ⟨q, hq, hdir, rfl⟩)) hno

/-- **The invariant after a round.** -/
theorem next (hw : WellFormed t) (h : Copying ownerId id into t t' done (stacked top :: pending))
    (htop : top ∈ done) (hr : Round ownerId t top pairs) {t₁ : Table Node Node.id}
    (hrows : t₁.rows = t'.rows ++ pairs.map Prod.snd) :
    Copying ownerId id into t t₁ (done ++ pairs) (folders pairs ++ pending) where
  rows := by rw [hrows, h.rows, List.map_append, List.append_assoc]
  original p hp := by
    rcases List.mem_append.mp hp with hp | hp
    · exact h.original p hp
    · exact ⟨(hr.child hp).1, h.below htop hr hp⟩
  once := by
    rw [List.map_append]
    refine List.nodup_append.mpr ⟨h.once, hr.once, fun a ha b hb => ?_⟩
    obtain ⟨q, hq, rfl⟩ := List.mem_map.mp ha
    obtain ⟨p, hp, rfl⟩ := List.mem_map.mp hb
    exact (h.fresh hr hp hq).symm
  content p hp := by
    rcases List.mem_append.mp hp with hp | hp
    · exact h.content p hp
    · exact ⟨(hr.copies p hp).body, (hr.copies p hp).ownerId, (hr.copies p hp).trashed⟩
  placed p hp := by
    rcases List.mem_append.mp hp with hp | hp
    · rcases h.placed p hp with hsource | ⟨hname, q, hq, hparents⟩
      · exact Or.inl hsource
      · exact Or.inr ⟨hname, q, List.mem_append_left _ hq, hparents⟩
    · exact Or.inr ⟨(hr.copies p hp).name, top, List.mem_append_left _ htop, (hr.child hp).2.1,
        (hr.copies p hp).parentId⟩
  stack := h.stack_next
  stackOnce := h.stackOnce_next hr
  ahead := h.ahead_next hw htop hr
  covered := h.covered_next hw htop hr

/-- **One round** copies the children of the folder on top, none of which is copied yet. -/
theorem step {a b : Uuid} {copied : List (Uuid × Uuid) × Int} (hw : WellFormed t)
    (hapart : ¬ LiveBelow t into id)
    (h : Copying ownerId id into t db.nodes done ((a, b) :: pending))
    (hx : (copyChildren ownerId b (db.childrenIn a)).Returns db copied m) :
    ∃ pairs, Copying ownerId id into t m.nodes (done ++ pairs) (copied.1 ++ pending) ∧
      copied.2 = (pairs.map fun p => p.1.size).sum ∧ copied.1.length ≤ pairs.length := by
  obtain ⟨top, htop, hstacked⟩ := h.stack _ List.mem_cons_self
  cases hstacked
  obtain ⟨pairs, hfst, hrows, hfolders, hsize, hpairs⟩ := copyChildren_copies hx
  rw [← hfst] at hsize
  have hr : Round ownerId t top pairs := ⟨hfst.trans (h.childrenIn hapart List.mem_cons_self), hpairs⟩
  refine ⟨pairs, hfolders ▸ h.next hw htop hr hrows, ?_, ?_⟩
  · rw [hsize, List.map_map]
    rfl
  · rw [hfolders, folders, List.length_reverse, List.length_map]
    exact List.length_filter_le _ _

theorem length_le (h : Copying ownerId id into t t' done pending) : done.length ≤ t.rows.length := by
  have hnodup : (done.map Prod.fst).Nodup := by
    refine List.Nodup.of_map Node.id ?_
    rw [List.map_map]
    exact h.once
  have hsub : done.map Prod.fst ⊆ t.rows := by
    intro r hr
    obtain ⟨p, hp, rfl⟩ := List.mem_map.mp hr
    exact (h.original p hp).1
  simpa only [List.length_map] using (hnodup.subperm hsub).length_le

/-- **The rounds** up to an empty stack. -/
theorem run {rounds : Nat} {bytes : Int} (hw : WellFormed t) (hapart : ¬ LiveBelow t into id)
    (h : Copying ownerId id into t db.nodes done pending)
    (hx : (copyPending ownerId rounds pending).Returns db bytes db') :
    ∃ pairs, Copying ownerId id into t db'.nodes (done ++ pairs) [] ∧
      bytes = (pairs.map fun p => p.1.size).sum := by
  induction rounds generalizing db done pending bytes with
  | zero =>
    cases pending with
    | nil =>
      obtain ⟨rfl, rfl⟩ := pure_returns.mp hx
      exact ⟨[], by rwa [List.append_nil], rfl⟩
    | cons e pending => exact absurd hx fail_returns
  | succ rounds ih =>
    cases pending with
    | nil =>
      obtain ⟨rfl, rfl⟩ := pure_returns.mp hx
      exact ⟨[], by rwa [List.append_nil], rfl⟩
    | cons e pending =>
      rw [copyPending] at hx
      obtain ⟨originals, m, horiginals, hx⟩ := bind_returns.mp hx
      obtain ⟨rfl, rfl⟩ := query_returns.mp horiginals
      obtain ⟨copied, m, hcopied, hx⟩ := bind_returns.mp hx
      obtain ⟨rest, m', hrest, hx⟩ := bind_returns.mp hx
      obtain ⟨rfl, rfl⟩ := pure_returns.mp hx
      obtain ⟨pairs, hstep, hsize, -⟩ := h.step hw hapart hcopied
      obtain ⟨pairs', hlast, hsize'⟩ := ih hstep hrest
      refine ⟨pairs ++ pairs', by rwa [← List.append_assoc], ?_⟩
      rw [hsize, hsize', List.map_append, List.sum_append]

/-- **The loop ends**: each folder is taken up once, so no more rounds are run than there are
nodes. -/
theorem ends {rounds : Nat} (hw : WellFormed t) (hapart : ¬ LiveBelow t into id)
    (h : Copying ownerId id into t db.nodes done pending)
    (hrounds : t.rows.length + pending.length ≤ rounds + done.length) :
    CopyLoop ownerId pending db (copyPending ownerId rounds pending db) := by
  induction rounds generalizing db done pending with
  | zero =>
    cases pending with
    | nil => exact .done db
    | cons e pending =>
      have hlen := h.length_le
      rw [List.length_cons] at hrounds
      omega
  | succ rounds ih =>
    cases pending with
    | nil => exact .done db
    | cons e pending =>
      rw [copyPending, bind_of_returns (query_returns.mpr ⟨rfl, rfl⟩)]
      cases hcopied : copyChildren ownerId e.2 (db.childrenIn e.1) db with
      | error err =>
        rw [bind_of_error hcopied]
        exact .stops hcopied
      | ok answer =>
        obtain ⟨copied, m⟩ := answer
        obtain ⟨pairs, hstep, -, hlen⟩ := h.step hw hapart hcopied
        have hround := ih hstep (by
          rw [List.length_append, List.length_append]
          rw [List.length_cons] at hrounds
          omega)
        rw [bind_of_returns hcopied]
        have hanswer : (copyPending ownerId rounds (copied.1 ++ pending) >>= fun bytes =>
            (pure (copied.2 + bytes) : Tx Int)) m =
              (copyPending ownerId rounds (copied.1 ++ pending) m).map fun a =>
                (copied.2 + a.1, a.2) := by
          cases hrest : copyPending ownerId rounds (copied.1 ++ pending) m with
          | error err => rw [bind_of_error hrest]; rfl
          | ok answer => rw [bind_of_returns hrest]; rfl
        rw [hanswer]
        exact .round hcopied hround

/-- Before the first round. -/
theorem start (hw : WellFormed db.nodes) (hrow : db.nodes.find source.id = some row)
    (hbody : row.body = source.body)
    (hx : (copyOne ownerId into str source).Returns db root m) :
    Copying ownerId source.id into db.nodes m.nodes [(row, root)] [(source.id, root.id)] := by
  obtain ⟨hin, hrows⟩ := copyOne_copies hx
  have hid : row.id = source.id := Table.find_key hrow
  refine ⟨hrows, fun p hp => ?_, List.nodup_singleton _, fun p hp => ?_, fun p hp => ?_,
    fun e he => ⟨_, List.mem_singleton.mpr rfl, ?_⟩, List.nodup_singleton _, fun e he p hp => ?_,
    fun q hq hno => ?_⟩
  · rw [List.mem_singleton.mp hp, hid]
    exact ⟨Table.find_mem hrow, .refl⟩
  · rw [List.mem_singleton.mp hp]
    exact ⟨hin.body.trans hbody.symm, hin.ownerId, hin.trashed⟩
  · rw [List.mem_singleton.mp hp]
    exact Or.inl ⟨hid, hin.parentId⟩
  · rw [List.mem_singleton.mp he, stacked, hid]
  · rw [List.mem_singleton.mp hp, List.mem_singleton.mp he]
    intro hparent
    exact (hw.grounded _).not_up_parent ((parentOf_of_find hrow).trans hparent) .refl
  · rw [List.mem_singleton.mp hq, stacked, hid] at hno
    exact absurd (List.mem_singleton.mpr rfl) hno

end Copying

/-! ## The copy -/

/-- Below `copy` stands in `t'` what stands in `t` below `source`, live node by live node. -/
structure CopiedTree (t t' : Table Node Node.id) (source copy : Uuid)
    (pairs : List (Node × Node)) : Prop where
  originals : ∀ row, row ∈ pairs.map Prod.fst ↔
    t.find row.id = some row ∧ LiveBelow t row.id source
  copies : ∀ row, row ∈ pairs.map Prod.snd ↔ t'.find row.id = some row ∧ LiveBelow t' row.id copy
  once : (pairs.map fun p => p.1.id).Nodup ∧ (pairs.map fun p => p.2.id).Nodup
  /-- The kind, the blob and the size. -/
  content : ∀ p ∈ pairs, p.2.body = p.1.body
  top : ∃ p ∈ pairs, p.1.id = source ∧ p.2.id = copy
  inside : ∀ p ∈ pairs, p.1.id ≠ source → p.2.name = p.1.name ∧
    ∃ q ∈ pairs, p.1.parentId = some q.1.id ∧ p.2.parentId = some q.2.id

/-- **Once the stack is empty**, all is copied. -/
theorem Copying.copiedTree (hw : WellFormed t) (hw' : WellFormed t')
    (h : Copying ownerId id into t t' done []) {first : Node × Node} (hfirst : first ∈ done)
    (hid : first.1.id = id) : CopiedTree t t' id first.2.id done := by
  have hinside : ∀ p ∈ done, p.1.id ≠ id → p.2.name = p.1.name ∧
      ∃ q ∈ done, p.1.parentId = some q.1.id ∧ p.2.parentId = some q.2.id :=
    fun p hp hne => (h.placed p hp).resolve_left fun hsource => hne hsource.1
  refine ⟨fun row => ⟨fun hrow => ?_, fun ⟨hrow, hbelow⟩ => ?_⟩,
    fun row => ⟨fun hrow => ?_, fun ⟨hrow, hbelow⟩ => ?_⟩, ⟨h.once, ?_⟩,
    fun p hp => (h.content p hp).1, ⟨first, hfirst, hid, rfl⟩, hinside⟩
  · obtain ⟨p, hp, rfl⟩ := List.mem_map.mp hrow
    exact ⟨h.find_original hp, (h.original p hp).2⟩
  · -- down from the source: the children of what is copied are copied
    have key : ∀ n, LiveBelow t n id → ∀ row, t.find n = some row → row ∈ done.map Prod.fst := by
      intro n hn
      induction hn using Relation.ReflTransGen.head_induction_on with
      | refl =>
        intro row hrow
        have hsame := h.find_original hfirst
        rw [hid, hrow] at hsame
        exact Option.some.inj hsame ▸ List.mem_map_of_mem hfirst
      | head hstep _ ih =>
        rename_i n p
        intro row hrow
        obtain ⟨⟨row', hrow', hlive⟩, hparent⟩ := hstep
        rw [hrow] at hrow'
        cases hrow'
        rw [parentOf_of_find hrow] at hparent
        obtain ⟨above, habove, -⟩ := hw.parent hrow hparent
        obtain ⟨q, hq, rfl⟩ := List.mem_map.mp (ih above habove)
        rw [← Table.find_key habove] at hparent
        exact h.covered q hq List.not_mem_nil row (Table.find_mem hrow) hparent hlive
    exact key _ hbelow row hrow
  · -- up from a copy: the copies of what its original is in
    obtain ⟨p, hp, rfl⟩ := List.mem_map.mp hrow
    refine ⟨h.find_copy hp, ?_⟩
    have key : ∀ n, LiveBelow t n id → ∀ p ∈ done, p.1.id = n → LiveBelow t' p.2.id first.2.id := by
      intro n hn
      induction hn using Relation.ReflTransGen.head_induction_on with
      | refl =>
        intro p hp hpid
        rw [h.eq_of_original hp hfirst (hpid.trans hid.symm)]
        exact .refl
      | head hstep _ ih =>
        intro p hp hpid
        by_cases hsource : p.1.id = id
        · rw [h.eq_of_original hp hfirst (hsource.trans hid.symm)]
          exact .refl
        · obtain ⟨-, q, hq, hparent, hparent'⟩ := hinside p hp hsource
          have habove := hstep.2
          rw [← hpid, parentOf_of_find (h.find_original hp), hparent] at habove
          refine (ih q hq (Option.some.inj habove)).head ⟨⟨p.2, h.find_copy hp, ?_⟩, ?_⟩
          · rw [Node.live, (h.content p hp).2.2]
            rfl
          · rw [parentOf_of_find (h.find_copy hp), hparent']
    exact key _ (h.original p hp).2 p hp rfl
  · -- what is in a copy is a copy: nothing there was is
    have key : ∀ n, LiveBelow t' n first.2.id → ∀ row, t'.find n = some row →
        row ∈ done.map Prod.snd := by
      intro n hn
      induction hn using Relation.ReflTransGen.head_induction_on with
      | refl =>
        intro row hrow
        have hsame := h.find_copy hfirst
        rw [hrow] at hsame
        exact Option.some.inj hsame ▸ List.mem_map_of_mem hfirst
      | head hstep _ ih =>
        intro row hrow
        have hparent := hstep.2
        rw [parentOf_of_find hrow] at hparent
        obtain ⟨above, habove, -⟩ := hw'.parent hrow hparent
        obtain ⟨q, hq, rfl⟩ := List.mem_map.mp (ih above habove)
        have hmem := Table.find_mem hrow
        rw [h.rows, List.mem_append] at hmem
        refine hmem.resolve_left fun hold => ?_
        obtain ⟨old, hfound, -⟩ := hw.parent (Table.mem_iff_find.mp hold) hparent
        have hnew := h.copy_new hq
        rw [Table.find_key habove, hfound] at hnew
        cases hnew
    exact key _ hbelow row hrow
  · have hnodup := t'.nodup
    rw [h.rows, List.map_append, List.map_map] at hnodup
    exact (List.nodup_append.mp hnodup).2.1

/-- The nodes there were are there. -/
theorem Copying.find (h : Copying ownerId id into t t' done pending) (hrow : t.find k = some row) :
    t'.find k = some row := by
  obtain ⟨hmem, rfl⟩ := Table.find_eq_some_iff.mp hrow
  refine Table.mem_iff_find.mp ?_
  rw [h.rows]
  exact List.mem_append_left _ hmem

theorem Copying.find_back (h : Copying ownerId id into t t' done pending)
    (hrow : t'.find k = some row) : t.find k = some row ∨ row ∈ done.map Prod.snd := by
  obtain ⟨hmem, rfl⟩ := Table.find_eq_some_iff.mp hrow
  rw [h.rows, List.mem_append] at hmem
  exact hmem.imp_left Table.mem_iff_find.mp

/-- **What the source holds** is what it held. -/
theorem Copying.source_still (hw : WellFormed t) (h : Copying ownerId id into t t' done pending)
    (hinto : (t.find into).isSome = true) (hid : (t.find id).isSome = true)
    (hapart : ¬ LiveBelow t into id) :
    t'.find k = some row ∧ LiveBelow t' k id ↔ t.find k = some row ∧ LiveBelow t k id := by
  -- what is above a node there was, was above it
  have hold : ∀ n, LiveBelow t' n id → ∀ row, t.find n = some row → LiveBelow t n id := by
    intro n hn
    induction hn using Relation.ReflTransGen.head_induction_on with
    | refl => exact fun _ _ => .refl
    | head hstep _ ih =>
      intro row hrow
      obtain ⟨⟨row', hrow', hlive⟩, hparent⟩ := hstep
      rw [h.find hrow] at hrow'
      cases hrow'
      rw [parentOf_of_find (h.find hrow)] at hparent
      obtain ⟨above, habove, -⟩ := hw.parent hrow hparent
      exact (ih above habove).head ⟨⟨row, hrow, hlive⟩, (parentOf_of_find hrow).trans hparent⟩
  have hnone : ∀ n, LiveBelow t' n id → ∀ p ∈ done, p.2.id ≠ n := by
    intro n hn
    induction hn using Relation.ReflTransGen.head_induction_on with
    | refl =>
      rintro p hp rfl
      rw [h.copy_new hp] at hid
      cases hid
    | head hstep hup ih =>
      rintro p hp rfl
      have hparent := hstep.2
      rw [parentOf_of_find (h.find_copy hp)] at hparent
      rcases h.placed p hp with ⟨-, hplaced⟩ | ⟨-, q, hq, -, hplaced⟩
      · obtain ⟨above, habove⟩ := Option.isSome_iff_exists.mp hinto
        rw [hplaced] at hparent
        cases hparent
        exact hapart (hold _ hup above habove)
      · rw [hplaced] at hparent
        exact ih q hq (Option.some.inj hparent)
  constructor
  · rintro ⟨hrow, hbelow⟩
    rcases h.find_back hrow with hrow' | hcopy
    · exact ⟨hrow', hold _ hbelow _ hrow'⟩
    · obtain ⟨p, hp, rfl⟩ := List.mem_map.mp hcopy
      exact absurd (Table.find_key hrow) (hnone _ hbelow p hp)
  · rintro ⟨hrow, hbelow⟩
    refine ⟨h.find hrow, Relation.ReflTransGen.mono (fun n p hstep => ?_) _ _ hbelow⟩
    obtain ⟨⟨r, hr, hlive⟩, hparent⟩ := hstep
    refine ⟨⟨r, h.find hr, hlive⟩, ?_⟩
    rw [parentOf_of_find (h.find hr), ← parentOf_of_find hr, hparent]

/-! ## What `copy_tree` does -/

theorem sameQuotas_insertNode {parentId : Option Uuid} {body : Body} {etag : Etag} :
    Keeps SameQuotas (insertNode ownerId parentId str body etag) := by
  refine keeps_bind (keeps_fresh fun _ => rfl) fun _ => keeps_bind ?_ fun _ => keeps_pure
  refine keeps_insertRow fun s s' h => ?_
  obtain ⟨nodes, -, rfl⟩ := Option.map_eq_some_iff.mp h
  exact rfl

theorem sameQuotas_copyOne : Keeps SameQuotas (copyOne ownerId into str original) := by
  refine keeps_bind (keeps_bind (keeps_fresh fun _ => rfl) fun _ => keeps_pure) fun _ =>
    keeps_bind (keeps_mapViolated sameQuotas_insertNode) fun _ => keeps_bind ?_ fun _ => keeps_pure
  cases original.blobHash with
  | none => exact keeps_pure
  | some hash => exact keeps_execute fun _ => rfl

theorem sameQuotas_copyChildren (originals : List Node) :
    Keeps SameQuotas (copyChildren ownerId into originals) := by
  induction originals with
  | nil => exact keeps_pure
  | cons original originals ih =>
    exact keeps_bind sameQuotas_copyOne fun _ => keeps_bind ih fun _ => keeps_pure

theorem sameQuotas_copyPending (rounds : Nat) :
    Keeps SameQuotas (copyPending ownerId rounds pending) := by
  induction rounds generalizing pending with
  | zero =>
    cases pending with
    | nil => exact keeps_pure
    | cons e pending => exact keeps_fail
  | succ rounds ih =>
    cases pending with
    | nil => exact keeps_pure
    | cons e pending =>
      exact keeps_bind keeps_query fun _ => keeps_bind (sameQuotas_copyChildren _) fun _ =>
        keeps_bind ih fun _ => keeps_pure

/-- A folder that `contains` does not find is not below the source. -/
theorem not_below_source (hw : WellFormed db.nodes) (hrow : db.nodes.find source.id = some row)
    (hbody : row.body = source.body) (hparent : db.nodes.find parent.id = some parent)
    (hdir : parent.isDirectory = true)
    (hinside : ¬ (source.isDirectory = true ∧
      (db.ancestry parent.id).any (fun above => above.id = source.id) = true)) :
    ¬ AtOrBelow db.nodes parent.id source.id := by
  intro hup
  by_cases hsource : source.isDirectory = true
  · refine hinside ⟨hsource, List.any_eq_true.mpr ⟨row, ?_, ?_⟩⟩
    · rw [mem_ancestry_iff hparent, Table.find_key hrow]
      exact ⟨Table.find_mem hrow, hup⟩
    · exact decide_eq_true (Table.find_key hrow)
  · rw [← isDirectory_congr hbody] at hsource
    obtain hid | ⟨c, -, hc⟩ := hup.cases_tail
    · rw [hid, hparent] at hrow
      cases hrow
      exact hsource hdir
    · obtain ⟨child, hchild, hparentId⟩ := find_of_parentOf hc
      obtain ⟨above, habove, hfolder, -⟩ := hw.parent hchild hparentId
      rw [hrow] at habove
      cases habove
      exact hsource hfolder

/-- What a copy is, beside the tables it is charged in. -/
structure Duplicated (ownerId : Uuid) (source parent copy : Node) (name : NodeName)
    (t t' : Table Node Node.id) (pairs : List (Node × Node)) : Prop where
  tree : CopiedTree t t' source.id copy.id pairs
  rows : t'.rows = t.rows ++ pairs.map Prod.snd
  copy : CopyIn ownerId parent.id name.str source copy
  owner : ∀ p ∈ pairs, p.2.ownerId = ownerId ∧ p.2.trashed = none
  /-- What the source holds is what it held. -/
  still : ∀ k row, t'.find k = some row ∧ LiveBelow t' k source.id ↔
    t.find k = some row ∧ LiveBelow t k source.id

/-- **`copy_tree`**: the copy, and its price. -/
theorem copyTree_copies (hs : Sane db.toStore) (hrow : db.nodes.find source.id = some row)
    (hbody : row.body = source.body) (hparent : db.nodes.find parent.id = some parent)
    (hlive : parent.live = true)
    (h : (copyTree parent.ownerId source parent name).Returns db copy db') :
    ¬ AtOrBelow db.nodes parent.id source.id ∧ db.child parent.id name.str = none ∧
      ∃ pairs, Duplicated parent.ownerId source parent copy name db.nodes db'.nodes pairs ∧
        ∀ o, db'.bytesUsed o =
          db.bytesUsed o + bytes parent.ownerId (pairs.map fun p => p.1.size).sum o := by
  have hs' := copyTree_sane hs ⟨row, hrow, hbody⟩ hparent hlive h
  unfold copyTree at h
  obtain ⟨hdir, h⟩ := of_guard h
  obtain ⟨inside, m, hinside, h⟩ := bind_returns.mp h
  obtain ⟨rfl, rfl⟩ := query_returns.mp hinside
  obtain ⟨hin, h⟩ := of_guard h
  obtain ⟨taken, m, htaken, h⟩ := bind_returns.mp h
  obtain ⟨rfl, rfl⟩ := child_returns.mp htaken
  obtain ⟨hsome, h⟩ := of_guard h
  obtain ⟨rounds, m, hrounds, h⟩ := bind_returns.mp h
  obtain ⟨rfl, rfl⟩ := query_returns.mp hrounds
  obtain ⟨root, m₁, hroot, h⟩ := bind_returns.mp h
  obtain ⟨copied, m₂, hcopied, h⟩ := bind_returns.mp h
  obtain ⟨_, m₃, hcharge, h⟩ := bind_returns.mp h
  obtain ⟨rfl, rfl⟩ := pure_returns.mp h
  have hapart := not_below_source hs.forest hrow hbody hparent (by simpa using hdir) hin
  have hlivepart : ¬ LiveBelow db.nodes parent.id source.id := fun h => hapart h.atOrBelow
  obtain ⟨pairs, hlast, hsize⟩ :=
    (Copying.start hs.forest hrow hbody hroot).run hs.forest hlivepart hcopied
  have hnodes : m₃.nodes = m₂.nodes := (keeps_chargeQuota (R := Beside) hcharge).nodes
  rw [← hnodes] at hlast
  have hid : row.id = source.id := Table.find_key hrow
  refine ⟨hapart, by simpa using hsome, (row, copy) :: pairs, ⟨?_, hlast.rows,
    (copyOne_copies hroot).1, fun p hp => (hlast.content p hp).2, fun k row' => ?_⟩, fun o => ?_⟩
  · exact hlast.copiedTree hs.forest hs'.forest List.mem_cons_self hid
  · exact hlast.source_still hs.forest (by rw [hparent]; rfl) (by rw [hrow]; rfl) hlivepart
  · have hquotas : m₁.quotas = db.quotas := sameQuotas_copyOne hroot
    have hquotas' : m₂.quotas = m₁.quotas := sameQuotas_copyPending _ hcopied
    rw [chargeQuota_bytesUsed hcharge, List.map_cons, List.sum_cons, size_congr hbody, ← hsize]
    unfold Store.bytesUsed
    rw [hquotas', hquotas]

end Stashden.Api
