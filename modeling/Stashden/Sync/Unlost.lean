import Stashden.Sync.Deeds
import Stashden.Sync.Removal

/-!
# No edit is lost, but where a deed falls on it (`engine.rs:187-336`)

An edit is on disk until the pass sends it: `OnDisk` says where it stands, that nothing records its
time for other bytes, and that no deed ahead falls on it unless the walk missed it. Once sent it is
`OnServer`, where nothing takes it away. `Applies` is what the loop knows of its plan.

* `Cared.step`: what happens and falls on no edit keeps both.
* `edits_kept`: no edit is lost in a run whose steps all do.
* `edit_lost`: a run in which one does not.
-/

namespace Stashden.Sync

open Lib Stashden.Core RelPath EngineM

variable {u : Unicode} {rules : Rules} {pass : Pass} {s s' : Moment} {e : LocalEdit}
  {p q : RelPath}

/-! ## What the loop knows of its plan -/

/-- What was listed is still there. -/
def Moment.Standing (s : Moment) : Prop :=
  ∀ p, s.remote.get p ≠ none → s.world.server.tree.get p ≠ none

/-- The deeds ahead are those of an action of the plan, and the actions after it the rest of it;
until the first removal nothing listed is gone. -/
structure Moment.Applies (u : Unicode) (s : Moment) (pass : Pass) (w : World) (todo : List Deed)
    (rest : List Action) : Prop where
  scan : pass.scan.entries = s.found
  tree : pass.scan.snapshot.TreeShaped
  remote : s.remote = pass.remote u w
  plan : s.plan = (pass.plan u w).actions
  done : ∃ done, s.plan = done ++ rest
  ordered : Ordered todo
  todo : todo = [] ∨ ∃ a ∈ s.plan, (∀ d ∈ todo, d ∈ deeds pass s.remote a) ∧
    (a.early = true → s.Standing) ∧ (a.early = false → ∀ b ∈ rest, b.early = false)
  standing : s.Standing ∨ ∀ b ∈ rest, b.early = false

/-- The walk reports a directory before what is in it. -/
structure Moment.Walks (s : Moment) (looking : Option (RelPath × Nat × Option Int))
    (left : List Spot) : Prop where
  plan : s.plan = []
  remote : s.remote = OrdMap.empty
  tree : (LocalScan.mk s.found []).snapshot.TreeShaped
  dirs : ∀ d, (s.found.get d).map Scanned.entry = some .directory →
    s.world.disk.get d = some .directory
  list : ∀ d, .list (some d) ∈ left → (s.found.get d).map Scanned.entry = some .directory
  name : ∀ p, .name p ∈ left → ∀ d, p.parent = some d →
    (s.found.get d).map Scanned.entry = some .directory
  looking : ∀ x ∈ looking, ∀ d, x.1.parent = some d →
    (s.found.get d).map Scanned.entry = some .directory

/-- A late action is followed by late ones. -/
theorem early_of_plan {w : World} {done rest : List Action} {a : Action}
    (h : (pass.plan u w).actions = done ++ a :: rest) (ha : a.early = false) :
    ∀ b ∈ rest, b.early = false := by
  have hord : (pass.plan u w).actions.Pairwise Action.Precedes := by
    rw [Pass.plan_eq]
    exact Held.apply_pairwise actions_pairwise
  rw [h] at hord
  obtain ⟨-, htail, -⟩ := List.pairwise_append.mp hord
  intro b hb
  have hle : a.slot.rank ≤ b.slot.rank := by
    rcases (List.rel_of_pairwise_cons htail hb).2 with hlt | ⟨he, -⟩
    · exact hlt.le
    · rw [he]
  simp only [Action.early, decide_eq_false_iff_not, not_le] at ha ⊢
  exact ha.trans_le hle

/-- A download or a deletion finds in the record what the scan reports, or reports nothing. -/
theorem recorded_of_planned {w : World} {x : Entry}
    (ha : .download p ∈ (pass.plan u w).actions ∨ .deleteLocal p ∈ (pass.plan u w).actions)
    (hx : (pass.scan.entries.get p).map Scanned.entry = some x) : w.state.base.get p = some x := by
  have hbase : (pass.base u w).get p = (pass.localSide u w).get p ∨
      (pass.localSide u w).get p = none := by
    rcases ha with ha | ha
    · rcases Pass.planned ha with ⟨_, _, _, ⟨h, -⟩ | ⟨_, _, _, _, h⟩⟩ | ⟨_, _, h, -⟩
      · exact Or.inr h
      · exact Or.inl h
      · cases h
    · rcases Pass.planned ha with ⟨_, _, _, _, h⟩ | ⟨_, _, h, -⟩
      · exact Or.inl h
      · cases h
  have hfit : (pass.unfit u w).containsKey p = false := by
    rcases ha with ha | ha
    · exact Pass.fit_of_mem ha
    · exact Pass.fit_of_mem ha
  have hlocal : (pass.localSide u w).get p = some x := by
    rw [Pass.localSide, Pass.get_fits, hfit]
    exact (LocalScan.get_snapshot _ _).trans hx
  rw [hlocal, Pass.base, Pass.get_fits, hfit] at hbase
  rcases hbase with h | h
  · exact h
  · cases h

/-- **What a pass sends, it does not remove**: the path is scanned, or its name was free. -/
theorem unremoved_of_send {w : World} {a : Action} {source : RelPath} {expect : Expect}
    (hL : pass.scan.snapshot.TreeShaped) (ha : a ∈ (pass.plan u w).actions)
    (hm : Makes pass (pass.remote u w) a (.send q source expect))
    (hfree : expect = .absent → (pass.remote u w).get q = none) :
    ∀ b ∈ (pass.plan u w).actions, b.removes = true → atOrInside b.subject q = false := by
  intro b hb hrem
  have htakes : pass.Takes u w b.subject :=
    ⟨b.subject, ⟨b, hb, hrem, rfl⟩, atOrInside_iff.mpr (Or.inl rfl)⟩
  rw [← Bool.not_eq_true, atOrInside_iff]
  cases hm with
  | send he _ =>
    subst he
    obtain ⟨hne, hnot⟩ := htakes.apart hL ha rfl
    rintro (he | hin)
    · exact hne he.symm
    · rw [show q.isInside b.subject = false from hnot] at hin
      cases hin
  | sendCopy he =>
    subst he
    obtain ⟨-, hnot⟩ := htakes.copy_apart hL ha
    rintro (he | hin)
    · obtain ⟨-, x, hx⟩ := Pass.Uproots.spec ⟨b, hb, hrem, rfl⟩
      rw [← he, hfree rfl] at hx
      cases hx
    · rw [hnot] at hin
      cases hin

/-! ## An edit on disk, and on the server -/

/-- The deeds ahead. -/
def Moment.todo (s : Moment) : List Deed :=
  match s.phase with
  | .applying todo _ => todo
  | _ => []

/-- What is known of an edit from the moment it is made. -/
structure Noted (s : Moment) (e : LocalEdit) : Prop where
  /-- The listing was taken before it was sent. -/
  unlisted : ∀ p n, s.remote.get p ≠ some (.file e.tag n)
  /-- The plan was made from a record without it. -/
  unrecorded : ∀ looking left, s.phase = .walking looking left →
    ∀ p n, s.world.state.base.get p ≠ some (.file e.tag n)
  unplanned : ∀ p, .download p ∈ s.plan ∨ .deleteLocal p ∈ s.plan →
    (s.found.get p).map Scanned.entry ≠ some e.content

/-- An edit on disk, at its path or at a copy, under a time that nothing records for other bytes. -/
structure OnDisk (u : Unicode) (s : Moment) (e : LocalEdit) : Prop where
  place : ∃ p, s.world.disk.get p = some e.content ∧ s.mtimeOf p = some e.mtimeMs
  only : ∀ p n, s.world.disk.get p = some (.file e.tag n) →
    n = e.size ∧ s.Stays e p ∧ Visible u p
  unsent : ∀ p n, s.world.server.tree.get p ≠ some (.file e.tag n)
  dated : ∀ p, s.mtimeAt p = some e.mtimeMs → s.world.disk.get p = some e.content
  unmasked : ∀ p t, s.world.state.tracked.get p = some t → t.mtimeMs = some e.mtimeMs →
    ∀ tag, t.entry = .file tag e.size → tag = e.tag
  scanned : ∀ p f, s.found.get p = some f → f.mtimeMs = some e.mtimeMs → f.entry = e.content
  looking : ∀ p n left, s.phase = .walking (some (p, n, some e.mtimeMs)) left →
    s.world.disk.get p = some e.content ∧ n = e.size
  guarded : ∀ p ∈ dangers s.todo, s.world.disk.get p = some e.content →
    (s.found.get p).map Scanned.entry ≠ some e.content

/-- An edit on the server, at its path or at a copy, where the plan removes nothing. -/
structure OnServer (s : Moment) (e : LocalEdit) : Prop where
  place : ∃ p, s.Stays e p ∧ s.world.server.tree.get p = some e.content ∧
    ∀ b ∈ s.plan, b.removes = true → atOrInside b.subject p = false
  walked : ∀ looking left, s.phase ≠ .walking looking left

/-- What the pass keeps of the edits. -/
inductive Cared (u : Unicode) (s : Moment) : Prop
  | walking {looking : Option (RelPath × Nat × Option Int)} {left : List Spot}
      (hphase : s.phase = .walking looking left) (hwalks : s.Walks looking left)
      (hedits : ∀ e ∈ s.edits, Noted s e ∧ OnDisk u s e)
  | applying {pass : Pass} {w : World} {todo : List Deed} {rest : List Action}
      (hphase : s.phase = .applying todo rest) (happlies : s.Applies u pass w todo rest)
      (hedits : ∀ e ∈ s.edits, Noted s e ∧ (OnDisk u s e ∨ OnServer s e))
  | ended (hphase : s.phase = .ended) (hedits : ∀ e ∈ s.edits, s.Keeps e)

theorem fingerprint_of_unmasked {cache : SyncState} {m : Int}
    (h : ∀ t, cache.tracked.get p = some t → t.mtimeMs = some m →
      ∀ tag, t.entry = .file tag e.size → tag = e.tag) :
    fingerprint cache p e.tag e.size (some m) = ⟨e.content, some m⟩ := by
  unfold fingerprint
  split
  · rename_i known knownSize recorded mtime htracked hm
    cases hm
    split_ifs with hsame
    · obtain ⟨rfl, rfl⟩ := hsame
      rw [h _ htracked rfl known rfl]
      rfl
    · rfl
  · rfl

theorem OnDisk.keeps (h : OnDisk u s e) : s.Keeps e := by
  obtain ⟨p, hp, hm⟩ := h.place
  refine ⟨p, (h.only p e.size hp).2.1, Or.inr ⟨hp, ?_⟩⟩
  rw [hm]
  exact fingerprint_of_unmasked (h.unmasked p)

theorem OnServer.keeps (h : OnServer s e) : s.Keeps e := by
  obtain ⟨p, hstays, hp, -⟩ := h.place
  exact ⟨p, hstays, Or.inl hp⟩

/-- **What the pass keeps of the edits, keeps them.** -/
theorem Cared.keeps (h : Cared u s) : ∀ e ∈ s.edits, s.Keeps e := by
  intro e he
  cases h with
  | walking _ _ hedits => exact (hedits e he).2.keeps
  | applying _ _ hedits =>
    rcases (hedits e he).2 with h | h
    · exact h.keeps
    · exact h.keeps
  | ended _ hedits => exact hedits e he

/-! ## A new edit -/

section Edited

variable {o : LocalEdit}

theorem Moment.Admits.unknown (h : s.Admits u e) {n : Nat} :
    s.world.disk.get p ≠ some (.file e.tag n) ∧ s.world.server.tree.get p ≠ some (.file e.tag n) ∧
      s.world.state.base.get p ≠ some (.file e.tag n) ∧
      (s.found.get p).map Scanned.entry ≠ some (.file e.tag n) ∧
      s.remote.get p ≠ some (.file e.tag n) := by
  have hno := h.tag n
  exact ⟨fun hp => hno ⟨p, Or.inl hp⟩, fun hp => hno ⟨p, Or.inr (Or.inl hp)⟩,
    fun hp => hno ⟨p, Or.inr (Or.inr (Or.inl hp))⟩,
    fun hp => hno ⟨p, Or.inr (Or.inr (Or.inr (Or.inl hp)))⟩,
    fun hp => hno ⟨p, Or.inr (Or.inr (Or.inr (Or.inr hp)))⟩⟩

theorem mem_edits_edited : o ∈ (s.edited e).edits ↔
    o = e ∨ (o ∈ s.edits ∧ s.world.disk.get e.path ≠ some o.content) := by
  simp [Moment.edited]

theorem disk_edited (p : RelPath) : (s.edited e).world.disk.get p =
    if p = e.path then some e.content else s.world.disk.get p := OrdMap.get_insert _ _ _ _

theorem mtimeAt_edited (p : RelPath) : (s.edited e).mtimeAt p =
    if p = e.path then some e.mtimeMs else s.mtimeAt p := by
  unfold Moment.mtimeAt
  rw [disk_edited]
  split_ifs with hp
  · subst hp
    exact Function.update_self _ _ _
  · have hm : (s.edited e).mtimeOf p = s.mtimeOf p := Function.update_of_ne hp _ _
    rw [hm]

/-- A new edit is noted and on disk. -/
theorem Moment.Admits.noted (h : s.Admits u e) : Noted (s.edited e) e where
  unlisted _ _ := h.unknown.2.2.2.2
  unrecorded _ _ _ _ _ := h.unknown.2.2.1
  unplanned _ _ := h.unknown.2.2.2.1

theorem Moment.Admits.onDisk (h : s.Admits u e) : OnDisk u (s.edited e) e where
  place := ⟨e.path, (disk_edited _).trans (if_pos rfl), Function.update_self _ _ _⟩
  only p n hp := by
    rw [disk_edited] at hp
    split_ifs at hp with he
    · cases hp
      subst he
      exact ⟨rfl, Or.inl rfl, h.visible⟩
    · exact absurd hp h.unknown.1
  unsent _ _ := h.unknown.2.1
  dated p hp := by
    rw [mtimeAt_edited] at hp
    rw [disk_edited]
    split_ifs at hp ⊢ with he
    · rfl
    · exact absurd (Or.inl ⟨p, Or.inl hp⟩) h.mtime
  unmasked p t ht hm _ _ := by
    refine absurd (Or.inl ⟨p, Or.inr (Or.inl ?_)⟩) h.mtime
    rw [show s.world.state.tracked.get p = some t from ht]
    exact hm
  scanned p f hf hm := by
    refine absurd (Or.inl ⟨p, Or.inr (Or.inr ?_)⟩) h.mtime
    rw [show s.found.get p = some f from hf]
    exact hm
  looking p n left hphase := absurd (Or.inr ⟨p, n, left, hphase⟩) h.mtime
  guarded _ _ _ := h.unknown.2.2.2.1

/-- An edit the user does not write over stays noted and on disk. -/
theorem Noted.edited (h : Noted s o) : Noted (s.edited e) o :=
  ⟨h.unlisted, h.unrecorded, h.unplanned⟩

theorem OnDisk.edited (hadmits : s.Admits u e) (h : OnDisk u s o)
    (hkept : s.world.disk.get e.path ≠ some o.content) : OnDisk u (s.edited e) o := by
  obtain ⟨x, hx, hm⟩ := h.place
  have hne : ∀ {p}, s.world.disk.get p = some o.content → p ≠ e.path := by
    rintro p hp rfl
    exact hkept hp
  have htag : e.tag ≠ o.tag := fun he =>
    (hadmits.unknown : s.world.disk.get x ≠ some (.file e.tag o.size) ∧ _).1 (he ▸ hx)
  have hdate : e.mtimeMs ≠ o.mtimeMs := by
    intro he
    refine hadmits.mtime (Or.inl ⟨x, Or.inl ?_⟩)
    unfold Moment.mtimeAt
    rw [hx, he]
    exact hm
  have hback : ∀ {p n}, (s.edited e).world.disk.get p = some (.file o.tag n) →
      p ≠ e.path ∧ s.world.disk.get p = some (.file o.tag n) := by
    intro p n hp
    rw [disk_edited] at hp
    split_ifs at hp with hpe
    · exact absurd (Entry.file.inj (Option.some.inj hp)).1 htag
    · exact ⟨hpe, hp⟩
  constructor
  · refine ⟨x, (disk_edited _).trans ((if_neg (hne hx)).trans hx), ?_⟩
    exact (Function.update_of_ne (hne hx) _ _).trans hm
  · intro p n hp
    exact h.only p n (hback hp).2
  · exact h.unsent
  · intro p hp
    rw [mtimeAt_edited] at hp
    split_ifs at hp with hpe
    · exact absurd (Option.some.inj hp) hdate
    · exact (disk_edited _).trans ((if_neg hpe).trans (h.dated p hp))
  · exact h.unmasked
  · exact h.scanned
  · intro p n left hphase
    obtain ⟨hp, hn⟩ := h.looking p n left hphase
    exact ⟨(disk_edited _).trans ((if_neg (hne hp)).trans hp), hn⟩
  · intro p hp hdisk
    exact h.guarded p hp (hback hdisk).2

theorem OnServer.edited (h : OnServer s o) : OnServer (s.edited e) o := ⟨h.place, h.walked⟩

theorem Keeps.edited (h : s.Keeps o)
    (hkept : s.world.disk.get e.path ≠ some o.content) : (s.edited e).Keeps o := by
  obtain ⟨p, hstays, hp | ⟨hp, hf⟩⟩ := h
  · exact ⟨p, hstays, Or.inl hp⟩
  · have hne : p ≠ e.path := by
      rintro rfl
      exact hkept hp
    refine ⟨p, hstays, Or.inr ⟨(disk_edited _).trans ((if_neg hne).trans hp), ?_⟩⟩
    rw [show (s.edited e).mtimeOf p = s.mtimeOf p from Function.update_of_ne hne _ _]
    exact hf

end Edited

/-! ## A deed -/

section Deed

variable {d : Deed} {ds : List Deed} {rest : List Action} {w : World}

/-- The moment after a deed. -/
def Moment.after (s : Moment) (w : World) (mtimeOf : RelPath → Option Int) (ds : List Deed)
    (rest : List Action) : Moment :=
  { s with world := w, mtimeOf := mtimeOf, phase := .applying ds rest }

/-- A folder in which the edit stands where it stood, and no other file took its content or time. -/
theorem OnDisk.of_disk {disk : Snapshot} {mtimeOf : RelPath → Option Int} (h : OnDisk u s e)
    (hkeep : ∀ p, s.world.disk.get p = some e.content →
      disk.get p = some e.content ∧ mtimeOf p = s.mtimeOf p)
    (hback : ∀ p t n, disk.get p = some (.file t n) →
      (s.world.disk.get p = some (.file t n) ∧ mtimeOf p = s.mtimeOf p) ∨
        (t ≠ e.tag ∧ mtimeOf p ≠ some e.mtimeMs))
    (hdangers : ∀ p ∈ dangers ds, p ∈ dangers s.todo) :
    OnDisk u (s.after { s.world with disk := disk } mtimeOf ds rest) e := by
  have hold : ∀ p n, disk.get p = some (.file e.tag n) →
      s.world.disk.get p = some (.file e.tag n) :=
    fun p n hp => ((hback p _ n hp).resolve_right fun hno => hno.1 rfl).1
  constructor
  · obtain ⟨p, hp, hm⟩ := h.place
    exact ⟨p, (hkeep p hp).1, (hkeep p hp).2.trans hm⟩
  · intro p n hp
    exact h.only p n (hold p n hp)
  · exact h.unsent
  · intro p hp
    unfold Moment.mtimeAt at hp
    split at hp
    · rename_i t n hfile
      rcases hback p t n hfile with ⟨hs, ht⟩ | ⟨-, hno⟩
      · refine (hkeep p (h.dated p ?_)).1
        unfold Moment.mtimeAt
        rw [hs]
        exact ht.symm.trans hp
      · exact absurd hp hno
    · cases hp
  · exact h.unmasked
  · exact h.scanned
  · intro p n left hphase
    cases hphase
  · intro p hp hdisk
    exact h.guarded p (hdangers p hp) (hold p e.size hdisk)

/-- A conflict that gives the file of one path the name of another. -/
theorem OnDisk.of_aside {disk : Snapshot} {source copy : RelPath} {t : Str} {n : Nat}
    (h : OnDisk u s e) (hsource : s.world.disk.get source = some (.file t n))
    (hget : ∀ p, disk.get p = if p = copy then some (.file t n)
      else if p = source then none else s.world.disk.get p)
    (hcopy : s.world.disk.get copy ≠ some e.content) (hstays : s.Stays e copy)
    (hvisible : Visible u source → Visible u copy) (hdangers : ∀ p ∈ dangers ds, p = source) :
    OnDisk u (s.after { s.world with disk := disk }
      (Function.update s.mtimeOf copy (s.mtimeOf source)) ds rest) e := by
  have hsourceAt : s.mtimeAt source = s.mtimeOf source := by
    unfold Moment.mtimeAt
    rw [hsource]
  constructor
  · obtain ⟨p, hp, hm⟩ := h.place
    have hpc : p ≠ copy := by
      rintro rfl
      exact hcopy hp
    by_cases hps : p = source
    · subst hps
      refine ⟨copy, (hget copy).trans ((if_pos rfl).trans (hsource.symm.trans hp)), ?_⟩
      exact (Function.update_self _ _ _).trans hm
    · refine ⟨p, (hget p).trans ((if_neg hpc).trans ((if_neg hps).trans hp)), ?_⟩
      exact (Function.update_of_ne hpc _ _).trans hm
  · intro p m hp
    have hp : disk.get p = some (.file e.tag m) := hp
    rw [hget] at hp
    split_ifs at hp with hpc hps
    · obtain ⟨hm, -, hv⟩ := h.only source m (hsource.trans hp)
      subst hpc
      exact ⟨hm, hstays, hvisible hv⟩
    · exact h.only p m hp
  · exact h.unsent
  · intro p hp
    simp only [Moment.mtimeAt, Moment.after] at hp
    show disk.get p = _
    by_cases hpc : p = copy
    · subst hpc
      rw [hget, if_pos rfl] at hp ⊢
      rw [← hsource]
      refine h.dated source (hsourceAt.trans ?_)
      simpa using hp
    · by_cases hps : p = source
      · rw [hget, if_neg hpc, if_pos hps] at hp
        cases hp
      · rw [hget, if_neg hpc, if_neg hps] at hp ⊢
        rw [Function.update_of_ne hpc] at hp
        exact h.dated p hp
  · exact h.unmasked
  · exact h.scanned
  · intro p m left hphase
    cases hphase
  · intro p hp hdisk
    exfalso
    obtain rfl := hdangers p hp
    have hdisk : disk.get p = some e.content := hdisk
    rw [hget] at hdisk
    by_cases hpc : p = copy
    · rw [if_pos hpc] at hdisk
      exact hcopy (hpc ▸ hsource.trans hdisk)
    · rw [if_neg hpc, if_pos rfl] at hdisk
      cases hdisk

theorem OnDisk.of_state {state : SyncState} (h : OnDisk u s e)
    (hrecord : ∀ p t, state.tracked.get p = some t → s.world.state.tracked.get p = some t ∨
      (t.mtimeMs = some e.mtimeMs → ∀ tag, t.entry = .file tag e.size → tag = e.tag))
    (hdangers : ∀ p ∈ dangers ds, p ∈ dangers s.todo) :
    OnDisk u (s.after { s.world with state := state } s.mtimeOf ds rest) e where
  place := h.place
  only := h.only
  unsent := h.unsent
  dated := h.dated
  unmasked p t ht hm := by
    rcases hrecord p t ht with hold | hno
    · exact h.unmasked p t hold hm
    · exact hno hm
  scanned := h.scanned
  looking _ _ _ hphase := by cases hphase
  guarded p hp := h.guarded p (hdangers p hp)

theorem OnDisk.of_server {server : Server} {report : Report} (h : OnDisk u s e)
    (hserver : ∀ p n, server.tree.get p ≠ some (.file e.tag n))
    (hdangers : ∀ p ∈ dangers ds, s.world.disk.get p = some e.content → p ∈ dangers s.todo) :
    OnDisk u (s.after { s.world with server := server, report := report } s.mtimeOf ds rest) e where
  place := h.place
  only := h.only
  unsent := hserver
  dated := h.dated
  unmasked := h.unmasked
  scanned := h.scanned
  looking _ _ _ hphase := by cases hphase
  guarded p hp hdisk := h.guarded p (hdangers p hp hdisk) hdisk

theorem OnDisk.not_unsent (h : OnDisk u s e) (he : e ∈ s.edits) (hno : ∀ o, ¬ s.Unsent p o) :
    s.world.disk.get p ≠ some e.content :=
  fun hp => hno e ⟨he, hp, h.unsent p e.size⟩

/-- What replaces or deletes a file the walk did read. -/
theorem OnDisk.spared (h : OnDisk u s e) (he : e ∈ s.edits) (hp : p ∈ dangers s.todo)
    (hspares : ∀ o, s.Unsent p o → (s.found.get p).map Scanned.entry = some o.content) :
    s.world.disk.get p ≠ some e.content :=
  fun hdisk => h.guarded p hp hdisk (hspares e ⟨he, hdisk, h.unsent p e.size⟩)

/-- Recording directories records no file. -/
theorem tracked_recordDirectories {t : Tracked} {ds : List RelPath} {state : SyncState}
    (h : (ds.foldl (fun state d => state.record d .directory none) state).tracked.get q = some t) :
    state.tracked.get q = some t ∨ t.entry = .directory := by
  induction ds generalizing state with
  | nil => exact Or.inl h
  | cons d ds ih =>
    rcases ih h with h | h
    · have h : (state.tracked.insert d ⟨.directory, none⟩).get q = some t := h
      rw [OrdMap.get_insert] at h
      split_ifs at h
      · cases h
        exact Or.inr rfl
      · exact Or.inl h
    · exact Or.inr h

/-- The copy of a conflict of the plan. -/
theorem conflictCopy_of_planned {localSide remote base : Snapshot} {now : DateTime} {a : Action}
    {copy : RelPath} (h : Planned localSide remote base now a) (hcopy : a.copy = some copy) :
    conflictCopy a.subject now = some copy := by
  cases a with
  | keepBoth x c =>
    cases hcopy
    rcases h with h | ⟨_, _, he, -⟩
    · exact h.2.2.2.2
    · cases he
  | setAside x c =>
    cases hcopy
    exact h.of_setAside.2.2.2.2
  | _ => cases hcopy

/-- **What is sent is the file as it is then**: the edit, if it stands there. -/
theorem OnDisk.sent {a : Action} {w₀ w : World} {expect : Expect} {mtimeOf : RelPath → Option Int}
    (hphase : s.todo = .call (.send q q expect) :: ds) (hL : pass.scan.snapshot.TreeShaped)
    (hremote : s.remote = pass.remote u w₀) (hplan : s.plan = (pass.plan u w₀).actions)
    (ha : a ∈ s.plan) (hmakes : Makes pass s.remote a (.send q q expect)) (hstanding : s.Standing)
    (htimes : s.Retimes mtimeOf (.send q q expect))
    (hok : perform u (.send q q expect) s.world = .ok () w) (h : OnDisk u s e) :
    OnDisk u (s.after w mtimeOf ds rest) e ∨ OnServer (s.after w mtimeOf ds rest) e := by
  obtain rfl : mtimeOf = s.mtimeOf := htimes
  simp only [perform, uploadFrom, ok_bind, ok_readFile, ok_onServer] at hok
  obtain ⟨⟨tag, size⟩, _, ⟨hfile, rfl⟩, server, hs, rfl⟩ := hok
  obtain ⟨hcan, hget, -⟩ := putFile_ok hs
  by_cases hq : s.world.disk.get q = some e.content
  · have hfree : expect = .absent → (pass.remote u w₀).get q = none := by
      rintro rfl
      rcases hcan with ⟨_, _, he, -⟩ | ⟨-, hnone, -⟩
      · cases he
      · by_contra hlisted
        exact hstanding q (hremote ▸ hlisted) hnone
    rw [hremote] at hmakes
    rw [hplan] at ha
    refine Or.inr ⟨⟨q, (h.only q e.size hq).2.1, ?_, ?_⟩, fun _ _ hw => by cases hw⟩
    · show server.tree.get q = _
      rw [hget, put, Function.update_self, ← hfile]
      exact hq
    · show ∀ b ∈ s.plan, _
      rw [hplan]
      exact unremoved_of_send hL ha hmakes hfree
  · refine Or.inl (h.of_server (fun p n hp => ?_) fun p hp hdisk => ?_)
    · by_cases hpq : p = q
      · subst hpq
        rw [hget, put, Function.update_self] at hp
        obtain ⟨rfl, -, -⟩ := h.only p n (hfile.trans hp)
        exact hq (hfile.trans hp)
      · rw [hget, put_of_ne hpq] at hp
        split_ifs at hp
        · cases hp
        · exact h.unsent p n hp
    · rw [hphase]
      refine List.mem_filter.mpr ⟨hp, decide_eq_true ?_⟩ 
      rintro rfl
      exact hq hdisk

/-- A call that leaves every file that holds the edit, and makes no other file. -/
theorem OnDisk.of_kept {disk : Snapshot} (h : OnDisk u s e)
    (hkeep : ∀ p, s.world.disk.get p = some e.content → disk.get p = some e.content)
    (hback : ∀ p t n, disk.get p = some (.file t n) → s.world.disk.get p = some (.file t n))
    (hdangers : ∀ p ∈ dangers ds, p ∈ dangers s.todo) :
    OnDisk u (s.after { s.world with disk := disk } s.mtimeOf ds rest) e :=
  h.of_disk (fun p hp => ⟨hkeep p hp, rfl⟩) (fun p t n hp => Or.inl ⟨hback p t n hp, rfl⟩) hdangers

theorem OnDisk.not_hides (h : OnDisk u s e) (hp : s.world.disk.get p = some e.content) :
    hides u p = false :=
  (h.only p e.size hp).2.2.not_hides

/-- **What is fetched** goes to a hidden file. -/
theorem OnDisk.fetched {staged : RelPath} {mtimeOf : RelPath → Option Int} (he : e ∈ s.edits)
    (hstaged : partialOf p = some staged) (htimes : s.Retimes mtimeOf (.fetch p staged))
    (hok : perform u (.fetch p staged) s.world = .ok () w)
    (hdangers : ∀ p ∈ dangers ds, p ∈ dangers s.todo) (h : OnDisk u s e) :
    OnDisk u (s.after w mtimeOf ds rest) e := by
  have hhid := (partialOf_spec (u := u) hstaged).1
  obtain ⟨htimes, htime⟩ := htimes
  simp only [perform, downloadTo, ok_bind, ok_readFile, ok_onDisk] at hok
  obtain ⟨⟨tag, size⟩, _, ⟨hserver, rfl⟩, disk, hd, rfl⟩ := hok
  split_ifs at hd
  cases hd
  refine h.of_disk (fun q hq => ?_) (fun q t n hq => ?_) hdangers
  · have hne : q ≠ staged := by
      rintro rfl
      rw [h.not_hides hq] at hhid
      cases hhid
    exact ⟨(OrdMap.get_insert_of_ne _ _ hne).trans hq, htimes q hne⟩
  · rw [OrdMap.get_insert] at hq
    split_ifs at hq with hqs
    · cases hq
      subst hqs
      refine Or.inr ⟨?_, htime e he⟩
      rintro rfl
      exact h.unsent p _ hserver
    · exact Or.inl ⟨hq, htimes q hqs⟩

/-- **What comes into place** was a hidden file, and the edit is not there. -/
theorem OnDisk.cameIntoPlace {staged : RelPath} (hstaged : partialOf p = some staged)
    (hp : s.world.disk.get p ≠ some e.content)
    (hok : perform u (.rename (.moving p) staged p) s.world = .ok () w)
    (hdangers : ∀ p ∈ dangers ds, p ∈ dangers s.todo) (h : OnDisk u s e) :
    OnDisk u (s.after w (Function.update s.mtimeOf p (s.mtimeOf staged)) ds rest) e := by
  have hhid := (partialOf_spec (u := u) hstaged).1
  obtain ⟨disk, hd, rfl⟩ := ok_onDisk.mp hok
  obtain ⟨t, n, hsource, -, hget⟩ := renameFile_ok hd
  have htag : t ≠ e.tag := by
    rintro rfl
    rw [(h.only staged n hsource).2.2.not_hides] at hhid
    cases hhid
  have htime : s.mtimeOf staged ≠ some e.mtimeMs := by
    intro hm
    have hat : s.mtimeAt staged = some e.mtimeMs := by
      unfold Moment.mtimeAt
      rw [hsource]
      exact hm
    rw [h.not_hides (h.dated staged hat)] at hhid
    cases hhid
  refine h.of_disk (fun q hq => ?_) (fun q t' n' hq => ?_) hdangers
  · have hqp : q ≠ p := by
      rintro rfl
      exact hp hq
    have hqs : q ≠ staged := by
      rintro rfl
      rw [h.not_hides hq] at hhid
      cases hhid
    refine ⟨?_, Function.update_of_ne hqp _ _⟩
    rw [hget, if_neg hqp, if_neg hqs]
    exact hq
  · rw [hget] at hq
    by_cases hqp : q = p
    · rw [if_pos hqp] at hq
      cases hq
      subst hqp
      exact Or.inr ⟨htag, by rwa [Function.update_self]⟩
    · rw [if_neg hqp] at hq
      split_ifs at hq
      exact Or.inl ⟨hq, Function.update_of_ne hqp _ _⟩

/-- What is recorded at a path is no other file of the edit's size and time. -/
theorem OnDisk.of_record {entry : Entry} {mtimeMs : Option Int} (h : OnDisk u s e)
    (hentry : mtimeMs = some e.mtimeMs → ∀ tag, entry = .file tag e.size → tag = e.tag)
    (hdangers : ∀ p ∈ dangers ds, p ∈ dangers s.todo) :
    OnDisk u (s.after { s.world with state := s.world.state.record q entry mtimeMs } s.mtimeOf ds
      rest) e := by
  refine h.of_state (fun p t ht => ?_) hdangers
  have ht : (s.world.state.tracked.insert q ⟨entry, mtimeMs⟩).get p = some t := ht
  rw [OrdMap.get_insert] at ht
  split_ifs at ht
  · cases ht
    exact Or.inr hentry
  · exact Or.inl ht

/-- Directories that are made take the place of no file. -/
theorem OnDisk.madeDirectories {disk : Snapshot} {made : RelPath → Prop} [DecidablePred made]
    (h : OnDisk u s e)
    (hkeep : ∀ p, s.world.disk.get p = some e.content → disk.get p = some e.content)
    (hget : ∀ p, disk.get p = if made p then some .directory else s.world.disk.get p)
    (hdangers : ∀ p ∈ dangers ds, p ∈ dangers s.todo) :
    OnDisk u (s.after { s.world with disk := disk } s.mtimeOf ds rest) e := by
  refine h.of_kept hkeep (fun p t n hp => ?_) hdangers
  rw [hget] at hp
  split_ifs at hp
  · cases hp
  · exact hp

/-- What is removed was not the edit. -/
theorem OnDisk.removed {disk : Snapshot} {gone : RelPath → Prop} [DecidablePred gone]
    (h : OnDisk u s e) (hother : ∀ p, gone p → s.world.disk.get p ≠ some e.content)
    (hget : ∀ p, disk.get p = if gone p then none else s.world.disk.get p)
    (hdangers : ∀ p ∈ dangers ds, p ∈ dangers s.todo) :
    OnDisk u (s.after { s.world with disk := disk } s.mtimeOf ds rest) e := by
  refine h.of_kept (fun p hp => ?_) (fun p t n hp => ?_) hdangers
  · rw [hget, if_neg fun hgone => hother p hgone hp]
    exact hp
  · rw [hget] at hp
    split_ifs at hp
    exact hp

/-- A call to the server that sends nothing. -/
theorem OnDisk.notSent {server : Server} (h : OnDisk u s e)
    (hback : ∀ p t n, server.tree.get p = some (.file t n) →
      s.world.server.tree.get p = some (.file t n))
    (hdangers : ∀ p ∈ dangers ds, p ∈ dangers s.todo) :
    OnDisk u (s.after { s.world with server := server } s.mtimeOf ds rest) e :=
  h.of_server (fun p n hp => h.unsent p n (hback p _ n hp)) fun p hp _ => hdangers p hp

/-- **A call leaves an edit on disk, or sends it.** -/
theorem OnDisk.call {a : Action} {c : Call} {w₀ w : World} {mtimeOf : RelPath → Option Int}
    (hphase : s.todo = .call c :: ds) (hordered : Ordered (.call c :: ds))
    (hscan : pass.scan.entries = s.found) (hL : pass.scan.snapshot.TreeShaped)
    (hremote : s.remote = pass.remote u w₀) (hplan : s.plan = (pass.plan u w₀).actions)
    (ha : a ∈ s.plan) (hmem : .call c ∈ deeds pass s.remote a)
    (hstanding : a.early = true → s.Standing) (he : e ∈ s.edits) (hspares : (Deed.call c).Spares s)
    (hok : perform u c s.world = .ok () w) (htimes : s.Retimes mtimeOf c) (h : OnDisk u s e) :
    OnDisk u (s.after w mtimeOf ds rest) e ∨ OnServer (s.after w mtimeOf ds rest) e := by
  obtain ⟨hmakes, hnorecord⟩ := makes_of_mem_deeds hmem
  have hahead : dangers ds ⊆ dangers (.call c :: ds) → ∀ p ∈ dangers ds, p ∈ dangers s.todo := by
    rw [hphase]
    exact fun hsub p hp => hsub hp
  cases hmakes with
  | fail reason => cases hok
  | note update =>
    obtain rfl : mtimeOf = s.mtimeOf := htimes
    simp only [perform, ok_onReport] at hok
    subst hok
    exact Or.inl (h.of_server h.unsent fun p hp _ => hahead (fun _ hp => hp) p hp)
  | createDirectories p =>
    obtain rfl : mtimeOf = s.mtimeOf := htimes
    obtain ⟨disk, hd, rfl⟩ := ok_onDisk.mp hok
    exact Or.inl (h.madeDirectories
      (fun q hq => file_perform (c := .createDirectories p) rfl hq hok)
      (fun q => (createDirAll_ok hd q).1) (hahead fun _ hp => hp))
  | createParents p =>
    obtain rfl : mtimeOf = s.mtimeOf := htimes
    obtain ⟨disk, hd, rfl⟩ := ok_onDisk.mp hok
    exact Or.inl (h.madeDirectories (fun q hq => file_perform (c := .createParents p) rfl hq hok)
      (fun q => (createParents_ok hd q).1) (hahead fun _ hp => hp))
  | fetch hstaged => exact Or.inl (h.fetched he hstaged htimes hok (hahead fun _ hp => hp))
  | intoPlace hstaged =>
    obtain rfl := htimes
    exact Or.inl (h.cameIntoPlace hstaged
      (h.spared he (by rw [hphase]; exact List.mem_cons_self) hspares) hok
      (hahead fun _ hp => List.mem_cons_of_mem _ hp))
  | aside hcopy =>
    obtain rfl := htimes
    obtain ⟨disk, hd, rfl⟩ := ok_onDisk.mp hok
    obtain ⟨t, n, hsource, -, hget⟩ := renameFile_ok hd
    refine Or.inl (h.of_aside hsource hget (h.not_unsent he hspares) (Or.inr ⟨a, ha, hcopy⟩) ?_
      (hordered.1 _ _ _ rfl))
    rw [hplan] at ha
    exact visible_conflictCopy (conflictCopy_of_planned (Pass.planned ha) hcopy)
  | removeFile p =>
    obtain rfl : mtimeOf = s.mtimeOf := htimes
    obtain ⟨disk, hd, rfl⟩ := ok_onDisk.mp hok
    refine Or.inl (h.removed (fun q hq => ?_) (removeFile_ok hd).2
      (hahead fun _ hp => List.mem_cons_of_mem _ hp))
    exact hq ▸ h.spared he (by rw [hphase]; exact List.mem_cons_self) hspares
  | removeIgnored p =>
    obtain rfl : mtimeOf = s.mtimeOf := htimes
    obtain ⟨disk, hd, rfl⟩ := ok_onDisk.mp hok
    obtain ⟨-, hkept⟩ := removeIgnored_ok hd
    exact Or.inl (h.of_kept (fun q hq => (hkept q (h.not_hides hq)).trans hq)
      (fun q t n hq => removeIgnored_back hd hq) (hahead fun _ hp => hp))
  | removeDirectory p =>
    obtain rfl : mtimeOf = s.mtimeOf := htimes
    obtain ⟨disk, hd, rfl⟩ := ok_onDisk.mp hok
    obtain ⟨-, hget⟩ := removeEmpty_ok hd
    refine Or.inl (h.removed (fun q hq hfile => ?_) hget (hahead fun _ hp => hp))
    have hkept : disk.get q = _ := file_perform (c := .removeDirectory p) rfl hfile hok
    rw [hget, if_pos hq] at hkept
    cases hkept
  | makeRemote p =>
    obtain rfl : mtimeOf = s.mtimeOf := htimes
    obtain ⟨server, hs, rfl⟩ := ok_onServer.mp hok
    refine Or.inl (h.notSent (fun q t n hq => ?_) (hahead fun _ hp => hp))
    obtain ⟨-, -, hget, -⟩ := createDirectory_ok hs
    rw [hget, Function.update_apply, dirsAbove] at hq
    split_ifs at hq
    · cases hq
    · cases hq
    · exact hq
  | removeRemote hrem =>
    obtain rfl : mtimeOf = s.mtimeOf := htimes
    obtain ⟨server, hs, rfl⟩ := ok_onServer.mp hok
    refine Or.inl (h.notSent (fun q t n hq => ?_) (hahead fun _ hp => hp))
    obtain ⟨-, hget, -⟩ := remove_ok hs
    rw [hget, cut] at hq
    split_ifs at hq
    exact hq
  | recordDirectory p =>
    obtain rfl : mtimeOf = s.mtimeOf := htimes
    simp only [perform, ok_onState] at hok
    subst hok
    exact Or.inl (h.of_record (fun hm => by cases hm) (hahead fun _ hp => hp))
  | recordScanned hfound =>
    obtain rfl : mtimeOf = s.mtimeOf := htimes
    simp only [perform, ok_onState] at hok
    subst hok
    refine Or.inl (h.of_record (fun hm tag htag => ?_) (hahead fun _ hp => hp))
    have hcontent := h.scanned _ _ (hscan ▸ hfound) hm
    exact (Entry.file.inj (htag.symm.trans hcontent)).1
  | recordBack hf p entry mtimeMs => exact absurd rfl (hnorecord hf p entry mtimeMs)
  | recordAbove p =>
    obtain rfl : mtimeOf = s.mtimeOf := htimes
    simp only [perform, ok_onState] at hok
    subst hok
    refine Or.inl (h.of_state (fun q t ht => ?_) (hahead fun _ hp => hp))
    refine (tracked_recordDirectories ht).imp_right fun hdir _ tag htag => ?_
    rw [hdir] at htag
    cases htag
  | forget p =>
    obtain rfl : mtimeOf = s.mtimeOf := htimes
    simp only [perform, ok_onState] at hok
    subst hok
    refine Or.inl (h.of_state (fun q t ht => ?_) (hahead fun _ hp => hp))
    have ht : (s.world.state.tracked.erase p).get q = some t := ht
    rw [OrdMap.get_erase] at ht
    split_ifs at ht
    exact Or.inl ht
  | send hupload hfound =>
    subst hupload
    exact h.sent hphase hL hremote hplan ha (.send rfl hfound) (hstanding rfl) htimes hok
  | sendCopy hkeep =>
    subst hkeep
    exact h.sent hphase hL hremote hplan ha (.sendCopy rfl) (hstanding rfl) htimes hok

/-- The record of a file under the time it shows. -/
theorem OnDisk.readBack {entry : Entry} (hphase : s.todo = .readBack p entry :: ds)
    (he : e ∈ s.edits) (hspares : (Deed.readBack p entry).Spares s) (h : OnDisk u s e) :
    OnDisk u (s.after { s.world with state := s.world.state.record p entry (s.mtimeAt p) }
      s.mtimeOf ds rest) e := by
  refine h.of_state (fun q t ht => ?_) fun q hq => ?_
  · have ht : (s.world.state.tracked.insert p ⟨entry, s.mtimeAt p⟩).get q = some t := ht
    rw [OrdMap.get_insert] at ht
    split_ifs at ht
    · cases ht
      refine Or.inr fun hm tag htag => absurd htag ?_
      exact hspares e ⟨he, h.dated p hm, h.unsent p e.size⟩ tag
    · exact Or.inl ht
  · rw [hphase]
    exact List.mem_cons_of_mem _ hq

/-- **What is on the server stays there.** -/
theorem OnServer.call {a : Action} {c : Call} {w : World} {mtimeOf : RelPath → Option Int}
    (ha : a ∈ s.plan) (hmem : .call c ∈ deeds pass s.remote a) (hnoted : Noted s e)
    (hok : perform u c s.world = .ok () w) (h : OnServer s e) :
    OnServer (s.after w mtimeOf ds rest) e := by
  obtain ⟨p, hstays, hp, hunremoved⟩ := h.place
  refine ⟨⟨p, hstays, server_perform ?_ ?_ hp hok, hunremoved⟩, fun _ _ hw => by cases hw⟩
  · rintro source expect rfl
    cases (makes_of_mem_deeds hmem).1 with
    | send =>
      unfold expectOf
      split
      · rename_i tag n hlisted
        rintro ⟨⟩
        exact hnoted.unlisted p n hlisted
      · rintro ⟨⟩
    | sendCopy => rintro ⟨⟩
  · rintro d rfl
    cases (makes_of_mem_deeds hmem).1 with
    | removeRemote hrem => exact hunremoved a ha hrem

theorem Noted.after {w : World} {mtimeOf : RelPath → Option Int} (h : Noted s e) :
    Noted (s.after w mtimeOf ds rest) e :=
  ⟨h.unlisted, (fun _ _ hw => by cases hw), h.unplanned⟩

/-- The loop goes on. -/
theorem Moment.Applies.call {c : Call} {w₀ w : World} {mtimeOf : RelPath → Option Int}
    (h : s.Applies u pass w₀ (.call c :: ds) rest) (hok : perform u c s.world = .ok () w) :
    (s.after w mtimeOf ds rest).Applies u pass w₀ ds rest := by
  obtain ⟨a, ha, hmem, hearly, hlate⟩ := h.todo.resolve_left (List.cons_ne_nil _ _)
  have hstays : a.early = true → s.Standing → (s.after w mtimeOf ds rest).Standing := by
    intro he hs p hp
    refine server_stands (fun d hd => ?_) (hs p hp) hok
    subst hd
    cases (makes_of_mem_deeds (hmem _ List.mem_cons_self)).1 with
    | removeRemote hrem =>
      rw [Action.not_early_of_removes hrem] at he
      cases he
  refine ⟨h.scan, h.tree, h.remote, h.plan, h.done, h.ordered.2, Or.inr ⟨a, ha, ?_, ?_, hlate⟩, ?_⟩
  · exact fun d hd => hmem d (List.mem_cons_of_mem _ hd)
  · exact fun he => hstays he (hearly he)
  · cases he : a.early with
    | true => exact Or.inl (hstays he (hearly he))
    | false => exact Or.inr (hlate he)

theorem Moment.Applies.readBack {entry : Entry} {w₀ : World} {state : SyncState}
    (h : s.Applies u pass w₀ (.readBack p entry :: ds) rest) :
    (s.after { s.world with state := state } s.mtimeOf ds rest).Applies u pass w₀ ds rest := by
  obtain ⟨a, ha, hmem, hearly, hlate⟩ := h.todo.resolve_left (List.cons_ne_nil _ _)
  refine ⟨h.scan, h.tree, h.remote, h.plan, h.done, h.ordered.2, Or.inr ⟨a, ha, ?_, ?_, hlate⟩,
    h.standing⟩
  · exact fun d hd => hmem d (List.mem_cons_of_mem _ hd)
  · exact hearly

/-- **A deed that spares the edits keeps them.** -/
theorem Cared.does (hphase : s.phase = .applying (d :: ds) rest)
    {w₀ : World} (happlies : s.Applies u pass w₀ (d :: ds) rest)
    (hedits : ∀ e ∈ s.edits, Noted s e ∧ (OnDisk u s e ∨ OnServer s e)) (hspares : d.Spares s)
    (hdone : Moment.Does u d s s') : Cared u { s' with phase := .applying ds rest } := by
  have htodo : s.todo = d :: ds := by
    unfold Moment.todo
    rw [hphase]
  obtain ⟨a, ha, hmem, hearly, -⟩ := happlies.todo.resolve_left (List.cons_ne_nil _ _)
  cases hdone with
  | @call _ c w mtimeOf hok htimes =>
    show Cared u (s.after w mtimeOf ds rest)
    refine .applying rfl (happlies.call hok) fun e he => ?_
    obtain ⟨hnoted, hor⟩ := hedits e he
    refine ⟨hnoted.after, ?_⟩
    rcases hor with h | h
    · exact h.call htodo happlies.ordered happlies.scan happlies.tree happlies.remote
        happlies.plan ha (hmem _ List.mem_cons_self) hearly he hspares hok htimes
    · exact Or.inr (h.call ha (hmem _ List.mem_cons_self) hnoted hok)
  | @readBack _ p entry =>
    show Cared u (s.after { s.world with state := s.world.state.record p entry (s.mtimeAt p) }
      s.mtimeOf ds rest)
    refine .applying rfl happlies.readBack fun e he => ?_
    obtain ⟨hnoted, hor⟩ := hedits e he
    refine ⟨hnoted.after, ?_⟩
    rcases hor with h | h
    · exact Or.inl (h.readBack htodo he hspares)
    · exact Or.inr ⟨h.place, fun _ _ hw => by cases hw⟩

end Deed

/-! ## The walk and the plan -/

section Walk

variable {looking looking' : Option (RelPath × Nat × Option Int)} {left left' : List Spot}

/-- The moment after a step of the walk. -/
def Moment.walked (s : Moment) (found : OrdMap RelPath Scanned)
    (looking : Option (RelPath × Nat × Option Int)) (left : List Spot) : Moment :=
  { s with found := found, phase := .walking looking left }

theorem Noted.walked {found : OrdMap RelPath Scanned} (hphase : s.phase = .walking looking left)
    (hplan : s.plan = []) (h : Noted s e) : Noted (s.walked found looking' left') e where
  unlisted := h.unlisted
  unrecorded _ _ _ := h.unrecorded looking left hphase
  unplanned p hp := by
    have hp : .download p ∈ s.plan ∨ .deleteLocal p ∈ s.plan := hp
    simp [hplan] at hp

/-- The walk goes on, and finds an edit as it is. -/
theorem OnDisk.walked {found : OrdMap RelPath Scanned}
    (hfound : ∀ p f, found.get p = some f → f.mtimeMs = some e.mtimeMs →
      s.found.get p = some f ∨ f.entry = e.content)
    (hlooking : ∀ p n, looking' = some (p, n, some e.mtimeMs) →
      s.world.disk.get p = some e.content ∧ n = e.size) (h : OnDisk u s e) :
    OnDisk u (s.walked found looking' left') e where
  place := h.place
  only := h.only
  unsent := h.unsent
  dated := h.dated
  unmasked := h.unmasked
  scanned p f hf hm := by
    rcases hfound p f hf hm with hold | hnew
    · exact h.scanned p f hold hm
    · exact hnew
  looking p n left hphase := by
    cases hphase
    exact hlooking p n rfl
  guarded _ hp := by cases hp

/-- The entries of a walk that goes on. -/
theorem treeShaped_insert {found : OrdMap RelPath Scanned} {f : Scanned}
    (hparent : ∀ d, p.parent = some d → (found.get d).map Scanned.entry = some .directory)
    (hold : (found.get p).map Scanned.entry = some .directory → f.entry = .directory)
    (h : (LocalScan.mk found []).snapshot.TreeShaped) :
    (LocalScan.mk (found.insert p f) []).snapshot.TreeShaped := by
  have hget : ∀ q, (LocalScan.mk (found.insert p f) []).snapshot.get q =
      if q = p then some f.entry else (LocalScan.mk found []).snapshot.get q := by
    intro q
    rw [LocalScan.get_snapshot, LocalScan.get_snapshot]
    show ((found.insert p f).get q).map Scanned.entry = _
    rw [OrdMap.get_insert]
    split_ifs <;> rfl
  intro q x hq d hd
  have hdir : (LocalScan.mk found []).snapshot.get d = some .directory := by
    rw [hget] at hq
    split_ifs at hq with hqp
    · subst hqp
      rw [LocalScan.get_snapshot]
      exact hparent d hd
    · exact h q x hq d hd
  rw [hget]
  split_ifs with hdp
  · subst hdp
    rw [LocalScan.get_snapshot] at hdir
    rw [hold hdir]
  · exact hdir

theorem fingerprint_ne_directory {cache : SyncState} {tag : Str} {size : Nat} {m : Option Int} :
    (fingerprint cache p tag size m).entry ≠ .directory := by
  unfold fingerprint
  split
  · split_ifs <;> simp
  · simp

theorem map_entry_insert {found : OrdMap RelPath Scanned} {f : Scanned} (q : RelPath) :
    ((found.insert p f).get q).map Scanned.entry =
      if q = p then some f.entry else (found.get q).map Scanned.entry := by
  rw [OrdMap.get_insert]
  split_ifs <;> rfl

theorem map_entry_inserted {found : OrdMap RelPath Scanned} {f : Scanned} {q : RelPath} {x : Entry}
    (h : ((found.insert p f).get q).map Scanned.entry = some x) :
    q = p ∧ f.entry = x ∨ (found.get q).map Scanned.entry = some x := by
  rw [map_entry_insert] at h
  split_ifs at h with hq
  · exact Or.inl ⟨hq, Option.some.inj h⟩
  · exact Or.inr h

/-- What was found a directory still is. -/
theorem map_entry_insert_directory {found : OrdMap RelPath Scanned} {f : Scanned} {d : RelPath}
    (hold : (found.get p).map Scanned.entry = some .directory → f.entry = .directory)
    (h : (found.get d).map Scanned.entry = some .directory) :
    ((found.insert p f).get d).map Scanned.entry = some .directory := by
  rw [map_entry_insert]
  split_ifs with hd
  · rw [hold (hd ▸ h)]
  · exact h

section Walks

variable {left : List Spot} {q : RelPath} {m : Option Int} {size : Nat} {tag : Str}

/-- A name is done with. -/
theorem Moment.Walks.skipped {spot : Spot} (h : s.Walks none (spot :: left)) :
    (s.walked s.found none left).Walks none left where
  plan := h.plan
  remote := h.remote
  tree := h.tree
  dirs := h.dirs
  list d hd := h.list d (List.mem_cons_of_mem _ hd)
  name p hp := h.name p (List.mem_cons_of_mem _ hp)
  looking := h.looking

/-- The names in a directory are read. -/
theorem Moment.Walks.listed {d : Option RelPath} {names : List RelPath}
    (hin : ∀ p ∈ names, p.parent = d) (h : s.Walks none (.list d :: left)) :
    (s.walked s.found none (names.map .name ++ left)).Walks none (names.map .name ++ left) where
  plan := h.plan
  remote := h.remote
  tree := h.tree
  dirs := h.dirs
  list x hx := by
    rcases List.mem_append.mp hx with hx | hx
    · obtain ⟨_, -, he⟩ := List.mem_map.mp hx
      cases he
    · exact h.list x (List.mem_cons_of_mem _ hx)
  name p hp x hx := by
    rcases List.mem_append.mp hp with hp | hp
    · obtain ⟨_, hn, he⟩ := List.mem_map.mp hp
      cases he
      refine h.list x ?_
      rw [← hx, hin p hn]
      exact List.mem_cons_self
    · exact h.name p (List.mem_cons_of_mem _ hp) x hx
  looking := h.looking

/-- A directory is entered. -/
theorem Moment.Walks.entered (hdir : s.world.disk.get q = some .directory)
    (h : s.Walks none (.name q :: left)) :
    (s.walked (s.found.insert q ⟨.directory, none⟩) none (.list (some q) :: left)).Walks none
      (.list (some q) :: left) where
  plan := h.plan
  remote := h.remote
  tree := treeShaped_insert (h.name q List.mem_cons_self) (fun _ => rfl) h.tree
  dirs d hd := by
    rcases map_entry_inserted hd with ⟨rfl, -⟩ | hd
    · exact hdir
    · exact h.dirs d hd
  list d hd := by
    rcases List.mem_cons.mp hd with hd | hd
    · cases hd
      exact (map_entry_insert _).trans (if_pos rfl)
    · exact map_entry_insert_directory (fun _ => rfl) (h.list d (List.mem_cons_of_mem _ hd))
  name x hx d hd := by
    rcases List.mem_cons.mp hx with hx | hx
    · cases hx
    · exact map_entry_insert_directory (fun _ => rfl) (h.name x (List.mem_cons_of_mem _ hx) d hd)
  looking x hx := by cases hx

/-- A file is looked at. -/
theorem Moment.Walks.looked (h : s.Walks none (.name q :: left)) :
    (s.walked s.found (some (q, size, m)) left).Walks (some (q, size, m)) left where
  plan := h.plan
  remote := h.remote
  tree := h.tree
  dirs := h.dirs
  list d hd := h.list d (List.mem_cons_of_mem _ hd)
  name p hp := h.name p (List.mem_cons_of_mem _ hp)
  looking x hx := by
    obtain rfl := Option.some.inj hx
    exact h.name q List.mem_cons_self

/-- What was looked at is hashed. -/
theorem Moment.Walks.hashed {now : Nat} (hfile : s.world.disk.get q = some (.file tag now))
    (h : s.Walks (some (q, size, m)) left) :
    (s.walked (s.found.insert q (fingerprint s.world.state q tag size m)) none left).Walks none
      left := by
  have hnodir : (s.found.get q).map Scanned.entry = some .directory →
      (fingerprint s.world.state q tag size m).entry = .directory := fun hd => by
    have hdir := h.dirs q hd
    rw [hfile] at hdir
    cases hdir
  constructor
  · exact h.plan
  · exact h.remote
  · exact treeShaped_insert (h.looking _ rfl) hnodir h.tree
  · intro d hd
    rcases map_entry_inserted hd with ⟨-, hd⟩ | hd
    · exact absurd hd fingerprint_ne_directory
    · exact h.dirs d hd
  · exact fun d hd => map_entry_insert_directory hnodir (h.list d hd)
  · exact fun x hx d hd => map_entry_insert_directory hnodir (h.name x hx d hd)
  · exact fun x hx => by cases hx

end Walks

/-- What is found of an edit that was looked at is the edit: its bytes are hashed after its time was
read. -/
theorem OnDisk.hashed {q : RelPath} {tag : Str} {size now : Nat} {m : Option Int} {left : List Spot}
    (hphase : s.phase = .walking (some (q, size, m)) left)
    (hfile : s.world.disk.get q = some (.file tag now))
    (hm : (fingerprint s.world.state q tag size m).mtimeMs = some e.mtimeMs) (h : OnDisk u s e) :
    (fingerprint s.world.state q tag size m).entry = e.content := by
  have hm' : m = some e.mtimeMs := by
    rw [← hm]
    unfold fingerprint
    split
    · rename_i hs
      split_ifs <;> rfl
    · rfl
  subst hm'
  obtain ⟨hat, rfl⟩ := h.looking q size _ hphase
  obtain ⟨rfl, -⟩ := Entry.file.inj (Option.some.inj (hfile.symm.trans hat))
  rw [fingerprint_of_unmasked (h.unmasked q)]

/-- The edits of a walk that goes on. -/
theorem Cared.goesOn {found : OrdMap RelPath Scanned} (hphase : s.phase = .walking looking left)
    (hplan : s.plan = []) (hwalks : (s.walked found looking' left').Walks looking' left')
    (hedits : ∀ e ∈ s.edits, Noted s e ∧ OnDisk u s e)
    (hfound : ∀ e, OnDisk u s e → ∀ p f, found.get p = some f → f.mtimeMs = some e.mtimeMs →
      s.found.get p = some f ∨ f.entry = e.content)
    (hlooking : ∀ e, OnDisk u s e → ∀ p n, looking' = some (p, n, some e.mtimeMs) →
      s.world.disk.get p = some e.content ∧ n = e.size) :
    Cared u (s.walked found looking' left') := by
  refine .walking rfl hwalks fun e he => ?_
  obtain ⟨hnoted, hdisk⟩ := hedits e he
  exact ⟨hnoted.walked hphase hplan, hdisk.walked (hfound e hdisk) (hlooking e hdisk)⟩

/-- **A step of the walk keeps the edits**, and finds those made before it. -/
theorem Cared.walked {s' : Moment} (hphase : s.phase = .walking looking left)
    (hwalks : s.Walks looking left) (hedits : ∀ e ∈ s.edits, Noted s e ∧ OnDisk u s e)
    (h : Moment.Step u rules .walk s s') : Cared u s' := by
  cases h with
  | @listed _ d left₁ names hphase₁ hall hin =>
    rw [hphase] at hphase₁
    cases hphase₁
    exact .goesOn hphase hwalks.plan (hwalks.listed hin) hedits (fun _ _ _ _ hf _ => Or.inl hf)
      fun _ _ _ _ hl => by cases hl
  | @hidden _ q left₁ hphase₁ hhidden =>
    rw [hphase] at hphase₁
    cases hphase₁
    exact .goesOn hphase hwalks.plan hwalks.skipped hedits (fun _ _ _ _ hf _ => Or.inl hf)
      fun _ _ _ _ hl => by cases hl
  | @entered _ q left₁ hphase₁ hseen hdir =>
    rw [hphase] at hphase₁
    cases hphase₁
    refine .goesOn hphase hwalks.plan (hwalks.entered hdir) hedits (fun e _ p f hf hm => ?_)
      fun _ _ _ _ hl => by cases hl
    rw [OrdMap.get_insert] at hf
    split_ifs at hf
    · cases hf
      cases hm
    · exact Or.inl hf
  | @looked _ q left₁ tag size hphase₁ hseen hfile =>
    rw [hphase] at hphase₁
    cases hphase₁
    refine .goesOn hphase hwalks.plan hwalks.looked hedits (fun _ _ _ _ hf _ => Or.inl hf)
      fun e hdisk p n hl => ?_
    simp only [Option.some.injEq, Prod.mk.injEq] at hl
    obtain ⟨rfl, rfl, hm⟩ := hl
    have hat : s.world.disk.get q = some e.content := hdisk.dated q <| by
      unfold Moment.mtimeAt
      rw [hfile]
      exact hm
    exact ⟨hat, (Entry.file.inj (Option.some.inj (hfile.symm.trans hat))).2⟩
  | @hashed _ q size m _ tag now hphase₁ hfile =>
    rw [hphase] at hphase₁
    cases hphase₁
    refine .goesOn hphase hwalks.plan (hwalks.hashed hfile) hedits (fun e hdisk p f hf hm => ?_)
      fun _ _ _ _ hl => by cases hl
    rw [OrdMap.get_insert] at hf
    split_ifs at hf with hpq
    · obtain rfl := Option.some.inj hf
      exact Or.inr (hdisk.hashed hphase hfile hm)
    · exact Or.inl hf

/-- **The plan is made from a scan that knows the edits it found.** -/
theorem Cared.planned {pass : Pass} (hphase : s.phase = .walking none [])
    (hscan : pass.scan.entries = s.found) (hwalks : s.Walks none [])
    (hedits : ∀ e ∈ s.edits, Noted s e ∧ OnDisk u s e) :
    Cared u { s with
      world := { s.world with report := pass.report u s.world }
      remote := pass.remote u s.world
      plan := (pass.plan u s.world).actions
      phase := .applying [] (pass.plan u s.world).actions } := by
  have hL : pass.scan.snapshot.TreeShaped := by
    have htree := hwalks.tree
    rw [← hscan] at htree
    exact htree
  refine .applying (w := s.world) rfl
    ⟨hscan, hL, rfl, rfl, ⟨[], rfl⟩, trivial, Or.inl rfl, Or.inl fun p hp => ?_⟩ fun e he => ?_
  · obtain ⟨x, hx⟩ := Option.ne_none_iff_exists'.mp hp
    show s.world.server.tree.get p ≠ none
    rw [(Pass.remote_eq_some hx).1]
    simp
  · obtain ⟨hnoted, hdisk⟩ := hedits e he
    refine ⟨⟨fun p n hp => hdisk.unsent p n (Pass.remote_eq_some hp).1,
      (fun _ _ hw => by cases hw), ?_⟩, Or.inl ⟨hdisk.place, fun p n hp => ?_, hdisk.unsent,
        hdisk.dated, hdisk.unmasked, hdisk.scanned, (fun _ _ _ hw => by cases hw),
        fun _ hp => by cases hp⟩⟩
    · intro p hp hx
      rw [← hscan] at hx
      exact hnoted.unrecorded _ _ hphase p e.size (recorded_of_planned hp hx)
    · obtain ⟨hn, hstays, hvisible⟩ := hdisk.only p n hp
      refine ⟨hn, hstays.imp_right ?_, hvisible⟩
      rintro ⟨a, ha, -⟩
      rw [hwalks.plan] at ha
      cases ha

end Walk

/-! ## Any step, and any run -/

theorem Moment.Walks.edited {looking : Option (RelPath × Nat × Option Int)} {left : List Spot}
    (hadmits : s.Admits u e) (h : s.Walks looking left) : (s.edited e).Walks looking left where
  plan := h.plan
  remote := h.remote
  tree := h.tree
  dirs d hd := by
    have hdir := h.dirs d hd
    rw [disk_edited, if_neg]
    · exact hdir
    · rintro rfl
      exact hadmits.file hdir
  list := h.list
  name := h.name
  looking := h.looking

theorem Cared.edited (hadmits : s.Admits u e) (h : Cared u s) : Cared u (s.edited e) := by
  cases h with
  | walking hphase hwalks hedits =>
    refine .walking hphase (hwalks.edited hadmits) fun o ho => ?_
    rcases mem_edits_edited.mp ho with rfl | ⟨ho, hkept⟩
    · exact ⟨hadmits.noted, hadmits.onDisk⟩
    · exact ⟨(hedits o ho).1.edited, (hedits o ho).2.edited hadmits hkept⟩
  | applying hphase happlies hedits =>
    have happlies' : (s.edited e).Applies u _ _ _ _ := ⟨happlies.scan, happlies.tree,
      happlies.remote, happlies.plan, happlies.done, happlies.ordered, happlies.todo, happlies.standing⟩
    refine .applying hphase happlies' fun o ho => ?_
    rcases mem_edits_edited.mp ho with rfl | ⟨ho, hkept⟩
    · exact ⟨hadmits.noted, Or.inl hadmits.onDisk⟩
    · exact ⟨(hedits o ho).1.edited,
        (hedits o ho).2.imp (fun h => h.edited hadmits hkept) fun h => h.edited⟩
  | ended hphase hedits =>
    refine .ended hphase fun o ho => ?_
    rcases mem_edits_edited.mp ho with rfl | ⟨ho, hkept⟩
    · exact hadmits.onDisk.keeps
    · exact Keeps.edited (hedits o ho) hkept

/-- **The step lemma**: what happens falls on no edit, and the edits are kept. -/
theorem Cared.step {event : Event} (hspares : event.Spares u rules s)
    (hstep : Moment.Step u rules event s s') (h : Cared u s) : Cared u s' := by
  have hwalk : event = .walk → Cared u s' := by
    rintro rfl
    cases h with
    | walking hphase hwalks hedits => exact Cared.walked hphase hwalks hedits hstep
    | applying hphase | ended hphase =>
      cases hstep with
      | listed hphase₁ | hidden hphase₁ | entered hphase₁ | looked hphase₁ | hashed hphase₁ =>
        cases hphase.symm.trans hphase₁
  cases hstep with
  | edited hadmits => exact h.edited hadmits
  | stopped => exact .ended rfl h.keeps
  | listed | hidden | entered | looked | hashed => exact hwalk rfl
  | planned hphase hscan hrules =>
    cases h with
    | walking hphase₁ hwalks hedits =>
      rw [hphase] at hphase₁
      cases hphase₁
      exact Cared.planned hphase hscan hwalks hedits
    | applying hphase₁ => cases hphase.symm.trans hphase₁
    | ended hphase₁ => cases hphase.symm.trans hphase₁
  | @turned _ pass₁ a rest hphase hscan =>
    cases h with
    | walking hphase₁ => cases hphase.symm.trans hphase₁
    | ended hphase₁ => cases hphase.symm.trans hphase₁
    | @applying pass w _ _ hphase₁ happlies hedits =>
      rw [hphase] at hphase₁
      cases hphase₁
      rw [deeds_congr (hscan.trans happlies.scan.symm)]
      obtain ⟨done, hdone⟩ := happlies.done
      have ha : a ∈ s.plan := hdone ▸ List.mem_append_right _ List.mem_cons_self
      have hlate : a.early = false → ∀ b ∈ rest, b.early = false :=
        early_of_plan (happlies.plan.symm.trans hdone)
      have hstanding : a.early = true → s.Standing := fun he =>
        happlies.standing.resolve_right fun hall => by
          rw [hall a List.mem_cons_self] at he
          cases he
      refine .applying rfl ⟨happlies.scan, happlies.tree, happlies.remote, happlies.plan,
        ⟨done ++ [a], by simpa using hdone⟩, ordered_deeds a,
        Or.inr ⟨a, ha, fun d hd => hd, hstanding, hlate⟩, ?_⟩ fun e he => ?_
      · exact happlies.standing.imp_right fun hall b hb => hall b (List.mem_cons_of_mem _ hb)
      · obtain ⟨hnoted, hor⟩ := hedits e he
        refine ⟨⟨hnoted.unlisted, (fun _ _ hw => by cases hw), hnoted.unplanned⟩, ?_⟩
        refine hor.imp (fun h => ?_) fun h => ⟨h.place, fun _ _ hw => by cases hw⟩
        refine ⟨h.place, h.only, h.unsent, h.dated, h.unmasked, h.scanned,
          (fun _ _ _ hw => by cases hw), fun p hp _ => ?_⟩
        -- Only a download or a deletion is dangerous, and those are of what the scan knows.
        refine hnoted.unplanned p ?_
        rcases dangers_deeds hp with rfl | rfl
        · exact Or.inl ha
        · exact Or.inr ha
  | did hphase hdone =>
    cases h with
    | walking hphase₁ => cases hphase.symm.trans hphase₁
    | ended hphase₁ => cases hphase.symm.trans hphase₁
    | applying hphase₁ happlies hedits =>
      rw [hphase] at hphase₁
      cases hphase₁
      exact Cared.does hphase happlies hedits hspares hdone
  | @failed _ todo rest report hphase =>
    cases h with
    | walking hphase₁ => cases hphase.symm.trans hphase₁
    | ended hphase₁ => cases hphase.symm.trans hphase₁
    | applying hphase₁ happlies hedits =>
      rw [hphase] at hphase₁
      cases hphase₁
      refine .applying rfl ⟨happlies.scan, happlies.tree, happlies.remote, happlies.plan,
        happlies.done, trivial, Or.inl rfl, happlies.standing⟩ fun e he => ?_
      obtain ⟨hnoted, hor⟩ := hedits e he
      refine ⟨⟨hnoted.unlisted, (fun _ _ hw => by cases hw), hnoted.unplanned⟩, ?_⟩
      refine hor.imp (fun h => ?_) fun h => ⟨h.place, fun _ _ hw => by cases hw⟩
      have hkept : OnDisk u (s.after { s.world with server := s.world.server, report := report }
          s.mtimeOf [] rest) e := h.of_server h.unsent fun _ hp _ => by cases hp
      exact hkept
  | @saved _ pass₁ disk hphase hscan hsave =>
    cases h with
    | walking hphase₁ => cases hphase.symm.trans hphase₁
    | ended hphase₁ => cases hphase.symm.trans hphase₁
    | applying hphase₁ happlies hedits =>
      refine .ended rfl fun e he => ?_
      rcases (hedits e he).2 with h | h
      · obtain ⟨p, hp, hm⟩ := h.place
        have hfree : rules.takesFor u stagedStateName p = false :=
          hspares p e ⟨he, hp, h.unsent p e.size⟩
        refine ⟨p, (h.only p e.size hp).2.1, Or.inr ⟨(hsave p hfree).trans hp, ?_⟩⟩
        show fingerprint _ p e.tag e.size (s.mtimeOf p) = ⟨e.content, s.mtimeOf p⟩
        rw [hm]
        refine fingerprint_of_unmasked fun t ht hm tag htag => ?_
        rcases tracked_recordDirectories ht with hold | hdir
        · exact h.unmasked p t hold hm tag htag
        · rw [hdir] at htag
          cases htag
      · obtain ⟨p, hstays, hp, -⟩ := h.place
        exact ⟨p, hstays, Or.inl hp⟩

/-- **No edit is lost** in a run in which nothing falls on one. -/
theorem edits_kept (u : Unicode) (rules : Rules) (w : World) (mtimeOf : RelPath → Option Int)
    (s : Moment) (h : Relation.ReflTransGen (Moment.NextSparing u rules) (.start w mtimeOf) s) :
    ∀ e ∈ s.edits, s.Keeps e := by
  have hcared : Cared u s := by
    induction h with
    | refl =>
      refine .walking rfl ⟨rfl, rfl, (fun _ _ hp => by cases hp), (fun _ hd => by cases hd),
        ?_, ?_, ?_⟩ fun _ he => by cases he
      · simp
      · simp
      · simp
    | tail _ hnext ih =>
      obtain ⟨event, hstep, hspares⟩ := hnext
      exact ih.step hspares hstep
  exact hcared.keeps

/-! ## A download that falls on an edit -/

/-- `a` changed on the server since the last pass. -/
def behind : World where
  disk := OrdMap.ofList [(pathA, .file ['x'] 1)]
  server := ⟨OrdMap.ofList [(pathA, .file ['y'] 1)], []⟩
  state := ⟨OrdMap.ofList [(pathA, ⟨.file ['x'] 1, none⟩)]⟩
  report := .default

/-- What the walk finds of it. -/
def behindFound : OrdMap RelPath Scanned :=
  OrdMap.empty.insert pathA (fingerprint behind.state pathA ['x'] 1 (some 0))

/-- The pass. -/
def behindPass : Pass :=
  ⟨⟨false, false⟩, none, .unixEpoch, ⟨behindFound, []⟩, fun _ => none⟩

/-- The user writes `a`. -/
def writeA : LocalEdit := ⟨pathA, ['z'], 1, 5⟩

def pathB : RelPath := ⟨['b'], by decide⟩

/-- The user makes a file `b`. -/
def writeB : LocalEdit := ⟨pathB, ['z'], 1, 5⟩

/-- The pass once it is planned, with the deeds and the folder it has come to. -/
def behindAt (disk : Snapshot) (todo : List Deed) (rest : List Action) : Moment where
  world := { behind with disk := disk, report := behindPass.report .ascii behind }
  mtimeOf := fun _ => some 0
  found := behindFound
  remote := behindPass.remote .ascii behind
  plan := [.download pathA]
  edits := []
  phase := .applying todo rest

/-- `.a.stashpart` holds the server's version. -/
def stagedA : RelPath := ⟨"a.stashpart".toList, by decide⟩

/-- What the deeds of the download are, before they move it into place. -/
def movingA : List Deed :=
  [.call (.rename (.moving pathA) stagedA pathA), .readBack pathA (.file ['y'] 1),
    .call (.note fun r => { r with downloaded := r.downloaded + 1 })]

/-- The folder once the server's version is staged. -/
def stagedDisk : Snapshot := behind.disk.insert stagedA (.file ['y'] 1)

/-- A call that falls on nothing. -/
theorem Moment.NextSparing.call {u : Unicode} {rules : Rules} {s : Moment} {c : Call} {w : World}
    {mtimeOf : RelPath → Option Int} {todo : List Deed} {rest : List Action}
    (hphase : s.phase = .applying (.call c :: todo) rest) (hok : perform u c s.world = .ok () w)
    (htimes : s.Retimes mtimeOf c) (hspares : (Deed.call c).Spares s) :
    Moment.NextSparing u rules s
      { s with world := w, mtimeOf := mtimeOf, phase := .applying todo rest } :=
  ⟨.deed (.call c), .did hphase (.call hok htimes), hspares⟩

theorem behind_staged : Relation.ReflTransGen (Moment.NextSparing .ascii ⟨false, false⟩)
    (.start behind fun _ => some 0) (behindAt stagedDisk movingA []) := by
  have hplan : (behindPass.plan .ascii behind).actions = [.download pathA] := by decide +kernel
  have hfile : behind.disk.get pathA = some (.file ['x'] 1) := by decide +kernel
  have hlisted : Moment.NextSparing .ascii ⟨false, false⟩ (.start behind fun _ => some 0)
      { Moment.start behind (fun _ => some 0) with
        phase := .walking none ([pathA].map Spot.name ++ []) } := by
    refine ⟨.walk, .listed rfl ?_ (by decide +kernel), trivial⟩
    intro p _ hp
    obtain ⟨e, he⟩ := Option.ne_none_iff_exists'.mp hp
    have hall : ∀ x ∈ behind.disk.entries, x.1 ∈ [pathA] := by decide +kernel
    exact hall _ (OrdMap.get_eq_some_iff.mp he)
  have hlooked : Moment.NextSparing .ascii ⟨false, false⟩
      { Moment.start behind (fun _ => some 0) with
        phase := .walking none ([pathA].map Spot.name ++ []) }
      { Moment.start behind (fun _ => some 0) with
        phase := .walking (some (pathA, 1, some 0)) [] } :=
    ⟨.walk, .looked rfl (by decide +kernel) hfile, trivial⟩
  have hhashed : Moment.NextSparing .ascii ⟨false, false⟩
      { Moment.start behind (fun _ => some 0) with phase := .walking (some (pathA, 1, some 0)) [] }
      { Moment.start behind (fun _ => some 0) with
        found := behindFound, phase := .walking none [] } :=
    ⟨.walk, .hashed rfl hfile, trivial⟩
  have hplanned : Moment.NextSparing .ascii ⟨false, false⟩
      { Moment.start behind (fun _ => some 0) with
        found := behindFound, phase := .walking none [] }
      (behindAt behind.disk [] [.download pathA]) := by
    unfold behindAt
    rw [← hplan]
    exact ⟨.plan, .planned rfl rfl rfl, trivial⟩
  have hturned : Moment.NextSparing .ascii ⟨false, false⟩
      (behindAt behind.disk [] [.download pathA])
      (behindAt behind.disk
        (.call (.createParents pathA) :: .call (.fetch pathA stagedA) :: movingA) []) := by
    refine ⟨.turn, ?_, trivial⟩
    exact .turned (s := behindAt behind.disk [] [.download pathA]) rfl
      (rfl : behindPass.scan.entries = behindFound)
  have hparents : Moment.NextSparing .ascii ⟨false, false⟩
      (behindAt behind.disk
        (.call (.createParents pathA) :: .call (.fetch pathA stagedA) :: movingA) [])
      (behindAt behind.disk (.call (.fetch pathA stagedA) :: movingA) []) :=
    .call (s := behindAt behind.disk _ []) (c := .createParents pathA) rfl rfl rfl trivial
  have hfetched : Moment.NextSparing .ascii ⟨false, false⟩
      (behindAt behind.disk (.call (.fetch pathA stagedA) :: movingA) [])
      (behindAt stagedDisk movingA []) :=
    .call (s := behindAt behind.disk _ []) (c := .fetch pathA stagedA) rfl rfl
      ⟨fun _ _ => rfl, fun _ he => by cases he⟩ trivial
  exact ((((((Relation.ReflTransGen.single hlisted).tail hlooked).tail hhashed).tail hplanned).tail
    hturned).tail hparents).tail hfetched

/-- Every entry of a moment, and every time but those its files show. -/
def Moment.entries (s : Moment) : List (RelPath × Entry) :=
  s.world.disk.entries ++ s.world.server.tree.entries ++ s.world.state.base.entries ++
    (s.found.mapVal Scanned.entry).entries ++ s.remote.entries

theorem Moment.Knows.mem_entries {s : Moment} {x : Entry} (h : s.Knows x) :
    ∃ p, (p, x) ∈ s.entries := by
  obtain ⟨p, hp⟩ := h
  rw [← OrdMap.get_mapVal] at hp
  simp only [OrdMap.get_eq_some_iff] at hp
  refine ⟨p, ?_⟩
  simp only [Moment.entries, List.mem_append, or_assoc]
  exact hp

theorem admits_write {e : LocalEdit} (he : e = writeA ∨ e = writeB) :
    (behindAt stagedDisk movingA []).Admits .ascii e where
  visible := by rcases he with rfl | rfl <;> decide +kernel
  parent d hd := by
    have hnone : e.path.parent = none := by rcases he with rfl | rfl <;> decide +kernel
    cases hnone.symm.trans hd
  file := by rcases he with rfl | rfl <;> decide +kernel
  tag n hn := by
    obtain ⟨p, hp⟩ := hn.mem_entries
    have hall : ∀ x ∈ (behindAt stagedDisk movingA []).entries,
        x.2 = .file ['x'] 1 ∨ x.2 = .file ['y'] 1 := by decide +kernel
    rcases he with rfl | rfl <;> rcases hall _ hp with h | h <;> cases h
  mtime := by
    have hm : e.mtimeMs = 5 := by rcases he with rfl | rfl <;> rfl
    rw [hm]
    rintro (⟨p, h | h | h⟩ | ⟨_, _, _, h⟩)
    · unfold Moment.mtimeAt at h
      split at h
      · cases h
      · cases h
    · have hall : ∀ x ∈ behind.state.tracked.entries, x.2.mtimeMs ≠ some 5 := by decide +kernel
      obtain ⟨t, ht, hm⟩ := Option.bind_eq_some_iff.mp h
      exact hall _ (OrdMap.get_eq_some_iff.mp ht) hm
    · have hall : ∀ x ∈ behindFound.entries, x.2.mtimeMs ≠ some 5 := by decide +kernel
      obtain ⟨t, ht, hm⟩ := Option.bind_eq_some_iff.mp h
      exact hall _ (OrdMap.get_eq_some_iff.mp ht) hm
    · cases h

section Finish

variable (e : LocalEdit)

/-- The server's version is in place, with the user's edit under it or beside it. -/
def movedA : Moment :=
  let s := (behindAt stagedDisk movingA []).edited e
  { s with
    world := { s.world with disk := (s.world.disk.erase stagedA).insert pathA (.file ['y'] 1) }
    mtimeOf := Function.update s.mtimeOf pathA (s.mtimeOf stagedA)
    phase := .applying movingA.tail [] }

/-- It is recorded under the time it shows. -/
def recordedA : Moment :=
  let s := movedA e
  { s with
    world := { s.world with state := s.world.state.record pathA (.file ['y'] 1) (s.mtimeAt pathA) }
    phase := .applying movingA.tail.tail [] }

/-- It is counted. -/
def countedA : Moment :=
  let s := recordedA e
  { s with
    world := { s.world with
      report := { s.world.report with downloaded := s.world.report.downloaded + 1 } }
    phase := .applying [] [] }

/-- The pass has ended. -/
def finishedA : Moment :=
  let s := countedA e
  { s with
    world := { s.world with
      state := recordAgreedDirectories behindPass (behindPass.remote .ascii behind) s.world.state }
    phase := .ended }

end Finish

theorem step_movedA {e : LocalEdit} (he : e = writeA ∨ e = writeB) :
    Moment.Step .ascii ⟨false, false⟩ (.deed (.call (.rename (.moving pathA) stagedA pathA)))
      ((behindAt stagedDisk movingA []).edited e) (movedA e) := by
  have hok : perform .ascii (.rename (.moving pathA) stagedA pathA)
      ((behindAt stagedDisk movingA []).edited e).world = .ok () (movedA e).world := by
    rcases he with rfl | rfl <;> rfl
  have hdone : Moment.Does .ascii (.call (.rename (.moving pathA) stagedA pathA))
      ((behindAt stagedDisk movingA []).edited e)
      { (behindAt stagedDisk movingA []).edited e with
        world := (movedA e).world, mtimeOf := (movedA e).mtimeOf } := .call hok rfl
  exact .did rfl hdone

theorem step_recordedA (e : LocalEdit) : Moment.Step .ascii ⟨false, false⟩
    (.deed (.readBack pathA (.file ['y'] 1))) (movedA e) (recordedA e) := by
  have hdone : Moment.Does .ascii (.readBack pathA (.file ['y'] 1)) (movedA e)
      { movedA e with world := (recordedA e).world } := .readBack
  exact .did rfl hdone

theorem step_countedA (e : LocalEdit) : Moment.Step .ascii ⟨false, false⟩
    (.deed (.call (.note fun r => { r with downloaded := r.downloaded + 1 })))
    (recordedA e) (countedA e) := by
  have hdone : Moment.Does .ascii
      (.call (.note fun r => { r with downloaded := r.downloaded + 1 })) (recordedA e)
      { recordedA e with world := (countedA e).world } :=
    .call (c := .note fun r => { r with downloaded := r.downloaded + 1 }) rfl rfl
  exact .did rfl hdone

theorem step_finishedA (e : LocalEdit) :
    Moment.Step .ascii ⟨false, false⟩ .save (countedA e) (finishedA e) :=
  .saved rfl (rfl : behindPass.scan.entries = behindFound) fun _ _ => rfl

/-- An edit beside the download is kept. -/
theorem edits_kept_beside : writeB ∈ (finishedA writeB).edits ∧
    ∀ e ∈ (finishedA writeB).edits, (finishedA writeB).Keeps e := by
  have hunsent : ∀ e, ¬((behindAt stagedDisk movingA []).edited writeB).Unsent pathA e ∧
      ¬(movedA writeB).Unsent pathA e := by
    rintro e
    constructor
    · rintro ⟨he, hp, -⟩
      obtain rfl := List.mem_singleton.mp he
      exact absurd hp (by decide +kernel)
    · rintro ⟨he, hp, -⟩
      obtain rfl := List.mem_singleton.mp he
      exact absurd hp (by decide +kernel)
  have hsave : ∀ p e, (countedA writeB).Unsent p e →
      Rules.takesFor .ascii ⟨false, false⟩ stagedStateName p = false := by
    rintro p e ⟨he, hp, -⟩
    have hall : ∀ x ∈ (countedA writeB).world.disk.entries,
        Rules.takesFor .ascii ⟨false, false⟩ stagedStateName x.1 = false := by decide +kernel
    exact hall _ (OrdMap.get_eq_some_iff.mp hp)
  refine ⟨List.mem_cons_self, edits_kept .ascii ⟨false, false⟩ behind (fun _ => some 0) _
    (((((behind_staged.tail ⟨_, .edited (admits_write (Or.inr rfl)), trivial⟩).tail
      ⟨_, step_movedA (Or.inr rfl), ?_⟩).tail ⟨_, step_recordedA writeB, ?_⟩).tail
      ⟨_, step_countedA writeB, trivial⟩).tail ⟨_, step_finishedA writeB, hsave⟩)⟩
  · exact fun e he => absurd he (hunsent e).1
  · exact fun e he => absurd he (hunsent e).2

/-- **An edit is lost**: the download moves into place over it. -/
theorem edit_lost : ∃ s, Relation.ReflTransGen (Moment.Next .ascii ⟨false, false⟩)
    (.start behind fun _ => some 0) s ∧ s.phase = .ended ∧ writeA ∈ s.edits ∧ ¬s.Keeps writeA := by
  have hstaged : Relation.ReflTransGen (Moment.Next .ascii ⟨false, false⟩)
      (.start behind fun _ => some 0) (behindAt stagedDisk movingA []) :=
    behind_staged.lift id fun _ _ ⟨event, hstep, _⟩ => ⟨event, hstep⟩
  refine ⟨finishedA writeA, ((((hstaged.tail ⟨_, .edited (admits_write (Or.inl rfl))⟩).tail
    ⟨_, step_movedA (Or.inl rfl)⟩).tail ⟨_, step_recordedA writeA⟩).tail
    ⟨_, step_countedA writeA⟩).tail ⟨_, step_finishedA writeA⟩, rfl, List.mem_cons_self, ?_⟩
  rintro ⟨p, rfl | ⟨a, ha, hcopy⟩, h⟩
  · rcases h with h | ⟨h, -⟩
    · exact absurd h (by decide +kernel)
    · exact absurd h (by decide +kernel)
  · obtain rfl := List.mem_singleton.mp ha
    cases hcopy

end Stashden.Sync
