import Stashden.Sync.Pass

/-!
# What a plan never overwrites

A plan moves the local file of a conflict to its copy's name, by a rename that replaces what is
there, and several actions later may delete that name again. `contents_kept_iff`: the contents that
base does not know survive, and the copies are apart from each other and from everything else, when
the copy names of the conflicting paths are new on both sides and different. `copy_deleted` is a
folder in which a copy's name is taken.
-/

namespace Stashden.Sync

open Lib Stashden.Core RelPath Pass

/-- A pass about to run the plan of everything that stands on the two sides, nothing hidden. -/
structure Pass.Compares (u : Unicode) (pass : Pass) (w : World) : Prop where
  scan : pass.scan.snapshot = w.disk
  disk : w.disk.TreeShaped
  server : w.server.tree.TreeShaped
  seenHere : ∀ p e, w.disk.get p = some e → hides u p = false
  seenThere : ∀ p e, w.server.tree.get p = some e → hides u p = false

/-- The plan of the two sides. -/
@[irreducible] def Pass.wholePlan (pass : Pass) (w : World) : Plan :=
  reconcile w.disk w.server.tree w.state.base pass.now

/-- The world after the plan. -/
def Pass.executed (u : Unicode) (pass : Pass) (w : World) : World :=
  runActions u pass w.server.tree (pass.wholePlan w).actions w

/-- Every content base does not have for its path is still on its side, at the path or at the copy
planned for it. -/
def ContentKept (pass : Pass) (w w' : World) : Prop :=
  ∀ p t n, w.state.base.get p ≠ some (.file t n) →
    (w.disk.get p = some (.file t n) → w'.disk.get p = some (.file t n) ∨
      ∃ c, .keepBoth p c ∈ (pass.wholePlan w).actions ∧ w'.disk.get c = some (.file t n)) ∧
    (w.server.tree.get p = some (.file t n) → w'.server.tree.get p = some (.file t n) ∨
      ∃ c, .keepBoth p c ∈ (pass.wholePlan w).actions ∧ w'.server.tree.get c = some (.file t n))

/-- An action writes a path: its subject, its copy, or a directory on the way to them. -/
def Action.Writes (a : Action) (q : RelPath) : Prop :=
  (a.subject = q ∧ a ≠ .forget q) ∨ a.copy = some q ∨
    ((a.makesLocal = true ∨ a.makesRemote = true) ∧ a.subject.isInside q = true)

/-- The copies of a plan are different, carry no entry on either side, and are written by nothing
else. -/
def CopiesApart (pass : Pass) (w : World) : Prop :=
  (∀ p p' c, .keepBoth p c ∈ (pass.wholePlan w).actions →
    .keepBoth p' c ∈ (pass.wholePlan w).actions → p = p') ∧
  ∀ p c, .keepBoth p c ∈ (pass.wholePlan w).actions →
    w.disk.get c = none ∧ w.server.tree.get c = none ∧
      ∀ a ∈ (pass.wholePlan w).actions, a.Writes c → a = .keepBoth p c

/-- Files on both sides, different from each other and from what is recorded. -/
def Conflicts (w : World) (p : RelPath) : Prop :=
  (∃ t n t' n', w.disk.get p = some (.file t n) ∧ w.server.tree.get p = some (.file t' n')) ∧
    w.disk.get p ≠ w.server.tree.get p ∧ w.state.base.get p ≠ w.disk.get p ∧
    w.state.base.get p ≠ w.server.tree.get p

/-- The copy names of the conflicting paths are new on both sides, and different. -/
def FreshCopies (pass : Pass) (w : World) : Prop :=
  ∀ p c, Conflicts w p → conflictCopy p pass.now = some c →
    w.disk.get c = none ∧ w.server.tree.get c = none ∧
      ∀ p', Conflicts w p' → conflictCopy p' pass.now = some c → p' = p

section Plan

variable {pass : Pass} {w : World} {p c : RelPath}

theorem mem_wholePlan_iff {a : Action} : a ∈ (pass.wholePlan w).actions ↔
    Warranted w.disk w.server.tree w.state.base pass.now a := by
  unfold wholePlan
  exact mem_actions_iff

/-- A conflict is what a copy is planned for. -/
theorem keepBoth_mem_iff : .keepBoth p c ∈ (pass.wholePlan w).actions ↔
    Conflicts w p ∧ conflictCopy p pass.now = some c := by
  rw [mem_wholePlan_iff]
  constructor
  · rintro ⟨hfiles, hne, hl, hr, hc⟩
    exact ⟨⟨hfiles, hne, hl, hr⟩, hc⟩
  · rintro ⟨⟨hfiles, hne, hl, hr⟩, hc⟩
    exact ⟨hfiles, hne, hl, hr, hc⟩

/-- **Fresh copies are apart from everything else the plan does.** -/
theorem copiesApart_of_fresh (hL : w.disk.TreeShaped) (hR : w.server.tree.TreeShaped)
    (h : FreshCopies pass w) : CopiesApart pass w := by
  refine ⟨fun p p' c hp hp' => ?_, fun p c hp => ?_⟩
  · obtain ⟨hcon, hc⟩ := keepBoth_mem_iff.mp hp
    obtain ⟨hcon', hc'⟩ := keepBoth_mem_iff.mp hp'
    exact (h p' c hcon' hc').2.2 p hcon hc
  · obtain ⟨hcon, hc⟩ := keepBoth_mem_iff.mp hp
    obtain ⟨hl, hr, hone⟩ := h p c hcon hc
    refine ⟨hl, hr, fun a ha hwrites => ?_⟩
    have hpl : Planned w.disk w.server.tree w.state.base pass.now a :=
      Or.inl (mem_wholePlan_iff.mp ha)
    rcases hwrites with ⟨hsub, hforget⟩ | hcopy | ⟨hm, hin⟩
    · rcases Execution.subject_listed hpl with ⟨e, he⟩ | ⟨e, he⟩ | he
      · rw [hsub, hl] at he
        exact absurd he (by simp)
      · rw [hsub, hr] at he
        exact absurd he (by simp)
      · exact absurd (hsub ▸ he) hforget
    · cases a with
      | keepBoth p' c' =>
        cases hcopy
        obtain ⟨hcon', hc'⟩ := keepBoth_mem_iff.mp ha
        rw [hone p' hcon' hc']
      | setAside p' c' => exact (mem_wholePlan_iff.mp ha).elim
      | _ => exact absurd hcopy (by simp [Action.copy])
    · -- A directory made on the way stands on the other side already.
      rcases hm with hm | hm
      · rw [hpl.not_made_locally hR (by simp [hr]) hm] at hin
        exact absurd hin (by simp)
      · rw [hpl.not_made_remotely hL (by simp [hl]) hm] at hin
        exact absurd hin (by simp)

end Plan

section Kept

variable {u : Unicode} {pass : Pass} {w : World}

theorem wholePlan_eq_acts : (pass.wholePlan w).actions =
    acts Held.nothing w.disk w.server.tree w.state.base pass.now := by
  unfold acts wholePlan
  rw [Held.apply_nothing]

/-- A plan whose every step succeeds is an execution no share has a part in. -/
theorem Pass.Compares.execution (hw : pass.Compares u w)
    (hok : (pass.executed u w).report.failures = []) :
    ∃ E : Execution Held.nothing w.disk w.server.tree w.state.base pass.now
      pass.scan.snapshot.get (acts Held.nothing w.disk w.server.tree w.state.base pass.now)
      (w.sides u), (pass.executed u w).sides u = E.outcome := by
  have hseen : ∀ a ∈ (pass.wholePlan w).actions, a.Seen u := by
    intro a ha
    have hwar := mem_wholePlan_iff.mp ha
    have hsub : a = .forget a.subject ∨ hides u a.subject = false := by
      rcases Execution.subject_listed (Or.inl hwar) with ⟨e, he⟩ | ⟨e, he⟩ | he
      · exact Or.inr (hw.seenHere _ e he)
      · exact Or.inr (hw.seenThere _ e he)
      · exact Or.inl he
    rcases hsub with he | hh
    · rw [he]
      exact trivial
    · cases a with
      | forget p => exact trivial
      | keepBoth p c => exact ⟨hh, not_hides_conflictCopy hwar.2.2.2.2 hh⟩
      | setAside p c => exact hwar.elim
      | _ => exact hh
  unfold executed at hok ⊢
  obtain ⟨hen, hrun⟩ := runActions_ok hseen hok
  rw [wholePlan_eq_acts] at hen hrun ⊢
  refine ⟨⟨hw.disk, hw.server, List.Sublist.refl _, hen, fun q e he => ?_, fun q e he => ?_,
    fun q e he => ?_⟩, ?_⟩
  · rw [hw.scan]
    exact he
  · rw [sides_disk (hw.seenHere q e he)]
    exact he
  · rw [sides_server (hw.seenThere q e he)]
    exact he
  · unfold Execution.outcome
    exact hrun

namespace Execution

variable {localSide remote base : Snapshot} {now : DateTime} {scanned : RelPath → Option Entry}
  {s : Sides} {p : RelPath} {t : Str} {n : Nat}

theorem not_setAside {q c : RelPath} :
    .setAside q c ∉ acts Held.nothing localSide remote base now := by
  intro h
  have hrefused := (refusal_of_mem h).2.2 q c rfl
  simp [Held.nothing, Held.refusesUpload, Held.readOnly, Held.looseOnTheShelf] at hrefused

theorem warranted_of_acts {a : Action} (h : a ∈ acts Held.nothing localSide remote base now) :
    Warranted localSide remote base now a :=
  warranted_of_mem h fun _ _ e => not_setAside (e ▸ h)

variable {ran : List Action} (E : Execution Held.nothing localSide remote base now scanned ran s)

include E

/-- **A file of the folder that base does not know** stays, or moves to its copy. -/
theorem content_here (hl : localSide.get p = some (.file t n)) (hb : base.get p ≠ some (.file t n))
    (hfresh : ∀ b ∈ ran, ∀ c, b.copy = some c →
      localSide.get c = none ∧ remote.get c = none)
    (hone : ∀ q q' c, .keepBoth q c ∈ ran →
      .keepBoth q' c ∈ ran → q = q') :
    E.outcome.disk p = some (.file t n) ∨
      ∃ c, .keepBoth p c ∈ ran ∧
        E.outcome.disk c = some (.file t n) := by
  have hnot : ∀ b ∈ ran, b.copy ≠ some p := by
    intro b hbm hc
    rw [(hfresh b hbm p hc).1] at hl
    exact absurd hl (by simp)
  by_cases hk : ∃ c, .keepBoth p c ∈ ran
  · obtain ⟨c, hc⟩ := hk
    obtain ⟨hlc, hrc⟩ := hfresh _ hc c rfl
    have hpar : c.parent = p.parent := (E.planned hc).copy_beside rfl
    refine Or.inr ⟨c, hc, E.split (fun x => x.disk p = some (.file t n))
      (fun x => x.disk c = some (.file t n)) hc ?_ ?_ ?_ (E.onDisk _ _ hl)⟩
    · intro b hbm hord x hen hx
      exact frame_disk_some hen hord.1 hx (Or.inl (hnot b hbm))
    · intro x hen hx
      have hpc : p ≠ c := fun e => hnot _ hc (e ▸ rfl)
      have hno : p.isInside c = false := (isInside_congr hpar).symm.trans (not_isInside_self c)
      rw [disk_of_ne (a := .keepBoth p c) hpc]
      simp [Action.subject, Action.copy, hno, hx]
    · intro b hbm hord x hen hx
      by_cases hsub : b.subject = c
      · -- The only action at a name neither side has forgets it.
        rcases Execution.subject_listed (E.planned hbm) with ⟨e, he⟩ | ⟨e, he⟩ | he
        · rw [hsub, hlc] at he
          exact absurd he (by simp)
        · rw [hsub, hrc] at he
          exact absurd he (by simp)
        · rw [he]
          exact hx
      · refine frame_disk_some hen hsub hx (Or.inl fun hcopy => ?_)
        cases b with
        | keepBoth q c' =>
          cases hcopy
          exact hord.1 (hone p q c hc hbm)
        | setAside q c' => exact not_setAside (E.mem hbm)
        | _ => exact absurd hcopy (by simp [Action.copy])
  · refine Or.inl (E.invariant (fun x => x.disk p = some (.file t n)) ?_ (E.onDisk _ _ hl))
    intro b hbm x hen hx
    by_cases hsub : b.subject = p
    · subst hsub
      have hw := warranted_of_acts (E.mem hbm)
      cases b with
      | upload q => exact hx
      | download q =>
        obtain ⟨_, _, -, ⟨hn, -⟩ | ⟨_, _, -, -, hbl⟩⟩ := hw
        · exact absurd (hn.symm.trans hl) (by simp)
        · exact absurd (hbl.trans hl) hb
      | deleteLocal q =>
        obtain ⟨_, _, -, -, hbl⟩ := hw
        exact absurd (hbl.trans hl) hb
      | keepBoth q c => exact absurd ⟨c, hbm⟩ hk
      | setAside q c => exact absurd hw id
      | createLocalDirectory q => exact absurd (hw.1.symm.trans hl) (by simp)
      | createRemoteDirectory q => exact absurd (hw.1.symm.trans hl) (by simp)
      | deleteRemote q =>
        obtain ⟨_, _, -, hn, -⟩ := hw
        exact absurd (hn.symm.trans hl) (by simp)
      | removeLocalDirectory q => exact absurd (hw.1.symm.trans hl) (by simp)
      | removeRemoteDirectory q => exact absurd (hw.1.symm.trans hl) (by simp)
      | forget q => exact hx
    · exact frame_disk_some hen hsub hx (Or.inl (hnot b hbm))

/-- **A file of the server that base does not know** stays. -/
theorem content_there (hr : remote.get p = some (.file t n)) (hb : base.get p ≠ some (.file t n)) :
    E.outcome.server p = some (.file t n) := by
  refine E.invariant (fun x => x.server p = some (.file t n)) ?_ (E.onServer _ _ hr)
  intro b hbm x hen hx
  by_cases hsub : b.subject = p
  · subst hsub
    have hw := warranted_of_acts (E.mem hbm)
    cases b with
    | download q => exact hx
    | createLocalDirectory q => exact hx
    | deleteLocal q => exact hx
    | removeLocalDirectory q => exact hx
    | forget q => exact hx
    | keepBoth q c =>
      exact (effect_fetches scanned rfl hen (fun c hc => (E.planned hbm).copy_beside hc) hx).1
    | setAside q c => exact absurd hw id
    | upload q =>
      obtain ⟨_, _, -, ⟨hn, -⟩ | ⟨_, _, -, -, hbr⟩⟩ := hw
      · exact absurd (hn.symm.trans hr) (by simp)
      · exact absurd (hbr.trans hr) hb
    | deleteRemote q =>
      obtain ⟨_, _, -, -, hbr⟩ := hw
      exact absurd (hbr.trans hr) hb
    | createRemoteDirectory q => exact absurd (hw.2.1.symm.trans hr) (by simp)
    | removeRemoteDirectory q => exact absurd (hw.2.1.symm.trans hr) (by simp)
  · exact E.keep_server hbm hsub hen hx (Or.inr ⟨_, hr, hb⟩)

end Execution

/-- **What base does not know is kept, and copies are apart, exactly when** the copy names of the
conflicting paths are new on both sides and different. -/
theorem contents_kept_iff (hw : pass.Compares u w) :
    (((pass.executed u w).report.failures = [] → ContentKept pass w (pass.executed u w)) ∧
      CopiesApart pass w) ↔ FreshCopies pass w := by
  constructor
  · rintro ⟨-, hone, hnew⟩ p c hcon hc
    have hp := keepBoth_mem_iff.mpr ⟨hcon, hc⟩
    obtain ⟨hl, hr, -⟩ := hnew p c hp
    exact ⟨hl, hr, fun p' hcon' hc' => hone p' p c (keepBoth_mem_iff.mpr ⟨hcon', hc'⟩) hp⟩
  · intro hfresh
    have hapart := copiesApart_of_fresh hw.disk hw.server hfresh
    refine ⟨fun hok p t n hb => ?_, hapart⟩
    obtain ⟨E, hE⟩ := hw.execution hok
    have hdisk : ∀ q, hides u q = false → (pass.executed u w).disk.get q = E.outcome.disk q :=
      fun q hq => by rw [← hE, sides_disk hq]
    have hserver : ∀ q, hides u q = false →
        (pass.executed u w).server.tree.get q = E.outcome.server q :=
      fun q hq => by rw [← hE, sides_server hq]
    refine ⟨fun hl => ?_, fun hr => Or.inl ?_⟩
    · rw [hdisk p (hw.seenHere p _ hl)]
      refine (E.content_here hl hb (fun b hbm c hc => ?_) fun q q' c hq hq' => ?_).imp_right ?_
      · rw [← wholePlan_eq_acts] at hbm
        cases b with
        | keepBoth q c' =>
          cases hc
          exact ⟨(hapart.2 q c hbm).1, (hapart.2 q c hbm).2.1⟩
        | setAside q c' => exact (mem_wholePlan_iff.mp hbm).elim
        | _ => exact absurd hc (by simp [Action.copy])
      · rw [← wholePlan_eq_acts] at hq hq'
        exact hapart.1 q q' c hq hq'
      · rintro ⟨c, hc, hgot⟩
        rw [← wholePlan_eq_acts] at hc
        have hcopy := (keepBoth_mem_iff.mp hc).2
        refine ⟨c, hc, ?_⟩
        rw [hdisk c (not_hides_conflictCopy hcopy (hw.seenHere p _ hl))]
        exact hgot
    · rw [hserver p (hw.seenThere p _ hr)]
      exact E.content_there hr hb

end Kept

/-! ## Two folders -/

/-- The name the copy of `a` gets at the first instant. -/
def copyOfA : RelPath := ⟨"a (conflict 19700101T000000Z)".toList, by decide⟩

/-- `a` differs on the two sides, next to what else the folder holds and what is recorded. -/
def conflicting (more : List (RelPath × Entry)) (recorded : List (RelPath × Tracked)) : World where
  disk := OrdMap.ofList ((pathA, .file ['x'] 1) :: more)
  server := ⟨OrdMap.ofList [(pathA, .file ['y'] 1)], []⟩
  state := ⟨OrdMap.ofList recorded⟩
  report := .default

theorem compares_conflicting {more : List (RelPath × Entry)} {recorded : List (RelPath × Tracked)}
    {pass : Pass} (hscan : pass.scan.snapshot = (conflicting more recorded).disk)
    (hshape : (conflicting more recorded).disk.TreeShaped)
    (hmore : ∀ x ∈ (conflicting more recorded).disk.entries, hides .ascii x.1 = false) :
    pass.Compares .ascii (conflicting more recorded) where
  scan := hscan
  disk := hshape
  server := by
    show Snapshot.TreeShaped (OrdMap.ofList _)
    decide +kernel
  seenHere := fun p e he => hmore (p, e) (OrdMap.get_eq_some_iff.mp he)
  seenThere := fun p e he => by
    have hall : ∀ x ∈ (conflicting [] []).server.tree.entries, hides .ascii x.1 = false := by
      decide +kernel
    exact hall (p, e) (OrdMap.get_eq_some_iff.mp he)

theorem contents_kept_iff_conflicting :
    let w := conflicting [] []
    let pass := Pass.plain .ascii .unixEpoch w.disk
    (pass.executed .ascii w).disk.get copyOfA = some (.file ['x'] 1) ∧
      ((((pass.executed .ascii w).report.failures = [] →
        ContentKept pass w (pass.executed .ascii w)) ∧ CopiesApart pass w) ↔ FreshCopies pass w) :=
  ⟨by decide +kernel, contents_kept_iff (compares_conflicting (by decide +kernel) (by decide +kernel)
    (by decide +kernel))⟩

/-- **A copy is deleted** where its name was taken by a file the server no longer has: the local
change of `a` is then in neither place. -/
theorem copy_deleted :
    let w := conflicting [(copyOfA, .file ['z'] 1)] [(copyOfA, ⟨.file ['z'] 1, none⟩)]
    let pass := Pass.plain .ascii .unixEpoch w.disk
    pass.Compares .ascii w ∧ (pass.executed .ascii w).report.failures = [] ∧
      ¬ContentKept pass w (pass.executed .ascii w) ∧ ¬CopiesApart pass w := by
  refine ⟨compares_conflicting (by decide +kernel) (by decide +kernel) (by decide +kernel),
    by decide +kernel, fun h => ?_, fun h => ?_⟩
  · rcases (h pathA ['x'] 1 (by decide +kernel)).1 (by decide +kernel) with hd | ⟨c, hc, hd⟩
    · exact absurd hd (by decide +kernel)
    · have hcopy := (keepBoth_mem_iff.mp hc).2
      obtain rfl : copyOfA = c := Option.some.inj ((by decide +kernel : some copyOfA =
        conflictCopy pathA DateTime.unixEpoch).trans hcopy)
      exact absurd hd (by decide +kernel)
  · have hmem : .keepBoth pathA copyOfA ∈ (Pass.wholePlan (Pass.plain .ascii .unixEpoch
        (conflicting [(copyOfA, .file ['z'] 1)] [(copyOfA, ⟨.file ['z'] 1, none⟩)]).disk)
        (conflicting [(copyOfA, .file ['z'] 1)] [(copyOfA, ⟨.file ['z'] 1, none⟩)])).actions := by
      decide +kernel
    exact absurd (h.2 pathA copyOfA hmem).1 (by decide +kernel)

end Stashden.Sync
