import Stashden.Sync.Brought

/-!
# Contents only this computer has

A file the record does not know is nowhere else for all the engine knows. No action deletes or
replaces it (`Warranted`); what may are the names the engine takes for itself: the copy of a conflict,
the staged file of a download, the ignored names of a directory it removes. `contents_kept` says that
where these are free the file is still in the folder after any attempt, at its path or at its copy.
-/

namespace Stashden.Sync

open Lib Stashden.Core RelPath EngineM

variable {u : Unicode} {pass : Pass} {remote : Snapshot} {w w' : World} {p q : RelPath}

/-! ## What changes a file -/

/-- A call may change a file at a path. -/
def Call.disturbs (u : Unicode) (q : RelPath) : Call → Bool
  | .fetch _ staged => decide (q = staged)
  | .rename _ source target => decide (q = source) || decide (q = target)
  | .removeFile p => decide (q = p)
  | .removeIgnored p => decide (q.parent = some p) && isIgnored u q.fileName
  | _ => false

theorem file_perform {c : Call} {t : Str} {n : Nat} (hc : c.disturbs u q = false)
    (h : w.disk.get q = some (.file t n)) (hok : perform u c w = .ok () w') :
    w'.disk.get q = some (.file t n) := by
  have hblocked : ∀ {made : Prop}, (made → w.disk.get q = none ∨ w.disk.get q = some .directory) →
      ¬made := by
    intro made hfree hmade
    rcases hfree hmade with hn | hn <;> rw [h] at hn <;> cases hn
  cases c with
  | fail reason => cases hok
  | createDirectories p =>
    obtain ⟨disk, hd, rfl⟩ := ok_onDisk.mp hok
    exact ((createDirAll_ok hd q).1.trans (if_neg (hblocked (createDirAll_ok hd q).2))).trans h
  | createParents p =>
    obtain ⟨disk, hd, rfl⟩ := ok_onDisk.mp hok
    exact ((createParents_ok hd q).1.trans (if_neg (hblocked (createParents_ok hd q).2))).trans h
  | fetch p staged =>
    simp only [perform, downloadTo, ok_bind, ok_readFile, ok_onDisk] at hok
    obtain ⟨_, w, ⟨-, rfl⟩, disk, hd, rfl⟩ := hok
    split_ifs at hd
    cases hd
    have hne : q ≠ staged := by simpa [Call.disturbs] using hc
    exact (OrdMap.get_insert_of_ne _ _ hne).trans h
  | rename reason source target =>
    obtain ⟨disk, hd, rfl⟩ := ok_onDisk.mp hok
    obtain ⟨_, _, -, -, hget⟩ := renameFile_ok hd
    have hne : q ≠ source ∧ q ≠ target := by simpa [Call.disturbs] using hc
    exact (hget q).trans ((if_neg hne.2).trans ((if_neg hne.1).trans h))
  | removeFile p =>
    obtain ⟨disk, hd, rfl⟩ := ok_onDisk.mp hok
    have hne : q ≠ p := by simpa [Call.disturbs] using hc
    exact ((removeFile_ok hd).2 q).trans ((if_neg hne).trans h)
  | removeIgnored p =>
    obtain ⟨disk, hd, rfl⟩ := ok_onDisk.mp hok
    unfold Sync.removeIgnored at hd
    split_ifs at hd
    cases hd
    have hno : (decide (q.parent = some p) && isIgnored u q.fileName) = false := hc
    show OrdMap.get (OrdMap.retain _ _) q = _
    rw [OrdMap.get_retain, hno]
    exact h
  | removeDirectory p =>
    obtain ⟨disk, hd, rfl⟩ := ok_onDisk.mp hok
    have hne : q ≠ p := by
      rintro rfl
      unfold removeEmpty at hd
      split_ifs at hd with hdir
      rw [h] at hdir
      cases hdir.1
    exact ((removeEmpty_ok hd).2 q).trans ((if_neg hne).trans h)
  | send p source expect =>
    simp only [perform, uploadFrom, ok_bind, ok_readFile, ok_onServer] at hok
    obtain ⟨_, w, ⟨-, rfl⟩, server, -, rfl⟩ := hok
    exact h
  | makeRemote p | removeRemote p =>
    obtain ⟨server, -, rfl⟩ := ok_onServer.mp hok
    exact h
  | record p entry mtimeMs =>
    simp only [perform, ok_onState] at hok
    subst hok
    exact h
  | recordAbove p =>
    simp only [perform, ok_onState] at hok
    subst hok
    exact h
  | forget p =>
    simp only [perform, ok_onState] at hok
    subst hok
    exact h
  | note update =>
    simp only [perform, ok_onReport] at hok
    subst hok
    exact h

theorem file_performs {cs : List Call} {t : Str} {n : Nat} (hcs : ∀ c ∈ cs, c.disturbs u q = false)
    (h : Performs u cs w w') (hq : w.disk.get q = some (.file t n)) :
    w'.disk.get q = some (.file t n) := by
  induction h with
  | nil => exact hq
  | cons hc _ ih =>
    obtain ⟨hhead, htail⟩ := List.forall_mem_cons.mp hcs
    exact ih htail (file_perform hhead hq hc)

/-- What an action would have to be to change a file: about it, moving another onto it, staging there,
or taking it with the ignored names of its directory. -/
structure Action.Leaves (u : Unicode) (a : Action) (q : RelPath) : Prop where
  own : a.subject = q → a.fetches = false ∧ a ≠ .deleteLocal q
  copy : a.copy ≠ some q
  staged : a.fetches = true → partialOf a.subject ≠ some q
  ignored : ∀ d, a = .removeLocalDirectory d → q.parent = some d → isIgnored u q.fileName = false

/-- The calls of a download elsewhere. -/
theorem downloadCalls_undisturbing (hsub : q ≠ p) (hstaged : partialOf p ≠ some q) :
    ∀ c ∈ downloadCalls pass remote p, c.disturbs u q = false := by
  unfold downloadCalls
  cases remote.get p with
  | none => simp [Call.disturbs]
  | some entry =>
    cases hs : partialOf p with
    | none => simp [Call.disturbs]
    | some staged =>
      have hne : q ≠ staged := fun e => hstaged (e ▸ hs)
      simp [Call.disturbs, hne, hsub]

theorem Action.Leaves.undisturbing {a : Action} (h : a.Leaves u q) :
    ∀ c ∈ calls pass remote a, c.disturbs u q = false := by
  have hfetch : a.fetches = true → q ≠ a.subject := fun hf e => by
    rw [(h.own e.symm).1] at hf
    cases hf
  have hdown : a.fetches = true → ∀ c ∈ downloadCalls pass remote a.subject, c.disturbs u q = false :=
    fun hf => downloadCalls_undisturbing (hfetch hf) (h.staged hf)
  cases a with
  | download p =>
    intro c hc
    rcases List.mem_append.mp hc with hc | hc
    · exact hdown rfl c hc
    · obtain rfl := List.mem_singleton.mp hc
      rfl
  | setAside p copy =>
    have hqc : q ≠ copy := fun e => h.copy (e ▸ rfl)
    have hqp : q ≠ p := hfetch rfl
    simp only [calls, List.mem_cons, List.mem_append, List.not_mem_nil, or_false]
    rintro c (rfl | rfl | hc | rfl)
    · simp [Call.disturbs, hqp, hqc]
    · rfl
    · exact hdown rfl c hc
    · rfl
  | keepBoth p copy =>
    have hqc : q ≠ copy := fun e => h.copy (e ▸ rfl)
    have hqp : q ≠ p := hfetch rfl
    cases hs : pass.scan.entries.get p with
    | none => simp [calls, keepCalls, hs, Call.disturbs, hqp, hqc]
    | some scanned =>
      simp only [calls, keepCalls, hs, List.mem_cons, List.mem_append, List.not_mem_nil, or_false]
      rintro c (rfl | rfl | rfl | rfl | hc | rfl)
      · simp [Call.disturbs, hqp, hqc]
      · rfl
      · rfl
      · rfl
      · exact hdown rfl c hc
      · rfl
  | upload p => cases hs : pass.scan.entries.get p <;> simp [calls, uploadCalls, hs, Call.disturbs]
  | deleteLocal p =>
    have hqp : q ≠ p := fun e => (h.own e.symm).2 (e ▸ rfl)
    simp [calls, Call.disturbs, hqp]
  | removeLocalDirectory d =>
    simp only [calls, List.mem_cons, List.not_mem_nil, or_false]
    rintro c (rfl | rfl | rfl | rfl)
    · by_cases hd : q.parent = some d
      · simp [Call.disturbs, hd, h.ignored d rfl hd]
      · simp [Call.disturbs, hd]
    · rfl
    · rfl
    · rfl
  | _ => simp [calls, Call.disturbs]

theorem Turns.file {turns : List Turn} {t : Str} {n : Nat}
    (hturns : ∀ s ∈ turns, s.action.Leaves u q) (h : Turns u pass remote turns w w')
    (hq : w.disk.get q = some (.file t n)) : w'.disk.get q = some (.file t n) := by
  refine h.invariant (J := fun w => w.disk.get q = some (.file t n)) (fun _ _ hw => hw)
    (fun s hs w w' hdone hcalls hw => ?_) hq
  obtain ⟨rest, hcalls⟩ := hcalls
  have hundisturbing : ∀ c ∈ calls pass remote s.action, c.disturbs u q = false :=
    (hturns s hs).undisturbing
  refine file_performs (fun c hc => hundisturbing c ?_) hdone hw
  rw [hcalls]
  exact List.mem_append_left rest hc

/-! ## What an attempt leaves -/

/-- A name the engine takes for itself: what the record is staged under, the staged file of a
download, a download to a name the scan does not show, an ignored name of a directory it removes. -/
def Pass.Scratch (u : Unicode) (pass : Pass) (w : World) (p : RelPath) : Prop :=
  pass.rules.takesFor u stagedStateName p = true ∨
    (∃ a ∈ (pass.plan u w).actions, a.fetches = true ∧
      (partialOf a.subject = some p ∨ (a.subject = p ∧ ¬Visible u p))) ∨
    ∃ d, .removeLocalDirectory d ∈ (pass.plan u w).actions ∧ p.parent = some d ∧
      isIgnored u p.fileName = true

/-- The names a pass takes are free: its copies are new on both sides and different, and no file that
the record does not know has a name the engine takes for itself. -/
structure Pass.NamesFree (u : Unicode) (pass : Pass) (w : World) : Prop where
  copies : ∀ a ∈ (pass.plan u w).actions, ∀ c, a.copy = some c →
    w.disk.get c = none ∧ (pass.remote u w).get c = none ∧
      pass.rules.takesFor u stagedStateName c = false ∧
      ∀ b ∈ (pass.plan u w).actions, b.copy = some c → b = a
  scratch : ∀ p t n, w.disk.get p = some (.file t n) → w.state.base.get p ≠ some (.file t n) →
    ¬pass.Scratch u w p

/-- Every file the record does not know is still in the folder, at its path or at its copy. -/
def ContentsKept (u : Unicode) (pass : Pass) (w w' : World) : Prop :=
  ∀ p t n, w.disk.get p = some (.file t n) → w.state.base.get p ≠ some (.file t n) →
    w'.disk.get p = some (.file t n) ∨
      ∃ a ∈ (pass.plan u w).actions, a.subject = p ∧
        ∃ c, a.copy = some c ∧ w'.disk.get c = some (.file t n)

/-- **A file the record does not know is left alone** by every action that does not move it. -/
theorem Pass.Faithful.leaves {t : Str} {n : Nat} (hf : pass.Faithful u w)
    (hfree : pass.NamesFree u w) (hp : w.disk.get p = some (.file t n))
    (hb : w.state.base.get p ≠ some (.file t n)) {a : Action} (ha : a ∈ (pass.plan u w).actions)
    (hmove : a.subject = p → a.copy = none) : a.Leaves u p := by
  have hno := hfree.scratch p t n hp hb
  have hplanned := Pass.planned ha
  have hfit := Pass.fit_of_mem ha
  -- What is recorded of the file is not what the folder has.
  have hunknown : a.subject = p → ∀ e, (pass.localSide u w).get p = some e →
      (pass.base u w).get p ≠ some e := by
    rintro rfl e hl hbase
    have hdisk := (hf.of_localSide hl).2
    rw [Pass.base, Pass.get_fits, hfit] at hbase
    rw [hp] at hdisk
    exact hb (hbase.trans hdisk.symm)
  refine ⟨fun hsub => ⟨?_, ?_⟩, fun hc => ?_, fun hfetch hst => ?_, fun d he hd => ?_⟩
  · rw [← Bool.not_eq_true]
    intro hfetch
    cases a with
    | download x =>
      obtain rfl : x = p := hsub
      rcases hplanned with ⟨_, _, -, ⟨hl, -⟩ | ⟨t', n', hl, -, hbase⟩⟩ | ⟨_, _, e, -⟩
      · refine hno (Or.inr (Or.inl ⟨_, ha, rfl, Or.inr ⟨rfl, fun hv => ?_⟩⟩))
        have hfit' : (pass.unfit u w).containsKey x = false := hfit
        rw [Pass.localSide, Pass.get_fits, hfit', hf.scan, if_pos hv, hp] at hl
        cases hl
      · exact hunknown rfl _ hl (hbase.trans hl)
      · cases e
    | keepBoth x c => cases hmove hsub
    | setAside x c => cases hmove hsub
    | _ => exact absurd hfetch (by simp [Action.fetches])
  · rintro rfl
    rcases hplanned with ⟨_, _, hl, -, hbase⟩ | ⟨_, _, e, -⟩
    · exact hunknown rfl _ hl (hbase.trans hl)
    · cases e
  · rw [(hfree.copies a ha p hc).1] at hp
    cases hp
  · exact hno (Or.inr (Or.inl ⟨a, ha, hfetch, Or.inl hst⟩))
  · rw [← Bool.not_eq_true]
    exact fun hi => hno (Or.inr (Or.inr ⟨d, he ▸ ha, hd, hi⟩))

/-- A planned copy is not hidden. -/
theorem Pass.Faithful.not_hides_copy (hf : pass.Faithful u w) {a : Action} {c : RelPath}
    (ha : a ∈ (pass.plan u w).actions) (hc : a.copy = some c) : hides u c = false := by
  have hseen := hf.seen ha
  cases a with
  | keepBoth x c' =>
    cases hc
    exact hseen.2
  | setAside x c' =>
    cases hc
    exact hseen.2
  | _ => exact absurd hc (by simp [Action.copy])

/-- **A copy is left alone** by every other action. -/
theorem Pass.Faithful.leaves_copy (hf : pass.Faithful u w) (hfree : pass.NamesFree u w) {a b : Action}
    {c : RelPath} (ha : a ∈ (pass.plan u w).actions) (hc : a.copy = some c)
    (hb : b ∈ (pass.plan u w).actions) (hsub : b.subject ≠ a.subject) : b.Leaves u c := by
  obtain ⟨hdisk, hremote, -, hone⟩ := hfree.copies a ha c hc
  have hhid := hf.not_hides_copy ha hc
  refine ⟨fun he => ?_, fun hcopy => ?_, fun _ hst => ?_, fun d _ _ => ?_⟩
  · -- At a name neither side has, a record may be forgotten.
    rcases Execution.subject_listed (Pass.planned hb) with ⟨e, hl⟩ | ⟨e, hr⟩ | hforget
    · rw [he] at hl
      rw [(hf.of_localSide hl).2] at hdisk
      cases hdisk
    · rw [he, hremote] at hr
      cases hr
    · rw [hforget]
      exact ⟨rfl, nofun⟩
  · exact hsub (hone b hb hcopy ▸ rfl)
  · rw [(partialOf_spec (u := u) hst).1] at hhid
    cases hhid
  · exact hides_eq_false_iff.mp hhid _ (mem_segments_iff.mpr (Or.inl rfl))

/-- A conflict's action moves the file first, and leaves it where it moved it. -/
theorem calls_of_copy {a : Action} {c : RelPath} (hc : a.copy = some c) (hne : a.subject ≠ c)
    (hhid : hides u c = false) : ∃ reason cs, calls pass remote a = .rename reason a.subject c :: cs ∧
      ∀ d ∈ cs, d.disturbs u c = false := by
  have hstaged : partialOf a.subject ≠ some c := fun h => by
    rw [(partialOf_spec (u := u) h).1] at hhid
    cases hhid
  have hdown : ∀ d ∈ downloadCalls pass remote a.subject, d.disturbs u c = false :=
    downloadCalls_undisturbing hne.symm hstaged
  cases a with
  | setAside x c' =>
    cases hc
    refine ⟨_, _, rfl, ?_⟩
    simp only [List.mem_cons, List.mem_append, List.not_mem_nil, or_false]
    rintro d (rfl | hd | rfl)
    · rfl
    · exact hdown d hd
    · rfl
  | keepBoth x c' =>
    cases hc
    refine ⟨_, _, rfl, ?_⟩
    cases hs : pass.scan.entries.get x with
    | none => simp [keepCalls, hs, Call.disturbs]
    | some scanned =>
      simp only [keepCalls, hs, List.mem_cons, List.mem_append, List.not_mem_nil, or_false]
      rintro d (rfl | rfl | rfl | hd | rfl)
      · rfl
      · rfl
      · rfl
      · exact hdown d hd
      · rfl
  | _ => exact absurd hc (by simp [Action.copy])

/-- **An attempt loses no file the record does not know**, where the names it takes are free. -/
theorem Pass.Faithful.contents_kept (hf : pass.Faithful u w) {turns : List Turn}
    (h : Attempt u pass w turns w') (hfree : pass.NamesFree u w) : ContentsKept u pass w w' := by
  obtain ⟨w₁, hplan, hturns, hsave, -, -⟩ := h.spec
  intro p t n hp hb
  have hstart : ({ w with report := pass.report u w } : World).disk.get p = some (.file t n) := hp
  have hsaved : pass.rules.takesFor u stagedStateName p = false := by
    rw [← Bool.not_eq_true]
    exact fun hst => hfree.scratch p t n hp hb (Or.inl hst)
  by_cases hmove : ∃ s ∈ turns, s.action.subject = p ∧ ∃ c, s.action.copy = some c
  · obtain ⟨s, hs, rfl, c, hc⟩ := hmove
    obtain ⟨pre, post, rfl⟩ := List.append_of_mem hs
    obtain ⟨hmem, hne⟩ := Pass.turns_apart hplan
    obtain ⟨w₂, hpre, hrest⟩ := hturns.split
    have h₂ := hpre.file (fun r hr => hf.leaves hfree hp hb (hne r (List.mem_append_left _ hr)).1
      fun e => absurd e (hne r (List.mem_append_left _ hr)).2) hstart
    obtain _ | ⟨hcalls, hdone, report, hpost⟩ := hrest
    obtain ⟨hfresh, -, hcopysaved, -⟩ := hfree.copies _ hmem c hc
    have hsc : s.action.subject ≠ c := fun e => by
      rw [← e, hp] at hfresh
      cases hfresh
    have hhid := hf.not_hides_copy hmem hc
    obtain ⟨reason, cs, hlist, hleave⟩ :
        ∃ reason cs, calls pass (pass.remote u w) s.action =
          .rename reason s.action.subject c :: cs ∧ ∀ d ∈ cs, d.disturbs u c = false :=
      calls_of_copy hc hsc hhid
    rw [hlist] at hcalls
    rcases hdo : s.performed with _ | ⟨d, ds⟩
    · -- The action came to nothing: the file is where it was.
      rw [hdo] at hdone
      obtain _ | _ := hdone
      refine Or.inl ?_
      rw [hsave _ hsaved]
      refine hpost.file (fun r hr => hf.leaves hfree hp hb (hne r (List.mem_append_right _ hr)).1
        fun e => absurd e (hne r (List.mem_append_right _ hr)).2) ?_
      exact h₂
    · rw [hdo, List.cons_append] at hcalls
      obtain ⟨rfl, rfl⟩ := List.cons.inj hcalls
      rw [hdo] at hdone
      obtain _ | ⟨hrename, hmore⟩ := hdone
      obtain ⟨disk, hd, rfl⟩ := ok_onDisk.mp hrename
      obtain ⟨t', n', hsource, -, hget⟩ := renameFile_ok hd
      obtain ⟨rfl, rfl⟩ : t = t' ∧ n = n' := by
        rw [h₂] at hsource
        simpa using hsource
      have hmoved : disk.get c = some (.file t n) := (hget c).trans (if_pos rfl)
      have hkept := file_performs (fun d hd => hleave d (List.mem_append_left _ hd)) hmore hmoved
      refine Or.inr ⟨_, hmem, rfl, c, hc, ?_⟩
      rw [hsave _ hcopysaved]
      refine hpost.file (fun r hr => hf.leaves_copy hfree hmem hc
        (hne r (List.mem_append_right _ hr)).1 (hne r (List.mem_append_right _ hr)).2) ?_
      exact hkept
  · refine Or.inl ?_
    rw [hsave _ hsaved]
    refine hturns.file (fun s hs => hf.leaves hfree hp hb
      (hplan.subset (List.mem_map_of_mem hs)) fun e => ?_) hstart
    rw [Option.eq_none_iff_forall_ne_some]
    exact fun c hc => hmove ⟨s, hs, e, c, hc⟩

end Stashden.Sync
