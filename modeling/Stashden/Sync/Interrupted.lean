import Stashden.Sync.Copies
import Stashden.Sync.Shares
import Stashden.Sync.Unsynced

/-!
# A pass that failed or died, and the next one (`engine.rs:152-310`, `plan.rs:115-146`)

The next pass knows of the one before what stands on the disk and the record that was kept. What the
engine took off the disk itself, with its record still kept, it reads as removed by the user: a file
deleted here before the process died, a conflict renamed away whose upload failed. `interrupted_iff`
says that nothing else is misread, and under what condition these are not.

* `present` follows, call by call, whether something stands at a path; `Turns.isSome` ties it to the
  world the calls leave.
* `recorded_stands`: what a pass records and the folder did not have stands in the folder.

`conflict_removed` is a conflict whose upload failed.
-/

namespace Stashden.Sync

open Lib Stashden.Core RelPath EngineM

variable {u : Unicode} {pass : Pass} {remote : Snapshot} {w w' : World} {p q : RelPath}

/-! ## What stands at a path after some calls -/

/-- A call that succeeds puts something at a path. -/
def Call.fills (q : RelPath) : Call → Bool
  | .createDirectories p => decide (q = p) || p.isInside q
  | .createParents p => p.isInside q
  | .fetch _ staged => decide (q = staged)
  | .rename _ _ target => decide (q = target)
  | _ => false

/-- A call that succeeds takes away what stands at a path. -/
def Call.clears (q : RelPath) : Call → Bool
  | .rename _ source _ => decide (q = source)
  | .removeFile p | .removeDirectory p => decide (q = p)
  | _ => false

/-- Something stands at a path after these calls. -/
def present (q : RelPath) (before : Bool) (cs : List Call) : Bool :=
  cs.foldl (fun here c => c.fills q || (here && !c.clears q)) before

theorem isSome_perform {c : Call} (hq : hides u q = false) (hok : perform u c w = .ok () w') :
    (w'.disk.get q).isSome = (c.fills q || ((w.disk.get q).isSome && !c.clears q)) := by
  cases c with
  | fail reason => cases hok
  | createDirectories p =>
    obtain ⟨disk, hd, rfl⟩ := ok_onDisk.mp hok
    show (disk.get q).isSome = _
    rw [(createDirAll_ok hd q).1]
    by_cases hqp : q = p <;> by_cases hin : p.isInside q = true <;>
      simp [Call.fills, Call.clears, hqp, hin]
  | createParents p =>
    obtain ⟨disk, hd, rfl⟩ := ok_onDisk.mp hok
    show (disk.get q).isSome = _
    rw [(createParents_ok hd q).1]
    by_cases hin : p.isInside q = true <;> simp [Call.fills, Call.clears, hin]
  | fetch p staged =>
    simp only [perform, downloadTo, ok_bind, ok_readFile, ok_onDisk] at hok
    obtain ⟨⟨t, n⟩, w, ⟨-, rfl⟩, disk, hd, rfl⟩ := hok
    split_ifs at hd
    cases hd
    show ((w.disk.insert staged _).get q).isSome = _
    rw [OrdMap.get_insert]
    by_cases hqs : q = staged <;> simp [Call.fills, Call.clears, hqs]
  | rename reason source target =>
    obtain ⟨disk, hd, rfl⟩ := ok_onDisk.mp hok
    obtain ⟨t, n, -, -, hget⟩ := renameFile_ok hd
    show (disk.get q).isSome = _
    rw [hget]
    by_cases hqt : q = target
    · simp [Call.fills, hqt]
    · by_cases hqs : q = source
      · subst hqs
        simp [Call.fills, Call.clears, hqt]
      · simp [Call.fills, Call.clears, hqt, hqs]
  | removeFile p =>
    obtain ⟨disk, hd, rfl⟩ := ok_onDisk.mp hok
    show (disk.get q).isSome = _
    rw [(removeFile_ok hd).2]
    by_cases hqp : q = p <;> simp [Call.fills, Call.clears, hqp]
  | removeIgnored p =>
    obtain ⟨disk, hd, rfl⟩ := ok_onDisk.mp hok
    show (disk.get q).isSome = _
    rw [(removeIgnored_ok hd).2 q hq]
    simp [Call.fills, Call.clears]
  | removeDirectory p =>
    obtain ⟨disk, hd, rfl⟩ := ok_onDisk.mp hok
    show (disk.get q).isSome = _
    rw [(removeEmpty_ok hd).2]
    by_cases hqp : q = p <;> simp [Call.fills, Call.clears, hqp]
  | send p source expect =>
    simp only [perform, uploadFrom, ok_bind, ok_readFile, ok_onServer] at hok
    obtain ⟨_, w, ⟨-, rfl⟩, server, -, rfl⟩ := hok
    simp [Call.fills, Call.clears]
  | makeRemote p =>
    obtain ⟨server, -, rfl⟩ := ok_onServer.mp hok
    simp [Call.fills, Call.clears]
  | removeRemote p =>
    obtain ⟨server, -, rfl⟩ := ok_onServer.mp hok
    simp [Call.fills, Call.clears]
  | record p entry mtimeMs =>
    simp only [perform, ok_onState] at hok
    subst hok
    simp [Call.fills, Call.clears]
  | recordAbove p =>
    simp only [perform, ok_onState] at hok
    subst hok
    simp [Call.fills, Call.clears]
  | forget p =>
    simp only [perform, ok_onState] at hok
    subst hok
    simp [Call.fills, Call.clears]
  | note update =>
    simp only [perform, ok_onReport] at hok
    subst hok
    simp [Call.fills, Call.clears]

theorem present_append (before : Bool) (cs ds : List Call) :
    present q before (cs ++ ds) = present q (present q before cs) ds := List.foldl_append

theorem isSome_performs {cs : List Call} (hq : hides u q = false) (h : Performs u cs w w') :
    (w'.disk.get q).isSome = present q (w.disk.get q).isSome cs := by
  induction h with
  | nil => rfl
  | cons hc _ ih =>
    rw [ih, isSome_perform hq hc]
    rfl

/-- The calls a loop came to make, one after the other. -/
def made (turns : List Turn) : List Call := turns.flatMap Turn.performed

theorem made_cons (t : Turn) (turns : List Turn) : made (t :: turns) = t.performed ++ made turns :=
  List.flatMap_cons

/-- **What a loop leaves at a path** is what its calls say. -/
theorem Turns.isSome {turns : List Turn} (hq : hides u q = false)
    (h : Turns u pass remote turns w w') :
    (w'.disk.get q).isSome = present q (w.disk.get q).isSome (made turns) := by
  induction h with
  | nil => rfl
  | cons hcalls hdone report _ ih =>
    rw [ih, made_cons, present_append, ← isSome_performs hq hdone]

/-! ## What is recorded stands in the folder -/

/-- A call that records something at a path. -/
def Call.notes (q : RelPath) : Call → Bool
  | .record p _ _ => decide (q = p)
  | .recordAbove p => p.isInside q
  | _ => false

/-- A path is not recorded, or something stands there. -/
def Stands (q : RelPath) (w : World) : Prop := w.state.base.get q = none ∨ w.disk.get q ≠ none

theorem disk_perform {c : Call} (hq : hides u q = false) (hclear : c.clears q = false)
    (h : w.disk.get q ≠ none) (hok : perform u c w = .ok () w') : w'.disk.get q ≠ none := by
  have hsome := isSome_perform hq hok
  rw [hclear, Option.isSome_iff_ne_none.mpr h] at hsome
  rw [← Option.isSome_iff_ne_none, hsome]
  simp

theorem base_perform {c : Call} (hnote : c.notes q = false) (h : w.state.base.get q = none)
    (hok : perform u c w = .ok () w') : w'.state.base.get q = none := by
  cases c with
  | record p entry mtimeMs =>
    simp only [perform, ok_onState] at hok
    subst hok
    refine (SyncState.base_record _ _ _ _ _).trans ?_
    rw [if_neg (by simpa [Call.notes] using hnote), h]
  | recordAbove p =>
    simp only [perform, ok_onState] at hok
    subst hok
    refine (recordDirectoriesAbove_base _ _).trans ?_
    have hno : p.isInside q = false := hnote
    rw [dirsAbove, hno]
    exact h
  | forget p =>
    simp only [perform, ok_onState] at hok
    subst hok
    refine (SyncState.base_forget _ _ _).trans ?_
    rw [h, ite_self]
  | fail reason => cases hok
  | fetch p staged =>
    simp only [perform, downloadTo, ok_bind, ok_readFile, ok_onDisk] at hok
    obtain ⟨_, w, ⟨-, rfl⟩, _, -, rfl⟩ := hok
    exact h
  | send p source expect =>
    simp only [perform, uploadFrom, ok_bind, ok_readFile, ok_onServer] at hok
    obtain ⟨_, w, ⟨-, rfl⟩, _, -, rfl⟩ := hok
    exact h
  | note update =>
    simp only [perform, ok_onReport] at hok
    subst hok
    exact h
  | makeRemote p | removeRemote p =>
    obtain ⟨_, -, rfl⟩ := ok_onServer.mp hok
    exact h
  | createDirectories p | createParents p | removeFile p | removeIgnored p | removeDirectory p =>
    obtain ⟨_, -, rfl⟩ := ok_onDisk.mp hok
    exact h
  | rename reason source target =>
    obtain ⟨_, -, rfl⟩ := ok_onDisk.mp hok
    exact h

/-- Calls that take nothing away where something stands. -/
theorem along_stands {cs : List Call} (hq : hides u q = false)
    (hclear : ∀ c ∈ cs, c.clears q = false) (h : w.disk.get q ≠ none) : Along u (Stands q) cs w := by
  induction cs generalizing w with
  | nil => exact Or.inr h
  | cons c cs ih =>
    obtain ⟨hc, hcs⟩ := List.forall_mem_cons.mp hclear
    exact ⟨Or.inr h, fun w' hok => ih hcs (disk_perform hq hc h hok)⟩

/-- Calls that neither take anything away there nor record it. -/
theorem along_quiet {cs : List Call} (hq : hides u q = false)
    (hcs : ∀ c ∈ cs, c.clears q = false ∧ c.notes q = false) (h : Stands q w) :
    Along u (Stands q) cs w :=
  Along.of_forall (fun c hc _ _ hw hok => hw.imp
    (fun hb => base_perform (hcs c hc).2 hb hok) fun hd => disk_perform hq (hcs c hc).1 hd hok) h

/-- A download takes nothing away but its staged file. -/
theorem downloadCalls_clears (hq : hides u q = false) :
    ∀ c ∈ downloadCalls pass remote p, c.clears q = false := by
  unfold downloadCalls
  cases remote.get p with
  | none => simp [Call.clears]
  | some entry =>
    cases hs : partialOf p with
    | none => simp [Call.clears]
    | some staged =>
      have hne : q ≠ staged := by
        rintro rfl
        rw [(partialOf_spec (u := u) hs).1] at hq
        cases hq
      simp [Call.clears, hne]

theorem downloadCalls_notes (h : p ≠ q) :
    ∀ c ∈ downloadCalls pass remote p, c.notes q = false := by
  unfold downloadCalls
  cases remote.get p with
  | none => simp [Call.notes]
  | some entry => cases partialOf p <;> simp [Call.notes, h.symm]

/-- An action takes away nothing but what is at its path. -/
theorem calls_clears {a : Action} (hq : hides u q = false) (hsub : a.subject ≠ q) :
    ∀ c ∈ calls pass remote a, c.clears q = false := by
  have hne : q ≠ a.subject := hsub.symm
  have hdown : ∀ p, ∀ c ∈ downloadCalls pass remote p, c.clears q = false := fun p =>
    downloadCalls_clears hq
  cases a with
  | download p =>
    intro c hc
    rcases List.mem_append.mp hc with hc | hc
    · exact hdown p c hc
    · obtain rfl := List.mem_singleton.mp hc
      rfl
  | setAside p copy =>
    simp only [Action.subject] at hne
    simp only [calls, List.mem_cons, List.mem_append, List.not_mem_nil, or_false]
    rintro c (rfl | rfl | hc | rfl)
    · simpa [Call.clears] using hne
    · rfl
    · exact hdown p c hc
    · rfl
  | keepBoth p copy =>
    simp only [Action.subject] at hne
    cases hs : pass.scan.entries.get p with
    | none => simp [calls, keepCalls, hs, Call.clears, hne]
    | some scanned =>
      simp only [calls, keepCalls, hs, List.mem_cons, List.mem_append, List.not_mem_nil, or_false]
      rintro c (rfl | rfl | rfl | rfl | hc | rfl)
      · simpa [Call.clears] using hne
      · rfl
      · rfl
      · rfl
      · exact hdown p c hc
      · rfl
  | upload p =>
    cases hs : pass.scan.entries.get p <;> simp [calls, uploadCalls, hs, Call.clears]
  | _ =>
    simp only [Action.subject] at hne
    simp [calls, Call.clears, hne]

/-- Nor does it record another path, but a copy and the directories of an upload. -/
theorem calls_notes {a : Action} (hsub : a.subject ≠ q) (hcopy : a.copy ≠ some q)
    (hup : ∀ p, a = .upload p → p.isInside q = false) :
    ∀ c ∈ calls pass remote a, c.notes q = false := by
  have hne : q ≠ a.subject := hsub.symm
  cases a with
  | download p =>
    intro c hc
    rcases List.mem_append.mp hc with hc | hc
    · exact downloadCalls_notes hsub c hc
    · obtain rfl := List.mem_singleton.mp hc
      rfl
  | setAside p copy =>
    simp only [calls, List.mem_cons, List.mem_append, List.not_mem_nil, or_false]
    rintro c (rfl | rfl | hc | rfl)
    · rfl
    · rfl
    · exact downloadCalls_notes hsub c hc
    · rfl
  | keepBoth p copy =>
    have hqc : q ≠ copy := fun e => hcopy (e ▸ rfl)
    cases hs : pass.scan.entries.get p with
    | none => simp [calls, keepCalls, hs, Call.notes]
    | some scanned =>
      simp only [calls, keepCalls, hs, List.mem_cons, List.mem_append, List.not_mem_nil, or_false]
      rintro c (rfl | rfl | rfl | rfl | hc | rfl)
      · rfl
      · rfl
      · simpa [Call.notes] using hqc
      · rfl
      · exact downloadCalls_notes hsub c hc
      · rfl
  | upload p =>
    have hno := hup p rfl
    simp only [Action.subject] at hne
    cases hs : pass.scan.entries.get p <;> simp [calls, uploadCalls, hs, Call.notes, hne, hno]
  | _ =>
    simp only [Action.subject] at hne
    simp [calls, Call.notes, hne]

/-- A download records a file once it is in its place. -/
theorem along_downloadCalls {cs : List Call} (hq : hides u q = false)
    (hcs : ∀ c ∈ cs, c.clears q = false) (hw : Stands q w) :
    Along u (Stands q) (downloadCalls pass remote q ++ cs) w := by
  unfold downloadCalls
  cases hr : remote.get q with
  | none => exact ⟨hw, fun _ hok => by cases hok⟩
  | some entry =>
    refine ⟨hw, fun w₁ hok₁ => ?_⟩
    have h₁ : Stands q w₁ := hw.imp (fun hb => base_perform (c := .createParents q) rfl hb hok₁)
      fun hd => disk_perform (c := .createParents q) hq rfl hd hok₁
    cases hs : partialOf q with
    | none => exact ⟨h₁, fun _ hok => by cases hok⟩
    | some staged =>
      refine ⟨h₁, fun w₂ hok₂ => ?_⟩
      have h₂ : Stands q w₂ := h₁.imp (fun hb => base_perform (c := .fetch q staged) rfl hb hok₂)
        fun hd => disk_perform (c := .fetch q staged) hq rfl hd hok₂
      refine ⟨h₂, fun w₃ hok₃ => along_stands hq (List.forall_mem_cons.mpr ⟨rfl, hcs⟩) ?_⟩
      rw [← Option.isSome_iff_ne_none, isSome_perform hq hok₃]
      simp [Call.fills]

/-- Where a pass finds nothing and knows nothing, only what the server has can come. -/
theorem along_here {a : Action} {w₀ : World} (hq : hides u q = false) (hsub : a.subject = q)
    (hplanned : Planned (pass.localSide u w₀) (pass.remote u w₀) (pass.base u w₀) pass.now a)
    (hl : (pass.localSide u w₀).get q = none) (hw : Stands q w) :
    Along u (Stands q) (calls pass remote a) w := by
  have hnever : ∀ {o : Option Entry}, (pass.localSide u w₀).get q = o → o = none := fun h =>
    h.symm.trans hl
  cases a with
  | createLocalDirectory p =>
    obtain rfl : p = q := hsub
    refine ⟨hw, fun w₁ hok => along_stands hq (by simp [Call.clears]) ?_⟩
    rw [← Option.isSome_iff_ne_none, isSome_perform hq hok]
    simp [Call.fills]
  | download p =>
    obtain rfl : p = q := hsub
    exact along_downloadCalls hq (List.forall_mem_singleton.mpr rfl) hw
  | forget p | deleteRemote p | removeRemoteDirectory p =>
    exact along_quiet hq (by simp [calls, Call.clears, Call.notes]) hw
  | createRemoteDirectory p =>
    obtain rfl : p = q := hsub
    rcases hplanned with ⟨h, -⟩ | ⟨_, _, e, -⟩
    · cases hnever h
    · cases e
  | upload p =>
    obtain rfl : p = q := hsub
    rcases hplanned with ⟨_, _, h, -⟩ | ⟨_, _, e, -⟩
    · cases hnever h
    · cases e
  | deleteLocal p =>
    obtain rfl : p = q := hsub
    rcases hplanned with ⟨_, _, h, -⟩ | ⟨_, _, e, -⟩
    · cases hnever h
    · cases e
  | removeLocalDirectory p =>
    obtain rfl : p = q := hsub
    rcases hplanned with ⟨h, -⟩ | ⟨_, _, e, -⟩
    · cases hnever h
    · cases e
  | keepBoth p copy =>
    obtain rfl : p = q := hsub
    rcases hplanned with ⟨⟨_, _, _, _, h, -⟩, -⟩ | ⟨_, _, e, -⟩
    · cases hnever h
    · cases e
  | setAside p copy =>
    obtain rfl : p = q := hsub
    obtain ⟨⟨_, _, _, _, h, -⟩, -⟩ := hplanned.of_setAside
    cases hnever h

/-- A copy lands before anything is recorded of it. -/
theorem along_copy {a : Action} (hq : hides u q = false) (hsub : a.subject ≠ q)
    (hcopy : a.copy = some q) (hw : Stands q w) : Along u (Stands q) (calls pass remote a) w := by
  have hclear : ∀ c ∈ calls pass remote a, c.clears q = false := calls_clears hq hsub
  have hrename : ∀ {reason : Reason} {p : RelPath} {cs : List Call},
      calls pass remote a = .rename reason p q :: cs →
        Along u (Stands q) (calls pass remote a) w := by
    intro reason p cs he
    rw [he] at hclear ⊢
    refine ⟨hw, fun w₁ hok => along_stands hq (List.forall_mem_cons.mp hclear).2 ?_⟩
    rw [← Option.isSome_iff_ne_none, isSome_perform hq hok]
    simp [Call.fills]
  cases a with
  | keepBoth p copy =>
    cases hcopy
    exact hrename rfl
  | setAside p copy =>
    cases hcopy
    exact hrename rfl
  | _ => exact absurd hcopy (by simp [Action.copy])

/-- **What a pass records, and the folder and the record did not have, stands in the folder.** -/
theorem Pass.Faithful.recorded_stands {w₀ : World} (hf : pass.Faithful u w₀) (hv : Visible u q)
    (hdisk : w₀.disk.get q = none) {turns : List Turn}
    (hplan : turns.map Turn.action <+: (pass.plan u w₀).actions)
    (h : Turns u pass (pass.remote u w₀) turns w w') (hw : Stands q w) : Stands q w' := by
  have hq := hv.not_hides
  refine h.invariant (fun _ _ hw => hw) (fun t ht w w' hdone hcalls hw => ?_) hw
  obtain ⟨rest, hcalls⟩ := hcalls
  have ha := hplan.subset (List.mem_map_of_mem ht)
  suffices halong : Along u (Stands q) (calls pass (pass.remote u w₀) t.action) w by
    rw [hcalls] at halong
    exact halong.performs hdone
  have hplanned := Pass.planned ha
  by_cases hsub : t.action.subject = q
  · refine along_here hq hsub hplanned ?_ hw
    rw [Pass.localSide, Pass.get_fits, hf.scan, hdisk, ite_self, ite_self]
  · by_cases hcopy : t.action.copy = some q
    · exact along_copy hq hsub hcopy hw
    · refine along_quiet hq (fun c hc => ⟨calls_clears hq hsub c hc,
        calls_notes hsub hcopy (fun p hup => ?_) c hc⟩) hw
      -- An uploaded file has its directories in the folder.
      rw [hup] at hplanned
      rcases hplanned with ⟨_, _, hl, -⟩ | ⟨_, _, e, -⟩
      · rw [← Bool.not_eq_true]
        intro hin
        have hdir := hf.disk.above (hf.of_localSide hl).2 hin
        rw [hdisk] at hdir
        cases hdir
      · cases e

/-! ## The next pass -/

/-- A recorded path that is not in the folder when a pass begins. -/
def UserRemoved (w : World) (q : RelPath) : Prop :=
  w.disk.get q = none ∧ w.state.base.get q ≠ none

/-- The pass removes from the server only what the user removed here before the pass before. -/
def NoFalseRemoval (u : Unicode) (w : World) (pass : Pass) (w' : World) : Prop :=
  ∀ a ∈ (pass.plan u w').actions, a.removes = true → UserRemoved w a.subject

/-- What the scan after an attempt does not show, though the user left it: a name the two filters
disagree on, what `save` took, what the calls took and did not put back. -/
def Pass.Missing (u : Unicode) (pass : Pass) (w : World) (turns : List Turn) (w' : World)
    (q : RelPath) : Prop :=
  ¬Visible u q ∨
    if pass.rules.takesFor u stagedStateName q = true then w'.disk.get q = none
    else w.disk.get q ≠ none ∧ present q true (made turns) = false

/-- Nothing that went missing so is listed for the next pass as the record kept has it, but what a
share spares. -/
def Pass.ReadsSafely (u : Unicode) (pass : Pass) (w : World) (turns : List Turn) (next : Pass)
    (w' : World) : Prop :=
  ∀ q, ¬UserRemoved w q → pass.Missing u w turns w' q →
    AsRecorded (next.remote u w') (next.base u w') q →
      next.held.Spares (next.localSide u w') (next.remote u w') (next.base u w') q

theorem Pass.removes_plan_iff {next : Pass} : (∃ a ∈ (next.plan u w).actions, a.removes = true ∧
      a.subject = q) ↔ (next.localSide u w).get q = none ∧
        AsRecorded (next.remote u w) (next.base u w) q ∧
        ¬next.held.Spares (next.localSide u w) (next.remote u w) (next.base u w) q := by
  rw [Pass.plan_eq]
  exact removes_iff

/-- What is recorded as listed is on the server, and recorded. -/
theorem AsRecorded.listed {next : Pass} (h : AsRecorded (next.remote u w) (next.base u w) q) :
    hides u q = false ∧ (next.unfit u w).containsKey q = false ∧ w.state.base.get q ≠ none := by
  have hbase : ∀ {e}, (next.remote u w).get q = some e → (next.base u w).get q ≠ none →
      hides u q = false ∧ (next.unfit u w).containsKey q = false ∧ w.state.base.get q ≠ none := by
    intro e hr hb
    obtain ⟨-, hh, hfit⟩ := Pass.remote_eq_some hr
    rw [Pass.base, Pass.get_fits, hfit] at hb
    exact ⟨hh, hfit, hb⟩
  rcases h with ⟨t, n, hr, hb⟩ | ⟨hr, hb, -⟩
  · exact hbase hr (by simp [hb, hr])
  · exact hbase hr hb

/-- **The next pass misreads nothing exactly when** what went missing is not listed as recorded. -/
theorem Pass.Faithful.no_false_removal_iff (hf : pass.Faithful u w) {turns : List Turn}
    (h : Attempt u pass w turns w') {server : Server} {next : Pass}
    (hnext : next.Faithful u { w' with server := server }) :
    NoFalseRemoval u w next { w' with server := server } ↔
      pass.ReadsSafely u w turns next { w' with server := server } := by
  obtain ⟨w₁, hplan, hturns, hsave, -, hstate⟩ := h.spec
  have hlocal : ∀ {q}, (next.unfit u { w' with server := server }).containsKey q = false →
      ((next.localSide u { w' with server := server }).get q = none ↔
        ¬Visible u q ∨ w'.disk.get q = none) := fun {q} hfit => by
    rw [Pass.localSide, Pass.get_fits, hfit, hnext.scan]
    by_cases hv : Visible u q <;> simp [hv]
  -- What the loop left at a path `save` does not touch.
  have hend : ∀ {q}, pass.rules.takesFor u stagedStateName q = false → hides u q = false →
      ((w'.disk.get q).isSome = present q (w.disk.get q).isSome (made turns)) := fun hno hq => by
    have hsome := hturns.isSome hq
    rw [hsave _ hno]
    exact hsome
  constructor
  · intro hkept q hleft hmiss hrec
    by_contra hno
    obtain ⟨hq, hfit, -⟩ := hrec.listed
    have hgone : (next.localSide u { w' with server := server }).get q = none := by
      rw [hlocal hfit]
      rcases hmiss with hv | hmiss
      · exact Or.inl hv
      · refine Or.inr ?_
        split_ifs at hmiss with hst
        · exact hmiss
        · have hsome := hend (by simpa using hst) hq
          rw [Option.isSome_iff_ne_none.mpr hmiss.1, hmiss.2] at hsome
          simpa using hsome
    obtain ⟨a, ha, hrem, rfl⟩ := Pass.removes_plan_iff.mpr ⟨hgone, hrec, hno⟩
    exact hleft (hkept a ha hrem)
  · intro hsafe a ha hrem
    obtain ⟨hgone, hrec, hno⟩ := Pass.removes_plan_iff.mp ⟨a, ha, hrem, rfl⟩
    obtain ⟨hq, hfit, hbase⟩ := hrec.listed
    by_contra hleft
    refine hno (hsafe a.subject hleft ?_ hrec)
    by_cases hv : Visible u a.subject
    · have hdisk := ((hlocal hfit).mp hgone).resolve_left (not_not.mpr hv)
      refine Or.inr ?_
      split_ifs with hst
      · exact hdisk
      · have hsome := hend (by simpa using hst) hq
        rw [hdisk] at hsome
        have hstood : w.disk.get a.subject ≠ none := by
          intro hnone
          have hunknown : w.state.base.get a.subject = none := by
            by_contra hb
            exact hleft ⟨hnone, hb⟩
          rcases hstate with he | he
          · have hstands := hf.recorded_stands hv hnone hplan hturns (Or.inl hunknown)
            rw [he, Pass.recordAgreedDirectories_base, hf.scan, hnone, ite_self, if_neg (by simp)]
              at hbase
            rcases hstands with hb | hd
            · exact hbase hb
            · rw [hsave _ (by simpa using hst)] at hdisk
              exact hd hdisk
          · rw [he] at hbase
            exact hbase hunknown
        refine ⟨hstood, ?_⟩
        rw [← Option.isSome_iff_ne_none] at hstood
        rw [hstood] at hsome
        exact hsome.symm
    · exact Or.inl hv

/-- **A pass that failed or died is not misread exactly when** what it took off the disk, with what
the scan does not show for another reason, is not listed for the next pass as the record kept has it;
and it loses no content of this computer's where the names it takes are free. -/
theorem interrupted_iff (hf : pass.Faithful u w) {turns : List Turn}
    (h : Attempt u pass w turns w') {server : Server} {next : Pass}
    (hnext : next.Faithful u { w' with server := server }) :
    (NoFalseRemoval u w next { w' with server := server } ↔
      pass.ReadsSafely u w turns next { w' with server := server }) ∧
    (pass.NamesFree u w → ContentsKept u pass w w') :=
  ⟨hf.no_false_removal_iff h hnext, hf.contents_kept h⟩

/-! ## Passes that were cut short -/

/-- What stands here and there, with what is recorded. -/
def apart (here there : List (RelPath × Entry)) (recorded : List (RelPath × Tracked)) : World where
  disk := OrdMap.ofList here
  server := ⟨OrdMap.ofList there, []⟩
  state := ⟨OrdMap.ofList recorded⟩
  report := .default

/-- A pass over the first sight of two folders that died: the next one removes nothing. -/
theorem interrupted_iff_unrecorded :
    let w := apart [(pathA, .file ['x'] 1)] [(pathD, .directory)] []
    let pass := Pass.plain .ascii .unixEpoch w.disk
    let w' := { pass.ran .ascii w with state := w.state }
    NoFalseRemoval .ascii w (Pass.plain .ascii .unixEpoch w'.disk) w' ∧
      ContentsKept .ascii pass w w' := by
  intro w pass w'
  have hplan : (pass.plan .ascii w).actions = [.createLocalDirectory pathD, .upload pathA] := by
    decide +kernel
  obtain ⟨hiff, hkept⟩ := interrupted_iff
    (Pass.faithful_plain rfl (by decide +kernel) (by decide +kernel) : pass.Faithful .ascii w)
    (attempt_died .ascii pass w)
    (Pass.faithful_plain rfl (by decide +kernel) (by decide +kernel) :
      (Pass.plain .ascii .unixEpoch w'.disk).Faithful .ascii { w' with server := w'.server })
  refine ⟨hiff.mpr fun q _ _ hrec => absurd rfl hrec.listed.2.2, hkept ⟨?_, ?_⟩⟩
  · intro a ha c hc
    rw [hplan] at ha
    rcases List.mem_cons.mp ha with rfl | ha
    · cases hc
    · obtain rfl := List.mem_singleton.mp ha
      cases hc
  · rintro p t n hp -
    have hpa : p = pathA := by
      have hall : ∀ x ∈ w.disk.entries, x.1 = pathA := by decide +kernel
      exact hall _ (OrdMap.get_eq_some_iff.mp hp)
    subst hpa
    rintro (hst | ⟨a, ha, hfetch, -⟩ | ⟨d, hd, -⟩)
    · exact absurd hst (by decide +kernel)
    · rw [hplan] at ha
      rcases List.mem_cons.mp ha with rfl | ha
      · cases hfetch
      · obtain rfl := List.mem_singleton.mp ha
        cases hfetch
    · rw [hplan] at hd
      simp at hd

/-- `a` differs here, there and in the record. -/
def threeWays : World := conflicting [] [(pathA, ⟨.file ['z'] 1, none⟩)]

/-- The folder once `a` is moved to its copy, whose upload then fails. -/
def movedAway : World :=
  { threeWays with disk := (threeWays.disk.erase pathA).insert copyOfA (.file ['x'] 1) }

theorem attempt_movedAway : Attempt .ascii (Pass.plain .ascii .unixEpoch threeWays.disk) threeWays
    [⟨.keepBoth pathA copyOfA, [.rename (.renaming pathA) pathA copyOfA]⟩] movedAway := by
  let pass := Pass.plain .ascii .unixEpoch threeWays.disk
  have hplan : [Turn.mk (.keepBoth pathA copyOfA) [.rename (.renaming pathA) pathA copyOfA]].map
      Turn.action = (pass.plan .ascii threeWays).actions := by decide +kernel
  have hdone : Performs .ascii [.rename (.renaming pathA) pathA copyOfA]
      { threeWays with report := pass.report .ascii threeWays }
      { movedAway with report := pass.report .ascii threeWays } := .cons rfl (.nil _)
  have hturns : Turns .ascii pass (pass.remote .ascii threeWays)
      [⟨.keepBoth pathA copyOfA, [.rename (.renaming pathA) pathA copyOfA]⟩]
      { threeWays with report := pass.report .ascii threeWays } movedAway :=
    .cons rfl hdone .default (.nil _)
  have hstate : recordAgreedDirectories pass (pass.remote .ascii threeWays) movedAway.state =
      movedAway.state := rfl
  have hsave : SaveKeeps .ascii pass.rules movedAway.disk movedAway.disk := fun _ _ => rfl
  have hended := Attempt.ended hplan hturns hsave
  rw [hstate] at hended
  exact hended

/-- **A conflict whose upload failed is deleted from the server** when the next listing has the
recorded version again: the engine's own rename reads as a deletion by the user. -/
theorem conflict_removed :
    let next := Pass.plain .ascii .unixEpoch movedAway.disk
    let w' := { movedAway with server := ⟨OrdMap.ofList [(pathA, .file ['z'] 1)], []⟩ }
    (Pass.plain .ascii .unixEpoch threeWays.disk).Faithful .ascii threeWays ∧
      Attempt .ascii (Pass.plain .ascii .unixEpoch threeWays.disk) threeWays
        [⟨.keepBoth pathA copyOfA, [.rename (.renaming pathA) pathA copyOfA]⟩] movedAway ∧
      next.Faithful .ascii w' ∧ .deleteRemote pathA ∈ (next.plan .ascii w').actions ∧
      ¬NoFalseRemoval .ascii threeWays next w' := by
  intro next w'
  have hmem : .deleteRemote pathA ∈ (next.plan .ascii w').actions := by decide +kernel
  refine ⟨Pass.faithful_plain rfl (by decide +kernel) (by decide +kernel), attempt_movedAway,
    Pass.faithful_plain rfl (by decide +kernel) (by decide +kernel), hmem, fun h => ?_⟩
  exact absurd (h _ hmem rfl).1 (by decide +kernel)

end Stashden.Sync
