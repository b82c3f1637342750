import Stashden.Sync.Pass
import Stashden.Sync.Shares

/-!
# Agreement is recorded

After a pass without a failure, a path the two sides agree on should carry that entry in the record,
so that a later change on one side only is told from a conflict. `for_file` plans nothing for a file
both sides already hold, and no action then records it: `agreement_unrecorded` is the folder in
which this shows.

`Recordable` is the condition under which a pass records every agreement; `recorded` proves it, one
case for each way the two sides and the record can stand at the path. What the record is good for is
`change_here_carried` and `change_there_carried`: from a recorded agreement, a change on one side
goes to the other, unless a share keeps it back (`Withholds`) or a file stands against a directory
(`FileAgainstDirectory`). `agreement_kept` puts them together along a run of passes and edits.
-/

namespace Stashden.Sync

open Lib RelPath

/-- When a pass records every agreement. -/
structure Recordable (h : Held) (localSide remote base : Snapshot) (now : DateTime) : Prop where
  /-- A file both sides hold is recorded already. -/
  same : ∀ p t n, localSide.get p = some (.file t n) → remote.get p = some (.file t n) →
    base.get p = some (.file t n)
  /-- No directory of the server is made here on the way, recorded as a file. -/
  onTheWay : ∀ d t n, localSide.get d = none → remote.get d = some .directory →
    base.get d = some (.file t n) → ∀ a, Warranted localSide remote base now a →
      a.makesLocal = true → a.subject.isInside d = false
  /-- The copy of a conflict, where it is new, is not recorded. -/
  freshCopy : ∀ p c, Warranted localSide remote base now (.keepBoth p c) →
    h.refusesUpload c = false → localSide.get c = none → remote.get c = none → base.get c = none
  /-- No directory a share keeps from being created has one inside that is created. -/
  heldDirectory : ∀ d q, Warranted localSide remote base now (.createRemoteDirectory d) →
    h.refusesUpload d = true → Warranted localSide remote base now (.createRemoteDirectory q) →
      h.refusesUpload q = false → q.isInside d = false
  /-- The copy of a conflict set aside is new. -/
  asideFresh : ∀ p c, Warranted localSide remote base now (.keepBoth p c) →
    h.refusesUpload c = true → localSide.get c = none ∧ remote.get c = none

/-- What a share keeps from the server at a path the folder changed: an entry where nothing may be
put, and the absence of one the removals spare. -/
def Held.Withholds (h : Held) (localSide remote base : Snapshot) (p : RelPath) : Prop :=
  (localSide.get p ≠ none ∧ h.refusesUpload p = true) ∨
    (localSide.get p = none ∧ h.Spares localSide remote base p)

/-- A file on one side and a directory on the other. -/
def FileAgainstDirectory (localSide remote : Snapshot) (p : RelPath) : Prop :=
  (∃ t n, localSide.get p = some (.file t n) ∧ remote.get p = some .directory) ∨
    ∃ t n, localSide.get p = some .directory ∧ remote.get p = some (.file t n)

namespace Execution

variable {h : Held} {localSide remote base : Snapshot} {now : DateTime}
  {scanned : RelPath → Option Entry} {s : Sides} {p : RelPath}

variable (E : Execution h localSide remote base now scanned (acts h localSide remote base now) s)
  (A : Agrees localSide remote base s p)

include E A

/-- A directory gone here and standing on the server: what agreement there is, is recorded. -/
theorem recorded_of_gone_directory (hwm : h.WellMounted) (C : Recordable h localSide remote base now)
    (hl : localSide.get p = none) (hr : remote.get p = some .directory)
    (heq : E.outcome.disk p = E.outcome.server p) : E.outcome.base p = E.outcome.server p := by
  have hdisk : s.disk p ≠ some .directory := by rw [A.disk, hl]; simp
  by_cases hb : base.get p = none
  · obtain ⟨hd, hbase⟩ := E.settles_createLocal (mem_acts ⟨hl, hr, hb⟩ rfl rfl)
    rw [← heq, hd, hbase]
  -- The record is what the server has, unless the directory came to stand here.
  have hkept : E.outcome.server p = some .directory → E.outcome.base p = base.get p →
      (base.get p ≠ some .directory → E.outcome.disk p ≠ some .directory) →
      E.outcome.base p = E.outcome.server p := by
    intro hs hbase hno
    by_cases hbd : base.get p = some .directory
    · rw [hbase, hs, hbd]
    · exact absurd (heq.trans hs) (hno hbd)
  by_cases hall : ∀ q e, q.isInside p = true → remote.get q = some e → base.get q = some e
  · have hw : Warranted localSide remote base now (.removeRemoteDirectory p) := ⟨hl, hr, hb, hall⟩
    by_cases hmem : .removeRemoteDirectory p ∈ acts h localSide remote base now
    · obtain ⟨hs, hbase⟩ := E.settles_removed hmem rfl hl
      exact hbase.trans hs.symm
    · obtain ⟨hs, hbase⟩ := E.settles_removal_held A hwm rfl hw rfl hr hl hmem
      exact hkept hs hbase fun _ => E.not_directory_of_idle hdisk
        (fun b hbm => subject_ne_of_held hw hmem rfl hbm)
        fun b hbm hm => not_made_of_recorded E.localTree hl hall hbm hm
  · push Not at hall
    obtain ⟨q, e, hin, hq, hbq⟩ := hall
    obtain ⟨hs, hbase⟩ := E.settles_kept A hl hr hb hin hq hbq
    refine hkept hs hbase fun hbd => E.not_directory_of_idle hdisk ?_ ?_
    · have hnot : holdsOnlyWhatWasSynced remote base p = false := by
        rw [← Bool.not_eq_true, holdsOnly_iff]
        exact fun hall => hbq (hall q e hin hq)
      obtain ⟨r, hbr⟩ := Option.ne_none_iff_exists'.mp hb
      exact fun b hbm => subject_ne_of_idle
        (by simp [verdict, hl, hr, hnot, OrdMap.containsKey, hbr]) hbm
    · obtain ⟨t, n, hfile⟩ : ∃ t n, base.get p = some (.file t n) := by
        cases hbp : base.get p with
        | none => exact absurd hbp hb
        | some r =>
          cases r with
          | directory => exact absurd hbp hbd
          | file t n => exact ⟨t, n, rfl⟩
      intro b hbm hm
      rcases planned_of_mem hbm with hwb | ⟨x, c, rfl, hwb⟩
      · exact C.onTheWay p t n hl hr hfile b hwb hm
      · exact C.onTheWay p t n hl hr hfile (.keepBoth x c) hwb rfl

/-- A file gone here and standing on the server. -/
theorem recorded_of_gone_file (hwm : h.WellMounted) {t : Str} {n : Nat}
    (hl : localSide.get p = none) (hr : remote.get p = some (.file t n)) :
    E.outcome.base p = E.outcome.server p := by
  by_cases hb : base.get p = some (.file t n)
  · have hw : Warranted localSide remote base now (.deleteRemote p) := ⟨t, n, hr, hl, hb.trans hr.symm⟩
    by_cases hmem : .deleteRemote p ∈ acts h localSide remote base now
    · obtain ⟨hs, hbase⟩ := E.settles_removed hmem rfl hl
      exact hbase.trans hs.symm
    · obtain ⟨hs, hbase⟩ := E.settles_removal_held A hwm rfl hw rfl hr hl hmem
      rw [hs, hbase, hb]
  · have hmem : .download p ∈ acts h localSide remote base now :=
      mem_acts ⟨t, n, hr, Or.inl ⟨hl, hb⟩⟩ rfl rfl
    have hdir : localSide.get p ≠ some .directory := by simp [hl]
    obtain ⟨hs, hbase⟩ := E.settles_fetched hmem rfl hr hdir (Or.inr hb)
    exact hbase.trans hs.symm

/-- Absent on both sides: the name of a conflict's copy, or of nothing. -/
theorem recorded_of_absent (C : Recordable h localSide remote base now)
    (hl : localSide.get p = none) (hr : remote.get p = none) :
    E.outcome.base p = E.outcome.server p := by
  by_cases hcopy : ∃ q, .keepBoth q p ∈ acts h localSide remote base now
  · obtain ⟨q, hq⟩ := hcopy
    have hw := warranted_of_mem hq (fun _ _ => nofun)
    have hb := C.freshCopy q p hw ((refusal_of_mem hq).2.1 q p rfl) hl hr
    have haside : ∀ x, .setAside x q ∉ acts h localSide remote base now := by
      intro x hx
      obtain ⟨hwx, hrx⟩ := setAside_spec hx
      obtain ⟨t, n, -, -, hlq, -⟩ := hw.1
      rw [(C.asideFresh x q hwx hrx).1] at hlq
      exact absurd hlq (by simp)
    obtain ⟨hs, hbase⟩ := E.settles_copied hq hl hr hb haside
    rw [hs, hbase]
  · obtain ⟨hs, hbase⟩ := E.settles_absent A hl hr (fun q hq => hcopy ⟨q, hq⟩)
      fun hb => mem_acts ⟨hl, hr, hb⟩ rfl rfl
    rw [hs, hbase]

/-- A directory here that the server does not have. -/
theorem recorded_of_directory_here (C : Recordable h localSide remote base now)
    (hl : localSide.get p = some .directory) (hr : remote.get p = none)
    (heq : E.outcome.disk p = E.outcome.server p) : E.outcome.base p = E.outcome.server p := by
  by_cases hb : base.get p = none
  · have hw : Warranted localSide remote base now (.createRemoteDirectory p) := ⟨hl, hr, hb⟩
    by_cases hmem : .createRemoteDirectory p ∈ acts h localSide remote base now
    · obtain ⟨hs, hbase⟩ := E.settles_createRemote hmem
      exact hbase.trans hs.symm
    · have hrefused : h.refusesUpload p = true := (mem_held hw hmem rfl).1
      have hin : ∀ q, .createRemoteDirectory q ∈ acts h localSide remote base now →
          q.isInside p = false := fun q hq =>
        C.heldDirectory p q hw hrefused (warranted_of_mem hq (fun _ _ => nofun))
          (refusal_of_created hq)
      exact (E.settles_directory_held A hw hmem hin).2.symm
  · have hmem : .removeLocalDirectory p ∈ acts h localSide remote base now :=
      mem_acts ⟨hl, hr, hb⟩ rfl rfl
    obtain ⟨hd, hbase⟩ := E.settles_deleted hmem (Or.inr rfl) hr
    exact hbase.trans (hd.symm.trans heq)

/-- A file here that the server does not have. -/
theorem recorded_of_file_here {t : Str} {n : Nat} (hl : localSide.get p = some (.file t n))
    (hr : remote.get p = none) (heq : E.outcome.disk p = E.outcome.server p) :
    E.outcome.base p = E.outcome.server p := by
  by_cases hb : base.get p = some (.file t n)
  · have hmem : .deleteLocal p ∈ acts h localSide remote base now :=
      mem_acts ⟨t, n, hl, hr, hb.trans hl.symm⟩ rfl rfl
    obtain ⟨hd, hbase⟩ := E.settles_deleted hmem (Or.inl rfl) hr
    exact hbase.trans (hd.symm.trans heq)
  · have hw : Warranted localSide remote base now (.upload p) := ⟨t, n, hl, Or.inl ⟨hr, hb⟩⟩
    by_cases hmem : .upload p ∈ acts h localSide remote base now
    · obtain ⟨hs, hbase⟩ := E.settles_uploaded hmem
      exact hbase.trans hs.symm
    · obtain ⟨⟨x, y, hd⟩, hs⟩ := E.settles_upload_held A hl hr hw hmem
      rw [hd, hs] at heq
      exact absurd heq (by simp)

/-- Files on both sides: the same, changed on one side, or changed on both. -/
theorem recorded_of_files (C : Recordable h localSide remote base now) {t t' : Str} {n n' : Nat}
    (hl : localSide.get p = some (.file t n)) (hr : remote.get p = some (.file t' n')) :
    E.outcome.base p = E.outcome.server p := by
  have hdir : localSide.get p ≠ some .directory := by simp [hl]
  have hne : localSide.get p ≠ none := by simp [hl]
  by_cases hsame : Entry.file t n = Entry.file t' n'
  · rw [← hsame] at hr
    obtain ⟨hs, hbase⟩ := E.settles_same A hl hr
    rw [hs, hbase, C.same p t n hl hr]
  have hlr : localSide.get p ≠ remote.get p := by
    rw [hl, hr]
    exact fun e => hsame (Option.some.inj e)
  by_cases hbl : base.get p = localSide.get p
  · have hmem : .download p ∈ acts h localSide remote base now :=
      mem_acts ⟨t', n', hr, Or.inr ⟨t, n, hl, hlr, hbl⟩⟩ rfl rfl
    obtain ⟨hs, hbase⟩ := E.settles_fetched hmem rfl hr hdir (Or.inl hne)
    exact hbase.trans hs.symm
  by_cases hbr : base.get p = remote.get p
  · have hw : Warranted localSide remote base now (.upload p) :=
      ⟨t, n, hl, Or.inr ⟨t', n', hr, hlr, hbr⟩⟩
    by_cases hmem : .upload p ∈ acts h localSide remote base now
    · obtain ⟨hs, hbase⟩ := E.settles_uploaded hmem
      exact hbase.trans hs.symm
    · obtain ⟨hs, hbase⟩ := E.settles_edit_held A hl hr hw hmem
      rw [hs, hbase, hbr, hr]
  obtain ⟨c, hc, -⟩ := conflictCopy_spec p now
  have hw : Warranted localSide remote base now (.keepBoth p c) :=
    ⟨⟨t, n, t', n', hl, hr⟩, hlr, hbl, hbr, hc⟩
  obtain ⟨a, ha, hf, hsub⟩ := mem_acts_conflict (h := h) hw
  subst hsub
  obtain ⟨hs, hbase⟩ := E.settles_fetched ha hf hr hdir (Or.inl hne)
  exact hbase.trans hs.symm

/-- **Agreement is recorded** by an execution, but for directories both sides had, which the pass
records at its end. -/
theorem recorded (hwm : h.WellMounted) (C : Recordable h localSide remote base now)
    (hdirs : localSide.get p = some .directory → remote.get p ≠ some .directory)
    (heq : E.outcome.disk p = E.outcome.server p) : E.outcome.base p = E.outcome.server p := by
  rcases hl : localSide.get p with _ | (_ | ⟨t, n⟩) <;>
    rcases hr : remote.get p with _ | (_ | ⟨t', n'⟩)
  · exact E.recorded_of_absent A C hl hr
  · exact E.recorded_of_gone_directory A hwm C hl hr heq
  · exact E.recorded_of_gone_file A hwm hl hr
  · exact E.recorded_of_directory_here A C hl hr heq
  · exact absurd hr (hdirs hl)
  · obtain ⟨hd, hs⟩ := E.settles_directory_file A hl hr
    rw [hd, hs] at heq
    exact absurd heq (by simp)
  · exact E.recorded_of_file_here A hl hr heq
  · obtain ⟨⟨x, y, hd⟩, hs⟩ := E.settles_file_directory A hl hr
    rw [hd, hs] at heq
    exact absurd heq (by simp)
  · exact E.recorded_of_files A C hl hr

/-! ## What a record is good for -/

omit E A in
/-- A planned write of a path that did not run is one a share withholds, and the report names it. -/
theorem withholds_of_not_mem {a : Action} (hw : Warranted localSide remote base now a)
    (hheld : a ∉ acts h localSide remote base now) (hk : a.makesRemote = true ∨ a.removes = true)
    (hcopy : a.copy = none) : h.Withholds localSide remote base a.subject ∧
      a.subject ∈ (h.apply (reconcile localSide remote base now)).held := by
  obtain ⟨hholds, hreport⟩ := mem_held hw hheld hcopy
  refine ⟨?_, hreport⟩
  cases a with
  | createRemoteDirectory q =>
    obtain ⟨hl, -⟩ := hw
    exact Or.inl ⟨Option.ne_none_iff_exists'.mpr ⟨_, hl⟩, hholds⟩
  | upload q =>
    obtain ⟨t, n, hl, -⟩ := hw
    exact Or.inl ⟨Option.ne_none_iff_exists'.mpr ⟨_, hl⟩, hholds⟩
  | deleteRemote q =>
    obtain ⟨t, n, -, hl, -⟩ := hw
    exact Or.inr ⟨hl, (holdsRemoval_iff now).mp hholds⟩
  | removeRemoteDirectory q =>
    obtain ⟨hl, -⟩ := hw
    exact Or.inr ⟨hl, (holdsRemoval_iff now).mp hholds⟩
  | keepBoth q c => exact absurd hcopy (by simp [Action.copy])
  | setAside q c => exact hw.elim
  | _ => exact absurd hk (by simp [Action.makesRemote, Action.removes])

omit A in
/-- **A change made here of a recorded path goes to the server**, or is reported: a share withholds
it, or a file stands against a directory. A directory gone here stays on the server when something
inside is not as recorded. -/
theorem change_here_carried (hb : base.get p = remote.get p) (hne : localSide.get p ≠ remote.get p) :
    E.outcome.server p = localSide.get p ∨
      (h.Withholds localSide remote base p ∧
        p ∈ (h.apply (reconcile localSide remote base now)).held) ∨
      (FileAgainstDirectory localSide remote p ∧
        p ∈ (h.apply (reconcile localSide remote base now)).blocked) ∨
      (localSide.get p = none ∧ remote.get p = some .directory ∧
        ∃ q e, q.isInside p = true ∧ remote.get q = some e ∧ base.get q ≠ some e) := by
  -- Each case plans one action, which ran or was held back.
  have hcase : ∀ {a : Action}, Warranted localSide remote base now a → a.subject = p →
      (a.makesRemote = true ∨ a.removes = true) → a.copy = none →
      (a ∈ acts h localSide remote base now → E.outcome.server p = localSide.get p) →
      E.outcome.server p = localSide.get p ∨
        (h.Withholds localSide remote base p ∧
          p ∈ (h.apply (reconcile localSide remote base now)).held) := by
    intro a hw hsub hk hcopy hran
    by_cases hmem : a ∈ acts h localSide remote base now
    · exact Or.inl (hran hmem)
    · exact Or.inr (hsub ▸ withholds_of_not_mem hw hmem hk hcopy)
  have hblocked : FileAgainstDirectory localSide remote p →
      FileAgainstDirectory localSide remote p ∧
        p ∈ (h.apply (reconcile localSide remote base now)).blocked := fun hf =>
    ⟨hf, mem_blocked_iff.mpr hf⟩
  rcases hl : localSide.get p with _ | (_ | ⟨t, n⟩) <;>
    rcases hr : remote.get p with _ | (_ | ⟨t', n'⟩)
  · exact absurd (hl.trans hr.symm) hne
  · by_cases hall : ∀ q e, q.isInside p = true → remote.get q = some e → base.get q = some e
    · have hw : Warranted localSide remote base now (.removeRemoteDirectory p) :=
        ⟨hl, hr, by simp [hb, hr], hall⟩
      rw [← hl]
      exact (hcase hw rfl (Or.inr rfl) rfl fun hmem =>
        (E.settles_removed hmem rfl hl).1.trans hl.symm).imp_right Or.inl
    · push Not at hall
      exact Or.inr (Or.inr (Or.inr ⟨rfl, rfl, hall⟩))
  · have hw : Warranted localSide remote base now (.deleteRemote p) := ⟨t', n', hr, hl, hb⟩
    rw [← hl]
    exact (hcase hw rfl (Or.inr rfl) rfl fun hmem =>
      (E.settles_removed hmem rfl hl).1.trans hl.symm).imp_right Or.inl
  · have hw : Warranted localSide remote base now (.createRemoteDirectory p) :=
      ⟨hl, hr, hb.trans hr⟩
    rw [← hl]
    exact (hcase hw rfl (Or.inl rfl) rfl fun hmem =>
      (E.settles_createRemote hmem).1.trans hl.symm).imp_right Or.inl
  · exact absurd (hl.trans hr.symm) hne
  · exact Or.inr (Or.inr (Or.inl (hblocked (Or.inr ⟨t', n', hl, hr⟩))))
  · have hw : Warranted localSide remote base now (.upload p) :=
      ⟨t, n, hl, Or.inl ⟨hr, by simp [hb, hr]⟩⟩
    rw [← hl]
    exact (hcase hw rfl (Or.inl rfl) rfl fun hmem => (E.settles_uploaded hmem).1).imp_right Or.inl
  · exact Or.inr (Or.inr (Or.inl (hblocked (Or.inl ⟨t, n, hl, hr⟩))))
  · have hw : Warranted localSide remote base now (.upload p) :=
      ⟨t, n, hl, Or.inr ⟨t', n', hr, hne, hb⟩⟩
    rw [← hl]
    exact (hcase hw rfl (Or.inl rfl) rfl fun hmem => (E.settles_uploaded hmem).1).imp_right Or.inl

omit E A in
/-- It is not undone: nothing is brought here in its place, and no conflict is made of it. -/
theorem change_here_kept {b : Action} (hb : base.get p = remote.get p)
    (hne : localSide.get p ≠ remote.get p) (hm : b ∈ acts h localSide remote base now)
    (hsub : b.subject = p) : b.makesLocal = false := by
  subst hsub
  have hconflict : ∀ q c, Warranted localSide remote base now (.keepBoth q c) →
      base.get q ≠ remote.get q := fun q c hw => hw.2.2.2.1
  cases b with
  | createLocalDirectory q =>
    obtain ⟨-, hr, hbn⟩ := warranted_of_mem hm (fun _ _ => nofun)
    exact absurd (hbn.symm.trans (hb.trans hr)) (by simp)
  | download q =>
    obtain ⟨t, n, hr, ⟨-, hbq⟩ | ⟨t', n', hl, -, hbl⟩⟩ := warranted_of_mem hm (fun _ _ => nofun)
    · exact absurd (hb.trans hr) hbq
    · exact absurd (hbl.symm.trans hb) hne
  | keepBoth q c => exact absurd hb (hconflict q c (warranted_of_mem hm (fun _ _ => nofun)))
  | setAside q c => exact absurd hb (hconflict q c (planned_of_mem hm).of_setAside)
  | _ => rfl

omit A in
/-- **A change made on the server of a recorded path comes here**, or a file stands against a
directory. -/
theorem change_there_carried (C : Recordable h localSide remote base now)
    (hb : base.get p = localSide.get p) (hne : localSide.get p ≠ remote.get p) :
    E.outcome.disk p = remote.get p ∨
      (FileAgainstDirectory localSide remote p ∧
        p ∈ (h.apply (reconcile localSide remote base now)).blocked) := by
  have hblocked : FileAgainstDirectory localSide remote p →
      FileAgainstDirectory localSide remote p ∧
        p ∈ (h.apply (reconcile localSide remote base now)).blocked := fun hf =>
    ⟨hf, mem_blocked_iff.mpr hf⟩
  have haside : ∀ e, remote.get p = some e → ∀ x, .setAside x p ∉ acts h localSide remote base now :=
    fun e he x hx => by
      obtain ⟨hwx, hrx⟩ := setAside_spec hx
      rw [(C.asideFresh x p hwx hrx).2] at he
      exact absurd he (by simp)
  have hfetched : ∀ {t : Str} {n : Nat}, remote.get p = some (.file t n) →
      Warranted localSide remote base now (.download p) →
      (localSide.get p ≠ none ∨ base.get p ≠ some (.file t n)) →
      E.outcome.disk p = some (.file t n) := fun hr hw hp =>
    E.settles_fetched_disk (a := .download p) (mem_acts hw rfl rfl) rfl hr hp (haside _ hr)
  rcases hl : localSide.get p with _ | (_ | ⟨t, n⟩) <;>
    rcases hr : remote.get p with _ | (_ | ⟨t', n'⟩)
  · exact absurd (hl.trans hr.symm) hne
  · exact Or.inl (E.settles_createLocal (mem_acts ⟨hl, hr, hb.trans hl⟩ rfl rfl)).1
  · have hbn : base.get p ≠ some (.file t' n') := by simp [hb, hl]
    exact Or.inl (hfetched hr ⟨t', n', hr, Or.inl ⟨hl, hbn⟩⟩ (Or.inr hbn))
  · have hmem : .removeLocalDirectory p ∈ acts h localSide remote base now :=
      mem_acts ⟨hl, hr, by simp [hb, hl]⟩ rfl rfl
    exact Or.inl (E.settles_deleted hmem (Or.inr rfl) hr).1
  · exact absurd (hl.trans hr.symm) hne
  · exact Or.inr (hblocked (Or.inr ⟨t', n', hl, hr⟩))
  · have hmem : .deleteLocal p ∈ acts h localSide remote base now := mem_acts ⟨t, n, hl, hr, hb⟩ rfl rfl
    exact Or.inl (E.settles_deleted hmem (Or.inl rfl) hr).1
  · exact Or.inr (hblocked (Or.inl ⟨t, n, hl, hr⟩))
  · have hlne : localSide.get p ≠ none := by simp [hl]
    exact Or.inl (hfetched hr ⟨t', n', hr, Or.inr ⟨t, n, hl, hne, hb⟩⟩ (Or.inl hlne))

omit E A in
/-- It is not undone: nothing is sent to the server or removed there, and no conflict is made of
it. -/
theorem change_there_kept {b : Action} (hb : base.get p = localSide.get p)
    (hne : localSide.get p ≠ remote.get p) (hm : b ∈ acts h localSide remote base now)
    (hsub : b.subject = p) : b.makesRemote = false ∧ b.removes = false ∧ b.copy = none := by
  subst hsub
  have hconflict : ∀ q c, Warranted localSide remote base now (.keepBoth q c) →
      base.get q ≠ localSide.get q := fun q c hw => hw.2.2.1
  cases b with
  | createRemoteDirectory q =>
    obtain ⟨hl, -, hbn⟩ := warranted_of_mem hm (fun _ _ => nofun)
    exact absurd (hbn.symm.trans (hb.trans hl)) (by simp)
  | upload q =>
    obtain ⟨t, n, hl, ⟨-, hbq⟩ | ⟨t', n', hr, -, hbr⟩⟩ := warranted_of_mem hm (fun _ _ => nofun)
    · exact absurd (hb.trans hl) hbq
    · exact absurd (hb.symm.trans hbr) hne
  | deleteRemote q =>
    obtain ⟨t, n, hr, hl, hbr⟩ := warranted_of_mem hm (fun _ _ => nofun)
    exact absurd (hb.symm.trans hbr) hne
  | removeRemoteDirectory q =>
    obtain ⟨hl, hr, hbn, -⟩ := warranted_of_mem hm (fun _ _ => nofun)
    exact absurd (hb.trans hl) hbn
  | keepBoth q c => exact absurd hb (hconflict q c (warranted_of_mem hm (fun _ _ => nofun)))
  | setAside q c => exact absurd hb (hconflict q c (planned_of_mem hm).of_setAside)
  | _ => exact ⟨rfl, rfl, rfl⟩

end Execution

/-! ## Runs of passes and edits -/

/-- A path set to an entry, or taken away. -/
def setEntry (m : Snapshot) (path : RelPath) : Option Entry → Snapshot
  | some e => m.insert path e
  | none => m.erase path

/-- A change somebody makes outside the engine, in the folder or on the server. -/
structure Edit where
  here : Bool
  path : RelPath
  entry : Option Entry

def Edit.run (w : World) (edit : Edit) : World :=
  if edit.here then { w with disk := setEntry w.disk edit.path edit.entry }
  else { w with server := { w.server with tree := setEntry w.server.tree edit.path edit.entry } }

/-- Edits, then a pass. -/
structure Round where
  edits : List Edit
  pass : Pass

/-- What the round's pass starts from. -/
def Round.before (r : Round) (w : World) : World := r.edits.foldl Edit.run w

def Round.after (u : Unicode) (r : Round) (w : World) : World := syncOnce u r.pass (r.before w)

theorem state_edits (edits : List Edit) (w : World) : (edits.foldl Edit.run w).state = w.state := by
  induction edits generalizing w with
  | nil => rfl
  | cons e edits ih =>
    rw [List.foldl_cons, ih]
    unfold Edit.run
    split_ifs <;> rfl

/-- When a pass records every agreement, read off what it compares. -/
def Pass.Records (u : Unicode) (pass : Pass) (w : World) : Prop :=
  Recordable pass.held (pass.localSide u w) (pass.remote u w) (pass.base u w) pass.now

/-- Every pass of a run reports the folder, meets the condition and has no failure. -/
def Good (u : Unicode) : World → List Round → Prop
  | _, [] => True
  | w, r :: rounds =>
    (r.pass.Faithful u (r.before w) ∧ r.pass.Clean u (r.before w) ∧ r.pass.Records u (r.before w)) ∧
      Good u (r.after u w) rounds

/-- Wherever the two sides agree after a pass, on an entry or on its absence, the record does. -/
def AgreementRecorded (u : Unicode) (pass : Pass) (w : World) : Prop :=
  ∀ p, pass.Sees u w p → (syncOnce u pass w).disk.get p = (syncOnce u pass w).server.tree.get p →
    (syncOnce u pass w).state.base.get p = (syncOnce u pass w).server.tree.get p

/-- A change on one side only of a path that stood at `v` on both goes to the other side with the
pass, unless a share withholds it or it sets a file against a directory, both of which the report
names, or it takes away a directory in which the server has something new; nothing planned at the
path undoes it or makes a conflict of it. -/
def OneSidedCarried (u : Unicode) (pass : Pass) (w : World) (p : RelPath) (v : Option Entry) :
    Prop :=
  (w.server.tree.get p = v → w.disk.get p ≠ v →
    ((syncOnce u pass w).server.tree.get p = w.disk.get p ∨
      (pass.held.Withholds (pass.localSide u w) (pass.remote u w) (pass.base u w) p ∧
        p ∈ (pass.plan u w).held) ∨
      (FileAgainstDirectory w.disk w.server.tree p ∧ p ∈ (pass.plan u w).blocked) ∨
      (w.disk.get p = none ∧ v = some .directory ∧
        ∃ q e, q.isInside p = true ∧ w.server.tree.get q = some e ∧ w.state.base.get q ≠ some e)) ∧
    ∀ a ∈ (pass.plan u w).actions, a.subject = p → a.makesLocal = false) ∧
  (w.disk.get p = v → w.server.tree.get p ≠ v →
    ((syncOnce u pass w).disk.get p = w.server.tree.get p ∨
      (FileAgainstDirectory w.disk w.server.tree p ∧ p ∈ (pass.plan u w).blocked)) ∧
    ∀ a ∈ (pass.plan u w).actions, a.subject = p →
      a.makesRemote = false ∧ a.removes = false ∧ a.copy = none)

/-- What a run keeps: every pass records the agreement, and the next one carries what changed on
one side of it. -/
def AgreementKept (u : Unicode) : World → List Round → Prop
  | _, [] => True
  | w, r :: rounds =>
    AgreementRecorded u r.pass (r.before w) ∧
      (∀ r' ∈ rounds.head?, ∀ p, r.pass.Sees u (r.before w) p →
        r'.pass.Sees u (r'.before (r.after u w)) p →
        (r.after u w).disk.get p = (r.after u w).server.tree.get p →
        OneSidedCarried u r'.pass (r'.before (r.after u w)) p ((r.after u w).disk.get p)) ∧
      AgreementKept u (r.after u w) rounds

section Pass

variable {u : Unicode} {pass : Pass} {w : World}

open Pass

theorem wellMounted_held : pass.held.WellMounted := by
  unfold Pass.held
  cases pass.mounts with
  | none => exact ⟨fun _ h => by simp at h, fun _ h => absurd h List.not_mem_nil⟩
  | some mounts => exact Held.wellMounted_fromMounts mounts

theorem agreementRecorded_of_records (hf : Faithful u pass w) (hc : Clean u pass w)
    (hr : pass.Records u w) : AgreementRecorded u pass w := by
  intro p hp heq
  have hh := hp.visible.not_hides
  rw [← sides_disk hh, ← sides_server hh, (syncOnce_sides hf hc p).1, (syncOnce_sides hf hc p).2]
    at heq
  rw [← sides_server hh, (syncOnce_sides hf hc p).2, syncOnce_base hf hc]
  have hA := hf.agrees hp
  have hscan : (pass.localSide u w).get p = pass.scan.snapshot.get p := by
    rw [localSide, get_fits, hp.fit]
    rfl
  rw [← hscan]
  split_ifs with hdirs
  · exact ((hf.execution hc).settles_directories hA hdirs.1 hdirs.2).2.symm
  · exact (hf.execution hc).recorded hA wellMounted_held hr (fun hl hr' => hdirs ⟨hl, hr'⟩) heq

theorem oneSidedCarried_of_recorded (hf : Faithful u pass w) (hc : Clean u pass w)
    (hr : pass.Records u w) {p : RelPath} (hp : Sees u pass w p) {v : Option Entry}
    (hv : w.state.base.get p = v) : OneSidedCarried u pass w p v := by
  have hh := hp.visible.not_hides
  have hA := hf.agrees hp
  have hl : (pass.localSide u w).get p = w.disk.get p := by rw [← hA.disk, sides_disk hh]
  have hrem : (pass.remote u w).get p = w.server.tree.get p := by rw [← hA.server, sides_server hh]
  have hb : (pass.base u w).get p = v := by rw [← hA.base]; exact hv
  have hserver : (syncOnce u pass w).server.tree.get p = (hf.execution hc).outcome.server p := by
    rw [← (syncOnce_sides hf hc p).2, sides_server hh]
  have hdisk : (syncOnce u pass w).disk.get p = (hf.execution hc).outcome.disk p := by
    rw [← (syncOnce_sides hf hc p).1, sides_disk hh]
  have hfile : FileAgainstDirectory (pass.localSide u w) (pass.remote u w) p ↔
      FileAgainstDirectory w.disk w.server.tree p := by
    unfold FileAgainstDirectory
    rw [hl, hrem]
  unfold OneSidedCarried
  rw [plan_eq, ← hfile]
  refine ⟨fun hs hd => ?_, fun hd hs => ?_⟩
  · have hbr : (pass.base u w).get p = (pass.remote u w).get p := by rw [hb, hrem, hs]
    have hne : (pass.localSide u w).get p ≠ (pass.remote u w).get p := by rw [hl, hrem, hs]; exact hd
    refine ⟨?_, fun a ha hsub => Execution.change_here_kept hbr hne ha hsub⟩
    rw [hserver, ← hl]
    rcases (hf.execution hc).change_here_carried hbr hne with h | h | h | ⟨hn, hdir, q, e, hq⟩
    · exact Or.inl h
    · exact Or.inr (Or.inl h)
    · exact Or.inr (Or.inr (Or.inl h))
    · obtain ⟨hlisted, hvis, hfit⟩ := remote_eq_some hq.2.1
      refine Or.inr (Or.inr (Or.inr ⟨hn, ?_, q, e, hq.1, hlisted, ?_⟩))
      · rw [← hs, ← hrem]
        exact hdir
      · have hbase := hq.2.2
        rw [Pass.base, get_fits, hfit] at hbase
        exact hbase
  · have hbl : (pass.base u w).get p = (pass.localSide u w).get p := by rw [hb, hl, hd]
    have hne : (pass.localSide u w).get p ≠ (pass.remote u w).get p := by
      rw [hl, hrem, hd]
      exact fun e => hs e.symm
    refine ⟨?_, fun a ha hsub => Execution.change_there_kept hbl hne ha hsub⟩
    rw [hdisk, ← hrem]
    exact (hf.execution hc).change_there_carried hr hbl hne

end Pass

/-- **Agreement is recorded along every run** whose passes meet the condition, and what then changes
on one side only is carried to the other. -/
theorem agreement_kept {u : Unicode} {w : World} {rounds : List Round} (h : Good u w rounds) :
    AgreementKept u w rounds := by
  induction rounds generalizing w with
  | nil => trivial
  | cons r rounds ih =>
    obtain ⟨⟨hf, hc, hr⟩, hrest⟩ := h
    have hrec := agreementRecorded_of_records hf hc hr
    refine ⟨hrec, fun r' hr' p hp hp' heq => ?_, ih hrest⟩
    cases rounds with
    | nil => exact absurd hr' (by simp)
    | cons r₂ rounds =>
      obtain rfl : r₂ = r' := by simpa using hr'
      obtain ⟨⟨hf', hc', hr₂⟩, -⟩ := hrest
      refine oneSidedCarried_of_recorded hf' hc' hr₂ hp' ?_
      unfold Round.before
      rw [state_edits, heq]
      exact hrec p hp heq

/-! ## Two folders -/

/-- One file of the given content, at `a`. -/
def oneFile (tag : Str) : Snapshot := OrdMap.empty.insert pathA (.file tag 1)

theorem get_oneFile (tag : Str) (p : RelPath) :
    (oneFile tag).get p = if p = pathA then some (.file tag 1) else none :=
  OrdMap.get_insert _ _ _ _

theorem oneFile_treeShaped (tag : Str) : (oneFile tag).TreeShaped := by
  intro p e hp d hd
  rw [get_oneFile] at hp
  split_ifs at hp with h
  rw [h, show pathA.parent = none by decide] at hd
  cases hd

/-- Without directories and conflicts, a file both sides hold is all that matters. -/
theorem recordable_of_files {h : Held} {localSide remote base : Snapshot} {now : DateTime}
    (hl : ∀ p, localSide.get p ≠ some .directory) (hr : ∀ p, remote.get p ≠ some .directory)
    (hno : ∀ p c, ¬Warranted localSide remote base now (.keepBoth p c))
    (hsame : ∀ p t n, localSide.get p = some (.file t n) → remote.get p = some (.file t n) →
      base.get p = some (.file t n)) : Recordable h localSide remote base now where
  same := hsame
  onTheWay := fun d _ _ _ hd => absurd hd (hr d)
  freshCopy := fun p c hw => absurd hw (hno p c)
  heldDirectory := fun d _ hd => absurd hd.1 (hl d)
  asideFresh := fun p c hw => absurd hw (hno p c)

/-- `a` stands on the server, and nothing here. -/
def listedOnce : World := ⟨OrdMap.empty, ⟨oneFile ['x'], []⟩, ⟨OrdMap.empty⟩, .default⟩

/-- A first pass brings `a`; then it changes on the server, and the next pass brings the change. -/
def twoRounds : List Round :=
  [⟨[], .plain .ascii .unixEpoch OrdMap.empty⟩,
    ⟨[⟨false, pathA, some (.file ['y'] 1)⟩], .plain .ascii .unixEpoch (oneFile ['x'])⟩]

theorem good_twoRounds : Good .ascii listedOnce twoRounds := by
  have hfile : ∀ (tag : Str) (p : RelPath), (oneFile tag).get p ≠ some .directory := by
    intro tag p
    rw [get_oneFile]
    split_ifs <;> simp
  refine ⟨⟨Pass.faithful_plain rfl (by decide) (oneFile_treeShaped _), by decide +kernel, ?_⟩,
    ⟨Pass.faithful_plain (by decide +kernel) (oneFile_treeShaped _) (by decide +kernel),
      by decide +kernel, ?_⟩, trivial⟩
  · unfold Pass.Records
    rw [show Pass.localSide _ _ _ = OrdMap.empty by decide +kernel,
      show Pass.remote _ _ _ = oneFile ['x'] by decide +kernel]
    exact recordable_of_files (fun _ => nofun) (hfile _) (fun p c ⟨⟨_, _, _, _, h, _⟩, _⟩ => nomatch h)
      fun _ _ _ => nofun
  · unfold Pass.Records
    rw [show Pass.localSide _ _ _ = oneFile ['x'] by decide +kernel,
      show Pass.remote _ _ _ = oneFile ['y'] by decide +kernel,
      show Pass.base _ _ _ = oneFile ['x'] by decide +kernel]
    refine recordable_of_files (hfile _) (hfile _) (fun p c hw => hw.2.2.1 rfl) fun p t n hl hr => ?_
    exact hl

theorem agreement_kept_twoRounds :
    Good .ascii listedOnce twoRounds ∧ AgreementKept .ascii listedOnce twoRounds :=
  ⟨good_twoRounds, agreement_kept good_twoRounds⟩

/-- `a` stands on both sides, with the same content, and nothing is recorded. -/
def metOnBothSides : World := ⟨oneFile ['x'], ⟨oneFile ['x'], []⟩, ⟨OrdMap.empty⟩, .default⟩

/-- **Agreement goes unrecorded** for a file both sides already hold: deleted here afterwards, it is
downloaded again. -/
theorem agreement_unrecorded :
    let pass := Pass.plain .ascii .unixEpoch (oneFile ['x'])
    let after := syncOnce .ascii pass metOnBothSides
    let gone := Edit.run after ⟨true, pathA, none⟩
    pass.Faithful .ascii metOnBothSides ∧ pass.Clean .ascii metOnBothSides ∧
      ¬AgreementRecorded .ascii pass metOnBothSides ∧
      (Pass.plan .ascii (.plain .ascii .unixEpoch OrdMap.empty) gone).actions =
        [.download pathA] := by
  refine ⟨Pass.faithful_plain rfl (oneFile_treeShaped _) (oneFile_treeShaped _), by decide +kernel,
    fun h => ?_, by decide +kernel⟩
  have hbase := h pathA (Pass.sees_plain (by decide +kernel)) (by decide +kernel)
  exact absurd hbase (by decide +kernel)

end Stashden.Sync
