import Stashden.Sync.Failing

/-!
# Convergence

After a pass in which nothing fails but the removal of directories that are not empty, the two sides
are equal, unless a directory is left standing on the server alone. `Stuck` says which: gone here,
recorded, holding something not as recorded, of which nothing is brought here. `converges_iff` is the
equivalence; `kept_directory_differs` a folder with such a directory.
-/

namespace Stashden.Sync

open Lib Stashden.Core RelPath Pass EngineM

/-- A directory gone here and recorded, in which the server holds something not as recorded, but
nothing that a pass would bring here: only directories that are recorded as files. -/
structure Stuck (localSide remote base : Snapshot) (d : RelPath) : Prop where
  gone : localSide.get d = none
  stands : remote.get d = some .directory
  recorded : base.get d ≠ none
  changed : ∃ q e, q.isInside d = true ∧ remote.get q = some e ∧ base.get q ≠ some e
  unfetched : ∀ q e, q.isInside d = true → remote.get q = some e → base.get q ≠ some e →
    e = .directory ∧ base.get q ≠ none

/-! ## One path -/

namespace Execution

variable {h : Held} {localSide remote base : Snapshot} {now : DateTime}
  {scanned : RelPath → Option Entry} {ran : List Action} {s : Sides} {p : RelPath}
  (E : Execution h localSide remote base now scanned ran s)
  (W : Whole h localSide remote base now)

include E W

/-- The action of a path is the only one that ran there. -/
theorem only {a b : Action} (hw : Warranted localSide remote base now a) (hb : b ∈ ran)
    (hsub : b.subject = a.subject) : b = a :=
  eq_of_warranted_of_subject ((W.plan b).mp (E.mem hb)) hw hsub

/-- No copy lands on what the server has. -/
theorem copy_ne_listed {e : Entry} (hr : remote.get p = some e) {b : Action} (hb : b ∈ ran) :
    b.copy ≠ some p := by
  intro hc
  obtain ⟨-, -, -, hn⟩ := W.copy_spec (E.mem hb) hc
  rw [hn] at hr
  exact absurd hr (by simp)

/-- No copy lands on what the folder has. -/
theorem copy_ne_scanned {e : Entry} (hl : localSide.get p = some e) {b : Action} (hb : b ∈ ran) :
    b.copy ≠ some p := by
  intro hc
  obtain ⟨-, -, hn, -⟩ := W.copy_spec (E.mem hb) hc
  rw [hn] at hl
  exact absurd hl (by simp)

theorem no_setAside {q c : RelPath} : .setAside q c ∉ ran := fun hm => (W.plan _).mp (E.mem hm)

variable (A : Agrees localSide remote base s p)
  (T : Attempts scanned remote.get (acts h localSide remote base now) ran s)

include A T

/-- A directory gone here and standing on the server. -/
theorem even_of_gone_directory (hl : localSide.get p = none)
    (hr : remote.get p = some .directory) (hstuck : ¬Stuck localSide remote base p) :
    E.outcome.disk p = E.outcome.server p := by
  have hsp : s.disk p = none := A.disk.trans hl
  by_cases hb : base.get p = none
  · have hw : Warranted localSide remote base now (.createLocalDirectory p) := ⟨hl, hr, hb⟩
    have hran := T.mem ((W.plan _).mpr hw) (fun _ h => by cases h)
    rw [(E.settles_createLocal hran).1,
      E.stays_there hr (Or.inr (by simp [hb])) fun b hbm hsub => Or.inr (E.only W hw hbm hsub)]
  by_cases hall : ∀ q e, q.isInside p = true → remote.get q = some e → base.get q = some e
  · have hw : Warranted localSide remote base now (.removeRemoteDirectory p) := ⟨hl, hr, hb, hall⟩
    have hran := T.mem ((W.plan _).mpr hw) (fun _ h => by cases h)
    have hgone : E.outcome.server p = none := (E.settles_removed hran rfl hl).1
    rw [hgone]
    refine E.absent_here hsp fun b hbm hm => ⟨fun hsub => ?_, ?_, E.copy_ne_listed W hr hbm⟩
    · rw [E.only W hw hbm hsub] at hm
      exact absurd hm (by simp [Action.makesLocal])
    · exact not_made_of_recorded E.localTree hl hall (E.mem hbm) hm
  · have hidle : ∀ b ∈ ran, b.subject ≠ p := fun b hbm hsub => by
      rcases (W.plan b).mp (E.mem hbm) with hw
      have hv := verdict_of_warranted hw
      have hnot : holdsOnlyWhatWasSynced remote base p = false := by
        rw [← Bool.not_eq_true, holdsOnly_iff]
        exact hall
      obtain ⟨r, hbr⟩ := Option.ne_none_iff_exists'.mp hb
      rw [hsub] at hv
      simp [verdict, hl, hr, hnot, OrdMap.containsKey, hbr] at hv
    push Not at hall
    obtain ⟨q, e, hin, hq, hbq⟩ := hall
    rw [(E.settles_kept A hl hr hb hin hq hbq).1]
    -- Something changed inside is brought here, for the directory is not stuck.
    obtain ⟨x, f, hxin, hx, hbx, hfetch⟩ : ∃ x f, x.isInside p = true ∧ remote.get x = some f ∧
        base.get x ≠ some f ∧ (f = .directory → base.get x = none) := by
      by_contra hno
      push Not at hno
      exact hstuck ⟨hl, hr, hb, ⟨q, e, hin, hq, hbq⟩, hno⟩
    have hlx : localSide.get x = none := E.localTree.none_inside (d := p) (by simp [hl]) hxin
    cases f with
    | directory =>
      have hw : Warranted localSide remote base now (.createLocalDirectory x) :=
        ⟨hlx, hx, hfetch rfl⟩
      exact E.made_here (T.mem ((W.plan _).mpr hw) (fun _ h => by cases h)) rfl hxin hidle
    | file t n =>
      have hw : Warranted localSide remote base now (.download x) :=
        ⟨t, n, hx, Or.inl ⟨hlx, hbx⟩⟩
      exact E.made_here (T.mem ((W.plan _).mpr hw) (fun _ h => by cases h)) rfl hxin hidle

/-- A file gone here and standing on the server. -/
theorem even_of_gone_file {t : Str} {n : Nat} (hl : localSide.get p = none)
    (hr : remote.get p = some (.file t n)) : E.outcome.disk p = E.outcome.server p := by
  by_cases hb : base.get p = some (.file t n)
  · have hw : Warranted localSide remote base now (.deleteRemote p) :=
      ⟨t, n, hr, hl, hb.trans hr.symm⟩
    have hran := T.mem ((W.plan _).mpr hw) (fun _ h => by cases h)
    have hgone : E.outcome.server p = none := (E.settles_removed hran rfl hl).1
    rw [hgone]
    refine E.absent_here (A.disk.trans hl) fun b hbm hm =>
      ⟨fun hsub => ?_, ?_, E.copy_ne_listed W hr hbm⟩
    · rw [E.only W hw hbm hsub] at hm
      exact absurd hm (by simp [Action.makesLocal])
    · exact (E.planned hbm).not_made_locally E.remoteTree (by simp [hr]) hm
  · have hw : Warranted localSide remote base now (.download p) := ⟨t, n, hr, Or.inl ⟨hl, hb⟩⟩
    have hran := T.mem ((W.plan _).mpr hw) (fun _ h => by cases h)
    have hserver : E.outcome.server p = some (.file t n) :=
      (E.settles_fetched hran rfl hr (by simp [Action.subject, hl]) (Or.inr hb)).1
    have hdisk : E.outcome.disk p = some (.file t n) :=
      E.settles_fetched_disk hran rfl hr (Or.inr hb) fun _ => E.no_setAside W
    rw [hdisk, hserver]

/-- A directory gone from the server and standing here. -/
theorem even_of_directory_here (habsent : ∀ q, localSide.get q = none → s.disk q = none)
    (hl : localSide.get p = some .directory) (hr : remote.get p = none) :
    E.outcome.disk p = E.outcome.server p := by
  by_cases hb : base.get p = none
  · have hw : Warranted localSide remote base now (.createRemoteDirectory p) := ⟨hl, hr, hb⟩
    have hran := T.mem ((W.plan _).mpr hw) (fun _ h => by cases h)
    rw [(E.settles_createRemote hran).1,
      E.stays_here W hl fun b hbm hsub => Or.inr (E.only W hw hbm hsub)]
  have hw : Warranted localSide remote base now (.removeLocalDirectory p) := ⟨hl, hr, hb⟩
  by_cases hran : .removeLocalDirectory p ∈ ran
  · have hgone : E.outcome.disk p = none := (E.settles_deleted hran (Or.inr rfl) hr).1
    rw [hgone]
    refine (E.absent_there (A.server.trans hr) fun b hbm hm =>
      ⟨fun hsub => ?_, E.not_sent_of_removed W hr hran hbm hm, E.copy_ne_scanned W hl hbm⟩).symm
    rw [E.only W hw hbm hsub] at hm
    exact absurd hm (by simp [Action.makesRemote])
  · obtain ⟨a, ha, hm, hin⟩ := sent_of_full W T E habsent hw hran
    have hidle : ∀ b ∈ ran, b.subject ≠ p := fun b hbm hsub => by
      rw [E.only W hw hbm hsub] at hbm
      exact hran hbm
    rw [E.made_there W ha hm hin hl hr hidle,
      E.stays_here W hl fun b hbm hsub => absurd hsub (hidle b hbm)]

/-- A file gone from the server and standing here. -/
theorem even_of_file_here {t : Str} {n : Nat} (hl : localSide.get p = some (.file t n))
    (hr : remote.get p = none) : E.outcome.disk p = E.outcome.server p := by
  by_cases hb : base.get p = some (.file t n)
  · have hw : Warranted localSide remote base now (.deleteLocal p) :=
      ⟨t, n, hl, hr, hb.trans hl.symm⟩
    have hran := T.mem ((W.plan _).mpr hw) (fun _ h => by cases h)
    have hgone : E.outcome.disk p = none := (E.settles_deleted hran (Or.inl rfl) hr).1
    rw [hgone]
    refine (E.absent_there (A.server.trans hr) fun b hbm hm =>
      ⟨fun hsub => ?_, ?_, E.copy_ne_scanned W hl hbm⟩).symm
    · rw [E.only W hw hbm hsub] at hm
      exact absurd hm (by simp [Action.makesRemote])
    · exact (E.planned hbm).not_made_remotely E.localTree (by simp [hl]) hm
  · have hw : Warranted localSide remote base now (.upload p) := ⟨t, n, hl, Or.inl ⟨hr, hb⟩⟩
    have hran := T.mem ((W.plan _).mpr hw) (fun _ h => by cases h)
    rw [(E.settles_uploaded hran).1, hl,
      E.stays_here W hl fun b hbm hsub => Or.inl (E.only W hw hbm hsub)]

/-- Files on both sides. -/
theorem even_of_files {t t' : Str} {n n' : Nat} (hl : localSide.get p = some (.file t n))
    (hr : remote.get p = some (.file t' n')) : E.outcome.disk p = E.outcome.server p := by
  have hlne : localSide.get p ≠ none := by simp [hl]
  by_cases hsame : localSide.get p = remote.get p
  · rw [hl, hr] at hsame
    cases hsame
    have hidle : ∀ slot a, verdict localSide remote base now p ≠ .push slot a := by
      simp [verdict, hl, hr, forFile, fileVerdict]
    rw [(E.settles_same A hl hr).1,
      E.stays_here W hl fun b hbm hsub => absurd hsub (subject_ne_of_idle hidle (E.mem hbm))]
  have hfetched : ∀ a, Warranted localSide remote base now a → a.subject = p →
      a.fetches = true → (∀ d, a ≠ .removeLocalDirectory d) →
      E.outcome.disk p = E.outcome.server p := by
    rintro a hw rfl hf hno
    have hran := T.mem ((W.plan _).mpr hw) hno
    rw [(E.settles_fetched hran hf hr (by simp [hl]) (Or.inl hlne)).1,
      E.settles_fetched_disk hran hf hr (Or.inl hlne) fun _ => E.no_setAside W]
  by_cases hbl : base.get p = localSide.get p
  · exact hfetched (.download p) ⟨t', n', hr, Or.inr ⟨t, n, hl, hsame, hbl⟩⟩ rfl rfl
      (fun _ h => by cases h)
  by_cases hbr : base.get p = remote.get p
  · have hw : Warranted localSide remote base now (.upload p) :=
      ⟨t, n, hl, Or.inr ⟨t', n', hr, hsame, hbr⟩⟩
    have hran := T.mem ((W.plan _).mpr hw) (fun _ h => by cases h)
    rw [(E.settles_uploaded hran).1, hl,
      E.stays_here W hl fun b hbm hsub => Or.inl (E.only W hw hbm hsub)]
  · obtain ⟨c, hc, -⟩ := conflictCopy_spec p now
    exact hfetched (.keepBoth p c) ⟨⟨t, n, t', n', hl, hr⟩, hsame, hbl, hbr, hc⟩ rfl rfl
      (fun _ h => by cases h)

omit T in
/-- A path neither side has: a copy lands on both, or on none. -/
theorem even_of_absent (hl : localSide.get p = none) (hr : remote.get p = none) :
    E.outcome.disk p = E.outcome.server p := by
  by_cases hcopy : ∃ q, .keepBoth q p ∈ ran
  · obtain ⟨q, hq⟩ := hcopy
    obtain ⟨hd, hs⟩ := E.copied W hq
    rw [hd, hs]
  have hno : ∀ q, .keepBoth q p ∉ ran := fun q hq => hcopy ⟨q, hq⟩
  rw [E.settles_absent_server A hl hr hno]
  refine E.absent_here (A.disk.trans hl) fun b hbm hm => ⟨?_, ?_, fun hc => ?_⟩
  · rintro rfl
    obtain ⟨e, he⟩ := (E.planned hbm).listed hm
    rw [hr] at he
    exact absurd he (by simp)
  · exact (E.planned hbm).not_made_locally E.remoteTree (by simp [hr]) hm
  · obtain ⟨q, rfl, -⟩ := W.copy_spec (E.mem hbm) hc
    exact hno q hbm

/-- **Every path that is not stuck is equal on both sides afterwards.** -/
theorem even (habsent : ∀ q, localSide.get q = none → s.disk q = none)
    (hstuck : ¬Stuck localSide remote base p) : E.outcome.disk p = E.outcome.server p := by
  rcases hl : localSide.get p with _ | (_ | ⟨t, n⟩) <;>
    rcases hr : remote.get p with _ | (_ | ⟨t', n'⟩)
  · exact E.even_of_absent W A hl hr
  · exact E.even_of_gone_directory W A T hl hr hstuck
  · exact E.even_of_gone_file W A T hl hr
  · exact E.even_of_directory_here W A T habsent hl hr
  · rw [(E.settles_directories A hl hr).1, (E.settles_directories A hl hr).2]
  · exact absurd hr (fun hr => (W.kinds p t' n').2 hl hr)
  · exact E.even_of_file_here W A T hl hr
  · exact absurd hr ((W.kinds p t n).1 hl)
  · exact E.even_of_files W A T hl hr

omit T in
/-- **A stuck directory** stands on the server alone. -/
theorem uneven (hstuck : Stuck localSide remote base p) :
    E.outcome.disk p = none ∧ E.outcome.server p = some .directory := by
  obtain ⟨hl, hr, hb, ⟨q, e, hin, hq, hbq⟩, hdirs⟩ := hstuck
  refine ⟨?_, (E.settles_kept A hl hr hb hin hq hbq).1⟩
  have hinside : ∀ x, x.isInside p = true → localSide.get x = none := fun x hx =>
    E.localTree.none_inside (d := p) (by simp [hl]) hx
  refine E.absent_here (A.disk.trans hl) fun b hbm hm => ⟨fun hsub => ?_, ?_,
    E.copy_ne_listed W hr hbm⟩
  · subst hsub
    have hw := (W.plan b).mp (E.mem hbm)
    cases b with
    | createLocalDirectory x => exact hb hw.2.2
    | download x =>
      obtain ⟨_, _, hrx, -⟩ := hw
      exact absurd (hrx.symm.trans hr) (by simp)
    | keepBoth x c =>
      obtain ⟨⟨_, _, _, _, hlx, -⟩, -⟩ := hw
      exact absurd (hlx.symm.trans hl) (by simp)
    | setAside x c => exact hw
    | _ => exact absurd hm (by simp [Action.makesLocal])
  · rw [← Bool.not_eq_true]
    intro hx
    have hw := (W.plan b).mp (E.mem hbm)
    have hlx := hinside _ hx
    cases b with
    | createLocalDirectory x => exact (hdirs x _ hx hw.2.1 (by simp [hw.2.2])).2 hw.2.2
    | download x =>
      obtain ⟨_, _, hrx, ⟨-, hbx⟩ | ⟨_, _, hlx', -⟩⟩ := hw
      · exact absurd (hdirs x _ hx hrx hbx).1 (by simp)
      · exact absurd (hlx'.symm.trans hlx) (by simp)
    | keepBoth x c =>
      obtain ⟨⟨_, _, _, _, hlx', -⟩, -⟩ := hw
      exact absurd (hlx'.symm.trans hlx) (by simp)
    | setAside x c => exact hw
    | _ => exact absurd hm (by simp [Action.makesLocal])

end Execution

/-! ## A whole pass -/

/-- A pass over two trees whose names are all seen and fit, no file against a directory, no share
holding anything back and no copy on a name that is taken. -/
structure Pass.Ordinary (u : Unicode) (pass : Pass) (w : World) : Prop where
  faithful : Faithful u pass w
  seenHere : ∀ p e, w.disk.get p = some e → Visible u p
  seenThere : ∀ p e, w.server.tree.get p = some e → Visible u p
  fit : ∀ p, (pass.unfit u w).containsKey p = false
  kinds : ∀ p t n, (w.disk.get p = some (.file t n) → w.server.tree.get p ≠ some .directory) ∧
    (w.disk.get p = some .directory → w.server.tree.get p ≠ some (.file t n))
  whole : (pass.plan u w).actions =
    (reconcile (pass.localSide u w) (pass.remote u w) (pass.base u w) pass.now).actions
  copies : FreshCopies pass w

/-- Every call of the pass succeeded, but for removals of directories of the folder. -/
def Pass.OnlyRemovalsFail (u : Unicode) (pass : Pass) (w : World) : Prop :=
  ∀ f ∈ (syncOnce u pass w).report.failures, ∃ d, f.reason = .removing d

/-- The two trees are equal: paths, kinds and contents. -/
def World.Even (w : World) : Prop := ∀ p, w.disk.get p = w.server.tree.get p

/-- Further passes, nobody else changing anything. -/
inductive Later (u : Unicode) : World → World → Prop
  | here (w : World) : Later u w w
  | pass {w w' : World} (pass : Pass) (faithful : Faithful u pass w)
    (rest : Later u (syncOnce u pass w) w') : Later u w w'

/-- Every later pass plans no transfer, creation or deletion. -/
def World.AtRest (u : Unicode) (w : World) : Prop :=
  ∀ w', Later u w w' → ∀ pass, Faithful u pass w' →
    ∀ a ∈ (pass.plan u w').actions, ∃ p, a = .forget p

namespace Pass

variable {u : Unicode} {pass : Pass} {w : World} {p : RelPath}

/-! ### What an ordinary pass compares -/

theorem Ordinary.localSide_get (h : Ordinary u pass w) (p : RelPath) :
    (pass.localSide u w).get p = w.disk.get p := by
  rw [localSide, get_fits, h.fit, h.faithful.scan]
  by_cases hv : Visible u p
  · simp [hv]
  · have hnone : w.disk.get p = none := by
      by_contra hne
      obtain ⟨e, he⟩ := Option.ne_none_iff_exists'.mp hne
      exact hv (h.seenHere p e he)
    simp [hv, hnone]

theorem Ordinary.remote_get (h : Ordinary u pass w) (p : RelPath) :
    (pass.remote u w).get p = w.server.tree.get p := by
  rw [remote, get_fits, h.fit, get_listing]
  by_cases hh : hides u p = true
  · have hnone : w.server.tree.get p = none := by
      by_contra hne
      obtain ⟨e, he⟩ := Option.ne_none_iff_exists'.mp hne
      rw [(h.seenThere p e he).not_hides] at hh
      exact absurd hh (by simp)
    simp [hh, hnone]
  · simp [hh]

theorem Ordinary.base_get (h : Ordinary u pass w) (p : RelPath) :
    (pass.base u w).get p = w.state.base.get p := by
  rw [base, get_fits, h.fit]
  rfl

theorem Ordinary.clear (h : Ordinary u pass w) : w.Clear u := by
  intro q hq
  by_contra hne
  obtain ⟨e, he⟩ := Option.ne_none_iff_exists'.mp hne
  rw [(h.seenHere q e he).not_hides] at hq
  exact absurd hq (by simp)

theorem Ordinary.agrees (h : Ordinary u pass w) (p : RelPath) :
    Agrees (pass.localSide u w) (pass.remote u w) (pass.base u w) (w.sides u) p := by
  refine ⟨?_, ?_, (h.base_get p).symm⟩
  · rw [h.localSide_get]
    by_cases hh : hides u p = true
    · simp [World.sides, hh, h.clear p hh]
    · exact sides_disk (by simpa using hh)
  · rw [h.remote_get]
    by_cases hh : hides u p = true
    · have hnone : w.server.tree.get p = none := by
        by_contra hne
        obtain ⟨e, he⟩ := Option.ne_none_iff_exists'.mp hne
        rw [(h.seenThere p e he).not_hides] at hh
        exact absurd hh (by simp)
      simp [World.sides, hh, hnone]
    · exact sides_server (by simpa using hh)

theorem Ordinary.acts_eq (h : Ordinary u pass w) :
    acts pass.held (pass.localSide u w) (pass.remote u w) (pass.base u w) pass.now =
      (reconcile (pass.localSide u w) (pass.remote u w) (pass.base u w) pass.now).actions := by
  unfold acts
  rw [← plan_eq]
  exact h.whole

theorem Ordinary.wholeActs (h : Ordinary u pass w) :
    Whole pass.held (pass.localSide u w) (pass.remote u w) (pass.base u w) pass.now := by
  have hcon : ∀ p c, Warranted (pass.localSide u w) (pass.remote u w) (pass.base u w) pass.now
      (.keepBoth p c) → Conflicts w p ∧ conflictCopy p pass.now = some c := by
    rintro p c ⟨⟨t, n, t', n', hl, hr⟩, hne, hbl, hbr, hc⟩
    rw [h.localSide_get] at hl hne hbl
    rw [h.remote_get] at hr hne hbr
    rw [h.base_get] at hbl hbr
    exact ⟨⟨⟨t, n, t', n', hl, hr⟩, hne, hbl, hbr⟩, hc⟩
  refine ⟨fun a => ?_, fun p c hw => ?_, fun p p' c hw hw' => ?_, fun p t n => ?_⟩
  · rw [h.acts_eq]
    exact mem_actions_iff
  · rw [h.localSide_get, h.remote_get]
    obtain ⟨hp, hc⟩ := hcon p c hw
    exact ⟨(h.copies p c hp hc).1, (h.copies p c hp hc).2.1⟩
  · obtain ⟨hp, hc⟩ := hcon p c hw
    obtain ⟨hp', hc'⟩ := hcon p' c hw'
    exact (h.copies p' c hp' hc').2.2 p hp hc
  · rw [h.localSide_get, h.remote_get]
    exact h.kinds p t n

theorem Ordinary.stuck_iff (h : Ordinary u pass w) {d : RelPath} :
    Stuck (pass.localSide u w) (pass.remote u w) (pass.base u w) d ↔
      Stuck w.disk w.server.tree w.state.base d := by
  have hL := h.localSide_get
  have hR := h.remote_get
  have hB := h.base_get
  constructor
  · rintro ⟨hl, hr, hb, hin, hall⟩
    simp only [hL, hR, hB] at hl hr hb hin hall
    exact ⟨hl, hr, hb, hin, hall⟩
  · rintro ⟨hl, hr, hb, hin, hall⟩
    refine ⟨?_, ?_, ?_, ?_, ?_⟩
    · rwa [hL]
    · rwa [hR]
    · rwa [hB]
    · simp only [hR, hB]
      exact hin
    · simp only [hR, hB]
      exact hall

/-! ### Where equal trees stay -/

/-- Between equal trees only records are forgotten. -/
theorem forget_of_even {localSide remote base : Snapshot} {now : DateTime} {a : Action}
    (heq : ∀ p, localSide.get p = remote.get p) (ha : Planned localSide remote base now a) :
    ∃ p, a = .forget p := by
  have hconflict : ∀ p c, Warranted localSide remote base now (.keepBoth p c) → False :=
    fun p c hw => hw.2.1 (heq p)
  have hnone : ∀ p e, localSide.get p = none → remote.get p = some e → False := fun p e hl hr => by
    rw [← heq, hl] at hr
    exact absurd hr (by simp)
  have hnone' : ∀ p e, localSide.get p = some e → remote.get p = none → False :=
    fun p e hl hr => by
      rw [heq, hr] at hl
      exact absurd hl (by simp)
  rcases ha with hw | ⟨q, c, rfl, hw⟩
  · cases a with
    | forget p => exact ⟨p, rfl⟩
    | createLocalDirectory p => exact (hnone p _ hw.1 hw.2.1).elim
    | createRemoteDirectory p => exact (hnone' p _ hw.1 hw.2.1).elim
    | download p =>
      obtain ⟨t, n, hr, ⟨hl, -⟩ | ⟨_, _, -, hne, -⟩⟩ := hw
      · exact (hnone p _ hl hr).elim
      · exact absurd (heq p) hne
    | upload p =>
      obtain ⟨t, n, hl, ⟨hr, -⟩ | ⟨_, _, -, hne, -⟩⟩ := hw
      · exact (hnone' p _ hl hr).elim
      · exact absurd (heq p) hne
    | deleteLocal p =>
      obtain ⟨t, n, hl, hr, -⟩ := hw
      exact (hnone' p _ hl hr).elim
    | deleteRemote p =>
      obtain ⟨t, n, hr, hl, -⟩ := hw
      exact (hnone p _ hl hr).elim
    | removeLocalDirectory p => exact (hnone' p _ hw.1 hw.2.1).elim
    | removeRemoteDirectory p => exact (hnone p _ hw.1 hw.2.1).elim
    | keepBoth p c => exact (hconflict p c hw).elim
    | setAside p c => exact hw.elim
  · exact (hconflict q c hw).elim

theorem localSide_eq_remote (hf : Faithful u pass w) (he : w.Even)
    (hv : ∀ p e, w.server.tree.get p = some e → Visible u p) (p : RelPath) :
    (pass.localSide u w).get p = (pass.remote u w).get p := by
  rw [localSide, remote, get_fits, get_fits, get_listing, hf.scan, he p]
  rcases hs : w.server.tree.get p with _ | e
  · simp
  · have hvis := hv p e hs
    simp [hvis, hvis.not_hides]

theorem runActions_forget {remote : Snapshot} {acts : List Action}
    (h : ∀ a ∈ acts, ∃ p, a = .forget p) :
    (runActions u pass remote acts w).disk = w.disk ∧
      (runActions u pass remote acts w).server = w.server := by
  induction acts generalizing w with
  | nil => exact ⟨rfl, rfl⟩
  | cons a acts ih =>
    obtain ⟨p, rfl⟩ := h a List.mem_cons_self
    obtain ⟨hd, hs⟩ := ih (w := runAction u pass remote (.forget p) w) fun b hb =>
      h b (List.mem_cons_of_mem _ hb)
    exact ⟨hd, hs⟩

/-- **Equal trees stay as they are**, whatever passes follow. -/
theorem atRest_of_even (he : w.Even) (hv : ∀ p e, w.server.tree.get p = some e → Visible u p) :
    w.AtRest u := by
  intro w' hlater
  induction hlater with
  | here w =>
    intro pass hf a ha
    exact forget_of_even (localSide_eq_remote hf he hv) (Pass.planned ha)
  | @pass w w' pass hf rest ih =>
    have hforget : ∀ a ∈ (pass.plan u w).actions, ∃ p, a = .forget p := fun a ha =>
      forget_of_even (localSide_eq_remote hf he hv) (Pass.planned ha)
    have hran : (pass.ran u w).disk = w.disk ∧ (pass.ran u w).server = w.server := by
      unfold ran
      exact runActions_forget hforget
    refine ih (fun p => ?_) fun p e hp => ?_
    · rw [syncOnce_disk, syncOnce_server, hran.1, hran.2]
      exact he p
    · rw [syncOnce_server, hran.2] at hp
      exact hv p e hp

/-! ### What is made is seen -/

theorem putFile_seen {server server' : Server} {tag : Str} {size : Nat} {expect : Expect}
    (hp : Visible u p) (h : putFile p tag size expect server = .ok server')
    (hv : ∀ q e, server.tree.get q = some e → Visible u q) :
    ∀ q e, server'.tree.get q = some e → Visible u q := by
  obtain ⟨-, hget, -⟩ := putFile_ok h
  intro q e hq
  rw [hget] at hq
  by_cases hqp : q = p
  · rw [hqp]
    exact hp
  · rw [put_of_ne hqp] at hq
    split_ifs at hq with hin
    · exact hp.above hin.2
    · exact hv q e hq

theorem createDirectory_seen {server server' : Server} (hp : Visible u p)
    (h : createDirectory p server = .ok server')
    (hv : ∀ q e, server.tree.get q = some e → Visible u q) :
    ∀ q e, server'.tree.get q = some e → Visible u q := by
  obtain ⟨-, -, hget, -⟩ := createDirectory_ok h
  intro q e hq
  rw [hget, Function.update_apply] at hq
  unfold dirsAbove at hq
  split_ifs at hq with hqp hin
  · rw [hqp]
    exact hp
  · exact hp.above hin
  · exact hv q e hq

/-- Names nobody hides stay the only ones on the server. -/
theorem Ordinary.seen_after (h : Ordinary u pass w) :
    ∀ p e, (syncOnce u pass w).server.tree.get p = some e → Visible u p := by
  rw [syncOnce_server]
  unfold ran
  refine runActions_invariant (K := fun server => ∀ p e, server.tree.get p = some e → Visible u p)
    (fun server p tag size expect s hor hok hK => putFile_seen ?_ hok hK)
    (fun server p s ha hok hK => createDirectory_seen ?_ hok hK)
    (fun server a s ha hrem hok hK p e hp => ?_) h.seenThere
  · rcases hor with ⟨ha, -⟩ | ⟨q, ha, -⟩
    · obtain ⟨e, he⟩ := (Pass.planned ha).scanned rfl
      exact (h.faithful.of_localSide he).1
    · obtain ⟨e, he⟩ := (Pass.planned ha).scanned rfl
      rcases Pass.planned ha with hw | ⟨_, _, e, -⟩
      · exact visible_conflictCopy hw.2.2.2.2 (h.faithful.of_localSide he).1
      · cases e
  · obtain ⟨e, he⟩ := (Pass.planned ha).scanned rfl
    exact (h.faithful.of_localSide he).1
  · obtain ⟨-, hget, -⟩ := remove_ok hok
    rw [hget] at hp
    unfold cut at hp
    split_ifs at hp
    exact hK p e hp

/-! ### The pass -/

/-- What ran of an ordinary pass, and what it left. -/
theorem Ordinary.execution (h : Ordinary u pass w) (ho : OnlyRemovalsFail u pass w) :
    ∃ ran, ∃ E : Execution pass.held (pass.localSide u w) (pass.remote u w) (pass.base u w)
        pass.now pass.scan.snapshot.get ran (w.sides u),
      Attempts pass.scan.snapshot.get (pass.remote u w).get
        (acts pass.held (pass.localSide u w) (pass.remote u w) (pass.base u w) pass.now) ran
        (w.sides u) ∧
      (syncOnce u pass w).Clear u ∧
      ∀ p, ((syncOnce u pass w).sides u).disk p = E.outcome.disk p ∧
        ((syncOnce u pass w).sides u).server p = E.outcome.server p := by
  have hseen : ∀ a ∈ acts pass.held (pass.localSide u w) (pass.remote u w) (pass.base u w) pass.now,
      a.Seen u := by
    unfold acts
    rw [← plan_eq]
    exact fun a ha => h.faithful.seen ha
  have hfail : ∀ f ∈ (runActions u pass (pass.remote u w)
      (acts pass.held (pass.localSide u w) (pass.remote u w) (pass.base u w) pass.now)
      { w with report := pass.report u w }).report.failures, ∃ d, f.reason = .removing d := by
    unfold acts
    rw [← plan_eq]
    intro f hf
    refine ho f ?_
    rw [syncOnce_report]
    unfold ran
    exact hf
  have hclear : World.Clear u { w with report := pass.report u w } := h.clear
  obtain ⟨ran, hatt, hrun, hclear'⟩ := attempts_of_loop hseen hclear hfail
  rw [sides_report] at hatt
  have hrun : _ = run _ _ ran (w.sides u) := hrun
  have hE := hatt.execution (localSide_treeShaped h.faithful.scan_treeShaped)
    (remote_treeShaped h.faithful.server) (fun q e hq => (localSide_eq_some hq).1)
    (fun q e hq => by rw [(h.agrees q).disk, hq]) fun q e hq => by rw [(h.agrees q).server, hq]
  refine ⟨ran, hE, hatt, ?_, ?_⟩
  · intro q hq
    have hq' := hclear' q hq
    unfold acts at hq'
    rw [← plan_eq] at hq'
    rw [syncOnce_disk]
    unfold Pass.ran
    exact hq'
  · have hout : hE.outcome = run pass.scan.snapshot.get (pass.remote u w).get ran (w.sides u) := by
      unfold Execution.outcome
      rfl
    intro p
    rw [hout, ← hrun]
    unfold acts
    rw [← plan_eq]
    simp only [World.sides, syncOnce_disk, syncOnce_server, Pass.ran, and_self]

/-- **After an ordinary pass the two sides are equal and at rest, exactly when** no directory is
stuck. -/
theorem converges_iff (h : Ordinary u pass w) (ho : OnlyRemovalsFail u pass w) :
    ((syncOnce u pass w).Even ∧ (syncOnce u pass w).AtRest u) ↔
      ∀ d, ¬Stuck w.disk w.server.tree w.state.base d := by
  obtain ⟨ran, E, hatt, hclear, hout⟩ := h.execution ho
  have hW := h.wholeActs
  constructor
  · rintro ⟨heven, -⟩ d hstuck
    have hd := h.seenThere d _ hstuck.stands
    obtain ⟨hl, hr⟩ := E.uneven hW (h.agrees d) (h.stuck_iff.mpr hstuck)
    have hdisk := (hout d).1.trans hl
    have hserver := (hout d).2.trans hr
    rw [sides_disk hd.not_hides] at hdisk
    rw [sides_server hd.not_hides, ← heven d, hdisk] at hserver
    exact absurd hserver (by simp)
  · intro hno
    have hseen := h.seen_after
    have heven : (syncOnce u pass w).Even := by
      intro p
      by_cases hp : hides u p = true
      · rw [hclear p hp]
        by_contra hne
        obtain ⟨e, he⟩ := Option.ne_none_iff_exists'.mp (Ne.symm hne)
        rw [(hseen p e he).not_hides] at hp
        exact absurd hp (by simp)
      · have hp : hides u p = false := by simpa using hp
        have heq := E.even hW (h.agrees p) hatt
          (fun q hq => (h.agrees q).disk.trans hq) fun hs => hno p (h.stuck_iff.mp hs)
        rw [← sides_disk hp, ← sides_server hp, (hout p).1, (hout p).2]
        exact heq
    exact ⟨heven, atRest_of_even heven hseen⟩

/-- A plain pass over seen names is ordinary, where no file stands against a directory. -/
theorem ordinary_plain {now : DateTime} (hd : w.disk.TreeShaped) (hs : w.server.tree.TreeShaped)
    (hhere : ∀ x ∈ w.disk.entries, Visible u x.1)
    (hthere : ∀ x ∈ w.server.tree.entries, Visible u x.1)
    (hkinds : ∀ x ∈ w.disk.entries, ∀ y ∈ w.server.tree.entries, x.1 = y.1 →
      x.2.isDirectory = y.2.isDirectory)
    (hcopies : FreshCopies (plain u now w.disk) w) : Ordinary u (plain u now w.disk) w where
  faithful := faithful_plain rfl hd hs
  seenHere p e he := hhere (p, e) (OrdMap.get_eq_some_iff.mp he)
  seenThere p e he := hthere (p, e) (OrdMap.get_eq_some_iff.mp he)
  fit := unfit_of_no_rules u _
  kinds p t n := by
    refine ⟨fun hl hr => ?_, fun hl hr => ?_⟩
    all_goals
      have hkind := hkinds _ (OrdMap.get_eq_some_iff.mp hl) _ (OrdMap.get_eq_some_iff.mp hr) rfl
      exact absurd hkind (by simp [Entry.isDirectory])
  whole := by
    rw [plan_eq]
    exact Held.apply_nothing _
  copies := hcopies

end Pass

/-! ## Two folders -/

/-- `d` and what is in it, one side here, the other on the server, with the records of both. -/
def diverged (here there : List (RelPath × Entry)) (inside : Entry) : World where
  disk := OrdMap.ofList here
  server := ⟨OrdMap.ofList there, []⟩
  state := ⟨OrdMap.ofList [(pathD, ⟨.directory, none⟩), (pathDA, ⟨inside, none⟩)]⟩
  report := .default

/-- The server removed `d`, in which a file was edited here: the removal of `d` fails, and `d`
comes back there with the file. -/
theorem converges_iff_edited :
    let w := diverged [(pathD, .directory), (pathDA, .file ['x'] 1)] [] (.file ['y'] 1)
    let pass := Pass.plain .ascii .unixEpoch w.disk
    ((syncOnce .ascii pass w).report.failures = [⟨pathD, .removing pathD⟩] ∧
        (syncOnce .ascii pass w).server.tree.get pathDA = some (.file ['x'] 1)) ∧
      (((syncOnce .ascii pass w).Even ∧ (syncOnce .ascii pass w).AtRest .ascii) ↔
        ∀ d, ¬Stuck w.disk w.server.tree w.state.base d) := by
  refine ⟨by decide +kernel, Pass.converges_iff (Pass.ordinary_plain (by decide +kernel)
    (by decide +kernel) (by decide +kernel) (by decide +kernel) (by decide +kernel) ?_) ?_⟩
  · rintro p c ⟨⟨_, _, _, _, -, hr⟩, -⟩
    exact absurd (OrdMap.get_eq_some_iff.mp hr) List.not_mem_nil
  · unfold Pass.OnlyRemovalsFail
    rw [show (syncOnce .ascii (Pass.plain .ascii .unixEpoch (diverged [(pathD, .directory),
      (pathDA, .file ['x'] 1)] [] (.file ['y'] 1)).disk) (diverged [(pathD, .directory),
      (pathDA, .file ['x'] 1)] [] (.file ['y'] 1))).report.failures =
        [⟨pathD, .removing pathD⟩] by decide +kernel]
    exact fun f hf => ⟨pathD, by rw [List.mem_singleton.mp hf]⟩

/-- **A kept directory stands on the server alone**: `d` was removed here, and `d/a`, recorded as a
file, is a directory there. Nothing fails, and the two sides differ. -/
theorem kept_directory_differs :
    let w := diverged [] [(pathD, .directory), (pathDA, .directory)] (.file ['y'] 1)
    let pass := Pass.plain .ascii .unixEpoch w.disk
    pass.Ordinary .ascii w ∧ (syncOnce .ascii pass w).report.failures = [] ∧
      ¬(syncOnce .ascii pass w).Even := by
  refine ⟨Pass.ordinary_plain (by decide +kernel) (by decide +kernel) (by decide +kernel)
    (by decide +kernel) (by decide +kernel) ?_, by decide +kernel, fun h => ?_⟩
  · rintro p c ⟨⟨_, _, _, _, hl, -⟩, -⟩
    exact absurd (OrdMap.get_eq_some_iff.mp hl) List.not_mem_nil
  · exact absurd (h pathD) (by decide +kernel)

end Stashden.Sync
