import Stashden.Sync.Frame

/-!
# What a pass leaves at a path

`Execution` is a part of a plan that ran, in order and with every action succeeding, from sides that
carry what the two snapshots say; the whole plan is one such part. For a path that the run sees as
the snapshots do (`Agrees`), the lemmas of this module say what stands there afterwards, one for each
action that can be planned at it and one for each case in which none is.

They hold whatever else the plan does, copies that land on existing names included; where such a
copy would matter, it is a hypothesis of the lemma.
-/

namespace Stashden.Sync

open Lib RelPath

/-- The actions a plan has left when the shares have held back theirs. -/
abbrev acts (h : Held) (localSide remote base : Snapshot) (now : DateTime) : List Action :=
  (h.apply (reconcile localSide remote base now)).actions

/-- A part of a plan that ran, every action succeeding. -/
structure Execution (h : Held) (localSide remote base : Snapshot) (now : DateTime)
    (scanned : RelPath → Option Entry) (ran : List Action) (s : Sides) : Prop where
  localTree : localSide.TreeShaped
  remoteTree : remote.TreeShaped
  part : ran.Sublist (acts h localSide remote base now)
  enabled : EnabledAlong scanned remote.get ran s
  scanned : ∀ q e, localSide.get q = some e → scanned q = some e
  onDisk : ∀ q e, localSide.get q = some e → s.disk q = some e
  onServer : ∀ q e, remote.get q = some e → s.server q = some e

/-- The sides carry at a path what the snapshots say. -/
structure Agrees (localSide remote base : Snapshot) (s : Sides) (p : RelPath) : Prop where
  disk : s.disk p = localSide.get p
  server : s.server p = remote.get p
  base : s.base p = base.get p

namespace Execution

variable {h : Held} {localSide remote base : Snapshot} {now : DateTime}
  {scanned : RelPath → Option Entry} {s : Sides} {p : RelPath} {e : Entry} {b : Action} {t : Sides}

/-- What stands after it. -/
@[irreducible] def outcome {ran : List Action}
    (_ : Execution h localSide remote base now scanned ran s) : Sides :=
  run scanned remote.get ran s

theorem planned_of_mem (hb : b ∈ acts h localSide remote base now) :
    Planned localSide remote base now b := by
  rcases Held.mem_apply_iff.mp hb with ⟨q, c, hk, -, rfl⟩ | ⟨hm, -⟩
  · exact Or.inr ⟨q, c, rfl, mem_actions_iff.mp hk⟩
  · exact Or.inl (mem_actions_iff.mp hm)

theorem ordered : (acts h localSide remote base now).Pairwise Action.Precedes :=
  Held.apply_pairwise actions_pairwise

/-- An action planned at a path is what the path decides, or its conflict set aside. -/
theorem verdict_of_planned (hb : Planned localSide remote base now b) :
    ∃ slot a, verdict localSide remote base now b.subject = .push slot a ∧
      (a = b ∨ ∃ c, a = .keepBoth b.subject c ∧ b = .setAside b.subject c) := by
  rcases hb with hw | ⟨q, c, rfl, hw⟩
  · exact ⟨_, b, verdict_of_warranted hw, Or.inl rfl⟩
  · exact ⟨_, .keepBoth q c, verdict_of_warranted hw, Or.inr ⟨c, rfl, rfl⟩⟩

/-- Where a path decides nothing, no action has it as its subject. -/
theorem subject_ne_of_idle (hv : ∀ slot a, verdict localSide remote base now p ≠ .push slot a)
    (hb : b ∈ acts h localSide remote base now) : b.subject ≠ p := by
  rintro rfl
  obtain ⟨slot, a, hpush, -⟩ := verdict_of_planned (planned_of_mem hb)
  exact hv slot a hpush

/-- Where a path's action was held back, no action has it as its subject. -/
theorem subject_ne_of_held {a : Action} (ha : Warranted localSide remote base now a)
    (hheld : a ∉ acts h localSide remote base now) (hk : a.copy = none)
    (hb : b ∈ acts h localSide remote base now) : b.subject ≠ a.subject := by
  intro hsub
  obtain ⟨slot, a', hpush, hor⟩ := verdict_of_planned (planned_of_mem hb)
  rw [hsub, verdict_of_warranted ha] at hpush
  obtain ⟨-, rfl⟩ := Verdict.push.inj hpush
  rcases hor with rfl | ⟨c, rfl, -⟩
  · exact hheld hb
  · exact absurd hk (by simp [Action.copy])

/-- A planned action no share holds back ran. -/
theorem mem_acts {a : Action} (hw : Warranted localSide remote base now a)
    (hh : h.holds (h.uprooted (reconcile localSide remote base now).actions) a = false)
    (hk : a.copy = none) : a ∈ acts h localSide remote base now := by
  refine Held.mem_apply_iff.mpr (Or.inr ⟨mem_actions_iff.mpr hw, hh, ?_⟩)
  rintro q c rfl
  exact absurd hk (by simp [Action.copy])

/-- A conflict is kept or set aside. -/
theorem mem_acts_conflict {q c : RelPath} (hw : Warranted localSide remote base now (.keepBoth q c)) :
    ∃ a ∈ acts h localSide remote base now, a.fetches = true ∧ a.subject = q := by
  by_cases hr : h.refusesUpload c = true
  · exact ⟨_, Held.mem_apply_iff.mpr (Or.inl ⟨q, c, mem_actions_iff.mpr hw, hr, rfl⟩), rfl, rfl⟩
  · refine ⟨.keepBoth q c, Held.mem_apply_iff.mpr (Or.inr ⟨mem_actions_iff.mpr hw, rfl, ?_⟩), rfl,
      rfl⟩
    intro q' c' e
    cases e
    simpa using hr

/-- A planned action that did not run was held back, and reported. -/
theorem mem_held {a : Action} (hw : Warranted localSide remote base now a)
    (hheld : a ∉ acts h localSide remote base now) (hk : a.copy = none) :
    h.holds (h.uprooted (reconcile localSide remote base now).actions) a = true ∧
      a.subject ∈ (h.apply (reconcile localSide remote base now)).held := by
  have hholds : h.holds (h.uprooted (reconcile localSide remote base now).actions) a = true := by
    rw [← Bool.not_eq_false]
    exact fun hno => hheld (mem_acts hw hno hk)
  exact ⟨hholds, Held.mem_held_of_holds (mem_actions_iff.mpr hw) hholds⟩

/-- What ran as planned was not refused, and what was set aside was. -/
theorem refusal_of_mem (hb : b ∈ acts h localSide remote base now) :
    (∀ q, b = .upload q → h.refusesUpload q = false) ∧
      (∀ q c, b = .keepBoth q c → h.refusesUpload c = false) ∧
      ∀ q c, b = .setAside q c → h.refusesUpload c = true := by
  rcases Held.mem_apply_iff.mp hb with ⟨q, c, -, hr, rfl⟩ | ⟨hm, hh, hk⟩
  · refine ⟨fun _ e => (nomatch e), fun _ _ e => (nomatch e), fun q' c' e => ?_⟩
    cases e
    exact hr
  · refine ⟨fun q e => ?_, hk, fun q c e => ?_⟩
    · subst e
      exact hh
    · subst e
      exact (mem_actions_iff.mp hm).elim

/-- What is set aside, and onto what. -/
theorem setAside_spec {q c : RelPath} (hb : .setAside q c ∈ acts h localSide remote base now) :
    Warranted localSide remote base now (.keepBoth q c) ∧ h.refusesUpload c = true :=
  ⟨(planned_of_mem hb).of_setAside, (refusal_of_mem hb).2.2 q c rfl⟩

theorem refusal_of_created {q : RelPath}
    (hq : .createRemoteDirectory q ∈ acts h localSide remote base now) :
    h.refusesUpload q = false := by
  rcases Held.mem_apply_iff.mp hq with ⟨_, _, -, -, e⟩ | ⟨-, hh, -⟩
  · cases e
  · exact hh

theorem warranted_of_mem {a : Action} (ha : a ∈ acts h localSide remote base now)
    (hno : ∀ q c, a ≠ .setAside q c) : Warranted localSide remote base now a := by
  rcases planned_of_mem ha with hw | ⟨q, c, e, -⟩
  · exact hw
  · exact absurd e (hno q c)

/-- An action that makes a path its subject, forgetting it apart, has it on one of the sides. -/
theorem subject_listed {a : Action} (h : Planned localSide remote base now a) :
    (∃ e, localSide.get a.subject = some e) ∨ (∃ e, remote.get a.subject = some e) ∨
      a = .forget a.subject := by
  rcases h with h | ⟨q, c, rfl, h⟩
  · cases a with
    | createLocalDirectory p => exact Or.inr (Or.inl ⟨_, h.2.1⟩)
    | createRemoteDirectory p => exact Or.inl ⟨_, h.1⟩
    | download p =>
      obtain ⟨t, n, hr, -⟩ := h
      exact Or.inr (Or.inl ⟨_, hr⟩)
    | upload p =>
      obtain ⟨t, n, hl, -⟩ := h
      exact Or.inl ⟨_, hl⟩
    | deleteLocal p =>
      obtain ⟨t, n, hl, -⟩ := h
      exact Or.inl ⟨_, hl⟩
    | deleteRemote p =>
      obtain ⟨t, n, hr, -⟩ := h
      exact Or.inr (Or.inl ⟨_, hr⟩)
    | removeLocalDirectory p => exact Or.inl ⟨_, h.1⟩
    | removeRemoteDirectory p => exact Or.inr (Or.inl ⟨_, h.2.1⟩)
    | forget p => exact Or.inr (Or.inr rfl)
    | keepBoth p c =>
      obtain ⟨⟨t, n, _, _, hl, -⟩, -⟩ := h
      exact Or.inl ⟨_, hl⟩
    | setAside p c => exact absurd h id
  · obtain ⟨⟨t, n, _, _, hl, -⟩, -⟩ := h
    exact Or.inl ⟨_, hl⟩

/-- Nothing is made here inside a directory all of whose entries are recorded as listed. -/
theorem not_made_of_recorded (hL : localSide.TreeShaped) {d : RelPath}
    (hl : localSide.get d = none)
    (hall : ∀ q e, q.isInside d = true → remote.get q = some e → base.get q = some e) {b : Action}
    (hb : b ∈ acts h localSide remote base now) (hm : b.makesLocal = true) :
    b.subject.isInside d = false := by
  rw [← Bool.not_eq_true]
  intro hin
  have hnone : localSide.get b.subject = none := hL.none_inside (by simp [hl]) hin
  have hconflict : ∀ q c, Warranted localSide remote base now (.keepBoth q c) →
      localSide.get q = none → False := by
    rintro q c ⟨⟨t, n, t', n', hq, -⟩, -⟩ hq'
    rw [hq'] at hq
    exact absurd hq (by simp)
  have hpl := planned_of_mem hb
  cases b with
  | createLocalDirectory q =>
    obtain ⟨-, hr, hbq⟩ := warranted_of_mem hb (fun _ _ => nofun)
    rw [hall q _ hin hr] at hbq
    exact absurd hbq (by simp)
  | download q =>
    obtain ⟨t, n, hr, ⟨-, hbq⟩ | ⟨t', n', hq, -⟩⟩ := warranted_of_mem hb (fun _ _ => nofun)
    · exact hbq (hall q _ hin hr)
    · have hq' : localSide.get q = none := hnone
      rw [hq'] at hq
      exact absurd hq (by simp)
  | keepBoth q c => exact hconflict q c (warranted_of_mem hb (fun _ _ => nofun)) hnone
  | setAside q c => exact hconflict q c hpl.of_setAside hnone
  | _ => exact absurd hm (by simp [Action.makesLocal])

/-! ## Invariants of the run -/

variable {ran : List Action} (E : Execution h localSide remote base now scanned ran s)

include E in
theorem mem (hb : b ∈ ran) : b ∈ acts h localSide remote base now := E.part.subset hb

include E in
theorem planned (hb : b ∈ ran) : Planned localSide remote base now b := planned_of_mem (E.mem hb)

theorem invariant (J : Sides → Prop)
    (hstep : ∀ b ∈ ran, ∀ t, Enabled remote.get b t → J t →
      J (effect scanned remote.get b t)) (h₀ : J s) : J E.outcome := by
  unfold outcome
  exact run_invariant E.enabled hstep h₀

theorem split (J K : Sides → Prop) {a : Action} (ha : a ∈ ran)
    (hbefore : ∀ b ∈ ran, b.Precedes a → ∀ t,
      Enabled remote.get b t → J t → J (effect scanned remote.get b t))
    (hat : ∀ t, Enabled remote.get a t → J t → K (effect scanned remote.get a t))
    (hafter : ∀ b ∈ ran, a.Precedes b → ∀ t,
      Enabled remote.get b t → K t → K (effect scanned remote.get b t)) (h₀ : J s) :
    K E.outcome := by
  unfold outcome
  exact run_split E.enabled (ordered.sublist E.part) ha hbefore hat hafter h₀

include E

/-- What stands on the server stays where the folder holds the path, or the server's entry is not
the recorded one. -/
theorem keep_server (hb : b ∈ ran) (hsub : b.subject ≠ p)
    (hen : Enabled remote.get b t) (ht : t.server p = some e)
    (hp : localSide.get p ≠ none ∨ ∃ e', remote.get p = some e' ∧ base.get p ≠ some e') :
    (effect scanned remote.get b t).server p = some e := by
  refine frame_server_some hen hsub ht fun hrem => ?_
  rw [← Bool.not_eq_true]
  intro hin
  obtain ⟨hl, hall⟩ := (E.planned hb).removed_above E.localTree E.remoteTree hrem hin
  rcases hp with hp | ⟨e', he', hne⟩
  · exact hp hl
  · exact hne (hall e' he').1

/-- A record stays where a file or nothing stands in the folder and something on the server. -/
theorem keep_base (hb : b ∈ ran) (hsub : b.subject ≠ p)
    (hen : Enabled remote.get b t) (ht : t.server p ≠ none)
    (hp : localSide.get p ≠ some .directory) :
    (effect scanned remote.get b t).base p = t.base p := by
  have hpl := E.planned hb
  refine frame_base hsub (fun q hq => ?_) fun q hq => ?_
  · subst hq
    exact hpl.not_made_remotely E.localTree hp rfl
  · subst hq
    exact ht hen.2.1

/-! ## Where nothing is planned -/

variable (A : Agrees localSide remote base s p)

include A

/-- Directories on both sides stay. -/
theorem settles_directories (hl : localSide.get p = some .directory)
    (hr : remote.get p = some .directory) :
    E.outcome.disk p = some .directory ∧ E.outcome.server p = some .directory := by
  have hidle : ∀ slot a, verdict localSide remote base now p ≠ .push slot a := by
    simp [verdict, hl, hr]
  refine E.invariant (fun t => t.disk p = some .directory ∧ t.server p = some .directory)
    (fun b hb t hen ht => ?_) ⟨A.disk.trans hl, A.server.trans hr⟩
  have hsub := subject_ne_of_idle hidle (E.mem hb)
  exact ⟨frame_disk_some hen hsub ht.1 (Or.inr rfl),
    E.keep_server hb hsub hen ht.2 (Or.inl (by simp [hl]))⟩

/-- **The same file on both sides** stays on the server, and whatever is recorded stays recorded. -/
theorem settles_same {tag : Str} {size : Nat} (hl : localSide.get p = some (.file tag size))
    (hr : remote.get p = some (.file tag size)) :
    E.outcome.server p = some (.file tag size) ∧ E.outcome.base p = base.get p := by
  have hidle : ∀ slot a, verdict localSide remote base now p ≠ .push slot a := by
    simp [verdict, hl, hr, forFile, fileVerdict]
  refine E.invariant (fun t => t.server p = some (.file tag size) ∧ t.base p = base.get p)
    (fun b hb t hen ht => ?_) ⟨A.server.trans hr, A.base⟩
  have hsub := subject_ne_of_idle hidle (E.mem hb)
  refine ⟨E.keep_server hb hsub hen ht.1 (Or.inl (by simp [hl])), ?_⟩
  rw [E.keep_base hb hsub hen (by simp [ht.1]) (by simp [hl]), ht.2]

/-- A file against a directory: both stay what they are. -/
theorem settles_file_directory {tag : Str} {size : Nat}
    (hl : localSide.get p = some (.file tag size)) (hr : remote.get p = some .directory) :
    (∃ t n, E.outcome.disk p = some (.file t n)) ∧ E.outcome.server p = some .directory := by
  have hidle : ∀ slot a, verdict localSide remote base now p ≠ .push slot a := by
    simp [verdict, hl, hr]
  refine E.invariant
    (fun t => (∃ t' n, t.disk p = some (.file t' n)) ∧ t.server p = some .directory)
    (fun b hb t hen ht => ?_) ⟨⟨tag, size, A.disk.trans hl⟩, A.server.trans hr⟩
  have hsub := subject_ne_of_idle hidle (E.mem hb)
  refine ⟨?_, E.keep_server hb hsub hen ht.2 (Or.inl (by simp [hl]))⟩
  exact frame_disk_file hen hsub ht.1

theorem settles_directory_file {tag : Str} {size : Nat}
    (hl : localSide.get p = some .directory) (hr : remote.get p = some (.file tag size)) :
    E.outcome.disk p = some .directory ∧ E.outcome.server p = some (.file tag size) := by
  have hidle : ∀ slot a, verdict localSide remote base now p ≠ .push slot a := by
    simp [verdict, hl, hr]
  refine E.invariant (fun t => t.disk p = some .directory ∧ t.server p = some (.file tag size))
    (fun b hb t hen ht => ?_) ⟨A.disk.trans hl, A.server.trans hr⟩
  have hsub := subject_ne_of_idle hidle (E.mem hb)
  exact ⟨frame_disk_some hen hsub ht.1 (Or.inr rfl),
    E.keep_server hb hsub hen ht.2 (Or.inl (by simp [hl]))⟩

/-- **A directory gone here that the server changed inside** stays there, recorded as it was. -/
theorem settles_kept {q : RelPath} {e' : Entry} (hl : localSide.get p = none)
    (hr : remote.get p = some .directory) (hb : base.get p ≠ none) (hq : q.isInside p = true)
    (hrq : remote.get q = some e') (hbq : base.get q ≠ some e') :
    E.outcome.server p = some .directory ∧ E.outcome.base p = base.get p := by
  have hnot : holdsOnlyWhatWasSynced remote base p = false := by
    rw [← Bool.not_eq_true, holdsOnly_iff]
    exact fun hall => hbq (hall q e' hq hrq)
  have hidle : ∀ slot a, verdict localSide remote base now p ≠ .push slot a := by
    obtain ⟨r, hbr⟩ := Option.ne_none_iff_exists'.mp hb
    simp [verdict, hl, hr, hnot, OrdMap.containsKey, hbr]
  refine E.invariant (fun t => t.server p = some .directory ∧ t.base p = base.get p)
    (fun b hbm t hen ht => ?_) ⟨A.server.trans hr, A.base⟩
  have hsub := subject_ne_of_idle hidle (E.mem hbm)
  refine ⟨frame_server_some hen hsub ht.1 fun hrem => ?_, ?_⟩
  · -- A removal above would have found the entry inside recorded.
    rw [← Bool.not_eq_true]
    intro hin
    have hall := ((E.planned hbm).removed_above E.localTree E.remoteTree hrem
      (isInside_trans hq hin)).2 e' hrq
    exact hbq hall.1
  · rw [E.keep_base hbm hsub hen (by simp [ht.1]) (by simp [hl]), ht.2]

omit A

/-- What is no directory on the disk becomes none, where nothing is planned and nothing inside is
made. -/
theorem not_directory_of_idle (hs : s.disk p ≠ some .directory)
    (hsub : ∀ b ∈ ran, b.subject ≠ p)
    (hmade : ∀ b ∈ ran, b.makesLocal = true →
      b.subject.isInside p = false) : E.outcome.disk p ≠ some .directory :=
  E.invariant (fun t => t.disk p ≠ some .directory)
    (fun b hb _ hen ht => frame_disk_not_directory hen (hsub b hb) ht (hmade b hb)) hs

/-! ## Where an action ran -/

/-- **A directory created here** stands here and is recorded. -/
theorem settles_createLocal (ha : .createLocalDirectory p ∈ ran) :
    E.outcome.disk p = some .directory ∧ E.outcome.base p = some .directory := by
  obtain ⟨hl, -, -⟩ : Warranted localSide remote base now (.createLocalDirectory p) := by
    rcases E.planned ha with hw | ⟨_, _, hw, -⟩
    · exact hw
    · cases hw
  refine E.split (fun _ => True)
    (fun t => t.disk p = some .directory ∧ t.base p = some .directory) ha
    (fun _ _ _ _ _ _ => trivial)
    (fun t _ _ => ⟨Function.update_self _ _ _, Function.update_self _ _ _⟩)
    (fun b hb hord t hen ht => ⟨frame_disk_some hen hord.1.symm ht.1 (Or.inr rfl), ?_⟩) trivial
  have hsub : b.subject ≠ p := hord.1.symm
  rw [frame_base hsub (fun q hq => ?_) fun q hq => ?_, ht.2]
  · subst hq
    exact (E.planned hb).not_made_remotely E.localTree (by simp [hl]) rfl
  · subst hq
    exact hen.1.2.1 ht.1

/-- **A removal on the server** leaves nothing there, and no record. -/
theorem settles_removed {a : Action} (ha : a ∈ ran)
    (hrem : a.removes = true) (hl : localSide.get a.subject = none) :
    E.outcome.server a.subject = none ∧ E.outcome.base a.subject = none := by
  have hrank : 1 < a.slot.rank := by
    cases a with
    | deleteRemote => exact Nat.lt_succ_self 1
    | removeRemoteDirectory => exact Nat.lt_of_lt_of_le (Nat.lt_succ_self 1) (Nat.le_succ 2)
    | _ => exact absurd hrem (by simp [Action.removes])
  refine E.split (fun _ => True)
    (fun t => t.server a.subject = none ∧ t.base a.subject = none) ha
    (fun _ _ _ _ _ _ => trivial) (fun t _ _ => ?_)
    (fun b hb hord t _ ht => ?_) trivial
  · cases a with
    | deleteRemote q =>
      exact ⟨by simp [effect, cut, atOrInside, Action.subject], Function.update_self _ _ _⟩
    | removeRemoteDirectory q =>
      exact ⟨by simp [effect, cut, atOrInside, Action.subject], Function.update_self _ _ _⟩
    | _ => exact absurd hrem (by simp [Action.removes])
  · have hcopy : ∀ q, b ≠ .keepBoth q a.subject := fun q e =>
      not_precedes_transfer hord hrank (e ▸ rfl)
    have hmade : b.makesRemote = true → b.subject.isInside a.subject = false :=
      (E.planned hb).not_made_remotely E.localTree (by simp [hl])
    refine ⟨frame_server_none hord.1.symm ht.1 (fun q c e => ?_) hmade hcopy, ?_⟩
    · subst e
      exact (E.planned hb).copy_beside rfl
    · rw [frame_base hord.1.symm (fun q e => ?_) hcopy, ht.2]
      subst e
      exact hmade rfl

/-- **A deletion here** leaves nothing on the disk, and no record. -/
theorem settles_deleted {a : Action} (ha : a ∈ ran)
    (hdel : a = .deleteLocal a.subject ∨ a = .removeLocalDirectory a.subject)
    (hr : remote.get a.subject = none) :
    E.outcome.disk a.subject = none ∧ E.outcome.base a.subject = none := by
  have hrank : 1 < a.slot.rank := by
    rcases hdel with e | e
    · rw [e]
      exact Nat.lt_succ_self 1
    · rw [e]
      exact Nat.lt_of_lt_of_le (Nat.lt_succ_self 1) (Nat.le_add_right 2 2)
  have hat : ∀ t, (effect scanned remote.get a t).disk a.subject = none ∧
      (effect scanned remote.get a t).base a.subject = none := by
    intro t
    rcases hdel with e | e
    all_goals
      generalize a.subject = q at e
      subst e
      exact ⟨Function.update_self _ _ _, Function.update_self _ _ _⟩
  refine E.split (fun _ => True)
    (fun t => t.disk a.subject = none ∧ t.base a.subject = none) ha
    (fun _ _ _ _ _ _ => trivial) (fun t _ _ => hat t)
    (fun b hb hord t _ ht => ?_) trivial
  have hcopy : b.copy ≠ some a.subject := fun e =>
    not_precedes_transfer hord hrank (slot_of_copy e)
  refine ⟨frame_disk_none hord.1.symm ht.1
    ((E.planned hb).not_made_locally E.remoteTree (by simp [hr])) hcopy, ?_⟩
  rw [frame_base hord.1.symm (fun q e => ?_) fun q e => hcopy (e ▸ rfl), ht.2]
  subst e
  exact (not_precedes_transfer hord hrank rfl).elim

/-- **A directory created on the server** stands there and is recorded. -/
theorem settles_createRemote (ha : .createRemoteDirectory p ∈ ran) :
    E.outcome.server p = some .directory ∧ E.outcome.base p = some .directory := by
  obtain ⟨hl, -, -⟩ : Warranted localSide remote base now (.createRemoteDirectory p) := by
    rcases E.planned ha with hw | ⟨_, _, hw, -⟩
    · exact hw
    · cases hw
  refine E.split (fun _ => True)
    (fun t => t.server p = some .directory ∧ t.base p = some .directory) ha
    (fun _ _ _ _ _ _ => trivial)
    (fun t _ _ => ⟨Function.update_self _ _ _, Function.update_self _ _ _⟩)
    (fun b hb hord t hen ht => ⟨?_, ?_⟩) trivial
  · exact E.keep_server hb hord.1.symm hen ht.1 (Or.inl (by simp [hl]))
  · exact frame_base_directory hen hord.1.symm (by simp [ht.1]) ht.2

/-- **What is fetched** is the server's, recorded as listed. -/
theorem settles_fetched {a : Action} (ha : a ∈ ran)
    (hf : a.fetches = true) (he : remote.get a.subject = some e)
    (hl : localSide.get a.subject ≠ some .directory)
    (hp : localSide.get a.subject ≠ none ∨ base.get a.subject ≠ some e) :
    E.outcome.server a.subject = some e ∧ E.outcome.base a.subject = some e := by
  have hkeep : localSide.get a.subject ≠ none ∨
      ∃ e', remote.get a.subject = some e' ∧ base.get a.subject ≠ some e' :=
    hp.imp_right fun hb => ⟨e, he, hb⟩
  refine E.split (fun t => t.server a.subject = some e)
    (fun t => t.server a.subject = some e ∧ t.base a.subject = some e) ha
    (fun b hb hord t hen ht => E.keep_server hb hord.1 hen ht hkeep)
    (fun t hen ht => ?_)
    (fun b hb hord t hen ht => ⟨E.keep_server hb hord.1.symm hen ht.1 hkeep, ?_⟩)
    (E.onServer _ _ he)
  · obtain ⟨hs, -, hb⟩ := effect_fetches scanned hf hen
      (fun c hc => (E.planned ha).copy_beside hc) ht
    exact ⟨hs, hb.trans he⟩
  · rw [E.keep_base hb hord.1.symm hen (by simp [ht.1]) hl, ht.2]

/-- What is fetched also stands on the disk, unless a conflict is set aside onto it. -/
theorem settles_fetched_disk {a : Action} (ha : a ∈ ran)
    (hf : a.fetches = true) (he : remote.get a.subject = some e)
    (hp : localSide.get a.subject ≠ none ∨ base.get a.subject ≠ some e)
    (haside : ∀ q, .setAside q a.subject ∉ ran) :
    E.outcome.disk a.subject = some e := by
  have hkeep : localSide.get a.subject ≠ none ∨
      ∃ e', remote.get a.subject = some e' ∧ base.get a.subject ≠ some e' :=
    hp.imp_right fun hb => ⟨e, he, hb⟩
  refine (E.split (fun t => t.server a.subject = some e)
    (fun t => t.server a.subject = some e ∧ t.disk a.subject = some e) ha
    (fun b hb hord t hen ht => E.keep_server hb hord.1 hen ht hkeep)
    (fun t hen ht => ?_)
    (fun b hb hord t hen ht => ⟨E.keep_server hb hord.1.symm hen ht.1 hkeep, ?_⟩)
    (E.onServer _ _ he)).2
  · obtain ⟨hs, hd, -⟩ := effect_fetches scanned hf hen
      (fun c hc => (E.planned ha).copy_beside hc) ht
    exact ⟨hs, hd⟩
  · refine frame_disk_some hen hord.1.symm ht.2 (Or.inl fun hc => ?_)
    cases b with
    | keepBoth q c =>
      cases hc
      exact absurd hen.2.1 (by simp [ht.1])
    | setAside q c =>
      cases hc
      exact haside q hb
    | _ => exact absurd hc (by simp [Action.copy])

/-- **An upload** leaves the folder's file on the server, recorded as scanned. -/
theorem settles_uploaded (ha : .upload p ∈ ran) :
    E.outcome.server p = localSide.get p ∧ E.outcome.base p = localSide.get p := by
  obtain ⟨tag, size, hl, hrb⟩ : Warranted localSide remote base now (.upload p) := by
    rcases E.planned ha with hw | ⟨_, _, hw, -⟩
    · exact hw
    · cases hw
  have hlne : localSide.get p ≠ none := by simp [hl]
  have hkept := (refusal_of_mem (E.mem ha)).1 p rfl
  rw [hl]
  refine E.split
    (fun t => (t.disk p = some (.file tag size) ∧ ∀ e, remote.get p = some e → t.server p ≠ none) ∨
      (remote.get p = none ∧ t.server p ≠ none))
    (fun t => t.server p = some (.file tag size) ∧ t.base p = some (.file tag size)) ha
    (fun b hb hord t hen ht => ?_) (fun t hen ht => ?_)
    (fun b hb hord t hen ht => ⟨?_, ?_⟩)
    (Or.inl ⟨E.onDisk _ _ hl, fun e he => by simp [E.onServer _ _ he]⟩)
  · have hsub : b.subject ≠ p := hord.1
    have hserver : t.server p ≠ none → (effect scanned remote.get b t).server p ≠ none := by
      intro hne
      obtain ⟨e', he'⟩ := Option.ne_none_iff_exists'.mp hne
      simp [E.keep_server hb hsub hen he' (Or.inl hlne)]
    rcases ht with ⟨hd, hs⟩ | ⟨hr, hs⟩
    · by_cases hc : b.copy = some p
      · -- The copy of another conflict landed here: then the name is taken on the server.
        cases b with
        | keepBoth q c =>
          cases hc
          obtain ⟨t', n, hq⟩ := hen.1.1
          refine Or.inr ⟨?_, by simp [server_of_ne hsub, hq]⟩
          by_contra hne
          obtain ⟨e', he'⟩ := Option.ne_none_iff_exists'.mp hne
          exact hs e' he' hen.2.1
        | setAside q c =>
          cases hc
          rw [(refusal_of_mem (E.mem hb)).2.2 q p rfl] at hkept
          exact absurd hkept (by simp)
        | _ => exact absurd hc (by simp [Action.copy])
      · exact Or.inl ⟨frame_disk_some hen hsub hd (Or.inl hc), fun e he => hserver (hs e he)⟩
    · exact Or.inr ⟨hr, hserver hs⟩
  · have hd : t.disk p = some (.file tag size) := by
      rcases ht with ⟨hd, -⟩ | ⟨hr, hs⟩
      · exact hd
      · rcases hen.2 with ⟨_, _, _, hr', -⟩ | ⟨-, hnone, -⟩
        · rw [hr] at hr'
          exact absurd hr' (by simp)
        · exact absurd hnone hs
    refine ⟨(Function.update_self _ _ _).trans hd, ?_⟩
    show dirsAbove p (Function.update t.base p (scanned p)) p = _
    rw [dirsAbove, not_isInside_self, if_neg (by simp), Function.update_self, E.scanned p _ hl]
  · exact E.keep_server hb hord.1.symm hen ht.1 (Or.inl hlne)
  · have hsub : b.subject ≠ p := hord.1.symm
    rw [E.keep_base hb hsub hen (by simp [ht.1]) (by simp [hl]), ht.2]

/-- **A conflict copy on a fresh name** stands on the server and is recorded as scanned. -/
theorem settles_copied {q : RelPath} (ha : .keepBoth q p ∈ ran)
    (hl : localSide.get p = none) (hr : remote.get p = none) (hb : base.get p = none)
    (haside : ∀ x, .setAside x q ∉ ran) :
    E.outcome.server p = localSide.get q ∧ E.outcome.base p = localSide.get q := by
  have hw : Warranted localSide remote base now (.keepBoth q p) := by
    rcases E.planned ha with hw | ⟨_, _, hw, -⟩
    · exact hw
    · cases hw
  obtain ⟨tag, size, t', n', hlq, hrq⟩ := hw.1
  have hpar : p.parent = q.parent := (E.planned ha).copy_beside rfl
  have hlne : localSide.get q ≠ none := by simp [hlq]
  have hidle : ∀ slot a, verdict localSide remote base now p ≠ .push slot a := by
    simp [verdict_of_absent hl hr hb]
  rw [hlq]
  refine E.split
    (fun t => t.disk q = some (.file tag size) ∧ t.server q = some (.file t' n'))
    (fun t => t.server p = some (.file tag size) ∧ t.base p = some (.file tag size)) ha
    (fun b hbm hord t hen ht => And.intro ?_ ?_) (fun t hen ht => ?_)
    (fun b hbm hord t hen ht => And.intro ?_ ?_)
    (And.intro (E.onDisk _ _ hlq) (E.onServer _ _ hrq))
  · have hsub : b.subject ≠ q := hord.1
    refine frame_disk_some hen hsub ht.1 (Or.inl fun hc => ?_)
    cases b with
    | keepBoth x c =>
      cases hc
      exact absurd hen.2.1 (by simp [ht.2])
    | setAside x c =>
      cases hc
      exact haside x hbm
    | _ => exact absurd hc (by simp [Action.copy])
  · exact E.keep_server hbm hord.1 hen ht.2 (Or.inl hlne)
  · have hqp : p ≠ q := fun e => by
      have hnone : t.server p = none := hen.2.1
      rw [e, ht.2] at hnone
      exact absurd hnone (by simp)
    refine ⟨(server_of_ne (a := .keepBoth q p) hqp.symm).trans (by simp [ht.1]), ?_⟩
    exact (base_of_ne (a := .keepBoth q p) hqp.symm).trans (by simp [E.scanned q _ hlq])
  · -- A directory above the copy is above the conflict's path too, and stands in the folder.
    refine frame_server_some hen (subject_ne_of_idle hidle (E.mem hbm)) ht.1 fun hrem => ?_
    rw [← Bool.not_eq_true]
    intro hin
    exact hlne ((E.planned hbm).removed_above E.localTree E.remoteTree hrem
      ((isInside_congr hpar).symm.trans hin)).1
  · rw [E.keep_base hbm (subject_ne_of_idle hidle (E.mem hbm)) hen (by simp [ht.1]) (by simp [hl]), ht.2]

/-! ## Where nothing stands, or a share held the action back -/

variable (A : Agrees localSide remote base s p)

include A

/-- What is absent on both sides, and no copy's name, stays off the server. -/
theorem settles_absent_server (hl : localSide.get p = none) (hr : remote.get p = none)
    (hno : ∀ q, .keepBoth q p ∉ ran) : E.outcome.server p = none := by
  refine E.invariant (fun t => t.server p = none) (fun b hb t _ ht => ?_) (A.server.trans hr)
  by_cases hsub : b.subject = p
  · rcases subject_listed (E.planned hb) with ⟨e, he⟩ | ⟨e, he⟩ | he
    · rw [hsub, hl] at he
      exact absurd he (by simp)
    · rw [hsub, hr] at he
      exact absurd he (by simp)
    · rw [he]
      exact ht
  · refine frame_server_none hsub ht (fun q c e => ?_) ?_ fun q e => hno q (e ▸ hb)
    · subst e
      exact (E.planned hb).copy_beside rfl
    · exact (E.planned hb).not_made_remotely E.localTree (by simp [hl])

/-- And its record goes. -/
theorem settles_absent (hl : localSide.get p = none) (hr : remote.get p = none)
    (hno : ∀ q, .keepBoth q p ∉ ran) (hran : base.get p ≠ none → .forget p ∈ ran) :
    E.outcome.server p = none ∧ E.outcome.base p = none := by
  refine ⟨E.settles_absent_server A hl hr hno, ?_⟩
  have hbase : ∀ b ∈ ran, b.subject ≠ p → ∀ t : Sides,
      (effect scanned remote.get b t).base p = t.base p := by
    intro b hb hsub t
    refine frame_base hsub (fun q e => ?_) fun q e => hno q (e ▸ hb)
    subst e
    exact (E.planned hb).not_made_remotely E.localTree (by simp [hl]) rfl
  by_cases hb : base.get p = none
  · have hidle : ∀ slot a, verdict localSide remote base now p ≠ .push slot a := by
      simp [verdict_of_absent hl hr hb]
    exact E.invariant (fun t => t.base p = none)
      (fun b hbm t _ ht => (hbase b hbm (subject_ne_of_idle hidle (E.mem hbm)) t).trans ht)
      (A.base.trans hb)
  · exact E.split (fun _ => True) (fun t => t.base p = none) (hran hb) (fun _ _ _ _ _ _ => trivial)
      (fun t _ _ => Function.update_self _ _ _)
      (fun b hbm hord t _ ht => (hbase b hbm hord.1.symm t).trans ht) trivial

/-- An upload held back: nothing arrives on the server, and a file stays here. -/
theorem settles_upload_held {tag : Str} {size : Nat} (hl : localSide.get p = some (.file tag size))
    (hr : remote.get p = none) (hw : Warranted localSide remote base now (.upload p))
    (hheld : .upload p ∉ acts h localSide remote base now) :
    (∃ t n, E.outcome.disk p = some (.file t n)) ∧ E.outcome.server p = none := by
  have hrefused : h.refusesUpload p = true := by
    rw [← Bool.not_eq_false]
    exact fun hno => hheld (mem_acts hw hno rfl)
  refine E.invariant (fun t => (∃ t' n, t.disk p = some (.file t' n)) ∧ t.server p = none)
    (fun b hb t hen ht => ?_) ⟨⟨tag, size, A.disk.trans hl⟩, A.server.trans hr⟩
  have hsub : b.subject ≠ p := subject_ne_of_held hw hheld rfl (E.mem hb)
  refine ⟨frame_disk_file hen hsub ht.1, frame_server_none hsub ht.2 (fun q c e => ?_)
    ((E.planned hb).not_made_remotely E.localTree (by simp [hl])) fun q e => ?_⟩
  · subst e
    exact (E.planned hb).copy_beside rfl
  · rw [(refusal_of_mem (E.mem hb)).2.1 q p e] at hrefused
    exact absurd hrefused (by simp)

/-- An edit held back: the server keeps its version, and the record. -/
theorem settles_edit_held {tag : Str} {size : Nat} {e : Entry}
    (hl : localSide.get p = some (.file tag size)) (hr : remote.get p = some e)
    (hw : Warranted localSide remote base now (.upload p))
    (hheld : .upload p ∉ acts h localSide remote base now) :
    E.outcome.server p = some e ∧ E.outcome.base p = base.get p := by
  refine E.invariant (fun t => t.server p = some e ∧ t.base p = base.get p)
    (fun b hb t hen ht => ?_) ⟨A.server.trans hr, A.base⟩
  have hsub : b.subject ≠ p := subject_ne_of_held hw hheld rfl (E.mem hb)
  refine ⟨E.keep_server hb hsub hen ht.1 (Or.inl (by simp [hl])), ?_⟩
  rw [E.keep_base hb hsub hen (by simp [ht.1]) (by simp [hl]), ht.2]

/-- A directory a share keeps from being created, with no directory inside it created either: it
is on the server only when an upload inside it made and recorded it. -/
theorem settles_directory_held (hw : Warranted localSide remote base now (.createRemoteDirectory p))
    (hheld : .createRemoteDirectory p ∉ acts h localSide remote base now)
    (hin : ∀ q, .createRemoteDirectory q ∈ ran →
      q.isInside p = false) :
    E.outcome.disk p = some .directory ∧ E.outcome.server p = E.outcome.base p := by
  have hl : localSide.get p = some .directory := hw.1
  have hr : remote.get p = none := hw.2.1
  have hb : base.get p = none := hw.2.2
  have hall : E.outcome.disk p = some .directory ∧
      ((E.outcome.server p = none ∧ E.outcome.base p = none) ∨
        (E.outcome.server p = some .directory ∧ E.outcome.base p = some .directory)) := by
    refine E.invariant (fun t => t.disk p = some .directory ∧
      ((t.server p = none ∧ t.base p = none) ∨
        (t.server p = some .directory ∧ t.base p = some .directory)))
      (fun b hbm t hen ht => ?_)
      ⟨A.disk.trans hl, Or.inl ⟨A.server.trans hr, A.base.trans hb⟩⟩
    have hsub : b.subject ≠ p := subject_ne_of_held hw hheld rfl (E.mem hbm)
    refine ⟨frame_disk_some hen hsub ht.1 (Or.inr rfl), ?_⟩
    rcases ht.2 with ⟨hs, hbn⟩ | ⟨hs, hbd⟩
    · by_cases hup : b.makesRemote = true ∧ b.subject.isInside p = true
      · obtain ⟨hm, hinside⟩ := hup
        cases b with
        | upload q =>
          have hqp : q.isInside p = true := hinside
          have hnot : ∀ t n, remote.get q ≠ some (.file t n) := fun t n hq => by
            rw [E.remoteTree.none_inside (d := p) (by simp [hr]) hqp] at hq
            exact absurd hq (by simp)
          have hnone : t.server q = none := by
            rcases hen.2 with ⟨t, n, _, hq, -⟩ | ⟨-, hnone, -⟩
            · exact absurd hq (hnot t n)
            · exact hnone
          refine Or.inr ⟨(server_of_ne hsub).trans ?_, (base_of_ne hsub).trans ?_⟩
          · simp [hnone, hqp]
          · simp [hqp]
        | createRemoteDirectory q =>
          rw [show (Action.createRemoteDirectory q).subject = q from rfl, hin q hbm] at hinside
          exact absurd hinside (by simp)
        | keepBoth q c =>
          obtain ⟨e, he⟩ := (E.planned hbm).listed rfl
          rw [E.remoteTree.none_inside (by simp [hr]) hinside] at he
          exact absurd he (by simp)
        | _ => exact absurd hm (by simp [Action.makesRemote])
      · have hmade : b.makesRemote = true → b.subject.isInside p = false := fun hm =>
          (Bool.not_eq_true _).mp fun hi => hup ⟨hm, hi⟩
        have hcopy : ∀ q, b ≠ .keepBoth q p := fun q e => by
          subst e
          exact hen.1.2.1 ht.1
        refine Or.inl ⟨frame_server_none hsub hs (fun q c e => ?_) hmade hcopy,
          (frame_base hsub (fun q e => ?_) hcopy).trans hbn⟩
        · subst e
          exact (E.planned hbm).copy_beside rfl
        · subst e
          exact hmade rfl
    · have hs' := E.keep_server hbm hsub hen hs (Or.inl (by simp [hl]))
      exact Or.inr ⟨hs', frame_base_directory hen hsub (by simp [hs]) hbd⟩
  refine ⟨hall.1, ?_⟩
  rcases hall.2 with ⟨hs, hb'⟩ | ⟨hs, hb'⟩
  · rw [hs, hb']
  · rw [hs, hb']

/-- **A removal held back**: the server's entry and its record stay, whatever is removed around
it. -/
theorem settles_removal_held {a : Action} {e : Entry} (hwm : h.WellMounted) (ha : a.subject = p)
    (hw : Warranted localSide remote base now a) (hrem : a.removes = true)
    (hr : remote.get p = some e) (hl : localSide.get p = none)
    (hheld : a ∉ acts h localSide remote base now) :
    E.outcome.server p = some e ∧ E.outcome.base p = base.get p := by
  have hcopy : a.copy = none := by
    cases a with
    | keepBoth => exact absurd hrem (by simp [Action.removes])
    | setAside => exact absurd hrem (by simp [Action.removes])
    | _ => rfl
  have hholds : h.holds (h.uprooted (reconcile localSide remote base now).actions) a = true := by
    rw [← Bool.not_eq_false]
    exact fun hno => hheld (mem_acts hw hno hcopy)
  have hguard : h.holdsRemoval (h.uprooted (reconcile localSide remote base now).actions) p
      = true := by
    cases a with
    | deleteRemote q => exact ha ▸ hholds
    | removeRemoteDirectory q => exact ha ▸ hholds
    | _ => exact absurd hrem (by simp [Action.removes])
  refine E.invariant (fun t => t.server p = some e ∧ t.base p = base.get p)
    (fun b hb t hen ht => ?_) ⟨A.server.trans hr, A.base⟩
  have hsub : b.subject ≠ p := ha ▸ subject_ne_of_held hw hheld hcopy (E.mem hb)
  refine ⟨frame_server_some hen hsub ht.1 fun hbrem => ?_, ?_⟩
  · rw [← Bool.not_eq_true]
    intro hin
    have habove := (E.planned hb).removed_above E.localTree E.remoteTree hbrem hin
    have hbd := (habove.2 e hr).2
    have hb' : h.holdsRemoval (h.uprooted (reconcile localSide remote base now).actions)
        b.subject = true :=
      Held.holdsRemoval_above hwm (fun r hr => Held.fixed_of_mem_uprooted hr) hin hguard
    rcases Held.mem_apply_iff.mp (E.mem hb) with ⟨q, c, -, -, e'⟩ | ⟨-, hh, -⟩
    · rw [e'] at hbrem
      exact absurd hbrem (by simp [Action.removes])
    · rw [hbd] at hh
      exact absurd (hh.symm.trans hb') (by simp)
  · rw [E.keep_base hb hsub hen (by simp [ht.1]) (by simp [hl]), ht.2]

end Execution

end Stashden.Sync
