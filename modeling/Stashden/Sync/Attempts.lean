import Stashden.Sync.Copies

/-!
# Loops in which only removals of directories fail

A failed removal changes nothing, so what such a loop ran is a part of the plan (`Attempts`), and
everything `Settle.lean` says of executions holds of it. What the removal found in its way was sent
to the server: `sent_of_full`, by induction on the depth.

`absent_here`, `stays_here`, `made_here` and their like say what is left of a path whose own action
is none or writes the other side only.
-/

namespace Stashden.Sync

open Lib Stashden.Core RelPath Pass

/-! ## What was tried and what ran -/

/-- A list of actions tried in order: each succeeds, or is the removal of a directory that is not
there or not empty. The second list is what ran. -/
inductive Attempts (scanned listing : RelPath → Option Entry) :
    List Action → List Action → Sides → Prop
  | nil (s : Sides) : Attempts scanned listing [] [] s
  | done {a : Action} {acts ran : List Action} {s : Sides} (head : Enabled listing a s)
    (rest : Attempts scanned listing acts ran (effect scanned listing a s)) :
    Attempts scanned listing (a :: acts) (a :: ran) s
  | full {p : RelPath} {acts ran : List Action} {s : Sides}
    (head : s.disk p ≠ some .directory ∨ ∃ q, q.isInside p = true ∧ s.disk q ≠ none)
    (rest : Attempts scanned listing acts ran s) :
    Attempts scanned listing (.removeLocalDirectory p :: acts) ran s

namespace Attempts

variable {scanned listing : RelPath → Option Entry} {tried ran : List Action} {s : Sides}

theorem enabled (h : Attempts scanned listing tried ran s) : EnabledAlong scanned listing ran s := by
  induction h with
  | nil s => exact .nil s
  | done head _ ih => exact .cons head ih
  | full _ _ ih => exact ih

theorem sublist (h : Attempts scanned listing tried ran s) : ran.Sublist tried := by
  induction h with
  | nil => exact List.Sublist.refl _
  | done _ _ ih => exact ih.cons_cons _
  | full _ _ ih => exact ih.cons _

/-- Only removals of directories are left out. -/
theorem mem (h : Attempts scanned listing tried ran s) {a : Action} (ha : a ∈ tried)
    (hno : ∀ p, a ≠ .removeLocalDirectory p) : a ∈ ran := by
  induction h with
  | nil => exact ha
  | done _ _ ih =>
    rcases List.mem_cons.mp ha with rfl | ha
    · exact List.mem_cons_self
    · exact List.mem_cons_of_mem _ (ih ha)
  | full _ _ ih =>
    rcases List.mem_cons.mp ha with rfl | ha
    · exact absurd rfl (hno _)
    · exact ih ha

/-- A removal that did not run found its directory gone or not empty, after what ran before it. -/
theorem skipped (h : Attempts scanned listing tried ran s) {p : RelPath}
    (hp : .removeLocalDirectory p ∈ tried) (hno : .removeLocalDirectory p ∉ ran) :
    ∃ pre post before after, tried = pre ++ .removeLocalDirectory p :: post ∧
      ran = before ++ after ∧ after.Sublist post ∧ Attempts scanned listing pre before s ∧
      ((run scanned listing before s).disk p ≠ some .directory ∨
        ∃ q, q.isInside p = true ∧ (run scanned listing before s).disk q ≠ none) := by
  induction h with
  | nil => exact absurd hp List.not_mem_nil
  | @done a acts ran s head rest ih =>
    have hne : .removeLocalDirectory p ≠ a := fun e => hno (e ▸ List.mem_cons_self)
    obtain ⟨pre, post, before, after, rfl, rfl, hsub, hpre, hfull⟩ :=
      ih ((List.mem_cons.mp hp).resolve_left hne) fun hm => hno (List.mem_cons_of_mem _ hm)
    exact ⟨a :: pre, post, a :: before, after, rfl, rfl, hsub, .done head hpre, hfull⟩
  | @full p' acts ran s head rest ih =>
    by_cases hpp : p' = p
    · subst hpp
      exact ⟨[], acts, [], ran, rfl, rfl, rest.sublist, .nil s, head⟩
    · have hne : Action.removeLocalDirectory p ≠ .removeLocalDirectory p' := fun e => by
        cases e
        exact hpp rfl
      obtain ⟨pre, post, before, after, rfl, rfl, hsub, hpre, hfull⟩ :=
        ih ((List.mem_cons.mp hp).resolve_left hne) hno
      exact ⟨_ :: pre, post, before, after, rfl, rfl, hsub, .full head hpre, hfull⟩

end Attempts

/-! ## One path after such a loop -/

/-- A plan nothing is held back of, whose copies are new and different, on sides without a file
against a directory. -/
structure Whole (h : Held) (localSide remote base : Snapshot) (now : DateTime) : Prop where
  plan : ∀ a, a ∈ acts h localSide remote base now ↔ Warranted localSide remote base now a
  fresh : ∀ p c, Warranted localSide remote base now (.keepBoth p c) →
    localSide.get c = none ∧ remote.get c = none
  apart : ∀ p p' c, Warranted localSide remote base now (.keepBoth p c) →
    Warranted localSide remote base now (.keepBoth p' c) → p = p'
  kinds : ∀ p t n, (localSide.get p = some (.file t n) → remote.get p ≠ some .directory) ∧
    (localSide.get p = some .directory → remote.get p ≠ some (.file t n))

theorem Whole.copy_spec {h : Held} {localSide remote base : Snapshot} {now : DateTime}
    (W : Whole h localSide remote base now) {b : Action} {c : RelPath}
    (hb : b ∈ acts h localSide remote base now) (hc : b.copy = some c) :
    ∃ q, b = .keepBoth q c ∧ localSide.get c = none ∧ remote.get c = none := by
  have hw := (W.plan b).mp hb
  cases b with
  | keepBoth q c' =>
    cases hc
    exact ⟨q, rfl, W.fresh q c hw⟩
  | setAside q c' => exact absurd hw id
  | _ => exact absurd hc (by simp [Action.copy])

namespace Execution

variable {h : Held} {localSide remote base : Snapshot} {now : DateTime}
  {scanned : RelPath → Option Entry} {ran : List Action} {s : Sides} {p : RelPath} {e : Entry}
  (E : Execution h localSide remote base now scanned ran s)
  (W : Whole h localSide remote base now)

include E

/-- Nothing comes to stand here where nothing is made here. -/
theorem absent_here (hs : s.disk p = none)
    (hmade : ∀ b ∈ ran, b.makesLocal = true →
      b.subject ≠ p ∧ b.subject.isInside p = false ∧ b.copy ≠ some p) :
    E.outcome.disk p = none := by
  refine E.invariant (fun t => t.disk p = none) (fun b hb t hen ht => ?_) hs
  by_cases hsub : b.subject = p
  · have hno : b.makesLocal = false := by
      rw [← Bool.not_eq_true]
      exact fun hm => (hmade b hb hm).1 hsub
    subst hsub
    cases b with
    | deleteLocal q => exact Function.update_self _ _ _
    | removeLocalDirectory q => exact Function.update_self _ _ _
    | createLocalDirectory q => exact absurd hno (by simp [Action.makesLocal])
    | download q => exact absurd hno (by simp [Action.makesLocal])
    | keepBoth q c => exact absurd hno (by simp [Action.makesLocal])
    | setAside q c => exact absurd hno (by simp [Action.makesLocal])
    | _ => exact ht
  · refine frame_disk_none hsub ht (fun hm => (hmade b hb hm).2.1) fun hc => ?_
    have hm : b.makesLocal = true := by
      cases b with
      | keepBoth q c => rfl
      | setAside q c => rfl
      | _ => exact absurd hc (by simp [Action.copy])
    exact (hmade b hb hm).2.2 hc

/-- Nothing comes to stand on the server where nothing is made there. -/
theorem absent_there (hs : s.server p = none)
    (hmade : ∀ b ∈ ran, b.makesRemote = true →
      b.subject ≠ p ∧ b.subject.isInside p = false ∧ b.copy ≠ some p) :
    E.outcome.server p = none := by
  refine E.invariant (fun t => t.server p = none) (fun b hb t hen ht => ?_) hs
  by_cases hsub : b.subject = p
  · have hno : b.makesRemote = false := by
      rw [← Bool.not_eq_true]
      exact fun hm => (hmade b hb hm).1 hsub
    subst hsub
    cases b with
    | createRemoteDirectory q => exact absurd hno (by simp [Action.makesRemote])
    | upload q => exact absurd hno (by simp [Action.makesRemote])
    | keepBoth q c => exact absurd hno (by simp [Action.makesRemote])
    | deleteRemote q =>
      show cut q t.server q = none
      simp [cut, atOrInside]
    | removeRemoteDirectory q =>
      show cut q t.server q = none
      simp [cut, atOrInside]
    | _ => exact ht
  · refine frame_server_none hsub ht (fun q c e => ?_) (fun hm => (hmade b hb hm).2.1) fun q e => ?_
    · subst e
      exact (E.planned hb).copy_beside rfl
    · subst e
      exact (hmade _ hb rfl).2.2 rfl

include W

/-- What the folder holds stays, where only the server is written. -/
theorem stays_here (hl : localSide.get p = some e)
    (hsub : ∀ b ∈ ran, b.subject = p → b = .upload p ∨ b = .createRemoteDirectory p) :
    E.outcome.disk p = some e := by
  refine E.invariant (fun t => t.disk p = some e) (fun b hb t hen ht => ?_) (E.onDisk p e hl)
  by_cases hbp : b.subject = p
  · rcases hsub b hb hbp with rfl | rfl
    · exact ht
    · exact ht
  · refine frame_disk_some hen hbp ht (Or.inl fun hc => ?_)
    obtain ⟨-, -, hn, -⟩ := W.copy_spec (E.mem hb) hc
    rw [hn] at hl
    exact absurd hl (by simp)

omit W in
/-- What the server holds stays, where only the folder is written. -/
theorem stays_there (hr : remote.get p = some e)
    (hp : localSide.get p ≠ none ∨ base.get p ≠ some e)
    (hsub : ∀ b ∈ ran, b.subject = p → b = .download p ∨ b = .createLocalDirectory p) :
    E.outcome.server p = some e := by
  refine E.invariant (fun t => t.server p = some e) (fun b hb t hen ht => ?_) (E.onServer p e hr)
  by_cases hbp : b.subject = p
  · rcases hsub b hb hbp with rfl | rfl
    · exact ht
    · exact ht
  · exact E.keep_server hb hbp hen ht (hp.imp_right fun hb => ⟨e, hr, hb⟩)

omit W in
/-- What is brought here inside a directory brings the directory. -/
theorem made_here {a : Action} (ha : a ∈ ran) (hm : a.makesLocal = true)
    (hin : a.subject.isInside p = true) (hsub : ∀ b ∈ ran, b.subject ≠ p) :
    E.outcome.disk p = some .directory :=
  E.split (fun _ => True) (fun t => t.disk p = some .directory) ha (fun _ _ _ _ _ _ => trivial)
    (fun t _ _ => by rw [disk_of_ne (hsub a ha), if_pos ⟨hm, hin⟩])
    (fun b hb _ t hen ht => frame_disk_some hen (hsub b hb) ht (Or.inr rfl)) trivial

/-- What is sent inside a directory the server does not have brings the directory there. -/
theorem made_there {a : Action} (ha : a ∈ ran) (hm : a.makesRemote = true)
    (hin : a.subject.isInside p = true) (hl : localSide.get p = some .directory)
    (hr : remote.get p = none) (hsub : ∀ b ∈ ran, b.subject ≠ p) :
    E.outcome.server p = some .directory := by
  refine E.split (fun _ => True) (fun t => t.server p = some .directory) ha
    (fun _ _ _ _ _ _ => trivial) (fun t hen _ => ?_)
    (fun b hb _ t hen ht => E.keep_server hb (hsub b hb) hen ht (Or.inl (by simp [hl]))) trivial
  have hnone : remote.get a.subject = none :=
    E.remoteTree.none_inside (d := p) (by simp [hr]) hin
  rw [server_of_ne (hsub a ha)]
  cases a with
  | createRemoteDirectory q => exact if_pos hin
  | upload q =>
    have hq : remote.get q = none := hnone
    rcases hen.2 with ⟨_, _, _, hlisted, -⟩ | ⟨-, hs, -⟩
    · rw [hq] at hlisted
      exact absurd hlisted (by simp)
    · exact if_pos ⟨hs, hin⟩
  | keepBoth q c =>
    obtain ⟨⟨_, _, _, _, -, hlisted⟩, -⟩ := (W.plan _).mp (E.mem ha)
    have hq : remote.get q = none := hnone
    rw [hq] at hlisted
    exact absurd hlisted (by simp)
  | _ => exact absurd hm (by simp [Action.makesRemote])

/-- **A conflict's copy** stands on both sides. -/
theorem copied {q : RelPath} (ha : .keepBoth q p ∈ ran) :
    E.outcome.disk p = localSide.get q ∧ E.outcome.server p = localSide.get q := by
  have hw := (W.plan _).mp (E.mem ha)
  obtain ⟨tag, size, t', n', hlq, hrq⟩ := hw.1
  obtain ⟨hl, hr⟩ := W.fresh q p hw
  have hpar : p.parent = q.parent := (E.planned ha).copy_beside rfl
  have hqp : q ≠ p := by
    rintro rfl
    rw [hl] at hlq
    exact absurd hlq (by simp)
  have hno : q.isInside p = false := (isInside_congr hpar).symm.trans (not_isInside_self p)
  -- The only other action at the copy's name forgets it.
  have hforget : ∀ b ∈ ran, b.subject = p → b = .forget p := by
    intro b hb hsub
    rcases subject_listed (E.planned hb) with ⟨e, he⟩ | ⟨e, he⟩ | he
    · rw [hsub, hl] at he
      exact absurd he (by simp)
    · rw [hsub, hr] at he
      exact absurd he (by simp)
    · rwa [hsub] at he
  rw [hlq]
  refine E.split (fun t => t.disk q = some (.file tag size))
    (fun t => t.disk p = some (.file tag size) ∧ t.server p = some (.file tag size)) ha
    (fun b hb hord t hen ht => frame_disk_some hen hord.1 ht (Or.inl fun hc => ?_))
    (fun t hen ht => ?_) (fun b hb hord t hen ht => ?_) (E.onDisk _ _ hlq)
  · obtain ⟨-, -, hn, -⟩ := W.copy_spec (E.mem hb) hc
    rw [hn] at hlq
    exact absurd hlq (by simp)
  · refine ⟨?_, ?_⟩
    · rw [disk_of_ne (a := .keepBoth q p) hqp]
      simp [Action.subject, Action.copy, hno, ht]
    · rw [server_of_ne (a := .keepBoth q p) hqp]
      simp [ht]
  · by_cases hsub : b.subject = p
    · rw [hforget b hb hsub]
      exact ht
    · refine ⟨frame_disk_some hen hsub ht.1 (Or.inl fun hc => ?_),
        frame_server_some hen hsub ht.2 fun hrem => ?_⟩
      · obtain ⟨x, rfl, -⟩ := W.copy_spec (E.mem hb) hc
        exact hord.1 (W.apart q x p hw ((W.plan _).mp (E.mem hb)))
      · -- A directory above the copy is above the conflict's path too, and stands in the folder.
        rw [← Bool.not_eq_true]
        intro hin
        have hgone := ((E.planned hb).removed_above E.localTree E.remoteTree hrem
          ((isInside_congr hpar).symm.trans hin)).1
        rw [hgone] at hlq
        exact absurd hlq (by simp)

/-! ### Directories the server no longer has -/

/-- What a removal that ran took away had nothing in it to send. -/
theorem not_sent_of_removed (hr : remote.get p = none)
    (ha : .removeLocalDirectory p ∈ ran) {b : Action} (hb : b ∈ ran) (hm : b.makesRemote = true) :
    b.subject.isInside p = false := by
  rw [← Bool.not_eq_true]
  intro hin
  have hw := (W.plan b).mp (E.mem hb)
  obtain ⟨e, he⟩ := (E.planned hb).scanned hm
  have hone : ∀ b' ∈ ran, b'.subject = b.subject → b' = b := fun b' hb' hsub =>
    eq_of_warranted_of_subject ((W.plan b').mp (E.mem hb')) hw hsub
  -- Its own action apart, nothing changes it here before the removal, which then fails.
  refine E.split (fun t => t.disk b.subject = some e) (fun _ => False) ha
    (fun b' hb' hord t hen ht => ?_) (fun t hen ht => ?_) (fun _ _ _ _ _ ht => ht)
    (E.onDisk _ _ he)
  · by_cases hsub : b'.subject = b.subject
    · rw [hone b' hb' hsub]
      have hnone : remote.get b.subject = none :=
        E.remoteTree.none_inside (d := p) (by simp [hr]) hin
      cases b with
      | createRemoteDirectory q => exact ht
      | upload q => exact ht
      | keepBoth q c =>
        obtain ⟨⟨_, _, _, _, -, hlisted⟩, -⟩ := hw
        have hq : remote.get q = none := hnone
        rw [hq] at hlisted
        exact absurd hlisted (by simp)
      | _ => exact absurd hm (by simp [Action.makesRemote])
    · refine frame_disk_some hen hsub ht (Or.inl fun hc => ?_)
      obtain ⟨-, -, hn, -⟩ := W.copy_spec (E.mem hb') hc
      rw [hn] at he
      exact absurd he (by simp)
  · rw [hen.2 _ hin] at ht
    exact absurd ht (by simp)

end Execution

section Attempted

variable {h : Held} {localSide remote base : Snapshot} {now : DateTime}
  {scanned : RelPath → Option Entry} {ran : List Action} {s : Sides} {p : RelPath}

/-- What the loop left of a plan is an execution. -/
theorem Attempts.execution (A : Attempts scanned remote.get (acts h localSide remote base now) ran s)
    (hL : localSide.TreeShaped) (hR : remote.TreeShaped)
    (hscan : ∀ q e, localSide.get q = some e → scanned q = some e)
    (hd : ∀ q e, localSide.get q = some e → s.disk q = some e)
    (hs : ∀ q e, remote.get q = some e → s.server q = some e) :
    Execution h localSide remote base now scanned ran s :=
  ⟨hL, hR, A.sublist, A.enabled, hscan, hd, hs⟩

/-- No path of a tree is longer than the longest. -/
theorem length_le_of_get {m : Snapshot} {d : RelPath} {e : Entry} (hd : m.get d = some e) :
    d.str.length ≤ (m.keys.map fun q => q.str.length).foldr max 0 := by
  have hmem : d ∈ m.keys := OrdMap.mem_keys_iff.mpr ⟨e, hd⟩
  generalize m.keys = ks at hmem ⊢
  induction ks with
  | nil => exact absurd hmem List.not_mem_nil
  | cons q qs ih =>
    rw [List.map_cons, List.foldr_cons]
    rcases List.mem_cons.mp hmem with rfl | hq
    · exact le_max_left _ _
    · exact (ih hq).trans (le_max_right _ _)

/-- **A directory whose removal failed has something in it that is sent**, for what is not sent or
made here was gone by then: deepest first. -/
theorem sent_of_full (W : Whole h localSide remote base now)
    (A : Attempts scanned remote.get (acts h localSide remote base now) ran s)
    (E : Execution h localSide remote base now scanned ran s)
    (habsent : ∀ q, localSide.get q = none → s.disk q = none) {d : RelPath}
    (hw : Warranted localSide remote base now (.removeLocalDirectory d))
    (hno : .removeLocalDirectory d ∉ ran) :
    ∃ a ∈ ran, a.makesRemote = true ∧ a.subject.isInside d = true := by
  obtain ⟨hld, hrd, -⟩ := id hw
  induction hn : (localSide.keys.map fun q => q.str.length).foldr max 0 - d.str.length
    using Nat.strong_induction_on generalizing d with
  | _ n ih =>
  by_contra hnone
  push Not at hnone
  obtain ⟨pre, post, before, after, hsplit, hran, hafter, hpre, hfull⟩ :=
    A.skipped ((W.plan _).mpr hw) hno
  have hord : (pre ++ .removeLocalDirectory d :: post).Pairwise Action.Precedes :=
    hsplit ▸ Execution.ordered
  obtain ⟨-, hpost, -⟩ := List.pairwise_append.mp hord
  have hlater := (List.pairwise_cons.mp hpost).1
  have hbefore : ∀ b ∈ before, b ∈ ran := fun b hb => hran ▸ List.mem_append_left _ hb
  have hpart : before.Sublist (acts h localSide remote base now) :=
    (hran ▸ List.sublist_append_left before after : before.Sublist ran).trans E.part
  have Epre : Execution h localSide remote base now scanned before s :=
    ⟨E.localTree, E.remoteTree, hpart, hpre.enabled, E.scanned, E.onDisk, E.onServer⟩
  have hout : Epre.outcome = run scanned remote.get before s := by
    unfold Execution.outcome
    rfl
  rw [← hout] at hfull
  -- An action planned before the removal ran before it.
  have hin_pre : ∀ a, Warranted localSide remote base now a → a.subject ≠ d →
      ¬(Action.removeLocalDirectory d).Precedes a → a ∈ pre := by
    intro a ha hsub hnot
    have hmem := (W.plan a).mpr ha
    rw [hsplit] at hmem
    rcases List.mem_append.mp hmem with hp | hp
    · exact hp
    · rcases List.mem_cons.mp hp with rfl | hp
      · exact absurd rfl hsub
      · exact absurd (hlater a hp) hnot
  have hdir : Epre.outcome.disk d = some .directory := by
    refine Epre.stays_here W hld fun b hb hsub => ?_
    have hb' := hbefore b hb
    obtain rfl := eq_of_warranted_of_subject ((W.plan b).mp (E.mem hb')) hw hsub
    exact absurd hb' hno
  obtain ⟨q, hqd, hq⟩ := hfull.resolve_left (fun hne => hne hdir)
  have hrq : remote.get q = none := E.remoteTree.none_inside (d := d) (by simp [hrd]) hqd
  have hqne : q ≠ d := ne_of_isInside hqd
  rcases hlq : localSide.get q with _ | (_ | ⟨t, n⟩)
  · -- Absent from the folder: nothing brings it here.
    refine hq (Epre.absent_here (habsent q hlq) fun b hb hm => ⟨?_, ?_, fun hc => ?_⟩)
    · rintro rfl
      obtain ⟨e, he⟩ := (Epre.planned hb).listed hm
      rw [hrq] at he
      exact absurd he (by simp)
    · exact (Epre.planned hb).not_made_locally E.remoteTree (by simp [hrq]) hm
    · obtain ⟨x, rfl, -⟩ := W.copy_spec (Epre.mem hb) hc
      have hpar : q.parent = x.parent := (Epre.planned hb).copy_beside rfl
      have hrx : remote.get x = none :=
        E.remoteTree.none_inside (d := d) (by simp [hrd]) ((isInside_congr hpar).symm.trans hqd)
      obtain ⟨⟨_, _, _, _, -, hlisted⟩, -⟩ := (W.plan _).mp (Epre.mem hb)
      rw [hrx] at hlisted
      exact absurd hlisted (by simp)
  · by_cases hb : base.get q = none
    · have hc : Warranted localSide remote base now (.createRemoteDirectory q) := ⟨hlq, hrq, hb⟩
      exact hnone _ (A.mem ((W.plan _).mpr hc) (fun _ h => by cases h)) rfl hqd
    · -- A directory deeper down: removed before, or full itself.
      have hwq : Warranted localSide remote base now (.removeLocalDirectory q) := ⟨hlq, hrq, hb⟩
      have hnot : ¬(Action.removeLocalDirectory d).Precedes (.removeLocalDirectory q) := by
        rintro ⟨-, hlt | ⟨-, hlt⟩⟩
        · exact lt_irrefl _ hlt
        · exact lt_asymm (lt_of_isInside hqd) hlt
      by_cases hmem : .removeLocalDirectory q ∈ before
      · exact hq (Epre.settles_deleted hmem (Or.inr rfl) hrq).1
      · have hqran : .removeLocalDirectory q ∉ ran := by
          rw [hran]
          intro hm
          rcases List.mem_append.mp hm with hm | hm
          · exact hmem hm
          · exact hnot (hlater _ (hafter.subset hm))
        have hlen := length_lt_of_isInside hqd
        have hmax := length_le_of_get hlq
        obtain ⟨a, ha, hm, hin⟩ := ih _ (by omega) hwq hqran hlq hrq rfl
        exact hnone a ha hm (isInside_trans hin hqd)
  · by_cases hb : base.get q = some (.file t n)
    · have hwq : Warranted localSide remote base now (.deleteLocal q) :=
        ⟨t, n, hlq, hrq, hb.trans hlq.symm⟩
      have hp := hin_pre _ hwq hqne (by
        rintro ⟨-, hlt | ⟨heq, -⟩⟩
        · simp [Action.slot, Slot.rank] at hlt
        · cases heq)
      exact hq (Epre.settles_deleted (hpre.mem hp (fun _ h => by cases h)) (Or.inl rfl) hrq).1
    · have hc : Warranted localSide remote base now (.upload q) := ⟨t, n, hlq, Or.inl ⟨hrq, hb⟩⟩
      exact hnone _ (A.mem ((W.plan _).mpr hc) (fun _ h => by cases h)) rfl hqd

end Attempted

end Stashden.Sync
