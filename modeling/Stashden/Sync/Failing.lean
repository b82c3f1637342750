import Stashden.Sync.Attempts

/-!
# What fails, and what a failed removal leaves

`failsWith_apply`: only the removal of a directory fails with the reason of one. On a disk without
hidden names, which every action that succeeds keeps (`apply_clear`), a removal that fails changes
nothing, and its directory is not there or not empty (`removal_error`). `attempts_of_loop` puts the
two together, for a loop whose report names no other failure.
-/

namespace Stashden.Sync

open Lib Stashden.Core RelPath EngineM

/-! ## Reasons -/

namespace EngineM

variable {α β : Type} {P : Reason → Prop}

/-- Whatever a step fails with has a property. -/
def FailsWith (P : Reason → Prop) (x : EngineM α) : Prop := ∀ w r w', x w = .error r w' → P r

theorem FailsWith.bind {x : EngineM α} {k : α → EngineM β} (hx : FailsWith P x)
    (hk : ∀ a, FailsWith P (k a)) : FailsWith P (x >>= k) := by
  intro w r w' h
  change EStateM.bind x k w = _ at h
  unfold EStateM.bind at h
  cases hr : x w with
  | ok a w₁ =>
    rw [hr] at h
    exact hk a w₁ r w' h
  | error r₁ w₁ =>
    rw [hr] at h
    cases h
    exact hx w r w' hr

theorem failsWith_onDisk {call : Snapshot → Except Reason Snapshot}
    (h : ∀ d r, call d = .error r → P r) : FailsWith P (onDisk call) := by
  intro w r w' hw
  unfold onDisk at hw
  cases hc : call w.disk with
  | ok d =>
    rw [hc] at hw
    cases hw
  | error e =>
    rw [hc] at hw
    cases hw
    exact h w.disk r hc

theorem failsWith_onServer {call : Server → Except TransportError Server}
    (h : ∀ e, P (.transport e)) : FailsWith P (onServer call) := by
  intro w r w' hw
  unfold onServer at hw
  cases hc : call w.server with
  | ok d =>
    rw [hc] at hw
    cases hw
  | error e =>
    rw [hc] at hw
    cases hw
    exact h e

theorem failsWith_onState {g : SyncState → SyncState} : FailsWith P (onState g) :=
  fun _ _ _ h => nomatch h

theorem failsWith_onReport {g : Report → Report} : FailsWith P (onReport g) :=
  fun _ _ _ h => nomatch h

theorem failsWith_orFail {reason : Reason} {o : Option α} (h : P reason) :
    FailsWith P (orFail reason o) := by
  intro w r w' hw
  cases o with
  | none =>
    cases hw
    exact h
  | some a => cases hw

theorem failsWith_readFile {reason : Reason} {file : World → Option Entry} (h : P reason) :
    FailsWith P (readFile reason file) := by
  intro w r w' hw
  unfold readFile at hw
  split at hw
  · cases hw
  · cases hw
    exact h

end EngineM

section Loop

variable {u : Unicode} {pass : Pass} {remote : Snapshot} {w w' : World} {p : RelPath}

theorem createDirAll_error {disk : Snapshot} {r : Reason}
    (h : createDirAll p disk = .error r) : r = .creating p := by
  unfold createDirAll at h
  split at h
  · cases h
  · cases h
    rfl

theorem createParents_error {disk : Snapshot} {r : Reason}
    (h : createParents p disk = .error r) : ∃ d, r = .creating d := by
  unfold createParents at h
  split at h
  · exact ⟨_, createDirAll_error h⟩
  · cases h

theorem renameFile_error {src dst : RelPath} {disk : Snapshot} {reason r : Reason}
    (h : renameFile reason src dst disk = .error r) : r = reason := by
  unfold renameFile at h
  split at h
  · split_ifs at h
    cases h
    rfl
  · cases h
    rfl

theorem removeFile_error {disk : Snapshot} {r : Reason}
    (h : removeFile p disk = .error r) : r = .deleting p := by
  unfold removeFile at h
  split at h
  · cases h
  · cases h
  · cases h
    rfl

/-- A reason other than that of a directory that could not be removed. -/
def Reason.Other (r : Reason) : Prop := ∀ d, r ≠ .removing d

theorem failsWith_uploadFrom {source : RelPath} {expect : Expect} :
    FailsWith Reason.Other (uploadFrom p source expect) :=
  (failsWith_readFile fun _ => nofun).bind fun _ => failsWith_onServer fun _ _ => nofun

theorem failsWith_download : FailsWith Reason.Other (download pass remote p) := by
  refine (failsWith_orFail fun _ => nofun).bind fun _ => (failsWith_onDisk fun d r h => ?_).bind
    fun _ => (failsWith_orFail fun _ => nofun).bind fun staged =>
      ((failsWith_readFile fun _ => nofun).bind fun _ => failsWith_onDisk fun d r h => ?_).bind
        fun _ => (failsWith_onDisk fun d r h => ?_).bind fun _ => failsWith_onState
  · obtain ⟨d, rfl⟩ := createParents_error h
    exact fun _ => nofun
  · split_ifs at h
    cases h
    exact fun _ => nofun
  · rw [renameFile_error h]
    exact fun _ => nofun

/-- **Only the removal of a directory fails as one.** -/
theorem failsWith_apply {a : Action} (ha : ∀ d, a ≠ .removeLocalDirectory d) :
    FailsWith Reason.Other (apply u pass remote a) := by
  have hremote : ∀ {call}, FailsWith Reason.Other (onServer call) :=
    failsWith_onServer fun _ _ => nofun
  cases a with
  | createLocalDirectory p =>
    refine (failsWith_onDisk fun d r h => ?_).bind fun _ =>
      failsWith_onState.bind fun _ => failsWith_onReport
    rw [createDirAll_error h]
    exact fun _ => nofun
  | createRemoteDirectory p =>
    exact hremote.bind fun _ => failsWith_onState.bind fun _ => failsWith_onReport
  | removeLocalDirectory p => exact absurd rfl (ha p)
  | download p => exact failsWith_download.bind fun _ => failsWith_onReport
  | upload p =>
    exact ((failsWith_orFail fun _ => nofun).bind fun _ => failsWith_uploadFrom.bind fun _ =>
      failsWith_onState).bind fun _ => failsWith_onReport
  | deleteLocal p =>
    refine (failsWith_onDisk fun d r h => ?_).bind fun _ =>
      failsWith_onState.bind fun _ => failsWith_onReport
    rw [removeFile_error h]
    exact fun _ => nofun
  | deleteRemote p =>
    exact hremote.bind fun _ => failsWith_onState.bind fun _ => failsWith_onReport
  | removeRemoteDirectory p =>
    exact hremote.bind fun _ => failsWith_onState.bind fun _ => failsWith_onReport
  | forget p => exact failsWith_onState (g := fun s => s.forget p)
  | keepBoth p c =>
    refine (failsWith_onDisk fun d r h => ?_).bind fun _ => (failsWith_orFail fun _ => nofun).bind
      fun _ => failsWith_uploadFrom.bind fun _ => failsWith_onState.bind fun _ =>
        failsWith_download.bind fun _ => failsWith_onReport
    rw [renameFile_error h]
    exact fun _ => nofun
  | setAside p c =>
    refine (failsWith_onDisk fun d r h => ?_).bind fun _ => failsWith_onState.bind fun _ =>
      failsWith_download.bind fun _ => failsWith_onReport
    rw [renameFile_error h]
    exact fun _ => nofun

/-! ## Hidden names -/

/-- No hidden name on the disk. -/
def World.Clear (u : Unicode) (w : World) : Prop := ∀ q, hides u q = true → w.disk.get q = none

theorem renameFile_clear {reason : Reason} {src dst : RelPath} {disk disk' : Snapshot}
    (hdst : hides u dst = false) (h : renameFile reason src dst disk = .ok disk')
    (hc : ∀ q, hides u q = true → q ≠ src → disk.get q = none) {q : RelPath}
    (hq : hides u q = true) : disk'.get q = none := by
  obtain ⟨t, n, -, -, hget⟩ := renameFile_ok h
  have hne : q ≠ dst := fun e => by
    rw [e, hdst] at hq
    exact absurd hq (by simp)
  rw [hget, if_neg hne]
  split_ifs with hs
  · rfl
  · exact hc q hq hs

theorem download_clear {x : Unit} (hp : hides u p = false) (hc : w.Clear u)
    (h : download pass remote p w = .ok x w') : w'.Clear u := by
  simp only [download, downloadTo, ok_bind, ok_orFail, ok_onDisk, ok_readFile, ok_onState] at h
  obtain ⟨e, _, ⟨-, rfl⟩, -, _, ⟨d₁, hd₁, rfl⟩, staged, _, ⟨-, rfl⟩, -, _,
    ⟨⟨t, n⟩, _, ⟨-, rfl⟩, d₂, hd₂, rfl⟩, -, _, ⟨d₃, hd₃, rfl⟩, rfl⟩ := h
  split_ifs at hd₂
  cases hd₂
  intro q hq
  refine renameFile_clear hp hd₃ (fun x hx hne => ?_) hq
  rw [OrdMap.get_insert_of_ne _ _ hne, (createParents_ok hd₁ x).1, if_neg fun hin => ?_]
  · exact hc x hx
  · rw [not_hides_above hin hp] at hx
    exact absurd hx (by simp)

/-- An action that succeeds leaves no hidden name on a disk that had none. -/
theorem apply_clear {a : Action} {x : Unit} (ha : a.Seen u) (hc : w.Clear u)
    (h : apply u pass remote a w = .ok x w') : w'.Clear u := by
  cases a with
  | createLocalDirectory p =>
    simp only [apply, ok_bind, ok_onDisk, ok_onState, ok_onReport] at h
    obtain ⟨-, _, ⟨d, hd, rfl⟩, -, _, rfl, rfl⟩ := h
    have hp : hides u p = false := ha
    intro q hq
    refine ((createDirAll_ok hd q).1.trans (if_neg ?_)).trans (hc q hq)
    rintro (rfl | hin)
    · rw [hp] at hq
      exact absurd hq (by simp)
    · rw [not_hides_above hin hp] at hq
      exact absurd hq (by simp)
  | createRemoteDirectory p =>
    simp only [apply, ok_bind, ok_onServer, ok_onState, ok_onReport] at h
    obtain ⟨-, _, ⟨_, -, rfl⟩, -, _, rfl, rfl⟩ := h
    exact hc
  | removeLocalDirectory p =>
    simp only [apply, ok_bind, ok_onDisk, ok_onState, ok_onReport] at h
    obtain ⟨-, _, ⟨d₁, hd₁, rfl⟩, -, _, ⟨d₂, hd₂, rfl⟩, -, _, rfl, rfl⟩ := h
    unfold removeIgnored at hd₁
    split_ifs at hd₁
    cases hd₁
    intro q hq
    refine ((removeEmpty_ok hd₂).2 q).trans ?_
    split_ifs
    · rfl
    · rw [OrdMap.get_retain, hc q hq]
      split_ifs <;> rfl
  | download p =>
    simp only [apply, ok_bind, ok_onReport] at h
    obtain ⟨_, w₁, hd, rfl⟩ := h
    have hclear := download_clear ha hc hd
    exact hclear
  | upload p =>
    simp only [apply, upload, uploadFrom, ok_bind, ok_orFail, ok_readFile, ok_onServer, ok_onState,
      ok_onReport] at h
    obtain ⟨_, _, ⟨_, _, ⟨-, rfl⟩, _, _, ⟨_, _, ⟨-, rfl⟩, _, -, rfl⟩, rfl⟩, rfl⟩ := h
    exact hc
  | deleteLocal p =>
    simp only [apply, ok_bind, ok_onDisk, ok_onState, ok_onReport] at h
    obtain ⟨-, _, ⟨d, hd, rfl⟩, -, _, rfl, rfl⟩ := h
    intro q hq
    refine ((removeFile_ok hd).2 q).trans ?_
    split_ifs
    · rfl
    · exact hc q hq
  | deleteRemote p =>
    simp only [apply, ok_bind, ok_onServer, ok_onState, ok_onReport] at h
    obtain ⟨-, _, ⟨_, -, rfl⟩, -, _, rfl, rfl⟩ := h
    exact hc
  | removeRemoteDirectory p =>
    simp only [apply, ok_bind, ok_onServer, ok_onState, ok_onReport] at h
    obtain ⟨-, _, ⟨_, -, rfl⟩, -, _, rfl, rfl⟩ := h
    exact hc
  | forget p =>
    simp only [apply, ok_onState] at h
    subst h
    exact hc
  | keepBoth p c =>
    simp only [apply, uploadFrom, ok_bind, ok_orFail, ok_onDisk, ok_readFile, ok_onServer,
      ok_onState, ok_onReport] at h
    obtain ⟨-, _, ⟨d, hd, rfl⟩, _, _, ⟨-, rfl⟩, _, _, ⟨_, _, ⟨-, rfl⟩, _, -, rfl⟩, -, _, rfl, _,
      w₃, hdown, hrep⟩ := h
    obtain ⟨hp, hcopy⟩ := ha
    rw [hrep]
    have hclear := download_clear hp
      (fun q hq => renameFile_clear hcopy hd (fun x hx _ => hc x hx) hq) hdown
    exact hclear
  | setAside p c =>
    simp only [apply, ok_bind, ok_onDisk, ok_onState, ok_onReport] at h
    obtain ⟨-, _, ⟨d, hd, rfl⟩, -, _, rfl, _, w₂, hdown, hrep⟩ := h
    obtain ⟨hp, hcopy⟩ := ha
    rw [hrep]
    have hclear := download_clear hp
      (fun q hq => renameFile_clear hcopy hd (fun x hx _ => hc x hx) hq) hdown
    exact hclear

/-! ## The loop -/

/-- **A directory that could not be removed** is not there or not empty, and nothing changed. -/
theorem removal_error {r : Reason} (hp : hides u p = false) (hc : w.Clear u)
    (h : apply u pass remote (.removeLocalDirectory p) w = .error r w') :
    ((w.sides u).disk p ≠ some .directory ∨
        ∃ q, q.isInside p = true ∧ (w.sides u).disk q ≠ none) ∧
      w'.sides u = w.sides u ∧ w'.Clear u ∧ w'.report = w.report := by
  change EStateM.bind (onDisk (removeIgnored u p)) _ w = _ at h
  unfold EStateM.bind onDisk at h
  by_cases hdir : w.disk.get p = some .directory
  · simp only [removeIgnored, if_pos hdir] at h
    generalize hd₁ : w.disk.retain _ = d₁ at h
    have hsame : ∀ q, d₁.get q = w.disk.get q := by
      intro q
      rw [← hd₁, OrdMap.get_retain]
      split_ifs with hkeep
      · rfl
      · by_cases hq : hides u q = true
        · exact (hc q hq).symm
        · have hname : isIgnored u q.fileName = false :=
            hides_eq_false_iff.mp (by simpa using hq) _ (mem_segments_iff.mpr (Or.inl rfl))
          simp [hname] at hkeep
    change EStateM.bind (onDisk (removeEmpty p)) _ { w with disk := d₁ } = _ at h
    unfold EStateM.bind onDisk removeEmpty at h
    by_cases hempty : d₁.get p = some .directory ∧ ∀ q ∈ d₁.keys, q.isInside p = false
    · simp only [if_pos hempty] at h
      cases h
    · simp only [if_neg hempty] at h
      cases h
      refine ⟨Or.inr ?_, Sides.ext (funext fun q => ?_) rfl rfl, fun q hq => ?_, rfl⟩
      · by_contra hno
        push Not at hno
        refine hempty ⟨(hsame p).trans hdir, fun q hq => ?_⟩
        obtain ⟨e, he⟩ := OrdMap.mem_keys_iff.mp hq
        rw [hsame] at he
        rw [← Bool.not_eq_true]
        intro hin
        have hvis : hides u q = false := by
          rw [← Bool.not_eq_true]
          intro hh
          rw [hc q hh] at he
          exact absurd he (by simp)
        have hnone := hno q hin
        rw [sides_disk hvis, he] at hnone
        exact absurd hnone (by simp)
      · show (if hides u q then none else d₁.get q) = if hides u q then none else w.disk.get q
        rw [hsame]
      · exact (hsame q).trans (hc q hq)
  · simp only [removeIgnored, if_neg hdir] at h
    cases h
    exact ⟨Or.inl (by rw [sides_disk hp]; exact hdir), rfl, hc, rfl⟩

/-- **A loop in which only removals of directories failed** is an attempt at its actions. -/
theorem attempts_of_loop {acts : List Action} (hseen : ∀ a ∈ acts, a.Seen u) (hc : w.Clear u)
    (h : ∀ f ∈ (runActions u pass remote acts w).report.failures, ∃ d, f.reason = .removing d) :
    ∃ ran, Attempts pass.scan.snapshot.get remote.get acts ran (w.sides u) ∧
      (runActions u pass remote acts w).sides u =
        run pass.scan.snapshot.get remote.get ran (w.sides u) ∧
      (runActions u pass remote acts w).Clear u := by
  induction acts generalizing w with
  | nil => exact ⟨[], .nil _, rfl, hc⟩
  | cons a acts ih =>
    have hrest : ∀ f ∈ (runActions u pass remote acts (runAction u pass remote a w)).report.failures,
        ∃ d, f.reason = .removing d := h
    have hseen' : ∀ b ∈ acts, b.Seen u := fun b hb => hseen b (List.mem_cons_of_mem a hb)
    have ha := hseen a List.mem_cons_self
    show ∃ ran, _ ∧ (runActions u pass remote acts (runAction u pass remote a w)).sides u = _ ∧
      (runActions u pass remote acts (runAction u pass remote a w)).Clear u
    cases hr : apply u pass remote a w with
    | ok x w₁ =>
      have hstep : runAction u pass remote a w = w₁ := by rw [runAction, hr]
      obtain ⟨hen, heff⟩ := apply_ok ha hr
      rw [hstep] at hrest ⊢
      obtain ⟨ran, hatt, hrun, hclear⟩ := ih hseen' (apply_clear ha hc hr) hrest
      rw [heff] at hatt hrun
      exact ⟨a :: ran, .done hen hatt, hrun, hclear⟩
    | error r w₁ =>
      obtain ⟨d, hd⟩ : ∃ d, r = .removing d := by
        have hgrown : ∃ more,
            (runActions u pass remote acts (runAction u pass remote a w)).report.failures =
            (runAction u pass remote a w).report.failures ++ more := failures_runActions acts
        obtain ⟨more, hmore⟩ := hgrown
        refine hrest ⟨a.subject, r⟩ ?_
        rw [hmore, runAction, hr]
        simp
      obtain ⟨p, rfl⟩ : ∃ p, a = .removeLocalDirectory p := by
        by_contra hno
        push Not at hno
        exact failsWith_apply hno w r w₁ hr d hd
      obtain ⟨hfull, hsides, hclear, -⟩ := removal_error ha hc hr
      have hstep : (runAction u pass remote (.removeLocalDirectory p) w).sides u = w.sides u := by
        rw [runAction, hr]
        exact hsides
      have hclear' : (runAction u pass remote (.removeLocalDirectory p) w).Clear u := by
        rw [runAction, hr]
        exact hclear
      obtain ⟨ran, hatt, hrun, hclear₂⟩ := ih hseen' hclear' hrest
      rw [hstep] at hatt hrun
      exact ⟨ran, .full hfull hatt, hrun, hclear₂⟩

end Loop

end Stashden.Sync
