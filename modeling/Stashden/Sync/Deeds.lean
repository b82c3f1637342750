import Stashden.Sync.Edits

/-!
# The deeds of an action

What the loop is about to do, while the user works: `Makes` lists the calls an action may come to,
`dangers` the paths whose files its deeds fall on without having moved or read them first.

* `dangers_deeds`: only a download or a deletion comes upon a file so.
* `server_perform`, `server_stands`: what a call leaves of the server.
-/

namespace Stashden.Sync

open Lib Stashden.Core RelPath EngineM

variable {u : Unicode} {pass : Pass} {remote : Snapshot} {w w' : World}
  {p q : RelPath}

/-! ## The deeds of an action -/

/-- The calls an action may make. -/
inductive Makes (pass : Pass) (remote : Snapshot) (a : Action) : Call → Prop
  | fail (reason : Reason) : Makes pass remote a (.fail reason)
  | note (update : Report → Report) : Makes pass remote a (.note update)
  | createDirectories (p : RelPath) : Makes pass remote a (.createDirectories p)
  | createParents (p : RelPath) : Makes pass remote a (.createParents p)
  | fetch {p staged : RelPath} (hstaged : partialOf p = some staged) :
      Makes pass remote a (.fetch p staged)
  | intoPlace {p staged : RelPath} (hstaged : partialOf p = some staged) :
      Makes pass remote a (.rename (.moving p) staged p)
  | aside {copy : RelPath} (hcopy : a.copy = some copy) :
      Makes pass remote a (.rename (.renaming a.subject) a.subject copy)
  | removeFile (p : RelPath) : Makes pass remote a (.removeFile p)
  | removeIgnored (p : RelPath) : Makes pass remote a (.removeIgnored p)
  | removeDirectory (p : RelPath) : Makes pass remote a (.removeDirectory p)
  | send {p : RelPath} {scanned : Scanned} (ha : a = .upload p)
      (hscan : pass.scan.entries.get p = some scanned) :
      Makes pass remote a (.send p p (expectOf remote p))
  | sendCopy {p copy : RelPath} (ha : a = .keepBoth p copy) :
      Makes pass remote a (.send copy copy .absent)
  | makeRemote (p : RelPath) : Makes pass remote a (.makeRemote p)
  | removeRemote (ha : a.removes = true) : Makes pass remote a (.removeRemote a.subject)
  | recordDirectory (p : RelPath) : Makes pass remote a (.record p .directory none)
  | recordScanned {p : RelPath} {scanned : Scanned}
      (hscan : pass.scan.entries.get p = some scanned) :
      Makes pass remote a (.record p scanned.entry scanned.mtimeMs)
  | recordBack (ha : a.fetches = true) (p : RelPath) (entry : Entry) (mtimeMs : Option Int) :
      Makes pass remote a (.record p entry mtimeMs)
  | recordAbove (p : RelPath) : Makes pass remote a (.recordAbove p)
  | forget (p : RelPath) : Makes pass remote a (.forget p)

theorem makes_downloadCalls {a : Action} (hf : a.fetches = true) :
    ∀ c ∈ downloadCalls pass remote p, Makes pass remote a c := by
  unfold downloadCalls
  cases remote.get p with
  | none => exact List.forall_mem_singleton.mpr (.fail _)
  | some entry =>
    cases hs : partialOf p with
    | none =>
      simp only [List.forall_mem_cons, List.not_mem_nil, false_imp_iff, implies_true, and_true]
      exact ⟨.createParents p, .fail _⟩
    | some staged =>
      simp only [List.forall_mem_cons, List.not_mem_nil, false_imp_iff, implies_true, and_true]
      exact ⟨.createParents p, .fetch hs, .intoPlace hs, .recordBack hf _ _ _⟩

theorem makes_calls (a : Action) : ∀ c ∈ calls pass remote a, Makes pass remote a c := by
  cases a with
  | download p =>
    intro c hc
    rcases List.mem_append.mp hc with hc | hc
    · exact makes_downloadCalls rfl c hc
    · obtain rfl := List.mem_singleton.mp hc
      exact .note _
  | upload p =>
    cases hs : pass.scan.entries.get p with
    | none =>
      simp only [calls, uploadCalls, hs, List.cons_append, List.nil_append, List.forall_mem_cons,
        List.not_mem_nil, false_imp_iff, implies_true, and_true]
      exact ⟨.fail _, .note _⟩
    | some scanned =>
      simp only [calls, uploadCalls, hs, List.cons_append, List.nil_append, List.forall_mem_cons,
        List.not_mem_nil, false_imp_iff, implies_true, and_true]
      exact ⟨.send rfl hs, .recordScanned hs, .recordAbove p, .note _⟩
  | keepBoth p copy =>
    cases hs : pass.scan.entries.get p with
    | none =>
      simp only [calls, keepCalls, hs, List.forall_mem_cons, List.not_mem_nil, false_imp_iff,
        implies_true, and_true]
      exact ⟨.aside rfl, .fail _⟩
    | some scanned =>
      simp only [calls, keepCalls, hs, List.forall_mem_cons, List.mem_append, List.mem_singleton]
      refine ⟨.aside rfl, .sendCopy rfl, .recordBack rfl _ _ _, .forget p, ?_⟩
      rintro c (hc | rfl)
      · exact makes_downloadCalls rfl c hc
      · exact .note _
  | setAside p copy =>
    simp only [calls, List.forall_mem_cons, List.mem_append, List.mem_singleton]
    refine ⟨.aside rfl, .forget p, ?_⟩
    rintro c (hc | rfl)
    · exact makes_downloadCalls rfl c hc
    · exact .note _
  | createLocalDirectory p =>
    simp only [calls, List.forall_mem_cons, List.not_mem_nil, false_imp_iff, implies_true, and_true]
    exact ⟨.createDirectories p, .recordDirectory p, .note _⟩
  | createRemoteDirectory p =>
    simp only [calls, List.forall_mem_cons, List.not_mem_nil, false_imp_iff, implies_true, and_true]
    exact ⟨.makeRemote p, .recordDirectory p, .note _⟩
  | removeLocalDirectory p =>
    simp only [calls, List.forall_mem_cons, List.not_mem_nil, false_imp_iff, implies_true, and_true]
    exact ⟨.removeIgnored p, .removeDirectory p, .forget p, .note _⟩
  | deleteLocal p =>
    simp only [calls, List.forall_mem_cons, List.not_mem_nil, false_imp_iff, implies_true, and_true]
    exact ⟨.removeFile p, .forget p, .note _⟩
  | deleteRemote p | removeRemoteDirectory p =>
    simp only [calls, List.forall_mem_cons, List.not_mem_nil, false_imp_iff, implies_true, and_true]
    exact ⟨.removeRemote rfl, .forget p, .note _⟩
  | forget p => exact List.forall_mem_singleton.mpr (.forget p)

/-- A call of a deed is one its action may make, and records no time it did not read. -/
theorem makes_of_mem_deeds {a : Action} {c : Call} (h : .call c ∈ deeds pass remote a) :
    Makes pass remote a c ∧ (a.fetches = true → ∀ p e m, c ≠ .record p e m) := by
  unfold deeds at h
  split_ifs at h with hf
  · obtain ⟨d, hd, he⟩ := List.mem_map.mp h
    unfold Call.timed at he
    split at he
    · cases he
    · rename_i hno
      cases he
      exact ⟨makes_calls a _ hd, fun _ => hno⟩
  · obtain ⟨d, hd, he⟩ := List.mem_map.mp h
    cases he
    exact ⟨makes_calls a _ hd, fun hf' => absurd hf' hf⟩

/-- The deeds of an action depend on the scan alone. -/
theorem deeds_congr {other : Pass} (h : other.scan.entries = pass.scan.entries) (a : Action) :
    deeds other remote a = deeds pass remote a := by
  have hdown : ∀ p, (downloadCalls other remote p).map Call.timed =
      (downloadCalls pass remote p).map Call.timed := by
    intro p
    unfold downloadCalls
    cases remote.get p with
    | none => rfl
    | some entry => cases partialOf p <;> rfl
  cases a with
  | download p => simp only [deeds, Action.fetches, if_true, calls, List.map_append, hdown]
  | setAside p copy =>
    simp only [deeds, Action.fetches, if_true, calls, List.map_cons, List.map_append, hdown]
  | keepBoth p copy =>
    simp only [deeds, Action.fetches, if_true, calls, keepCalls, h]
    cases pass.scan.entries.get p with
    | none => rfl
    | some scanned => simp only [List.map_cons, List.map_append, hdown, Call.timed]
  | upload p =>
    have hup : uploadCalls other remote p = uploadCalls pass remote p := by
      unfold uploadCalls
      rw [h]
    simp only [deeds, Action.fetches, calls, hup]
    rfl
  | _ => rfl

/-! ## Where a deed may fall on a file that stands -/

/-- The paths whose files the deeds replace, delete or read the time of, where a conflict has not
moved the file away first, nor an upload read it. -/
def dangers : List Deed → List RelPath
  | [] => []
  | .call (.rename (.renaming _) source _) :: ds => (dangers ds).filter fun p => decide (p ≠ source)
  | .call (.send p _ _) :: ds => (dangers ds).filter fun q => decide (q ≠ p)
  | .call (.rename _ _ p) :: ds | .call (.removeFile p) :: ds | .readBack p _ :: ds =>
    p :: dangers ds
  | _ :: ds => dangers ds

/-- What follows a conflict's move endangers nothing but the path it moved. -/
def Ordered : List Deed → Prop
  | [] => True
  | d :: ds => (∀ why source target, d = .call (.rename (.renaming why) source target) →
      ∀ q ∈ dangers ds, q = source) ∧ Ordered ds

theorem dangers_downloadCalls (p : RelPath) (update : Report → Report) :
    ∀ q ∈ dangers ((downloadCalls pass remote p ++ [Call.note update]).map Call.timed), q = p := by
  unfold downloadCalls
  cases remote.get p with
  | none => simp [dangers, Call.timed]
  | some entry => cases partialOf p <;> simp [dangers, Call.timed]

theorem ordered_downloadCalls (p : RelPath) (update : Report → Report) :
    Ordered ((downloadCalls pass remote p ++ [Call.note update]).map Call.timed) := by
  unfold downloadCalls
  cases remote.get p with
  | none => simp [Ordered, Call.timed]
  | some entry => cases partialOf p <;> simp [Ordered, Call.timed]

/-- **Only downloads and deletions come upon a file the walk has read.** -/
theorem dangers_deeds {a : Action} (h : p ∈ dangers (deeds pass remote a)) :
    a = .download p ∨ a = .deleteLocal p := by
  cases a with
  | download x => exact Or.inl (congrArg Action.download (dangers_downloadCalls x _ p h).symm)
  | deleteLocal x =>
    have hx : p = x := by simpa [deeds, Action.fetches, calls, dangers] using h
    exact Or.inr (congrArg Action.deleteLocal hx.symm)
  | keepBoth x copy =>
    exfalso
    cases hs : pass.scan.entries.get x with
    | none => simp [deeds, Action.fetches, calls, keepCalls, hs, dangers, Call.timed] at h
    | some scanned =>
      simp only [deeds, Action.fetches, if_true, calls, keepCalls, hs, List.map_cons, Call.timed,
        dangers, List.mem_filter, List.mem_cons, decide_eq_true_eq] at h
      obtain ⟨⟨rfl | hp, hcopy⟩, hx⟩ := h
      · exact hcopy rfl
      · exact hx (dangers_downloadCalls x _ p hp)
  | setAside x copy =>
    exfalso
    simp only [deeds, Action.fetches, if_true, calls, List.map_cons, Call.timed, dangers,
      List.mem_filter, decide_eq_true_eq] at h
    exact h.2 (dangers_downloadCalls x _ p h.1)
  | upload x =>
    cases hs : pass.scan.entries.get x <;>
      simp [deeds, Action.fetches, calls, uploadCalls, hs, dangers] at h
  | _ => simp [deeds, Action.fetches, calls, dangers] at h

theorem ordered_deeds (a : Action) : Ordered (deeds pass remote a) := by
  cases a with
  | download x => exact ordered_downloadCalls x _
  | keepBoth x copy =>
    cases hs : pass.scan.entries.get x with
    | none => simp [deeds, Action.fetches, calls, keepCalls, hs, dangers, Call.timed, Ordered]
    | some scanned =>
      have htail : ∀ update, Ordered ((downloadCalls pass remote x ++ [Call.note update]).map
          Call.timed) := ordered_downloadCalls x
      simp only [deeds, Action.fetches, if_true, calls, keepCalls, hs, List.map_cons, Call.timed,
        dangers, Ordered, List.mem_filter, List.mem_cons, decide_eq_true_eq]
      refine ⟨?_, ?_, ?_, ?_, htail _⟩
      · rintro _ _ _ ⟨⟩ q ⟨rfl | hq, hcopy⟩
        · exact absurd rfl hcopy
        · exact dangers_downloadCalls x _ q hq
      · rintro _ _ _ ⟨⟩
      · rintro _ _ _ ⟨⟩
      · rintro _ _ _ ⟨⟩
  | setAside x copy =>
    simp only [deeds, Action.fetches, if_true, calls, List.map_cons, Call.timed, dangers, Ordered]
    refine ⟨?_, ?_, ordered_downloadCalls x _⟩
    · rintro _ _ _ ⟨⟩ q hq
      exact dangers_downloadCalls x _ q hq
    · rintro _ _ _ ⟨⟩
  | upload x =>
    cases hs : pass.scan.entries.get x <;>
      simp [deeds, Action.fetches, calls, uploadCalls, hs, Ordered]
  | _ => simp [deeds, Action.fetches, calls, Ordered]

/-! ## The server, call by call -/

/-- **A file stays on the server** where a call neither removes it nor sends over it. -/
theorem server_perform {c : Call} {t : Str} {n : Nat}
    (hsend : ∀ source expect, c = .send q source expect → expect ≠ .etag t)
    (hremove : ∀ d, c = .removeRemote d → atOrInside d q = false)
    (h : w.server.tree.get q = some (.file t n)) (hok : perform u c w = .ok () w') :
    w'.server.tree.get q = some (.file t n) := by
  have hblocked : ∀ {d}, FreeAbove d w.server.tree.get → d.isInside q = false := by
    intro d hfree
    rw [← Bool.not_eq_true]
    intro hin
    rcases hfree q hin with hn | hn <;> rw [h] at hn <;> cases hn
  cases c with
  | fail reason => cases hok
  | createDirectories | createParents | rename | removeFile | removeIgnored | removeDirectory =>
    obtain ⟨disk, -, rfl⟩ := ok_onDisk.mp hok
    exact h
  | fetch x staged =>
    simp only [perform, downloadTo, ok_bind, ok_readFile, ok_onDisk] at hok
    obtain ⟨_, w, ⟨-, rfl⟩, disk, -, rfl⟩ := hok
    exact h
  | send x source expect =>
    simp only [perform, uploadFrom, ok_bind, ok_readFile, ok_onServer] at hok
    obtain ⟨e, w, ⟨-, rfl⟩, server, hs, rfl⟩ := hok
    obtain ⟨hcan, hget, -⟩ := putFile_ok hs
    have hne : q ≠ x := by
      rintro rfl
      rcases hcan with ⟨stored, m, he, hfile⟩ | ⟨-, hnone, -⟩
      · rw [h] at hfile
        cases hfile
        exact hsend source expect rfl he
      · rw [h] at hnone
        cases hnone
    show server.tree.get q = _
    rw [hget, put_of_ne hne, if_neg, h]
    rintro ⟨hnone, hin⟩
    rcases hcan with ⟨_, _, -, hfile⟩ | ⟨-, -, hfree⟩
    · rw [hnone] at hfile
      cases hfile
    · rw [hblocked hfree] at hin
      cases hin
  | makeRemote x =>
    obtain ⟨server, hs, rfl⟩ := ok_onServer.mp hok
    obtain ⟨hnone, hfree, hget, -⟩ := createDirectory_ok hs
    have hne : q ≠ x := by
      rintro rfl
      rw [h] at hnone
      cases hnone
    show server.tree.get q = _
    rw [hget, Function.update_of_ne hne, dirsAbove, hblocked hfree]
    exact h
  | removeRemote x =>
    obtain ⟨server, hs, rfl⟩ := ok_onServer.mp hok
    obtain ⟨-, hget, -⟩ := remove_ok hs
    show server.tree.get q = _
    rw [hget, cut, hremove x rfl]
    exact h
  | record | recordAbove | forget =>
    simp only [perform, ok_onState] at hok
    subst hok
    exact h
  | note update =>
    simp only [perform, ok_onReport] at hok
    subst hok
    exact h

/-- A path with an entry on the server keeps one, unless it is removed. -/
theorem server_stands {c : Call} (hremove : ∀ d, c ≠ .removeRemote d)
    (h : w.server.tree.get q ≠ none) (hok : perform u c w = .ok () w') :
    w'.server.tree.get q ≠ none := by
  cases c with
  | fail reason => cases hok
  | createDirectories | createParents | rename | removeFile | removeIgnored | removeDirectory =>
    obtain ⟨disk, -, rfl⟩ := ok_onDisk.mp hok
    exact h
  | fetch x staged =>
    simp only [perform, downloadTo, ok_bind, ok_readFile, ok_onDisk] at hok
    obtain ⟨_, w, ⟨-, rfl⟩, disk, -, rfl⟩ := hok
    exact h
  | send x source expect =>
    simp only [perform, uploadFrom, ok_bind, ok_readFile, ok_onServer] at hok
    obtain ⟨e, w, ⟨-, rfl⟩, server, hs, rfl⟩ := hok
    obtain ⟨-, hget, -⟩ := putFile_ok hs
    show server.tree.get q ≠ none
    rw [hget]
    by_cases hne : q = x
    · subst hne
      simp [put]
    · rw [put_of_ne hne]
      split_ifs
      · simp
      · exact h
  | makeRemote x =>
    obtain ⟨server, hs, rfl⟩ := ok_onServer.mp hok
    obtain ⟨-, -, hget, -⟩ := createDirectory_ok hs
    show server.tree.get q ≠ none
    rw [hget]
    by_cases hne : q = x
    · subst hne
      simp
    · rw [Function.update_of_ne hne, dirsAbove]
      split_ifs
      · simp
      · exact h
  | removeRemote x => exact absurd rfl (hremove x)
  | record | recordAbove | forget =>
    simp only [perform, ok_onState] at hok
    subst hok
    exact h
  | note update =>
    simp only [perform, ok_onReport] at hok
    subst hok
    exact h

end Stashden.Sync
