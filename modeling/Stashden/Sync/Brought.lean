import Stashden.Sync.Settle
import Stashden.Sync.Stops

/-!
# A file a pass brought

`Kept` is what a download establishes and every later call keeps: the server has the file, the disk
has its directories, and the disk has the file itself, unless a conflict took it away and left no
record of what the server has. `Call.Spares` names the calls that have nothing to do with a path, and
`perform_spares` is the step lemma; `along_own` is the one action about the path. `kept_attempt` puts
them together for a whole pass, however it stops.
-/

namespace Stashden.Sync

open Lib Stashden.Core RelPath EngineM

variable {u : Unicode} {pass : Pass} {w w' : World} {p : RelPath} {o : Option Entry}

/-- A file of the server whose place in the folder is held, `recorded` being what is known of it. -/
structure Kept (p : RelPath) (recorded : Option Entry) (w : World) : Prop where
  there : ∃ t n, w.server.tree.get p = some (.file t n)
  above : ∀ d, p.isInside d = true → w.disk.get d = some .directory
  here : (∃ t n, w.disk.get p = some (.file t n)) ∨
    (w.disk.get p = none ∧ recorded ≠ w.server.tree.get p)

theorem Kept.not_directory (h : Kept p o w) : w.disk.get p ≠ some .directory := by
  rcases h.here with ⟨t, n, hp⟩ | ⟨hp, -⟩ <;> simp [hp]

/-- On disk, the record does not matter. -/
theorem Kept.of_file {t : Str} {n : Nat} (h : Kept p o w) (hp : w.disk.get p = some (.file t n))
    (o' : Option Entry) : Kept p o' w := ⟨h.there, h.above, Or.inl ⟨t, n, hp⟩⟩

theorem Kept.of_disk {disk : Snapshot} (h : Kept p o w)
    (hp : disk.get p = w.disk.get p ∨ ∃ t n, disk.get p = some (.file t n))
    (habove : ∀ d, p.isInside d = true → disk.get d = some .directory) :
    Kept p o { w with disk := disk } := by
  refine ⟨h.there, habove, ?_⟩
  rcases hp with he | hfile
  · exact h.here.imp (fun ⟨t, n, hd⟩ => ⟨t, n, he.trans hd⟩) fun ⟨hd, ho⟩ => ⟨he.trans hd, ho⟩
  · exact Or.inl hfile

theorem Kept.of_server {server : Server} (h : Kept p o w)
    (hp : server.tree.get p = w.server.tree.get p) : Kept p o { w with server := server } := by
  refine ⟨?_, h.above, ?_⟩
  · show ∃ t n, server.tree.get p = _
    rw [hp]
    exact h.there
  · show _ ∨ _ ∧ o ≠ server.tree.get p
    rw [hp]
    exact h.here

/-! ## Calls about other paths -/

/-- A call has nothing to do with a path, the server having a file there and the disk its
directories. -/
def Call.Spares (u : Unicode) (p : RelPath) : Call → Prop
  | .createDirectories q => q ≠ p ∧ q.isInside p = false
  | .createParents q => q.isInside p = false
  | .fetch _ staged => hides u staged = true
  | .rename _ source _ => source ≠ p
  | .removeFile q => q ≠ p
  | .removeDirectory q => q ≠ p ∧ p.isInside q = false
  | .send q _ expect => q = p → expect = .absent
  | .removeRemote q => atOrInside q p = false
  | .record q _ _ => q ≠ p
  | .recordAbove q => q.isInside p = false
  | .forget q => q ≠ p
  | .removeIgnored _ | .makeRemote _ | .fail _ | .note _ => True

/-- Where directories can be made, no file stands. -/
theorem Kept.not_freeAbove {q : RelPath} (h : Kept p o w) (hfree : FreeAbove q w.server.tree.get) :
    q.isInside p = false := by
  obtain ⟨t, n, hp⟩ := h.there
  rw [← Bool.not_eq_true]
  intro hin
  rcases hfree p hin with hn | hn <;> rw [hp] at hn <;> cases hn

/-- Directories are made nowhere a file stands. -/
theorem Kept.madeDirectories {disk : Snapshot} {made : RelPath → Prop} [DecidablePred made]
    (h : Kept p o w) (hp : ¬ made p)
    (hget : ∀ q, disk.get q = if made q then some .directory else w.disk.get q) :
    Kept p o { w with disk := disk } := by
  refine h.of_disk (Or.inl (by rw [hget, if_neg hp])) fun d hin => ?_
  rw [hget, h.above d hin, ite_self]

/-- What is fetched goes to a hidden file. -/
theorem Kept.fetched {staged : RelPath} {e : Entry} (hv : hides u p = false)
    (hhid : hides u staged = true) (h : Kept p o w) :
    Kept p o { w with disk := w.disk.insert staged e } := by
  have hother : ∀ {d}, hides u d = false → d ≠ staged := by
    rintro d hd rfl
    rw [hhid] at hd
    cases hd
  refine h.of_disk (Or.inl (OrdMap.get_insert_of_ne _ _ (hother hv))) fun d hin => ?_
  rw [OrdMap.get_insert_of_ne _ _ (hother (not_hides_above hin hv))]
  exact h.above d hin

/-- A file that comes from elsewhere replaces a file, and no directory. -/
theorem Kept.renamed {disk : Snapshot} {reason : Reason} {source target : RelPath} (h : Kept p o w)
    (hne : p ≠ source) (hok : renameFile reason source target w.disk = .ok disk) :
    Kept p o { w with disk := disk } := by
  obtain ⟨t, n, hsource, htarget, hget⟩ := renameFile_ok hok
  refine h.of_disk ?_ fun d hin => ?_
  · rw [hget, if_neg hne]
    by_cases htp : p = target
    · rw [if_pos htp]
      exact Or.inr ⟨t, n, rfl⟩
    · rw [if_neg htp]
      exact Or.inl rfl
  · have hdir := h.above d hin
    have hdt : d ≠ target := by
      rintro rfl
      exact htarget hdir
    have hds : d ≠ source := by
      rintro rfl
      rw [hsource] at hdir
      cases hdir
    rw [hget, if_neg hdt, if_neg hds]
    exact hdir

/-- One path is cleared, which is not at the file nor above it. -/
theorem Kept.cleared {disk : Snapshot} {q : RelPath} (h : Kept p o w) (hne : p ≠ q)
    (hnot : ∀ d, p.isInside d = true → d ≠ q)
    (hget : ∀ d, disk.get d = if d = q then none else w.disk.get d) :
    Kept p o { w with disk := disk } := by
  refine h.of_disk (Or.inl (by rw [hget, if_neg hne])) fun d hin => ?_
  rw [hget, if_neg (hnot d hin)]
  exact h.above d hin

/-- What is sent elsewhere leaves the server's file. -/
theorem Kept.sent {server : Server} {q : RelPath} {expect : Expect} {t : Str} {n : Nat}
    (h : Kept p o w) (hexpect : q = p → expect = .absent)
    (hok : putFile q t n expect w.server = .ok server) :
    server.tree.get p = w.server.tree.get p := by
  obtain ⟨hcan, hget, -⟩ := putFile_ok hok
  obtain ⟨t', n', hp⟩ := h.there
  have hne : p ≠ q := by
    rintro rfl
    rcases hcan with ⟨_, _, he, -⟩ | ⟨-, hnone, -⟩
    · rw [hexpect rfl] at he
      cases he
    · rw [hp] at hnone
      cases hnone
  rw [hget, put_of_ne hne, if_neg]
  rintro ⟨hnone, hin⟩
  rcases hcan with ⟨_, _, -, hfile⟩ | ⟨-, -, hfree⟩
  · rw [hnone] at hfile
    cases hfile
  · rw [h.not_freeAbove hfree] at hin
    cases hin

/-- No directory is made where the server has a file. -/
theorem Kept.madeRemote {server : Server} {q : RelPath} (h : Kept p o w)
    (hok : createDirectory q w.server = .ok server) :
    server.tree.get p = w.server.tree.get p := by
  obtain ⟨hnone, hfree, hget, -⟩ := createDirectory_ok hok
  obtain ⟨t, n, hp⟩ := h.there
  have hne : p ≠ q := by
    rintro rfl
    rw [hp] at hnone
    cases hnone
  rw [hget, Function.update_of_ne hne, dirsAbove, h.not_freeAbove hfree]
  rfl

/-- **A call about other paths keeps a file.** -/
theorem perform_spares {c : Call} (hv : hides u p = false) (hc : c.Spares u p) (h : Kept p o w)
    (hok : perform u c w = .ok () w') :
    Kept p o w' ∧ w'.server.tree.get p = w.server.tree.get p ∧
      w'.state.base.get p = w.state.base.get p := by
  cases c with
  | fail reason => cases hok
  | createDirectories q =>
    obtain ⟨disk, hd, rfl⟩ := ok_onDisk.mp hok
    refine ⟨h.madeDirectories (fun hmade => ?_) (fun d => (createDirAll_ok hd d).1), rfl, rfl⟩
    rcases hmade with rfl | hin
    · exact hc.1 rfl
    · rw [hc.2] at hin
      cases hin
  | createParents q =>
    obtain ⟨disk, hd, rfl⟩ := ok_onDisk.mp hok
    have hno : ¬ q.isInside p = true := Bool.not_eq_true _ ▸ hc
    exact ⟨h.madeDirectories hno fun d => (createParents_ok hd d).1, rfl, rfl⟩
  | fetch q staged =>
    simp only [perform, downloadTo, ok_bind, ok_readFile, ok_onDisk] at hok
    obtain ⟨⟨t, n⟩, _, ⟨-, rfl⟩, disk, hd, rfl⟩ := hok
    split_ifs at hd
    cases hd
    exact ⟨h.fetched hv hc, rfl, rfl⟩
  | rename reason source target =>
    obtain ⟨disk, hd, rfl⟩ := ok_onDisk.mp hok
    exact ⟨h.renamed (Ne.symm hc) hd, rfl, rfl⟩
  | removeFile q =>
    obtain ⟨disk, hd, rfl⟩ := ok_onDisk.mp hok
    obtain ⟨hnd, hget⟩ := removeFile_ok hd
    refine ⟨h.cleared (Ne.symm hc) (fun d hin => ?_) hget, rfl, rfl⟩
    rintro rfl
    exact hnd (h.above d hin)
  | removeIgnored q =>
    obtain ⟨disk, hd, rfl⟩ := ok_onDisk.mp hok
    obtain ⟨-, hget⟩ := removeIgnored_ok hd
    refine ⟨h.of_disk (Or.inl (hget p hv)) fun d hin => ?_, rfl, rfl⟩
    rw [hget d (not_hides_above hin hv)]
    exact h.above d hin
  | removeDirectory q =>
    obtain ⟨disk, hd, rfl⟩ := ok_onDisk.mp hok
    refine ⟨h.cleared (Ne.symm hc.1) (fun d hin => ?_) (removeEmpty_ok hd).2, rfl, rfl⟩
    rintro rfl
    rw [hc.2] at hin
    cases hin
  | send q source expect =>
    simp only [perform, uploadFrom, ok_bind, ok_readFile, ok_onServer] at hok
    obtain ⟨⟨t, n⟩, w, ⟨-, rfl⟩, server, hs, rfl⟩ := hok
    have hsame := h.sent hc hs
    exact ⟨h.of_server hsame, hsame, rfl⟩
  | makeRemote q =>
    obtain ⟨server, hs, rfl⟩ := ok_onServer.mp hok
    have hsame := h.madeRemote hs
    exact ⟨h.of_server hsame, hsame, rfl⟩
  | removeRemote q =>
    obtain ⟨server, hs, rfl⟩ := ok_onServer.mp hok
    obtain ⟨-, hget, -⟩ := remove_ok hs
    have hno : atOrInside q p = false := hc
    have hsame : server.tree.get p = w.server.tree.get p := by
      rw [hget, cut, hno]
      rfl
    exact ⟨h.of_server hsame, hsame, rfl⟩
  | record q entry mtimeMs =>
    simp only [perform, ok_onState] at hok
    subst hok
    refine ⟨⟨h.there, h.above, h.here⟩, rfl, ?_⟩
    exact (SyncState.base_record _ _ _ _ _).trans (if_neg (Ne.symm hc))
  | recordAbove q =>
    obtain rfl := ok_onState.mp hok
    have hno : q.isInside p = false := hc
    refine ⟨⟨h.there, h.above, h.here⟩, rfl, ?_⟩
    refine (recordDirectoriesAbove_base _ _).trans ?_
    rw [dirsAbove, hno]
    rfl
  | forget q =>
    simp only [perform, ok_onState] at hok
    subst hok
    refine ⟨⟨h.there, h.above, h.here⟩, rfl, ?_⟩
    exact (SyncState.base_forget _ _ _).trans (if_neg (Ne.symm hc))
  | note update =>
    obtain rfl := ok_onReport.mp hok
    exact ⟨⟨h.there, h.above, h.here⟩, rfl, rfl⟩

/-- A copy the server takes as a new file is not a file it has. -/
theorem Kept.copy_ne {copy : RelPath} (h : Kept p o w)
    (hok : perform u (.send copy copy .absent) w = .ok () w') : copy ≠ p := by
  rintro rfl
  simp only [perform, uploadFrom, ok_bind, ok_readFile, ok_onServer] at hok
  obtain ⟨_, _, ⟨-, rfl⟩, _, hs, -⟩ := hok
  obtain ⟨t, n, hp⟩ := h.there
  rcases (putFile_ok hs).1 with ⟨_, _, he, -⟩ | ⟨-, hnone, -⟩
  · cases he
  · rw [hp] at hnone
    cases hnone

/-- A file is kept, and the server and the record have of it what they had. -/
structure Holds (p : RelPath) (o : Option Entry) (w₀ w : World) : Prop where
  kept : Kept p o w
  server : w.server.tree.get p = w₀.server.tree.get p
  base : w.state.base.get p = w₀.state.base.get p

theorem Holds.of_report {w₀ : World} (h : Holds p o w₀ w) (report : Report) :
    Holds p o w₀ { w with report := report } :=
  ⟨⟨h.kept.there, h.kept.above, h.kept.here⟩, h.server, h.base⟩

theorem Holds.perform {w₀ : World} {c : Call} (hv : hides u p = false) (h : Holds p o w₀ w)
    (hc : c.Spares u p) (hok : Sync.perform u c w = .ok () w') : Holds p o w₀ w' := by
  obtain ⟨hkept, hserver, hbase⟩ := perform_spares hv hc h.kept hok
  exact ⟨hkept, hserver.trans h.server, hbase.trans h.base⟩

theorem along_spares {w₀ : World} {cs : List Call} (hv : hides u p = false)
    (hcs : ∀ c ∈ cs, c.Spares u p) (h : Holds p o w₀ w) : Along u (Holds p o w₀) cs w :=
  Along.of_forall (fun c hc _ _ hw hok => hw.perform hv (hcs c hc) hok) h

/-! ## Actions about other paths -/

/-- What a pass must see at a path it is to spare: a file on the server, none of its removals there,
and no directory in its place on the disk. -/
structure Pass.Sparing (u : Unicode) (pass : Pass) (w : World) (p : RelPath) : Prop where
  faithful : pass.Faithful u w
  visible : Visible u p
  there : ∃ t n, w.server.tree.get p = some (.file t n)
  here : w.disk.get p ≠ some .directory
  unremoved : ∀ a ∈ (pass.plan u w).actions, a.removes = true → atOrInside a.subject p = false

section Sparing

variable {w₀ : World} (S : pass.Sparing u w₀ p)

include S

theorem Pass.Sparing.remote_not_directory : (pass.remote u w₀).get p ≠ some .directory := by
  intro h
  obtain ⟨t, n, hp⟩ := S.there
  have hdir := (Pass.remote_eq_some h).1
  rw [hp] at hdir
  cases hdir

theorem Pass.Sparing.localSide_not_directory : (pass.localSide u w₀).get p ≠ some .directory :=
  fun h => S.here (S.faithful.of_localSide h).2

/-- The calls of a download elsewhere. -/
theorem Pass.Sparing.spares_download {q : RelPath} (hq : q ≠ p) (hin : q.isInside p = false) :
    ∀ c ∈ downloadCalls pass (pass.remote u w₀) q, c.Spares u p := by
  unfold downloadCalls
  cases (pass.remote u w₀).get q with
  | none => simp [Call.Spares]
  | some entry =>
    cases hs : partialOf q with
    | none => simp [Call.Spares, hin]
    | some staged =>
      have hhid := (partialOf_spec (u := u) hs).1
      have hne : staged ≠ p := by
        rintro rfl
        rw [S.visible.not_hides] at hhid
        cases hhid
      simp [Call.Spares, hin, hq, hhid, hne]

/-- **An action about another path keeps a file**, wherever it stops. -/
theorem Pass.Sparing.along_calls {a : Action} {w₁ : World}
    (ha : a ∈ (pass.plan u w₀).actions) (hsub : a.subject ≠ p) (h : Holds p o w₁ w) :
    Along u (Holds p o w₁) (calls pass (pass.remote u w₀) a) w := by
  have hv := S.visible.not_hides
  have hplanned := Pass.planned ha
  have hL : (pass.localSide u w₀).TreeShaped :=
    Pass.localSide_treeShaped S.faithful.scan_treeShaped
  have hR : (pass.remote u w₀).TreeShaped := Pass.remote_treeShaped S.faithful.server
  have hmade : a.makesLocal = true → a.subject.isInside p = false :=
    hplanned.not_made_locally hR S.remote_not_directory
  have hremote : a.makesRemote = true → a.subject.isInside p = false :=
    hplanned.not_made_remotely hL S.localSide_not_directory
  cases a with
  | createLocalDirectory q =>
    refine along_spares hv ?_ h
    simp only [calls, List.mem_cons, List.not_mem_nil, or_false]
    rintro c (rfl | rfl | rfl)
    exacts [⟨hsub, hmade rfl⟩, hsub, trivial]
  | createRemoteDirectory q =>
    refine along_spares hv ?_ h
    simp only [calls, List.mem_cons, List.not_mem_nil, or_false]
    rintro c (rfl | rfl | rfl)
    exacts [trivial, hsub, trivial]
  | removeLocalDirectory q =>
    refine along_spares hv ?_ h
    have habove : p.isInside q = false := by
      rw [← Bool.not_eq_true]
      intro hin
      -- The server has the directories above its file, so the pass lists this one.
      rcases hplanned with ⟨hl, hr, -⟩ | ⟨_, _, e, -⟩
      · obtain ⟨t, n, hp⟩ := S.there
        have hdir := S.faithful.server.above hp hin
        have hfit := (Pass.localSide_eq_some hl).2
        rw [Pass.remote, Pass.get_fits, hfit, Pass.get_listing, not_hides_above hin hv, hdir] at hr
        cases hr
      · cases e
    simp only [calls, List.mem_cons, List.not_mem_nil, or_false]
    rintro c (rfl | rfl | rfl | rfl)
    exacts [trivial, ⟨hsub, habove⟩, hsub, trivial]
  | download q =>
    refine along_spares hv (fun c hc => ?_) h
    rcases List.mem_append.mp hc with hc | hc
    · exact S.spares_download hsub (hmade rfl) c hc
    · obtain rfl := List.mem_singleton.mp hc
      exact trivial
  | upload q =>
    refine along_spares hv (fun c hc => ?_) h
    rcases List.mem_append.mp hc with hc | hc
    · unfold uploadCalls at hc
      cases hs : pass.scan.entries.get q with
      | none =>
        rw [hs] at hc
        obtain rfl := List.mem_singleton.mp hc
        exact trivial
      | some scanned =>
        rw [hs] at hc
        simp only [List.mem_cons, List.not_mem_nil, or_false] at hc
        rcases hc with rfl | rfl | rfl
        exacts [fun e => absurd e hsub, hsub, hremote rfl]
    · obtain rfl := List.mem_singleton.mp hc
      exact trivial
  | deleteLocal q =>
    refine along_spares hv ?_ h
    simp only [calls, List.mem_cons, List.not_mem_nil, or_false]
    rintro c (rfl | rfl | rfl)
    exacts [hsub, hsub, trivial]
  | deleteRemote q =>
    refine along_spares hv ?_ h
    simp only [calls, List.mem_cons, List.not_mem_nil, or_false]
    rintro c (rfl | rfl | rfl)
    exacts [S.unremoved _ ha rfl, hsub, trivial]
  | removeRemoteDirectory q =>
    refine along_spares hv ?_ h
    simp only [calls, List.mem_cons, List.not_mem_nil, or_false]
    rintro c (rfl | rfl | rfl)
    exacts [S.unremoved _ ha rfl, hsub, trivial]
  | forget q =>
    refine along_spares hv (fun c hc => ?_) h
    obtain rfl := List.mem_singleton.mp hc
    exact hsub
  | setAside q copy =>
    refine along_spares hv (fun c hc => ?_) h
    simp only [calls, List.mem_cons, List.mem_append, List.not_mem_nil, or_false] at hc
    rcases hc with rfl | rfl | hc | rfl
    exacts [hsub, hsub, S.spares_download hsub (hmade rfl) c hc, trivial]
  | keepBoth q copy =>
    have hrename : Call.Spares u p (.rename (.renaming q) q copy) := hsub
    refine ⟨h, fun w₂ hok₂ => ?_⟩
    have h₂ := h.perform hv hrename hok₂
    unfold keepCalls
    cases pass.scan.entries.get q with
    | none => exact along_spares hv (by simp [Call.Spares]) h₂
    | some scanned =>
      have hsend : Call.Spares u p (.send copy copy .absent) := fun _ => rfl
      refine ⟨h₂, fun w₃ hok₃ => ?_⟩
      have hcopy := h₂.kept.copy_ne hok₃
      refine along_spares hv (fun c hc => ?_) (h₂.perform hv hsend hok₃)
      simp only [List.mem_cons, List.mem_append, List.not_mem_nil, or_false] at hc
      rcases hc with rfl | rfl | hc | rfl
      exacts [hcopy, hsub, S.spares_download hsub (hmade rfl) c hc, trivial]

/-- Turns about other paths. -/
theorem Pass.Sparing.turns {turns : List Turn} {w₁ : World}
    (hacts : ∀ t ∈ turns, t.action ∈ (pass.plan u w₀).actions ∧ t.action.subject ≠ p)
    (h : Turns u pass (pass.remote u w₀) turns w w') (hw : Holds p o w₁ w) : Holds p o w₁ w' := by
  refine h.invariant (fun w report hw => hw.of_report report) (fun t ht w w' hdone hcalls hw => ?_) hw
  obtain ⟨rest, hcalls⟩ := hcalls
  have halong := S.along_calls (hacts t ht).1 (hacts t ht).2 hw
  rw [hcalls] at halong
  exact halong.performs hdone

end Sparing

/-! ## The action about a path -/

/-- A file is kept whatever is left of the record: what the pass made of it, or what it started
from. -/
def KeptEither (p : RelPath) (o : Option Entry) (w : World) : Prop :=
  Kept p o w ∧ Kept p (w.state.base.get p) w

theorem KeptEither.of_report (h : KeptEither p o w) (report : Report) :
    KeptEither p o { w with report := report } :=
  ⟨⟨h.1.there, h.1.above, h.1.here⟩, ⟨h.2.there, h.2.above, h.2.here⟩⟩

theorem KeptEither.perform {c : Call} (hv : hides u p = false) (h : KeptEither p o w)
    (hc : c.Spares u p) (hok : Sync.perform u c w = .ok () w') : KeptEither p o w' := by
  refine ⟨(perform_spares hv hc h.1 hok).1, ?_⟩
  obtain ⟨hkept, -, hbase⟩ := perform_spares hv hc h.2 hok
  rw [hbase]
  exact hkept

theorem Kept.either {t : Str} {n : Nat} (h : Kept p o w) (hp : w.disk.get p = some (.file t n)) :
    KeptEither p o w := ⟨h, h.of_file hp _⟩

/-- **A download keeps its file**, wherever it stops. -/
theorem along_download {remote : Snapshot} (hv : hides u p = false) (h : KeptEither p o w) :
    Along u (KeptEither p o) (downloadCalls pass remote p) w := by
  unfold downloadCalls
  cases remote.get p with
  | none => exact ⟨h, fun _ hok => nomatch hok⟩
  | some entry =>
    refine ⟨h, fun w₁ hok₁ => ?_⟩
    have h₁ := h.perform hv (c := .createParents p) (not_isInside_self p) hok₁
    cases hs : partialOf p with
    | none => exact ⟨h₁, fun _ hok => nomatch hok⟩
    | some staged =>
      have hhid := (partialOf_spec (u := u) hs).1
      have hne : staged ≠ p := by
        rintro rfl
        rw [hv] at hhid
        cases hhid
      refine ⟨h₁, fun w₂ hok₂ => ?_⟩
      have h₂ := h₁.perform hv (c := .fetch p staged) hhid hok₂
      refine ⟨h₂, fun w₃ hok₃ => ?_⟩
      have h₃ := h₂.perform hv (c := .rename (.moving p) staged p) hne hok₃
      -- The file is in its place now, so its record may be anything.
      obtain ⟨disk, hd, rfl⟩ := ok_onDisk.mp hok₃
      obtain ⟨t, n, -, -, hget⟩ := renameFile_ok hd
      refine ⟨h₃, fun w₄ hok₄ => ?_⟩
      simp only [perform, ok_onState] at hok₄
      subst hok₄
      have hp : disk.get p = some (.file t n) := by rw [hget, if_pos rfl]
      have hkept : Kept p o
          { w₂ with disk := disk, state := w₂.state.record p entry (pass.mtimeOf p) } :=
        ⟨h₃.1.there, h₃.1.above, h₃.1.here⟩
      exact hkept.either hp

/-- The report comes last. -/
theorem along_note {cs : List Call} {g : Report → Report} (h : Along u (KeptEither p o) cs w) :
    Along u (KeptEither p o) (cs ++ [.note g]) w := by
  refine h.append fun w₁ hcs => ?_
  have h₁ : KeptEither p o w₁ := by
    rw [← List.append_nil cs] at h
    exact h.performs hcs
  refine ⟨h₁, fun w₂ hok => ?_⟩
  simp only [perform, ok_onReport] at hok
  subst hok
  exact h₁.of_report _

/-- **An upload keeps its file**, wherever it stops. -/
theorem along_upload {remote : Snapshot} (h : KeptEither p o w) :
    Along u (KeptEither p o) (uploadCalls pass remote p) w := by
  unfold uploadCalls
  cases pass.scan.entries.get p with
  | none => exact ⟨h, fun _ hok => nomatch hok⟩
  | some scanned =>
    refine ⟨h, fun w₁ hok => ?_⟩
    simp only [perform, uploadFrom, ok_bind, ok_readFile, ok_onServer] at hok
    obtain ⟨⟨t, n⟩, w, ⟨hfile, rfl⟩, server, hs, rfl⟩ := hok
    have hget : server.tree.get p = some (.file t n) := by
      rw [(putFile_ok hs).2.1, put, Function.update_self]
    -- What was sent is on the disk, so the record may be anything.
    have hsent : ∀ s, KeptEither p o { w with server := server, state := s } := fun s =>
      Kept.either ⟨⟨t, n, hget⟩, h.1.above, Or.inl ⟨t, n, hfile⟩⟩ hfile
    refine ⟨hsent w.state, fun w₂ hok => ?_⟩
    simp only [perform, ok_onState] at hok
    subst hok
    refine ⟨hsent _, fun w₃ hok => ?_⟩
    simp only [perform, ok_onState] at hok
    subst hok
    exact hsent _

/-- **A conflict's rename** takes the local file away, where nothing on record is what the server
has. -/
theorem along_moved {copy : RelPath} {cs : List Call} {reason : Reason} (h : KeptEither p o w)
    (ho : o ≠ w.server.tree.get p) (hb : w.state.base.get p ≠ w.server.tree.get p)
    (hcs : ∀ w', KeptEither p o w' → Along u (KeptEither p o) cs w') :
    Along u (KeptEither p o) (.rename reason p copy :: cs) w := by
  refine ⟨h, fun w₁ hok => hcs w₁ ?_⟩
  obtain ⟨disk, hd, rfl⟩ := ok_onDisk.mp hok
  obtain ⟨t, n, -, htarget, hget⟩ := renameFile_ok hd
  have hkept : ∀ o', o' ≠ w.server.tree.get p → Kept p o' { w with disk := disk } := by
    intro o' hne
    refine ⟨h.1.there, fun d hin => ?_, ?_⟩
    · have hdir := h.1.above d hin
      have hdc : d ≠ copy := by
        rintro rfl
        exact htarget hdir
      have hdp : d ≠ p := (ne_of_isInside hin).symm
      rw [hget, if_neg hdc, if_neg hdp]
      exact hdir
    · show (∃ t n, disk.get p = _) ∨ disk.get p = none ∧ _
      rw [hget]
      by_cases hpc : p = copy
      · rw [if_pos hpc]
        exact Or.inl ⟨t, n, rfl⟩
      · rw [if_neg hpc, if_pos rfl]
        exact Or.inr ⟨rfl, hne⟩
  exact ⟨hkept o ho, hkept _ hb⟩

/-- Nothing on record is not what the server has either. -/
theorem KeptEither.forget (h : KeptEither p o w) (hok : Sync.perform u (.forget p) w = .ok () w') :
    KeptEither p o w' := by
  simp only [Sync.perform, ok_onState] at hok
  subst hok
  refine ⟨⟨h.1.there, h.1.above, h.1.here⟩, ⟨h.1.there, h.1.above, h.1.here.imp_right ?_⟩⟩
  rintro ⟨hp, -⟩
  obtain ⟨t, n, hs⟩ := h.1.there
  refine ⟨hp, ?_⟩
  show (w.state.forget p).base.get p ≠ w.server.tree.get p
  rw [SyncState.base_forget, if_pos rfl, hs]
  simp

/-- What a conflict does once the local file is out of the way. -/
theorem along_replaced {g : Report → Report} {remote : Snapshot} (hv : hides u p = false)
    (h : KeptEither p o w) :
    Along u (KeptEither p o) (.forget p :: (downloadCalls pass remote p ++ [.note g])) w :=
  ⟨h, fun _ hok => along_note (along_download hv (h.forget hok))⟩

section Own

variable {w₀ : World} (S : pass.Sparing u w₀ p) {a : Action}

/-- What a pass plans is at a path it compares. -/
theorem Pass.fit_of_mem (ha : a ∈ (pass.plan u w₀).actions) :
    (pass.unfit u w₀).containsKey a.subject = false := by
  by_contra hno
  rw [Bool.not_eq_false] at hno
  obtain ⟨slot, b, hpush, -⟩ := Execution.verdict_of_planned (Pass.planned ha)
  have hgone : ∀ m : Snapshot, (pass.fits u w₀ m).get a.subject = none := fun m => by
    rw [Pass.get_fits, if_pos hno]
  have hidle : verdict (pass.localSide u w₀) (pass.remote u w₀) (pass.base u w₀) pass.now
      a.subject = .nothing := verdict_of_absent (hgone _) (hgone _) (hgone _)
  cases hpush.symm.trans hidle

include S

/-- The pass lists the file it has an action about. -/
theorem Pass.Sparing.listed (ha : a ∈ (pass.plan u w₀).actions) (hsub : a.subject = p) :
    (pass.remote u w₀).get p = w₀.server.tree.get p ∧
      (pass.localSide u w₀).get p = w₀.disk.get p ∧
      (pass.base u w₀).get p = w₀.state.base.get p := by
  have hfit := Pass.fit_of_mem ha
  rw [hsub] at hfit
  have hhid := S.visible.not_hides
  refine ⟨?_, ?_, ?_⟩
  · rw [Pass.remote, Pass.get_fits, hfit, Pass.get_listing, hhid]
    rfl
  · rw [Pass.localSide, Pass.get_fits, hfit, S.faithful.scan, if_pos S.visible]
    rfl
  · rw [Pass.base, Pass.get_fits, hfit]
    rfl

/-- **The action about a file keeps it**, wherever it stops. -/
theorem Pass.Sparing.along_own (ha : a ∈ (pass.plan u w₀).actions) (hsub : a.subject = p)
    (h : Holds p (w₀.state.base.get p) w₀ w) :
    Along u (KeptEither p (w₀.state.base.get p)) (calls pass (pass.remote u w₀) a) w := by
  have hv := S.visible.not_hides
  obtain ⟨hr, hl, hb⟩ := S.listed ha hsub
  obtain ⟨t, n, hp⟩ := S.there
  have hkept : KeptEither p (w₀.state.base.get p) w := by
    refine ⟨h.kept, ?_⟩
    rw [h.base]
    exact h.kept
  have hconflict : ∀ c, Warranted (pass.localSide u w₀) (pass.remote u w₀) (pass.base u w₀)
      pass.now (.keepBoth p c) → w₀.state.base.get p ≠ w.server.tree.get p ∧
        w.state.base.get p ≠ w.server.tree.get p := by
    rintro c ⟨-, -, -, hne, -⟩
    rw [h.base, h.server, ← hb, ← hr]
    exact ⟨hne, hne⟩
  have hplanned := Pass.planned ha
  cases a with
  | download q =>
    obtain rfl : q = p := hsub
    exact along_note (along_download hv hkept)
  | upload q =>
    obtain rfl : q = p := hsub
    exact along_note (along_upload hkept)
  | keepBoth q c =>
    obtain rfl : q = p := hsub
    rcases hplanned with hw | ⟨_, _, e, -⟩
    · refine along_moved hkept (hconflict c hw).1 (hconflict c hw).2 fun w₁ h₁ => ?_
      unfold keepCalls
      cases pass.scan.entries.get q with
      | none => exact ⟨h₁, fun _ hok => nomatch hok⟩
      | some scanned =>
        refine ⟨h₁, fun w₂ hok => ?_⟩
        have h₂ := h₁.perform hv (c := .send c c .absent) (fun _ => rfl) hok
        have hcopy := h₁.1.copy_ne hok
        exact ⟨h₂, fun w₃ hok => along_replaced hv
          (h₂.perform hv (c := .record c scanned.entry (pass.mtimeOf c)) hcopy hok)⟩
    · cases e
  | setAside q c =>
    obtain rfl : q = p := hsub
    have hw := hplanned.of_setAside
    exact along_moved hkept (hconflict c hw).1 (hconflict c hw).2 fun w₁ h₁ => along_replaced hv h₁
  | deleteRemote q =>
    have hno := S.unremoved _ ha rfl
    rw [hsub] at hno
    simp [atOrInside] at hno
  | removeRemoteDirectory q =>
    have hno := S.unremoved _ ha rfl
    rw [hsub] at hno
    simp [atOrInside] at hno
  | createLocalDirectory q =>
    obtain rfl : q = p := hsub
    rcases hplanned with hw | ⟨_, _, e, -⟩
    · exact absurd hw.2.1 S.remote_not_directory
    · cases e
  | createRemoteDirectory q =>
    obtain rfl : q = p := hsub
    rcases hplanned with hw | ⟨_, _, e, -⟩
    · exact absurd hw.1 S.localSide_not_directory
    · cases e
  | removeLocalDirectory q =>
    obtain rfl : q = p := hsub
    rcases hplanned with hw | ⟨_, _, e, -⟩
    · exact absurd hw.1 S.localSide_not_directory
    · cases e
  | deleteLocal q =>
    obtain rfl : q = p := hsub
    rcases hplanned with ⟨_, _, -, hnone, -⟩ | ⟨_, _, e, -⟩
    · rw [hr, hp] at hnone
      cases hnone
    · cases e
  | forget q =>
    obtain rfl : q = p := hsub
    rcases hplanned with ⟨-, hnone, -⟩ | ⟨_, _, e, -⟩
    · rw [hr, hp] at hnone
      cases hnone
    · cases e

end Own

/-! ## A pass -/

section Attempt

variable {w₀ : World} {a : Action}

/-- No two actions of a plan are about one path. -/
theorem Pass.subject_ne {pre post : List Action} (h : (pass.plan u w₀).actions = pre ++ a :: post) :
    ∀ b ∈ pre ++ post, b.subject ≠ a.subject := by
  have hord : (pass.plan u w₀).actions.Pairwise Action.Precedes := by
    rw [Pass.plan_eq]
    exact Held.apply_pairwise actions_pairwise
  rw [h] at hord
  obtain ⟨-, hpost, hcross⟩ := List.pairwise_append.mp hord
  intro b hb
  rcases List.mem_append.mp hb with hb | hb
  · exact (hcross b hb a List.mem_cons_self).1
  · exact ((List.pairwise_cons.mp hpost).1 b hb).1.symm

theorem Pass.eq_of_subject {b : Action} (ha : a ∈ (pass.plan u w₀).actions)
    (hb : b ∈ (pass.plan u w₀).actions) (h : b.subject = a.subject) : a = b := by
  obtain ⟨pre, post, hplan⟩ := List.append_of_mem ha
  rw [hplan, List.mem_append, List.mem_cons] at hb
  rcases hb with hb | rfl | hb
  · exact absurd h (Pass.subject_ne hplan b (List.mem_append_left _ hb))
  · rfl
  · exact absurd h (Pass.subject_ne hplan b (List.mem_append_right _ hb))

/-- Turns about other paths, after the one about the file. -/
theorem Pass.Sparing.turns_either (S : pass.Sparing u w₀ p) {turns : List Turn}
    (hacts : ∀ t ∈ turns, t.action ∈ (pass.plan u w₀).actions ∧ t.action.subject ≠ p)
    (h : Turns u pass (pass.remote u w₀) turns w w') (hw : KeptEither p o w) :
    KeptEither p o w' := by
  have hmade := S.turns hacts h (⟨hw.2, rfl, rfl⟩ : Holds p _ w w)
  refine ⟨(S.turns hacts h (⟨hw.1, rfl, rfl⟩ : Holds p _ w w)).kept, ?_⟩
  rw [hmade.base]
  exact hmade.kept

/-- The turns around one of a plan's are about other paths. -/
theorem Pass.turns_apart {pre post : List Turn} {t : Turn}
    (hplan : (pre ++ t :: post).map Turn.action <+: (pass.plan u w₀).actions) :
    t.action ∈ (pass.plan u w₀).actions ∧
      ∀ s ∈ pre ++ post, s.action ∈ (pass.plan u w₀).actions ∧
        s.action.subject ≠ t.action.subject := by
  obtain ⟨left, hleft⟩ := hplan
  have hmem : ∀ s ∈ pre ++ t :: post, s.action ∈ (pass.plan u w₀).actions := fun s hs =>
    hleft ▸ List.mem_append_left left (List.mem_map_of_mem hs)
  have hne := Pass.subject_ne (a := t.action) (hleft.symm.trans (by
    rw [List.map_append, List.append_assoc, List.map_cons, List.cons_append]))
  refine ⟨hmem t (by simp), fun s hs => ?_⟩
  rcases List.mem_append.mp hs with hs | hs
  · exact ⟨hmem s (List.mem_append_left _ hs),
      hne _ (List.mem_append_left _ (List.mem_map_of_mem hs))⟩
  · exact ⟨hmem s (List.mem_append_right _ (List.mem_cons_of_mem t hs)),
      hne _ (List.mem_append_right _ (List.mem_append_left _ (List.mem_map_of_mem hs)))⟩

/-- **A pass keeps a file**, however far its loop comes. -/
theorem Pass.Sparing.turns_kept (S : pass.Sparing u w₀ p) {turns : List Turn}
    (hplan : turns.map Turn.action <+: (pass.plan u w₀).actions)
    (h : Turns u pass (pass.remote u w₀) turns w w')
    (hw : Holds p (w₀.state.base.get p) w₀ w) : KeptEither p (w₀.state.base.get p) w' := by
  by_cases hown : ∃ t ∈ turns, t.action.subject = p
  · obtain ⟨t, ht, rfl⟩ := hown
    obtain ⟨pre, post, rfl⟩ := List.append_of_mem ht
    obtain ⟨hmem, hne⟩ := Pass.turns_apart hplan
    obtain ⟨w₁, hpre, hrest⟩ := h.split
    have h₁ := S.turns (fun s hs => hne s (List.mem_append_left _ hs)) hpre hw
    obtain _ | ⟨hcalls, hdone, report, hpost⟩ := hrest
    have halong := S.along_own hmem rfl h₁
    rw [hcalls] at halong
    exact S.turns_either (fun s hs => hne s (List.mem_append_right _ hs)) hpost
      ((halong.performs hdone).of_report report)
  · have hall := S.turns (fun t ht => ⟨hplan.subset (List.mem_map_of_mem ht),
      fun e => hown ⟨t, ht, e⟩⟩) h hw
    refine ⟨hall.kept, ?_⟩
    rw [hall.base]
    exact hall.kept

/-- The end of a pass keeps a file, whether it keeps its record or dies. -/
theorem kept_end {disk : Snapshot} {remote : Snapshot} (hdir : remote.get p ≠ some .directory)
    (hsave : SaveKeeps u pass.rules w.disk disk)
    (hname : ∀ q, q = p ∨ p.isInside q = true → pass.rules.takesFor u stagedStateName q = false)
    (h : KeptEither p o w) {state : SyncState}
    (hstate : state = recordAgreedDirectories pass remote w.state ∨ state.base.get p = o) :
    Kept p (state.base.get p) { w with disk := disk, state := state } := by
  have hend : ∀ o', Kept p o' w → Kept p o' { w with disk := disk, state := state } := fun o' ho => by
    have hkept := ho.of_disk (Or.inl (hsave p (hname p (Or.inl rfl)))) fun d hd => by
      rw [hsave d (hname d (Or.inr hd))]
      exact ho.above d hd
    exact ⟨hkept.there, hkept.above, hkept.here⟩
  rcases hstate with rfl | rfl
  · rw [Pass.recordAgreedDirectories_base, if_neg fun hboth => hdir hboth.2]
    exact hend _ h.2
  · exact hend _ h.1

/-- **A pass keeps a file** it does not remove, whether it comes to its end or dies. -/
theorem Pass.Sparing.attempt (S : pass.Sparing u w₀ p) {turns : List Turn}
    (hname : ∀ q, q = p ∨ p.isInside q = true → pass.rules.takesFor u stagedStateName q = false)
    (hkept : Kept p (w₀.state.base.get p) w₀) (h : Attempt u pass w₀ turns w') :
    Kept p (w'.state.base.get p) w' := by
  have hstart : Holds p (w₀.state.base.get p) w₀ { w₀ with report := pass.report u w₀ } :=
    (⟨hkept, rfl, rfl⟩ : Holds p _ w₀ w₀).of_report _
  cases h with
  | ended hplan hturns hsave =>
    exact kept_end S.remote_not_directory hsave hname
      (S.turns_kept (hplan ▸ List.prefix_refl _) hturns hstart) (Or.inl rfl)
  | died hplan hturns hsave =>
    exact kept_end S.remote_not_directory hsave hname (S.turns_kept hplan hturns hstart)
      (Or.inr rfl)

end Attempt

/-! ## The pass that brings it -/

section Fetch

variable {w₀ : World} {a : Action}

/-- An action that fetches ends with a download. -/
theorem performs_fetch {remote : Snapshot} (ha : a.fetches = true)
    (h : Performs u (calls pass remote a) w w') :
    ∃ w₁ w₂ g, Performs u (downloadCalls pass remote a.subject) w₁ w₂ ∧
      Performs u [.note g] w₂ w' := by
  cases a with
  | download q =>
    obtain ⟨w₂, hdown, hnote⟩ := performs_append.mp h
    exact ⟨w, w₂, _, hdown, hnote⟩
  | setAside q c =>
    obtain _ | ⟨-, _ | ⟨hforget, h⟩⟩ := h
    obtain ⟨w₂, hdown, hnote⟩ := performs_append.mp h
    exact ⟨_, w₂, _, hdown, hnote⟩
  | keepBoth q c =>
    obtain _ | ⟨-, h⟩ := h
    unfold keepCalls at h
    cases hs : pass.scan.entries.get q with
    | none =>
      rw [hs] at h
      obtain _ | ⟨hfail, -⟩ := h
      cases hfail
    | some scanned =>
      rw [hs] at h
      obtain _ | ⟨-, _ | ⟨-, _ | ⟨-, h⟩⟩⟩ := h
      obtain ⟨w₂, hdown, hnote⟩ := performs_append.mp h
      exact ⟨_, w₂, _, hdown, hnote⟩
  | _ => exact absurd ha (by simp [Action.fetches])

/-- **What a download brings** is in its place. -/
theorem kept_of_download {remote : Snapshot} (hv : hides u p = false)
    (h : Performs u (downloadCalls pass remote p) w w') (o : Option Entry) : Kept p o w' := by
  have hrun : download pass remote p w = .ok () w' := by
    rw [download_eq (u := u)]
    exact performs_iff.mp h
  obtain ⟨⟨⟨t, n, hfile⟩, -, -⟩, hsides⟩ := download_ok (u := u) hv hrun
  have hdisk : w'.disk.get p = some (.file t n) := by
    rw [← sides_disk (u := u) hv, hsides]
    exact (Function.update_self _ _ _).trans hfile
  refine ⟨⟨t, n, ?_⟩, fun d hin => ?_, Or.inl ⟨t, n, hdisk⟩⟩
  · rw [← sides_server (u := u) hv, hsides]
    exact hfile
  · rw [← sides_disk (u := u) (not_hides_above hin hv), hsides]
    show Function.update (dirsAbove p _) p _ d = _
    rw [Function.update_of_ne (ne_of_isInside hin).symm, dirsAbove, if_pos hin]

/-- What a pass fetches it does not remove. -/
theorem Pass.Faithful.sparing_of_fetch (hf : pass.Faithful u w₀) (hv : Visible u a.subject)
    (ha : a ∈ (pass.plan u w₀).actions) (hfetch : a.fetches = true) :
    pass.Sparing u w₀ a.subject := by
  have hplanned := Pass.planned ha
  have hfit := Pass.fit_of_mem ha
  have hlocal : (pass.localSide u w₀).get a.subject = w₀.disk.get a.subject := by
    rw [Pass.localSide, Pass.get_fits, hfit, hf.scan, if_pos hv]
    rfl
  -- What the two sides hold at a path that is fetched.
  obtain ⟨⟨t, n, hr⟩, hnd, hnot⟩ :
      (∃ t n, (pass.remote u w₀).get a.subject = some (.file t n)) ∧
        (pass.localSide u w₀).get a.subject ≠ some .directory ∧
        ((pass.localSide u w₀).get a.subject = none →
          (pass.base u w₀).get a.subject ≠ (pass.remote u w₀).get a.subject) := by
    have hconflict : ∀ {q c}, Warranted (pass.localSide u w₀) (pass.remote u w₀) (pass.base u w₀)
        pass.now (.keepBoth q c) → (∃ t n, (pass.remote u w₀).get q = some (.file t n)) ∧
          (pass.localSide u w₀).get q ≠ some .directory ∧
          ((pass.localSide u w₀).get q = none →
            (pass.base u w₀).get q ≠ (pass.remote u w₀).get q) := by
      rintro q c ⟨⟨t, n, t', n', hl, hr⟩, -⟩
      simp [hl, hr]
    cases a with
    | download q =>
      rcases hplanned with ⟨t, n, hr, ⟨hl, hb⟩ | ⟨t', n', hl, -⟩⟩ | ⟨_, _, e, -⟩
      · refine ⟨⟨t, n, hr⟩, ?_, fun _ => ?_⟩
        · simp [Action.subject, hl]
        · show (pass.base u w₀).get q ≠ (pass.remote u w₀).get q
          rw [hr]
          exact hb
      · refine ⟨⟨t, n, hr⟩, ?_, fun hnone => ?_⟩
        · simp [Action.subject, hl]
        · rw [show (pass.localSide u w₀).get q = none from hnone] at hl
          cases hl
      · cases e
    | keepBoth q c =>
      rcases hplanned with hw | ⟨_, _, e, -⟩
      · exact hconflict hw
      · cases e
    | setAside q c => exact hconflict hplanned.of_setAside
    | _ => exact absurd hfetch (by simp [Action.fetches])
  refine ⟨hf, hv, ⟨t, n, (Pass.remote_eq_some hr).1⟩, hlocal ▸ hnd, fun b hb hrem => ?_⟩
  rw [← Bool.not_eq_true]
  intro hin
  rcases atOrInside_iff.mp hin with he | hin
  · obtain rfl : a = b := Pass.eq_of_subject ha hb he.symm
    cases a <;> simp [Action.fetches, Action.removes] at hfetch hrem
  · have habove := (Pass.planned hb).removed_above
      (Pass.localSide_treeShaped hf.scan_treeShaped) (Pass.remote_treeShaped hf.server) hrem hin
    exact hnot habove.1 (((habove.2 _ hr).1).trans hr.symm)

/-- What a turn fetched is kept by the turns after it. -/
theorem Pass.Faithful.turns_bring (hf : pass.Faithful u w₀) (o : Option Entry) {t : Turn}
    (hv : Visible u t.action.subject) {turns : List Turn}
    (hplan : turns.map Turn.action <+: (pass.plan u w₀).actions)
    (h : Turns u pass (pass.remote u w₀) turns w w') (ht : t ∈ turns)
    (hwhole : t.Whole pass (pass.remote u w₀)) (hfetch : t.action.fetches = true) :
    pass.Sparing u w₀ t.action.subject ∧ KeptEither t.action.subject o w' := by
  obtain ⟨pre, post, rfl⟩ := List.append_of_mem ht
  obtain ⟨hmem, hne⟩ := Pass.turns_apart hplan
  have S := hf.sparing_of_fetch hv hmem hfetch
  obtain ⟨w₁, -, hrest⟩ := h.split
  obtain _ | ⟨-, hdone, report, hpost⟩ := hrest
  rw [hwhole] at hdone
  obtain ⟨w₂, w₃, g, hdown, hnote⟩ := performs_fetch hfetch hdone
  obtain _ | ⟨hnote, _ | _⟩ := hnote
  simp only [perform, ok_onReport] at hnote
  subst hnote
  have hkept := kept_of_download hv.not_hides hdown
  refine ⟨S, S.turns_either (fun s hs => hne s (List.mem_append_right _ hs)) hpost ?_⟩
  exact KeptEither.of_report ⟨hkept _, hkept _⟩ _

/-- **A pass keeps what it brought.** -/
theorem Pass.Faithful.attempt_brings (hf : pass.Faithful u w₀) {t : Turn}
    (hv : Visible u t.action.subject)
    (hname : ∀ q, q = t.action.subject ∨ t.action.subject.isInside q = true →
      pass.rules.takesFor u stagedStateName q = false)
    {turns : List Turn} (h : Attempt u pass w₀ turns w') (ht : t ∈ turns)
    (hwhole : t.Whole pass (pass.remote u w₀)) (hfetch : t.action.fetches = true) :
    Kept t.action.subject (w'.state.base.get t.action.subject) w' := by
  cases h with
  | ended hplan hturns hsave =>
    obtain ⟨S, hkept⟩ := hf.turns_bring (w₀.state.base.get t.action.subject) hv
      (hplan ▸ List.prefix_refl _) hturns ht hwhole hfetch
    exact kept_end S.remote_not_directory hsave hname hkept (Or.inl rfl)
  | died hplan hturns hsave =>
    obtain ⟨S, hkept⟩ := hf.turns_bring (w₀.state.base.get t.action.subject) hv hplan
      hturns ht hwhole hfetch
    exact kept_end S.remote_not_directory hsave hname hkept (Or.inr rfl)

/-- **A pass leaves on the server a file it kept.** -/
theorem Pass.Faithful.sparing_of_kept (hf : pass.Faithful u w₀) (hv : Visible u p)
    (h : Kept p (w₀.state.base.get p) w₀) : pass.Sparing u w₀ p := by
  refine ⟨hf, hv, h.there, h.not_directory, fun a ha hrem => ?_⟩
  have hplanned := Pass.planned ha
  have hfit := Pass.fit_of_mem ha
  have hgone : (pass.localSide u w₀).get a.subject = none := by
    cases a with
    | deleteRemote q =>
      rcases hplanned with ⟨_, _, -, hl, -⟩ | ⟨_, _, e, -⟩
      · exact hl
      · cases e
    | removeRemoteDirectory q =>
      rcases hplanned with ⟨hl, -⟩ | ⟨_, _, e, -⟩
      · exact hl
      · cases e
    | _ => exact absurd hrem (by simp [Action.removes])
  rw [← Bool.not_eq_true]
  intro hin
  rcases atOrInside_iff.mp hin with rfl | hin
  · rw [Pass.localSide, Pass.get_fits, hfit, hf.scan, if_pos hv] at hgone
    rcases h.here with ⟨t, n, hfile⟩ | ⟨-, hne⟩
    · exact absurd (hgone.symm.trans hfile) (by simp)
    · have hbase : (pass.base u w₀).get a.subject = w₀.state.base.get a.subject := by
        rw [Pass.base, Pass.get_fits, hfit]
        rfl
      obtain ⟨t, n, hp⟩ := h.there
      have hlisted : (pass.remote u w₀).get a.subject = some (.file t n) := by
        rw [Pass.remote, Pass.get_fits, hfit, Pass.get_listing, hv.not_hides]
        exact hp
      rw [← hbase, hp] at hne
      cases a with
      | deleteRemote q =>
        rcases hplanned with ⟨_, _, -, -, hb⟩ | ⟨_, _, e, -⟩
        · exact hne (hb.trans hlisted)
        · cases e
      | removeRemoteDirectory q =>
        rcases hplanned with ⟨-, hr, -⟩ | ⟨_, _, e, -⟩
        · exact absurd (hr.symm.trans hlisted) (by simp)
        · cases e
      | _ => exact absurd hrem (by simp [Action.removes])
  · rw [Pass.localSide, Pass.get_fits, hfit, hf.scan, if_pos (hv.above hin), h.above _ hin] at hgone
    cases hgone

end Fetch

end Stashden.Sync
