import Stashden.Sync.Settle

/-!
# A whole pass (`sync_once`)

`runActions_ok` reads a loop that recorded no failure as a `run` of its actions, each enabled where
it stood. `Pass.Faithful` says that the scan reports the folder and that both sides are trees;
`Pass.execution` then makes of such a pass the `Execution` the lemmas of `Settle.lean` are about,
and `syncOnce_base` adds what `record_agreed_directories` records at the end.
-/

namespace Stashden.Sync

open Lib Stashden.Core RelPath EngineM

/-! ## What a step of the engine keeps -/

namespace EngineM

variable {α β : Type} {J : World → Prop}

/-- A step keeps a property of the world, whether it succeeds or not. -/
def Maintains (J : World → Prop) (x : EngineM α) : Prop := ∀ w, J w → J (World.after (x w))

theorem Maintains.bind {x : EngineM α} {k : α → EngineM β} (hx : Maintains J x)
    (hk : ∀ a, Maintains J (k a)) : Maintains J (x >>= k) := by
  intro w hw
  have h := hx w hw
  show J (World.after (EStateM.bind x k w))
  unfold EStateM.bind
  cases hr : x w with
  | ok a w₁ =>
    rw [hr] at h
    exact hk a w₁ h
  | error r w₁ =>
    rw [hr] at h
    exact h

theorem maintains_onDisk {call : Snapshot → Except Reason Snapshot}
    (h : ∀ w d, J w → J { w with disk := d }) : Maintains J (onDisk call) := by
  intro w hw
  unfold onDisk
  cases call w.disk with
  | ok d => exact h w d hw
  | error e => exact hw

theorem maintains_onServer {call : Server → Except TransportError Server}
    (h : ∀ w s, call w.server = .ok s → J w → J { w with server := s }) :
    Maintains J (onServer call) := by
  intro w hw
  unfold onServer
  cases hc : call w.server with
  | ok s => exact h w s hc hw
  | error e => exact hw

theorem maintains_onState {g : SyncState → SyncState}
    (h : ∀ w s, J w → J { w with state := s }) : Maintains J (onState g) :=
  fun w hw => h w (g w.state) hw

theorem maintains_onReport {g : Report → Report}
    (h : ∀ w, J w → J { w with report := g w.report }) : Maintains J (onReport g) :=
  fun w hw => h w hw

theorem maintains_orFail {reason : Reason} {o : Option α} : Maintains J (orFail reason o) := by
  intro w hw
  cases o with
  | none => exact hw
  | some a => exact hw

theorem maintains_readFile {reason : Reason} {file : World → Option Entry} :
    Maintains J (readFile reason file) := by
  intro w hw
  unfold readFile
  split
  · exact hw
  · exact hw

end EngineM

/-! ## The loop -/

section Loop

variable {u : Unicode} {pass : Pass} {remote : Snapshot} {w : World} {J : World → Prop}

theorem maintains_uploadFrom {p source : RelPath} {expect : Expect}
    (hserver : ∀ w tag size s, putFile p tag size expect w.server = .ok s →
      J w → J { w with server := s }) : Maintains J (uploadFrom p source expect) :=
  maintains_readFile.bind fun e => maintains_onServer fun w s hs => hserver w e.1 e.2 s hs

theorem maintains_download {p : RelPath} (hdisk : ∀ w d, J w → J { w with disk := d })
    (hstate : ∀ w s, J w → J { w with state := s }) : Maintains J (download pass remote p) :=
  maintains_orFail.bind fun _ => (maintains_onDisk hdisk).bind fun _ => maintains_orFail.bind fun _ =>
    (maintains_readFile.bind fun _ => maintains_onDisk hdisk).bind fun _ =>
      (maintains_onDisk hdisk).bind fun _ => maintains_onState hstate

/-- **What an action keeps**, failing or not: a property that ignores the disk, the record and the
counts, and that the server calls of the action keep. -/
theorem maintains_apply {a : Action}
    (hdisk : ∀ w d, J w → J { w with disk := d }) (hstate : ∀ w s, J w → J { w with state := s })
    (hreport : ∀ w r, r.failures = w.report.failures → J w → J { w with report := r })
    (hput : ∀ w p tag size expect s,
      (a = .upload p ∧ expect = expectOf remote p) ∨ (∃ q, a = .keepBoth q p ∧ expect = .absent) →
      putFile p tag size expect w.server = .ok s → J w → J { w with server := s })
    (hmake : ∀ w p s, a = .createRemoteDirectory p → createDirectory p w.server = .ok s →
      J w → J { w with server := s })
    (hremove : ∀ w s, a.removes = true → remove a.subject w.server = .ok s →
      J w → J { w with server := s }) : Maintains J (apply u pass remote a) := by
  have hcount : ∀ {g : Report → Report}, (∀ r, (g r).failures = r.failures) →
      Maintains J (onReport g) := fun hg => maintains_onReport fun w => hreport w _ (hg w.report)
  cases a with
  | createLocalDirectory p =>
    exact (maintains_onDisk hdisk).bind fun _ => (maintains_onState hstate).bind fun _ =>
      hcount fun _ => rfl
  | createRemoteDirectory p =>
    exact (maintains_onServer fun w s hs => hmake w p s rfl hs).bind fun _ =>
      (maintains_onState hstate).bind fun _ => hcount fun _ => rfl
  | removeLocalDirectory p =>
    exact (maintains_onDisk hdisk).bind fun _ => (maintains_onDisk hdisk).bind fun _ =>
      (maintains_onState hstate).bind fun _ => hcount fun _ => rfl
  | download p =>
    exact (maintains_download hdisk hstate).bind fun _ => hcount fun _ => rfl
  | upload p =>
    have hup : Maintains J (uploadFrom p p (expectOf remote p)) :=
      maintains_uploadFrom fun w tag size s => hput w p tag size _ s (Or.inl ⟨rfl, rfl⟩)
    exact (maintains_orFail.bind fun _ => hup.bind fun _ => maintains_onState hstate).bind fun _ =>
      hcount fun _ => rfl
  | deleteLocal p =>
    exact (maintains_onDisk hdisk).bind fun _ => (maintains_onState hstate).bind fun _ =>
      hcount fun _ => rfl
  | deleteRemote p =>
    exact (maintains_onServer fun w s hs => hremove w s rfl hs).bind fun _ =>
      (maintains_onState hstate).bind fun _ => hcount fun _ => rfl
  | removeRemoteDirectory p =>
    exact (maintains_onServer fun w s hs => hremove w s rfl hs).bind fun _ =>
      (maintains_onState hstate).bind fun _ => hcount fun _ => rfl
  | forget p => exact maintains_onState (g := fun s => s.forget p) hstate
  | keepBoth p c =>
    have hup : Maintains J (uploadFrom c c .absent) :=
      maintains_uploadFrom fun w tag size s => hput w c tag size _ s (Or.inr ⟨p, rfl, rfl⟩)
    exact (maintains_onDisk hdisk).bind fun _ => maintains_orFail.bind fun _ => hup.bind fun _ =>
      (maintains_onState hstate).bind fun _ => (maintains_download hdisk hstate).bind fun _ =>
        hcount fun _ => rfl
  | setAside p c =>
    exact (maintains_onDisk hdisk).bind fun _ => (maintains_onState hstate).bind fun _ =>
      (maintains_download hdisk hstate).bind fun _ => hcount fun _ => rfl

/-- Only the loop records failures. -/
theorem apply_failures {a : Action} :
    (World.after (apply u pass remote a w)).report.failures = w.report.failures :=
  maintains_apply (J := fun w' => w'.report.failures = w.report.failures) (fun _ _ h => h)
    (fun _ _ h => h) (fun _ _ hr h => hr.trans h) (fun _ _ _ _ _ _ _ _ h => h)
    (fun _ _ _ _ _ h => h) (fun _ _ _ _ h => h) w rfl

/-- The failures of a loop only grow. -/
theorem failures_runActions (acts : List Action) :
    ∃ more, (runActions u pass remote acts w).report.failures = w.report.failures ++ more := by
  induction acts generalizing w with
  | nil => exact ⟨[], (List.append_nil _).symm⟩
  | cons a acts ih =>
    obtain ⟨more, hmore⟩ := ih (w := runAction u pass remote a w)
    have ha : (World.after (apply u pass remote a w)).report.failures = w.report.failures :=
      apply_failures
    have hstep : ∃ one, (runAction u pass remote a w).report.failures =
        w.report.failures ++ one := by
      unfold runAction
      cases hr : apply u pass remote a w with
      | ok x w₁ =>
        rw [hr] at ha
        exact ⟨[], ha.trans (List.append_nil _).symm⟩
      | error r w₁ =>
        rw [hr] at ha
        have hw₁ : w₁.report.failures = w.report.failures := ha
        exact ⟨[⟨a.subject, r⟩], by simp [hw₁]⟩
    obtain ⟨one, hone⟩ := hstep
    exact ⟨one ++ more, by rw [runActions, List.foldl_cons, ← List.append_assoc, ← hone]; exact hmore⟩

/-- A turn of the loop leaves the server as the action does. -/
theorem server_runAction {a : Action} :
    (runAction u pass remote a w).server = (World.after (apply u pass remote a w)).server := by
  unfold runAction
  cases apply u pass remote a w <;> rfl

/-- The invariant rule of the loop, for what only reads the server. -/
theorem runActions_invariant {K : Server → Prop} {acts : List Action}
    (hput : ∀ server p tag size expect s,
      (.upload p ∈ acts ∧ expect = expectOf remote p) ∨
        (∃ q, .keepBoth q p ∈ acts ∧ expect = .absent) →
      putFile p tag size expect server = .ok s → K server → K s)
    (hmake : ∀ server p s, .createRemoteDirectory p ∈ acts → createDirectory p server = .ok s →
      K server → K s)
    (hremove : ∀ server a s, a ∈ acts → a.removes = true → remove a.subject server = .ok s →
      K server → K s)
    (h : K w.server) : K (runActions u pass remote acts w).server := by
  induction acts generalizing w with
  | nil => exact h
  | cons a acts ih =>
    have hmem := fun {b : Action} => List.mem_cons_of_mem (a := b) a (l := acts)
    refine ih (w := runAction u pass remote a w)
      (fun server p tag size expect s hor => hput server p tag size expect s ?_)
      (fun server p s hb => hmake server p s (hmem hb))
      (fun server b s hb => hremove server b s (hmem hb)) ?_
    · rcases hor with ⟨hb, he⟩ | ⟨q, hb, he⟩
      · exact Or.inl ⟨hmem hb, he⟩
      · exact Or.inr ⟨q, hmem hb, he⟩
    · rw [server_runAction]
      refine maintains_apply (J := fun w => K w.server) (fun _ _ h => h) (fun _ _ h => h)
        (fun _ _ _ h => h) (fun w p tag size expect s hor => hput w.server p tag size expect s ?_)
        (fun w p s ha => hmake w.server p s (ha ▸ List.mem_cons_self))
        (fun w s hrem => hremove w.server a s List.mem_cons_self hrem) w h
      rcases hor with ⟨hb, he⟩ | ⟨q, hb, he⟩
      · exact Or.inl ⟨hb ▸ List.mem_cons_self, he⟩
      · exact Or.inr ⟨q, hb ▸ List.mem_cons_self, he⟩

/-- **A loop without a failure** runs every action where it is enabled, to its effect. -/
theorem runActions_ok {acts : List Action} (hseen : ∀ a ∈ acts, a.Seen u)
    (h : (runActions u pass remote acts w).report.failures = []) :
    EnabledAlong pass.scan.snapshot.get remote.get acts (w.sides u) ∧
      (runActions u pass remote acts w).sides u =
        run pass.scan.snapshot.get remote.get acts (w.sides u) := by
  induction acts generalizing w with
  | nil => exact ⟨.nil _, rfl⟩
  | cons a acts ih =>
    have hrest : (runActions u pass remote acts (runAction u pass remote a w)).report.failures = [] :=
      h
    have hnil : (runAction u pass remote a w).report.failures = [] := by
      obtain ⟨more, hmore⟩ := failures_runActions acts
      exact (List.append_eq_nil_iff.mp (hmore.symm.trans hrest)).1
    obtain ⟨hen, hrun⟩ := ih (fun b hb => hseen b (List.mem_cons_of_mem a hb)) hrest
    cases hr : apply u pass remote a w with
    | error r w₁ =>
      exfalso
      rw [runAction, hr] at hnil
      exact absurd hnil (by simp)
    | ok x w₁ =>
      have hstep : runAction u pass remote a w = w₁ := by rw [runAction, hr]
      obtain ⟨hena, heff⟩ := apply_ok (hseen a List.mem_cons_self) hr
      rw [hstep, heff] at hen hrun
      refine ⟨.cons hena hen, Eq.trans ?_ hrun⟩
      rw [← hstep]
      rfl

end Loop

/-! ## What a pass sees -/

/-- The names `a`, `d` and `d/a`, of the small folders at the ends of the modules below. -/
def pathA : RelPath := ⟨['a'], by decide⟩

def pathD : RelPath := ⟨['d'], by decide⟩

def pathDA : RelPath := ⟨"d/a".toList, by decide⟩

namespace Pass

variable {u : Unicode} {pass : Pass} {w : World} {p : RelPath}

/-- The scan reports the folder, and what the two sides hold are trees. -/
structure Faithful (u : Unicode) (pass : Pass) (w : World) : Prop where
  scan : ∀ p, pass.scan.snapshot.get p = if Visible u p then w.disk.get p else none
  disk : w.disk.TreeShaped
  server : w.server.tree.TreeShaped

/-- A path the pass compares: no ignore rule hides it, and its name fits. -/
structure Sees (u : Unicode) (pass : Pass) (w : World) (p : RelPath) : Prop where
  visible : Visible u p
  fit : (pass.unfit u w).containsKey p = false

/-- No action of the pass failed. -/
def Clean (u : Unicode) (pass : Pass) (w : World) : Prop :=
  (syncOnce u pass w).report.failures = []

instance : Decidable (Clean u pass w) := inferInstanceAs (Decidable (_ = []))

theorem get_fits (m : Snapshot) (p : RelPath) :
    (pass.fits u w m).get p = if (pass.unfit u w).containsKey p then none else m.get p := by
  unfold fits
  rw [OrdMap.get_retain]
  cases (pass.unfit u w).containsKey p <;> rfl

theorem get_listing (p : RelPath) :
    (Pass.listing u w).get p = if hides u p then none else w.server.tree.get p := by
  unfold listing
  rw [OrdMap.get_retain]
  cases hides u p <;> rfl

theorem Faithful.scan_treeShaped (h : Faithful u pass w) : pass.scan.snapshot.TreeShaped := by
  intro p e hp d hd
  rw [h.scan] at hp ⊢
  split_ifs at hp with hv
  rw [if_pos (hv.above (isInside_of_parent hd))]
  exact h.disk p e hp d hd

theorem listing_treeShaped (h : w.server.tree.TreeShaped) : (Pass.listing u w).TreeShaped := by
  refine h.retain fun p d e _ hkeep hd => ?_
  rw [Bool.not_eq_true'] at hkeep ⊢
  exact not_hides_above (isInside_of_parent hd) hkeep

theorem localSide_treeShaped (h : pass.scan.snapshot.TreeShaped) :
    (pass.localSide u w).TreeShaped := fit_treeShaped h (Or.inl rfl)

theorem remote_treeShaped (h : w.server.tree.TreeShaped) : (pass.remote u w).TreeShaped :=
  fit_treeShaped (listing_treeShaped h) (Or.inr rfl)

theorem localSide_eq_some {e : Entry} (h : (pass.localSide u w).get p = some e) :
    pass.scan.snapshot.get p = some e ∧ (pass.unfit u w).containsKey p = false := by
  unfold localSide at h
  rw [get_fits] at h
  split_ifs at h with hu
  exact ⟨h, by simpa using hu⟩

theorem remote_eq_some {e : Entry} (h : (pass.remote u w).get p = some e) :
    w.server.tree.get p = some e ∧ hides u p = false ∧ (pass.unfit u w).containsKey p = false := by
  unfold remote at h
  rw [get_fits, get_listing] at h
  split_ifs at h with hu hh
  exact ⟨h, by simpa using hh, by simpa using hu⟩

theorem Faithful.of_localSide (h : Faithful u pass w) {e : Entry}
    (hp : (pass.localSide u w).get p = some e) : Visible u p ∧ w.disk.get p = some e := by
  have hs := (localSide_eq_some hp).1
  rw [h.scan] at hs
  split_ifs at hs with hv
  exact ⟨hv, hs⟩

/-- The sides of a world carry what the pass compares, wherever it looks. -/
theorem Faithful.agrees (h : Faithful u pass w) (hp : Sees u pass w p) :
    Agrees (pass.localSide u w) (pass.remote u w) (pass.base u w) (w.sides u) p := by
  have hh := hp.visible.not_hides
  refine ⟨?_, ?_, ?_⟩
  · rw [sides_disk hh, localSide, get_fits, hp.fit, h.scan, if_pos hp.visible]
    rfl
  · rw [sides_server hh, remote, get_fits, hp.fit, get_listing, hh]
    rfl
  · rw [base, get_fits, hp.fit]
    rfl

theorem plan_eq :
    pass.plan u w = pass.held.apply
      (reconcile (pass.localSide u w) (pass.remote u w) (pass.base u w) pass.now) := by
  unfold Pass.plan
  rfl

/-- What a pass plans. -/
theorem planned {a : Action} (h : a ∈ (pass.plan u w).actions) :
    Planned (pass.localSide u w) (pass.remote u w) (pass.base u w) pass.now a := by
  rw [plan_eq] at h
  exact Execution.planned_of_mem h

theorem Faithful.seen (h : Faithful u pass w) {a : Action} (ha : a ∈ (pass.plan u w).actions) :
    a.Seen u := by
  have hpl := planned ha
  have hsub : a = .forget a.subject ∨ hides u a.subject = false := by
    rcases Execution.subject_listed hpl with ⟨e, he⟩ | ⟨e, he⟩ | he
    · exact Or.inr (h.of_localSide he).1.not_hides
    · exact Or.inr (remote_eq_some he).2.1
    · exact Or.inl he
  have hcopy : ∀ q c, Warranted (pass.localSide u w) (pass.remote u w) (pass.base u w) pass.now
      (.keepBoth q c) → hides u q = false → hides u c = false := fun q c hw hq =>
    not_hides_conflictCopy hw.2.2.2.2 hq
  rcases hsub with he | hh
  · rw [he]
    exact trivial
  · cases a with
    | forget p => exact trivial
    | keepBoth q c =>
      rcases hpl with hw | ⟨_, _, e, -⟩
      · exact ⟨hh, hcopy q c hw hh⟩
      · cases e
    | setAside q c => exact ⟨hh, hcopy q c hpl.of_setAside hh⟩
    | _ => exact hh

/-- A pass over a folder without rules or shares, its scan reporting the folder as it stands. -/
def plain (u : Unicode) (now : DateTime) (disk : Snapshot) : Pass where
  rules := ⟨false, false⟩
  mounts := none
  now := now
  scan := ⟨(disk.retain fun p => decide (Visible u p)).mapVal fun e => ⟨e, none⟩, []⟩
  mtimeOf := fun _ => none

theorem faithful_plain {now : DateTime} {disk : Snapshot} (h : w.disk = disk)
    (hd : disk.TreeShaped) (hs : w.server.tree.TreeShaped) : Faithful u (plain u now disk) w := by
  subst h
  refine ⟨fun p => ?_, hd, hs⟩
  show OrdMap.get (OrdMap.mapVal Scanned.entry _) p = _
  rw [OrdMap.get_mapVal]
  show Option.map _ (OrdMap.get (OrdMap.mapVal _ _) p) = _
  rw [OrdMap.get_mapVal, OrdMap.get_retain]
  by_cases hv : Visible u p
  · simp [hv, Option.map_map, Function.comp_def]
  · simp [hv]

theorem sees_plain {now : DateTime} {disk : Snapshot} (hv : Visible u p) :
    Sees u (plain u now disk) w p :=
  ⟨hv, unfit_of_no_rules u _ p⟩

/-- The directories both sides had are recorded, and nothing else. -/
theorem recordAgreedDirectories_base (remote : Snapshot) (state : SyncState) (p : RelPath) :
    (recordAgreedDirectories pass remote state).base.get p =
      if pass.scan.snapshot.get p = some .directory ∧ remote.get p = some .directory then
        some .directory
      else state.base.get p := by
  have hfold : ∀ (ds : List RelPath) (state : SyncState),
      (ds.foldl (fun state d => state.record d .directory none) state).base.get p =
        if p ∈ ds then some .directory else state.base.get p := by
    intro ds
    induction ds with
    | nil => simp
    | cons d ds ih =>
      intro state
      rw [List.foldl_cons, ih, SyncState.base_record]
      by_cases hp : p ∈ ds <;> by_cases hd : p = d <;> simp [hp, hd]
  unfold recordAgreedDirectories
  rw [hfold]
  refine if_congr ?_ rfl rfl
  rw [List.mem_filter, Bool.and_eq_true, decide_eq_true_eq, decide_eq_true_eq]
  refine ⟨And.right, fun h => ⟨?_, h⟩⟩
  rw [LocalScan.get_snapshot] at h
  obtain ⟨s, hs, -⟩ := Option.map_eq_some_iff.mp h.1
  exact OrdMap.mem_keys_iff.mpr ⟨s, hs⟩

/-- The loop of a pass, without the record of the directories both sides had. -/
def ran (u : Unicode) (pass : Pass) (w : World) : World :=
  runActions u pass (pass.remote u w) (pass.plan u w).actions { w with report := pass.report u w }

theorem sides_report (r : Report) : World.sides u { w with report := r } = w.sides u := rfl

theorem syncOnce_report : (syncOnce u pass w).report = (pass.ran u w).report := by
  simp only [syncOnce, ran]

theorem syncOnce_disk : (syncOnce u pass w).disk = (pass.ran u w).disk := by
  simp only [syncOnce, ran]

theorem syncOnce_server : (syncOnce u pass w).server = (pass.ran u w).server := by
  simp only [syncOnce, ran]

theorem syncOnce_state :
    (syncOnce u pass w).state =
      recordAgreedDirectories pass (pass.remote u w) (pass.ran u w).state := by
  simp only [syncOnce, ran]

variable (hf : Faithful u pass w) (hc : Clean u pass w)

include hf hc

theorem Faithful.ran_ok :
    EnabledAlong pass.scan.snapshot.get (pass.remote u w).get
        (acts pass.held (pass.localSide u w) (pass.remote u w) (pass.base u w) pass.now)
        (w.sides u) ∧
      (pass.ran u w).sides u = run pass.scan.snapshot.get (pass.remote u w).get
        (acts pass.held (pass.localSide u w) (pass.remote u w) (pass.base u w) pass.now)
        (w.sides u) := by
  unfold acts
  rw [← plan_eq]
  have hran : (pass.ran u w).report.failures = [] := by
    rw [← syncOnce_report]
    exact hc
  unfold ran at hran ⊢
  have h := runActions_ok (fun _ ha => hf.seen ha) hran
  rwa [sides_report] at h

/-- **A faithful pass without a failure is an execution of its plan.** -/
theorem Faithful.execution :
    Execution pass.held (pass.localSide u w) (pass.remote u w) (pass.base u w) pass.now
      pass.scan.snapshot.get
      (acts pass.held (pass.localSide u w) (pass.remote u w) (pass.base u w) pass.now)
      (w.sides u) where
  part := List.Sublist.refl _
  localTree := localSide_treeShaped hf.scan_treeShaped
  remoteTree := remote_treeShaped hf.server
  enabled := (hf.ran_ok hc).1
  scanned := fun _ _ h => (localSide_eq_some h).1
  onDisk := fun q e h => by
    obtain ⟨hv, hd⟩ := hf.of_localSide h
    rw [sides_disk hv.not_hides]
    exact hd
  onServer := fun q e h => by
    obtain ⟨hs, hh, -⟩ := remote_eq_some h
    rw [sides_server hh]
    exact hs

theorem Faithful.ran_sides : (pass.ran u w).sides u = (hf.execution hc).outcome := by
  unfold Execution.outcome
  exact (hf.ran_ok hc).2

/-- What stands on the two sides after it. -/
theorem syncOnce_sides (p : RelPath) :
    ((syncOnce u pass w).sides u).disk p = (hf.execution hc).outcome.disk p ∧
      ((syncOnce u pass w).sides u).server p = (hf.execution hc).outcome.server p := by
  rw [← hf.ran_sides hc]
  simp only [World.sides, syncOnce_disk, syncOnce_server, and_self]

/-- What is recorded after it. -/
theorem syncOnce_base (p : RelPath) :
    (syncOnce u pass w).state.base.get p =
      if pass.scan.snapshot.get p = some .directory ∧
          (pass.remote u w).get p = some .directory then some .directory
      else (hf.execution hc).outcome.base p := by
  rw [← hf.ran_sides hc, syncOnce_state, recordAgreedDirectories_base]
  simp only [World.sides]

end Pass

end Stashden.Sync
