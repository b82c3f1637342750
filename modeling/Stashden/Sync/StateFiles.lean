import Stashden.Sync.Brought
import Stashden.Sync.Walk

/-!
# The engine's own files (`state.rs:11-17`, `ignore.rs:6-19`, `local.rs:52-111`)

The remote listing is filtered by `hides`, the walk by the same rules and by `is_state_file` on every
level, so the two agree on all paths but those with a state file's name in them (`agreeAt_iff`). A
file with such a name is downloaded, never seen by the next scan, and deleted from the server.

`names_agree_iff` puts this beside the runs: passes one after the other, each stopping where it may,
with no other change. Where no listing has a name of the engine's own, no pass deletes what an earlier
one downloaded, and none downloads onto the state file. `state_file_deleted` is the run that does.
-/

namespace Stashden.Sync

open Lib Stashden.Core RelPath

variable {u : Unicode} {w w' : World} {p : RelPath}

/-! ## Two filters -/

/-- `hides` lets a path through exactly when the walk reports what stands there, as what it is. -/
def AgreeAt (u : Unicode) (p : RelPath) : Prop :=
  ∀ (cache : SyncState) (root : Listing) (item : Item) (e : Entry), root.wellFormed = true →
    root.find p.segments = some item → item.entry = some e →
      (hides u p = false ↔ ∃ scanned, (scanOf u cache root).entries.get p = some scanned ∧
        scanned.entry.isDirectory = e.isDirectory)

/-- A folder with nothing but an item and the directories it is in. -/
def Listing.along : List Str → Item → Listing
  | [], _ => .nil
  | [name], item => .cons (.text name) item .nil
  | name :: next :: rest, item => .cons (.text name) (.directory (along (next :: rest) item)) .nil

theorem Listing.find_along {names : List Str} (h : names ≠ []) (item : Item) :
    (along names item).find names = some item := by
  induction names with
  | nil => exact absurd rfl h
  | cons name names ih =>
    cases names with
    | nil => rw [along, find, get, if_pos rfl]
    | cons next rest =>
      rw [along, find_cons, get, if_pos rfl]
      exact ih (List.cons_ne_nil _ _)

theorem Listing.wellFormed_along {names : List Str} (h : ∀ name ∈ names, name ≠ [] ∧ '/' ∉ name)
    {item : Item} (hitem : item.wellFormed = true) : (along names item).wellFormed = true := by
  induction names with
  | nil => rfl
  | cons name names ih =>
    obtain ⟨hname, hrest⟩ := List.forall_mem_cons.mp h
    cases names with
    | nil => simp [along, wellFormed, get, hname.1, hname.2, hitem]
    | cons next rest =>
      have hinside := ih hrest
      simp [along, wellFormed, Item.wellFormed, get, hname.1, hname.2, hinside]

/-- A file is reported as one, by a recorded entry or a fresh one. -/
theorem isDirectory_fingerprint {cache : SyncState} {tag : Str} {size : Nat}
    {mtimeMs : Option Int} : (fingerprint cache p tag size mtimeMs).entry.isDirectory = false := by
  unfold fingerprint
  split
  · split_ifs <;> rfl
  · rfl

/-- What is reported, and as what it is: all that stands under visible names. -/
theorem reported_iff {cache : SyncState} {root : Listing} {item : Item} {e : Entry}
    (hwf : root.wellFormed = true) (hf : root.find p.segments = some item)
    (he : item.entry = some e) :
    (∃ scanned, (scanOf u cache root).entries.get p = some scanned ∧
      scanned.entry.isDirectory = e.isDirectory) ↔ Visible u p := by
  rw [get_scanOf hwf, hf]
  constructor
  · rintro ⟨scanned, hget, -⟩
    by_contra hv
    rw [if_neg hv] at hget
    cases hget
  · intro hv
    rw [if_pos hv]
    cases item with
    | file tag size mtimeMs =>
      cases he
      exact ⟨_, rfl, isDirectory_fingerprint⟩
    | directory inside =>
      cases he
      exact ⟨_, rfl, rfl⟩
    | symlink => cases he
    | special => cases he

/-- **The filters agree exactly on** the hidden paths and those without a state file's name. -/
theorem agreeAt_iff : AgreeAt u p ↔
    hides u p = true ∨ ∀ name ∈ p.segments, isStateFile name = false := by
  constructor
  · intro h
    have hfind : (Listing.along p.segments (.directory .nil)).find p.segments =
        some (.directory .nil) := Listing.find_along (List.splitOn_ne_nil '/' p.str) _
    have hwf : (Listing.along p.segments (.directory .nil)).wellFormed = true :=
      Listing.wellFormed_along (fun name hn =>
        ⟨segments_ne_nil p name hn, NodeName.slash_not_mem (p.valid name hn)⟩) rfl
    have hseen := (h ⟨OrdMap.empty⟩ _ _ _ hwf hfind rfl).trans (reported_iff hwf hfind rfl)
    by_cases hp : hides u p = true
    · exact Or.inl hp
    · exact Or.inr fun name hn => (hseen.mp (by simpa using hp) name hn).2
  · intro h cache root item e hwf hf he
    rw [reported_iff hwf hf he]
    refine ⟨fun hp => ?_, Visible.not_hides⟩
    rcases h with h | h
    · rw [hp] at h
      cases h
    · exact fun name hn => ⟨hides_eq_false_iff.mp hp name hn, h name hn⟩

/-! ## Runs of passes -/

/-- A pass of a run: what it was given, what it found, and its turns. -/
structure Step where
  pass : Pass
  before : World
  turns : List Turn

namespace Step

variable (u : Unicode) (step : Step)

/-- What the pass plans. -/
def planned : List Action := (step.pass.plan u step.before).actions

/-- The pass downloaded a file: an action that fetches it was carried out. -/
def Downloaded (p : RelPath) : Prop :=
  ∃ t ∈ step.turns, t.Whole step.pass (step.pass.remote u step.before) ∧
    t.action.fetches = true ∧ t.action.subject = p

end Step

/-- Passes of one engine, one after the other, and no other change. -/
inductive Run (u : Unicode) (rules : Rules) : World → List Step → World → Prop
  | nil (w : World) : Run u rules w [] w
  | cons {pass : Pass} {w w₁ w' : World} {turns : List Turn} {steps : List Step}
      (hrules : pass.rules = rules) (hfaithful : pass.Faithful u w)
      (hpass : Attempt u pass w turns w₁) (hrest : Run u rules w₁ steps w') :
      Run u rules w (⟨pass, w, turns⟩ :: steps) w'

/-- The folder takes the path for the engine's own state file. -/
def Rules.takesForState (u : Unicode) (rules : Rules) (p : RelPath) : Bool :=
  rules.takesFor u stateFileName p || rules.takesFor u legacyStateFileName p

/-- No pass removes from the server a file an earlier one downloaded, and none downloads onto the
state file. -/
structure RunKeeps (u : Unicode) (steps : List Step) : Prop where
  downloaded : steps.Pairwise fun earlier later => ∀ p, earlier.Downloaded u p →
    ∀ a ∈ later.planned u, a.removes = true → atOrInside a.subject p = false
  stateFile : ∀ step ∈ steps, ∀ a ∈ step.planned u, a.fetches = true →
    step.pass.rules.takesForState u a.subject = false

/-- The listing of a pass has no name of the engine's own: no state file's on any level, none at the
root that the folder takes for one, nor for the name the state is staged under. -/
def Step.Plain (u : Unicode) (step : Step) : Prop :=
  ∀ p e, (step.pass.remote u step.before).get p = some e →
    (∀ name ∈ p.segments, isStateFile name = false) ∧
      step.pass.rules.takesForState u p = false ∧
      step.pass.rules.takesFor u stagedStateName p = false

/-- A kept file stays through a run, and no pass of it removes the file. -/
theorem Run.spares {rules : Rules} {steps : List Step} (h : Run u rules w steps w')
    (hv : Visible u p)
    (hname : ∀ q, q = p ∨ p.isInside q = true → rules.takesFor u stagedStateName q = false)
    (hkept : Kept p (w.state.base.get p) w) :
    ∀ step ∈ steps, ∀ b ∈ step.planned u, b.removes = true → atOrInside b.subject p = false := by
  induction h with
  | nil => exact fun _ hstep => absurd hstep List.not_mem_nil
  | cons hrules hfaithful hpass _ ih =>
    have S := hfaithful.sparing_of_kept hv hkept
    subst hrules
    intro step hstep
    rcases List.mem_cons.mp hstep with rfl | hstep
    · exact S.unremoved
    · exact ih (S.attempt hname hkept hpass) step hstep

/-- **A run over plain listings** deletes nothing it downloaded, and leaves the state file alone. -/
theorem Run.keeps {rules : Rules} {steps : List Step} (h : Run u rules w steps w')
    (hplain : ∀ step ∈ steps, step.Plain u) : RunKeeps u steps := by
  induction h with
  | nil => exact ⟨.nil, fun _ hstep => absurd hstep List.not_mem_nil⟩
  | @cons pass w w₁ w' turns steps hrules hfaithful hpass hrest ih =>
    obtain ⟨hhere, hthere⟩ := List.forall_mem_cons.mp hplain
    obtain ⟨hdown, hstate⟩ := ih hthere
    have hfetched : ∀ {a : Action}, a ∈ (pass.plan u w).actions → a.fetches = true →
        ∃ e, (pass.remote u w).get a.subject = some e := by
      intro a ha hfetch
      refine (Pass.planned ha).listed ?_
      cases a <;> first | rfl | cases hfetch
    refine ⟨List.pairwise_cons.mpr ⟨?_, hdown⟩,
      List.forall_mem_cons.mpr ⟨fun a ha hfetch => ?_, hstate⟩⟩
    · rintro later hlater _ ⟨t, ht, hwhole, hfetch, rfl⟩
      have hmem : t.action ∈ (pass.plan u w).actions := by
        cases hpass with
        | ended hplan => exact hplan ▸ List.mem_map_of_mem ht
        | died hplan => exact hplan.subset (List.mem_map_of_mem ht)
      obtain ⟨e, he⟩ := hfetched hmem hfetch
      have hvisible : Visible u t.action.subject := fun name hn =>
        ⟨hides_eq_false_iff.mp (Pass.remote_eq_some he).2.1 name hn, (hhere _ e he).1 name hn⟩
      have hname : ∀ q, q = t.action.subject ∨ t.action.subject.isInside q = true →
          pass.rules.takesFor u stagedStateName q = false := by
        rintro q (rfl | hin)
        · exact (hhere _ e he).2.2
        · exact (hhere q _ ((Pass.remote_treeShaped hfaithful.server).above he hin)).2.2
      have hkept := hfaithful.attempt_brings hvisible hname hpass ht hwhole hfetch
      rw [hrules] at hname
      exact hrest.spares hvisible hname hkept later hlater
    · obtain ⟨e, he⟩ := hfetched ha hfetch
      exact (hhere _ e he).2.1

/-- **What the scan sees and what the remote filter lets through**: the two agree on a path exactly
when it is hidden or has no state file's name in it; and where no listing has a name of the engine's
own, no pass deletes what an earlier one downloaded, nor downloads onto the state file. -/
theorem names_agree_iff (u : Unicode) :
    (∀ p, AgreeAt u p ↔ hides u p = true ∨ ∀ name ∈ p.segments, isStateFile name = false) ∧
      ∀ rules w steps w', Run u rules w steps w' → (∀ step ∈ steps, step.Plain u) →
        RunKeeps u steps :=
  ⟨fun _ => agreeAt_iff, fun _ _ _ _ h hplain => h.keeps hplain⟩

/-! ## Two servers -/

/-- A state file's name on the second level. -/
def pathDState : RelPath := ⟨"d/.stashden-sync.json".toList, by decide⟩

/-- `d` with one file on the server, and an empty folder. -/
def onlyThere (inside : RelPath) : World where
  disk := OrdMap.empty
  server := ⟨OrdMap.ofList [(pathD, .directory), (inside, .file ['x'] 1)], []⟩
  state := ⟨OrdMap.empty⟩
  report := .default

/-- The world after a pass that reports the folder as it stands. -/
def World.next (w : World) : World := syncOnce .ascii (Pass.plain .ascii .unixEpoch w.disk) w

/-- The step of a run that such a pass is. -/
def World.step (w : World) : Step where
  pass := Pass.plain .ascii .unixEpoch w.disk
  before := w
  turns := (Pass.plain .ascii .unixEpoch w.disk).turns .ascii w

/-- An action that made all its calls downloaded what it fetches. -/
theorem World.step_downloaded {w : World} {p : RelPath}
    (h : ∃ t ∈ w.step.turns, t.performed.length =
      (calls w.step.pass (w.step.pass.remote .ascii w) t.action).length ∧
      t.action.fetches = true ∧ t.action.subject = p) : w.step.Downloaded .ascii p := by
  obtain ⟨t, ht, hlength, hfetch, hsub⟩ := h
  exact ⟨t, ht, (performed_starts ht).eq_of_length hlength, hfetch, hsub⟩

theorem run_twice (w : World) (hdisk : w.disk.TreeShaped) (hserver : w.server.tree.TreeShaped)
    (hdisk' : w.next.disk.TreeShaped) (hserver' : w.next.server.tree.TreeShaped) :
    Run .ascii ⟨false, false⟩ w [w.step, w.next.step] w.next.next :=
  .cons rfl (Pass.faithful_plain rfl hdisk hserver) (attempt_syncOnce _ _ _)
    (.cons rfl (Pass.faithful_plain rfl hdisk' hserver') (attempt_syncOnce _ _ _) (.nil _))

/-- A file with a name of its own is downloaded, and stays. -/
theorem names_agree_iff_twice :
    (onlyThere pathDA).step.Downloaded .ascii pathDA ∧
      (AgreeAt .ascii pathDA ↔
        hides .ascii pathDA = true ∨ ∀ name ∈ pathDA.segments, isStateFile name = false) ∧
      RunKeeps .ascii [(onlyThere pathDA).step, (onlyThere pathDA).next.step] := by
  refine ⟨World.step_downloaded (by decide +kernel), (names_agree_iff .ascii).1 pathDA,
    (names_agree_iff .ascii).2 _ _ _ _ (run_twice (onlyThere pathDA) (by decide +kernel)
      (by decide +kernel) (by decide +kernel) (by decide +kernel)) ?_⟩
  have hplain : ∀ step ∈ [(onlyThere pathDA).step, (onlyThere pathDA).next.step],
      ∀ x ∈ (step.pass.remote .ascii step.before).entries,
        (∀ name ∈ x.1.segments, isStateFile name = false) ∧
          step.pass.rules.takesForState .ascii x.1 = false ∧
          step.pass.rules.takesFor .ascii stagedStateName x.1 = false := by
    decide +kernel
  exact fun step hstep p e he => hplain step hstep (p, e) (OrdMap.get_eq_some_iff.mp he)

/-- **A file with the state file's name is deleted from the server** by the pass after the one that
downloaded it, and the two filters do not agree on it. -/
theorem state_file_deleted :
    ¬AgreeAt .ascii pathDState ∧
      ∃ w w' steps, Run .ascii ⟨false, false⟩ w steps w' ∧ ¬RunKeeps .ascii steps := by
  refine ⟨fun h => ?_, onlyThere pathDState, _, _, run_twice (onlyThere pathDState)
    (by decide +kernel) (by decide +kernel) (by decide +kernel) (by decide +kernel), fun h => ?_⟩
  · rcases agreeAt_iff.mp h with h | h
    · exact absurd h (by decide +kernel)
    · exact absurd (h stateFileName (by decide +kernel)) (by decide +kernel)
  · have hdown : (onlyThere pathDState).step.Downloaded .ascii pathDState :=
      World.step_downloaded (by decide +kernel)
    have hdelete : .deleteRemote pathDState ∈ (onlyThere pathDState).next.step.planned .ascii := by
      decide +kernel
    have hsafe := (List.pairwise_cons.mp h.downloaded).1 _ List.mem_cons_self _ hdown _ hdelete rfl
    exact absurd hsafe (by decide)

end Stashden.Sync
