import Stashden.Sync.Pass

/-!
# An action, call by call (`engine.rs:187-310`)

`apply` is a list of calls, each of which either succeeds or leaves everything as it was: `calls`
lists them, `apply_eq` says that running them is `apply`. An action that fails stopped between two of
them (`after_performAll`), and so does a pass whose process dies.

`Along` says that a property holds wherever such a run may stop; each call is checked where the calls
before it succeeded.
-/

namespace Stashden.Sync

open Lib Stashden.Core RelPath EngineM

/-- One call of the engine on the folder, the server or the record. -/
inductive Call where
  | fail (reason : Reason)
  | createDirectories (path : RelPath)
  | createParents (path : RelPath)
  | fetch (path staged : RelPath)
  | rename (reason : Reason) (source target : RelPath)
  | removeFile (path : RelPath)
  | removeIgnored (path : RelPath)
  | removeDirectory (path : RelPath)
  | send (path source : RelPath) (expect : Expect)
  | makeRemote (path : RelPath)
  | removeRemote (path : RelPath)
  | record (path : RelPath) (entry : Entry) (mtimeMs : Option Int)
  | recordAbove (path : RelPath)
  | forget (path : RelPath)
  | note (update : Report → Report)

section Calls

variable (u : Unicode) (pass : Pass) (remote : Snapshot)

/-- A call, on the world. -/
def perform : Call → EngineM Unit
  | .fail reason => throw reason
  | .createDirectories path => onDisk (createDirAll path)
  | .createParents path => onDisk (Sync.createParents path)
  | .fetch path staged => downloadTo path staged
  | .rename reason source target => onDisk (renameFile reason source target)
  | .removeFile path => onDisk (Sync.removeFile path)
  | .removeIgnored path => onDisk (Sync.removeIgnored u path)
  | .removeDirectory path => onDisk (removeEmpty path)
  | .send path source expect => uploadFrom path source expect
  | .makeRemote path => onServer (createDirectory path)
  | .removeRemote path => onServer (remove path)
  | .record path entry mtimeMs => onState fun s => s.record path entry mtimeMs
  | .recordAbove path => onState (recordDirectoriesAbove path)
  | .forget path => onState fun s => s.forget path
  | .note update => onReport update

def performAll : List Call → EngineM Unit
  | [] => pure ()
  | c :: cs => do
    perform u c
    performAll cs

/-- The calls of `download`. -/
def downloadCalls (path : RelPath) : List Call :=
  match remote.get path with
  | none => [.fail .remoteVanished]
  | some entry =>
    .createParents path ::
      match partialOf path with
      | none => [.fail (.moving path)]
      | some staged =>
        [.fetch path staged, .rename (.moving path) staged path,
          .record path entry (pass.mtimeOf path)]

/-- The calls of `upload`. -/
def uploadCalls (path : RelPath) : List Call :=
  match pass.scan.entries.get path with
  | none => [.fail .localVanished]
  | some scanned =>
    [.send path path (expectOf remote path), .record path scanned.entry scanned.mtimeMs,
      .recordAbove path]

/-- What `KeepBoth` does once the local file has its copy's name. -/
def keepCalls (path localCopy : RelPath) : List Call :=
  match pass.scan.entries.get path with
  | none => [.fail .localVanished]
  | some scanned =>
    .send localCopy localCopy .absent ::
      .record localCopy scanned.entry (pass.mtimeOf localCopy) :: .forget path ::
      (downloadCalls pass remote path ++
        [.note fun r => { r with
          conflicts := r.conflicts ++ [path]
          downloaded := r.downloaded + 1
          uploaded := r.uploaded + 1 }])

/-- The calls of an action. -/
def calls : Action → List Call
  | .createLocalDirectory path =>
    [.createDirectories path, .record path .directory none,
      .note fun r => { r with directoriesCreated := r.directoriesCreated + 1 }]
  | .createRemoteDirectory path =>
    [.makeRemote path, .record path .directory none,
      .note fun r => { r with directoriesCreatedRemotely := r.directoriesCreatedRemotely + 1 }]
  | .removeLocalDirectory path =>
    [.removeIgnored path, .removeDirectory path, .forget path,
      .note fun r => { r with directoriesRemovedLocally := r.directoriesRemovedLocally + 1 }]
  | .download path =>
    downloadCalls pass remote path ++ [.note fun r => { r with downloaded := r.downloaded + 1 }]
  | .upload path =>
    uploadCalls pass remote path ++ [.note fun r => { r with uploaded := r.uploaded + 1 }]
  | .deleteLocal path =>
    [.removeFile path, .forget path,
      .note fun r => { r with deletedLocally := r.deletedLocally + 1 }]
  | .deleteRemote path =>
    [.removeRemote path, .forget path,
      .note fun r => { r with deletedRemotely := r.deletedRemotely + 1 }]
  | .removeRemoteDirectory path =>
    [.removeRemote path, .forget path,
      .note fun r => { r with directoriesRemovedRemotely := r.directoriesRemovedRemotely + 1 }]
  | .forget path => [.forget path]
  | .keepBoth path localCopy =>
    .rename (.renaming path) path localCopy :: keepCalls pass remote path localCopy
  | .setAside path localCopy =>
    .rename (.renaming path) path localCopy :: .forget path ::
      (downloadCalls pass remote path ++
        [.note fun r => { r with
          conflicts := r.conflicts ++ [path], downloaded := r.downloaded + 1 }])

end Calls

variable {u : Unicode} {pass : Pass} {remote : Snapshot} {w w' : World}

theorem performAll_append (cs ds : List Call) :
    performAll u (cs ++ ds) = (do performAll u cs; performAll u ds) := by
  induction cs with
  | nil =>
    rw [List.nil_append, performAll, pure_bind]
  | cons c cs ih =>
    rw [List.cons_append, performAll, ih, performAll, bind_assoc]

theorem download_eq (path : RelPath) :
    download pass remote path = performAll u (downloadCalls pass remote path) := by
  unfold download downloadCalls
  cases remote.get path with
  | none => rfl
  | some entry => cases partialOf path <;> rfl

theorem upload_eq (path : RelPath) :
    upload pass remote path = performAll u (uploadCalls pass remote path) := by
  unfold upload uploadCalls
  cases pass.scan.entries.get path <;> rfl

/-- **`apply` is its calls.** -/
theorem apply_eq (a : Action) : apply u pass remote a = performAll u (calls pass remote a) := by
  cases a with
  | download path =>
    show (do download pass remote path; onReport _) = _
    rw [calls, performAll_append, download_eq (u := u)]
    rfl
  | upload path =>
    show (do upload pass remote path; onReport _) = _
    rw [calls, performAll_append, upload_eq (u := u)]
    rfl
  | setAside path localCopy =>
    show (do
      onDisk (renameFile (.renaming path) path localCopy)
      onState fun s => s.forget path
      download pass remote path
      onReport _) = _
    rw [calls, performAll, performAll, performAll_append, download_eq (u := u)]
    rfl
  | keepBoth path localCopy =>
    show (do
      onDisk (renameFile (.renaming path) path localCopy)
      let scanned ← orFail .localVanished (pass.scan.entries.get path)
      uploadFrom localCopy localCopy .absent
      onState fun s => (s.record localCopy scanned.entry (pass.mtimeOf localCopy)).forget path
      download pass remote path
      onReport _) = _
    rw [calls, performAll, keepCalls]
    cases pass.scan.entries.get path with
    | none => rfl
    | some scanned =>
      simp only
      rw [performAll, performAll, performAll, performAll_append, download_eq (u := u)]
      rfl
  | _ => rfl

/-! ## Where a run stops -/

/-- Calls that all succeed. -/
inductive Performs (u : Unicode) : List Call → World → World → Prop
  | nil (w : World) : Performs u [] w w
  | cons {c : Call} {cs : List Call} {w w₁ w' : World} (hc : perform u c w = .ok () w₁)
      (hcs : Performs u cs w₁ w') : Performs u (c :: cs) w w'

theorem performs_iff {cs : List Call} : Performs u cs w w' ↔ performAll u cs w = .ok () w' := by
  induction cs generalizing w with
  | nil =>
    constructor
    · rintro ⟨⟩
      rfl
    · intro h
      cases h
      exact .nil _
  | cons c cs ih =>
    rw [performAll, ok_bind]
    constructor
    · rintro (_ | ⟨hc, hcs⟩)
      exact ⟨(), _, hc, ih.mp hcs⟩
    · rintro ⟨_, w₁, hc, hcs⟩
      exact .cons hc (ih.mpr hcs)

/-- A property holds wherever a list of calls may stop. -/
def Along (u : Unicode) (J : World → Prop) : List Call → World → Prop
  | [], w => J w
  | c :: cs, w => J w ∧ ∀ w', perform u c w = .ok () w' → Along u J cs w'

theorem Along.of_forall {J : World → Prop} {cs : List Call}
    (h : ∀ c ∈ cs, ∀ w w', J w → perform u c w = .ok () w' → J w') (hw : J w) :
    Along u J cs w := by
  induction cs generalizing w with
  | nil => exact hw
  | cons c cs ih =>
    exact ⟨hw, fun w' hc => ih (fun d hd => h d (List.mem_cons_of_mem c hd))
      (h c List.mem_cons_self w w' hw hc)⟩

theorem Along.append {J : World → Prop} {cs ds : List Call} (hc : Along u J cs w)
    (hd : ∀ w', Performs u cs w w' → Along u J ds w') : Along u J (cs ++ ds) w := by
  induction cs generalizing w with
  | nil => exact hd w (.nil w)
  | cons c cs ih =>
    exact ⟨hc.1, fun w' hok => ih (hc.2 w' hok) fun w'' hcs => hd w'' (.cons hok hcs)⟩

/-- **The rule of a run that stops**: the property holds there. -/
theorem Along.performs {J : World → Prop} {cs ds : List Call} (h : Along u J (cs ++ ds) w)
    (hcs : Performs u cs w w') : J w' := by
  induction hcs with
  | nil =>
    cases ds with
    | nil => exact h
    | cons d ds => exact h.1
  | cons hc _ ih => exact ih (h.2 _ hc)

theorem performs_append {cs ds : List Call} :
    Performs u (cs ++ ds) w w' ↔ ∃ w₁, Performs u cs w w₁ ∧ Performs u ds w₁ w' := by
  constructor
  · intro h
    induction cs generalizing w with
    | nil => exact ⟨w, .nil w, h⟩
    | cons c cs ih =>
      obtain _ | ⟨hc, hrest⟩ := h
      obtain ⟨w₁, hcs, hds⟩ := ih hrest
      exact ⟨w₁, .cons hc hcs, hds⟩
  · rintro ⟨w₁, hcs, hds⟩
    induction hcs with
    | nil => exact hds
    | cons hc _ ih => exact .cons hc (ih hds)

/-- A failing call leaves everything as it was. -/
theorem perform_error {c : Call} {reason : Reason} (h : perform u c w = .error reason w') :
    w' = w := by
  have hdisk : ∀ {call : Snapshot → Except Reason Snapshot},
      onDisk call w = .error reason w' → w' = w := by
    intro call h
    unfold onDisk at h
    split at h <;> cases h
    rfl
  have hserver : ∀ {call : Server → Except TransportError Server},
      onServer call w = .error reason w' → w' = w := by
    intro call h
    unfold onServer at h
    split at h <;> cases h
    rfl
  have hread : ∀ {why : Reason} {file : World → Option Entry} {k : Str × Nat → EngineM Unit},
      (∀ e, k e w = .error reason w' → w' = w) →
        (readFile why file >>= k) w = .error reason w' → w' = w := by
    intro why file k hk h
    change EStateM.bind (readFile why file) k w = _ at h
    unfold EStateM.bind readFile at h
    split at h
    · rename_i hr
      split at hr <;> cases hr
      exact hk _ h
    · rename_i hr
      split at hr <;> cases hr
      cases h
      rfl
  cases c with
  | fail => cases h; rfl
  | createDirectories => exact hdisk h
  | createParents => exact hdisk h
  | fetch => exact hread (fun _ h => hdisk h) h
  | rename => exact hdisk h
  | removeFile => exact hdisk h
  | removeIgnored => exact hdisk h
  | removeDirectory => exact hdisk h
  | send => exact hread (fun _ h => hserver h) h
  | makeRemote => exact hserver h
  | removeRemote => exact hserver h
  | record => cases h
  | recordAbove => cases h
  | forget => cases h
  | note => cases h

/-- The calls of a list that succeed, up to the first that does not. -/
def succeeding (u : Unicode) : List Call → World → List Call
  | [], _ => []
  | c :: cs, w =>
    match perform u c w with
    | .ok _ w' => c :: succeeding u cs w'
    | .error .. => []

/-- **Where an action stops**: after those of its calls that succeed. -/
theorem after_performAll (cs : List Call) : ∃ rest, cs = succeeding u cs w ++ rest ∧
    Performs u (succeeding u cs w) w (World.after (performAll u cs w)) := by
  induction cs generalizing w with
  | nil => exact ⟨[], rfl, .nil w⟩
  | cons c cs ih =>
    have hrun : World.after (performAll u (c :: cs) w) =
        World.after (EStateM.bind (perform u c) (fun _ => performAll u cs) w) := rfl
    rw [hrun, succeeding]
    unfold EStateM.bind
    cases hc : perform u c w with
    | ok x w₁ =>
      obtain ⟨rest, he, hdone⟩ := ih (w := w₁)
      exact ⟨rest, congrArg (c :: ·) he, .cons hc hdone⟩
    | error reason w₁ =>
      refine ⟨c :: cs, rfl, ?_⟩
      rw [show World.after (.error reason w₁) = w from perform_error hc]
      exact .nil w

end Stashden.Sync
