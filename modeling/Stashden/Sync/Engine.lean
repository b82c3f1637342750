import Stashden.Sync.World

/-!
# The engine (`engine.rs`)

`apply` runs one action, `runActions` the loop that records a failure and goes on, `syncOnce` the
pass: filter the listing by the ignore rules, take the unfit paths out of both sides and the base,
plan, hold back what the shares refuse, run, record the directories both sides had.

The monad keeps what a failing action already did. `ok_bind` and the lemmas beside it read a
successful run apart step by step, so that no later proof unfolds the monad.
-/

namespace Stashden.Sync

open Lib Stashden.Core RelPath

abbrev EngineM := EStateM Reason World

/-- What a pass is given: the rules of the folder, the shares the server reports (none from a server
that knows of none), the instant, the scan, and the modification times the folder will show. -/
structure Pass where
  rules : Rules
  mounts : Option (List (NodeName × Access))
  now : DateTime
  scan : LocalScan
  mtimeOf : RelPath → Option Int

namespace EngineM

/-- A file call. -/
def onDisk (call : Snapshot → Except Reason Snapshot) : EngineM Unit := fun w =>
  match call w.disk with
  | .ok disk => .ok () { w with disk := disk }
  | .error e => .error e w

/-- A transport call. -/
def onServer (call : Server → Except TransportError Server) : EngineM Unit := fun w =>
  match call w.server with
  | .ok server => .ok () { w with server := server }
  | .error e => .error (.transport e) w

def onState (update : SyncState → SyncState) : EngineM Unit :=
  modify fun w => { w with state := update w.state }

def onReport (update : Report → Report) : EngineM Unit :=
  modify fun w => { w with report := update w.report }

/-- An answer that must be there. -/
def orFail {α : Type} (reason : Reason) : Option α → EngineM α
  | some a => pure a
  | none => throw reason

/-- The file a path names on one of the sides, with its tag and size. -/
def readFile (reason : Reason) (file : World → Option Entry) : EngineM (Str × Nat) := fun w =>
  match file w with
  | some (.file tag size) => .ok (tag, size) w
  | _ => .error reason w

end EngineM

open EngineM

section Apply

variable (u : Unicode) (pass : Pass) (remote : Snapshot)

/-- `with_suffix(&destination, PARTIAL_SUFFIX)`: none where the folder takes no name that long. -/
def partialOf (path : RelPath) : Option RelPath :=
  if NodeName.check (path.fileName ++ partialSuffix) = none then
    (path.withFileName (path.fileName ++ partialSuffix)).toOption
  else none

/-- `Transport::download_to`: the server's bytes written to a file of the folder. -/
def downloadTo (path destination : RelPath) : EngineM Unit := do
  let (tag, size) ← readFile (.transport .notFound) fun w => w.server.tree.get path
  onDisk fun disk =>
    if disk.get destination = some .directory then .error (.moving path)
    else .ok (disk.insert destination (.file tag size))

/-- `Transport::upload_from`: a file of the folder sent to a path. -/
def uploadFrom (path source : RelPath) (expect : Expect) : EngineM Unit := do
  let (tag, size) ← readFile (.transport .notFound) fun w => w.disk.get source
  onServer (putFile path tag size expect)

/-- `record_directories_above`. -/
def recordDirectoriesAbove (path : RelPath) (state : SyncState) : SyncState :=
  path.ancestors.foldl (fun state directory => state.record directory .directory none) state

/-- `download`. -/
def download (path : RelPath) : EngineM Unit := do
  let entry ← orFail .remoteVanished (remote.get path)
  onDisk (createParents path)
  let staged ← orFail (.moving path) (partialOf path)
  downloadTo path staged
  onDisk (renameFile (.moving path) staged path)
  onState fun s => s.record path entry (pass.mtimeOf path)

/-- `expect`: the version the pass listed. -/
def expectOf (path : RelPath) : Expect :=
  match remote.get path with
  | some (.file tag _) => .etag tag
  | _ => .absent

/-- `upload`. -/
def upload (path : RelPath) : EngineM Unit := do
  let scanned ← orFail .localVanished (pass.scan.entries.get path)
  uploadFrom path path (expectOf remote path)
  onState fun s => recordDirectoriesAbove path (s.record path scanned.entry scanned.mtimeMs)

/-- `Engine::apply`. -/
def apply : Action → EngineM Unit
  | .createLocalDirectory path => do
    onDisk (createDirAll path)
    onState fun s => s.record path .directory none
    onReport fun r => { r with directoriesCreated := r.directoriesCreated + 1 }
  | .createRemoteDirectory path => do
    onServer (createDirectory path)
    onState fun s => s.record path .directory none
    onReport fun r => { r with directoriesCreatedRemotely := r.directoriesCreatedRemotely + 1 }
  | .removeLocalDirectory path => do
    onDisk (removeIgnored u path)
    onDisk (removeEmpty path)
    onState fun s => s.forget path
    onReport fun r => { r with directoriesRemovedLocally := r.directoriesRemovedLocally + 1 }
  | .download path => do
    download pass remote path
    onReport fun r => { r with downloaded := r.downloaded + 1 }
  | .upload path => do
    upload pass remote path
    onReport fun r => { r with uploaded := r.uploaded + 1 }
  | .deleteLocal path => do
    onDisk (removeFile path)
    onState fun s => s.forget path
    onReport fun r => { r with deletedLocally := r.deletedLocally + 1 }
  | .deleteRemote path => do
    onServer (remove path)
    onState fun s => s.forget path
    onReport fun r => { r with deletedRemotely := r.deletedRemotely + 1 }
  | .removeRemoteDirectory path => do
    onServer (remove path)
    onState fun s => s.forget path
    onReport fun r => { r with directoriesRemovedRemotely := r.directoriesRemovedRemotely + 1 }
  | .forget path => onState fun s => s.forget path
  | .keepBoth path localCopy => do
    onDisk (renameFile (.renaming path) path localCopy)
    let scanned ← orFail .localVanished (pass.scan.entries.get path)
    uploadFrom localCopy localCopy .absent
    onState fun s => (s.record localCopy scanned.entry (pass.mtimeOf localCopy)).forget path
    download pass remote path
    onReport fun r =>
      { r with
        conflicts := r.conflicts ++ [path]
        downloaded := r.downloaded + 1
        uploaded := r.uploaded + 1 }
  | .setAside path localCopy => do
    onDisk (renameFile (.renaming path) path localCopy)
    onState fun s => s.forget path
    download pass remote path
    onReport fun r =>
      { r with conflicts := r.conflicts ++ [path], downloaded := r.downloaded + 1 }

/-- The world an action leaves, whether it succeeded or not. -/
def World.after {α : Type} : EStateM.Result Reason World α → World
  | .ok _ w => w
  | .error _ w => w

/-- One turn of the loop of `sync_once`: a failure is recorded and the pass goes on. -/
def runAction (action : Action) (w : World) : World :=
  match apply u pass remote action w with
  | .ok _ w' => w'
  | .error reason w' =>
    { w' with
      report := { w'.report with failures := w'.report.failures ++ [⟨action.subject, reason⟩] } }

/-- The loop of `sync_once`. -/
def runActions (actions : List Action) (w : World) : World :=
  actions.foldl (fun w action => runAction u pass remote action w) w

/-- `record_agreed_directories`. -/
def recordAgreedDirectories (state : SyncState) : SyncState :=
  (pass.scan.entries.keys.filter fun path =>
    decide (pass.scan.snapshot.get path = some .directory) &&
      decide (remote.get path = some .directory)).foldl
    (fun state path => state.record path .directory none) state

end Apply

section Pass

variable (u : Unicode) (pass : Pass) (w : World)

/-- `held_from`: what the shares received hold back. -/
def Pass.held : Held :=
  match pass.mounts with
  | some mounts => Held.fromMounts (mounts.map fun e => (e.1.str, e.2))
  | none => ⟨none, []⟩

/-- The listing without the hidden names. -/
def Pass.listing : Snapshot := w.server.tree.retain fun path => !hides u path

/-- The unfit paths of a pass. -/
def Pass.unfit : Unfit := Sync.unfit u (pass.scan.snapshot, Pass.listing u w) pass.rules

/-- `local`, `remote` and `base` as `reconcile` gets them: without the unfit paths. -/
def Pass.fits (m : Snapshot) : Snapshot := m.retain fun path => !(pass.unfit u w).containsKey path

def Pass.localSide : Snapshot := pass.fits u w pass.scan.snapshot

def Pass.remote : Snapshot := pass.fits u w (Pass.listing u w)

def Pass.base : Snapshot := pass.fits u w w.state.base

/-- The plan of a pass. -/
@[irreducible] def Pass.plan : Plan :=
  pass.held.apply
    (reconcile (pass.localSide u w) (pass.remote u w) (pass.base u w) pass.now)

/-- The report a pass starts from. -/
def Pass.report : Report :=
  { Report.default with
    blocked := (pass.plan u w).blocked
    held := (pass.plan u w).held
    unsupported := (pass.unfit u w).entries
    skipped := pass.scan.skipped }

/-- `sync_once`. -/
def syncOnce : World :=
  let remote := pass.remote u w
  let w' := runActions u pass remote (pass.plan u w).actions { w with report := pass.report u w }
  { w' with state := recordAgreedDirectories pass remote w'.state }

end Pass

/-! ## Reading a successful run apart -/

section Runs

variable {α β : Type} {w w' : World}

theorem ok_bind {x : EngineM α} {f : α → EngineM β} {b : β} :
    (x >>= f) w = .ok b w' ↔ ∃ a w₁, x w = .ok a w₁ ∧ f a w₁ = .ok b w' := by
  show EStateM.bind x f w = _ ↔ _
  unfold EStateM.bind
  cases x w <;> simp

theorem ok_onDisk {call : Snapshot → Except Reason Snapshot} {a : Unit} :
    onDisk call w = .ok a w' ↔ ∃ disk, call w.disk = .ok disk ∧ w' = { w with disk := disk } := by
  unfold onDisk
  cases call w.disk <;> simp [eq_comm]

theorem ok_onServer {call : Server → Except TransportError Server} {a : Unit} :
    onServer call w = .ok a w' ↔
      ∃ server, call w.server = .ok server ∧ w' = { w with server := server } := by
  unfold onServer
  cases call w.server <;> simp [eq_comm]

theorem ok_onState {f : SyncState → SyncState} {a : Unit} :
    onState f w = .ok a w' ↔ w' = { w with state := f w.state } := by
  show EStateM.Result.ok () _ = _ ↔ _
  simp [eq_comm]

theorem ok_onReport {f : Report → Report} {a : Unit} :
    onReport f w = .ok a w' ↔ w' = { w with report := f w.report } := by
  show EStateM.Result.ok () _ = _ ↔ _
  simp [eq_comm]

theorem ok_orFail {reason : Reason} {o : Option α} {a : α} :
    orFail reason o w = .ok a w' ↔ o = some a ∧ w' = w := by
  cases o with
  | none =>
    show EStateM.Result.error reason w = _ ↔ _
    simp
  | some b =>
    show EStateM.Result.ok b w = _ ↔ _
    simp [eq_comm]

theorem ok_readFile {reason : Reason} {file : World → Option Entry} {e : Str × Nat} :
    readFile reason file w = .ok e w' ↔ file w = some (.file e.1 e.2) ∧ w' = w := by
  obtain ⟨tag, size⟩ := e
  unfold readFile
  split
  · rename_i h
    simp [h, eq_comm]
  · rename_i h
    constructor
    · intro e
      exact absurd e (by simp)
    · rintro ⟨e, -⟩
      exact absurd e (h tag size)

end Runs

end Stashden.Sync
