import Stashden.Sync.Snapshot

/-!
# The recorded state (`state.rs`) and the scan's result (`local.rs`)

`SyncState` keeps one `Tracked` entry a path: what both sides agreed on, with the modification time
the fingerprint was taken at. `base` is the snapshot `reconcile` compares against; `base_record` and
`base_forget` say what an update does to it.
-/

namespace Stashden.Sync

open Lib

/-- `Tracked`. -/
structure Tracked where
  entry : Entry
  mtimeMs : Option Int
  deriving DecidableEq

/-- `SyncState`. -/
structure SyncState where
  tracked : OrdMap RelPath Tracked

namespace SyncState

/-- `SyncState::base`. -/
def base (s : SyncState) : Snapshot := s.tracked.mapVal Tracked.entry

/-- `SyncState::record`. -/
def record (s : SyncState) (path : RelPath) (entry : Entry) (mtimeMs : Option Int) : SyncState :=
  ⟨s.tracked.insert path ⟨entry, mtimeMs⟩⟩

/-- `SyncState::forget`. -/
def forget (s : SyncState) (path : RelPath) : SyncState := ⟨s.tracked.erase path⟩

theorem base_record (s : SyncState) (path : RelPath) (entry : Entry) (mtimeMs : Option Int)
    (p : RelPath) :
    (s.record path entry mtimeMs).base.get p = if p = path then some entry else s.base.get p := by
  unfold base record
  rw [OrdMap.get_mapVal, OrdMap.get_mapVal, OrdMap.get_insert]
  split_ifs <;> rfl

theorem base_forget (s : SyncState) (path p : RelPath) :
    (s.forget path).base.get p = if p = path then none else s.base.get p := by
  unfold base forget
  rw [OrdMap.get_mapVal, OrdMap.get_mapVal, OrdMap.get_erase]
  split_ifs <;> rfl

end SyncState

/-- `Scanned`. -/
structure Scanned where
  entry : Entry
  mtimeMs : Option Int
  deriving DecidableEq

/-- `LocalScan`. -/
structure LocalScan where
  entries : OrdMap RelPath Scanned
  skipped : List Str

/-- `LocalScan::snapshot`. -/
def LocalScan.snapshot (scan : LocalScan) : Snapshot := scan.entries.mapVal Scanned.entry

theorem LocalScan.get_snapshot (scan : LocalScan) (p : RelPath) :
    scan.snapshot.get p = (scan.entries.get p).map Scanned.entry := OrdMap.get_mapVal _ _ _

end Stashden.Sync
