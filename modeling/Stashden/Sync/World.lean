import Stashden.Sync.Fit
import Stashden.Sync.Held
import Stashden.Sync.State

/-!
# The folder, the server and the calls the engine makes on them

A pass runs on a `World`: the folder on disk (hidden names included, the engine's own state file
apart), the account's tree on the server with what was sent to its trash, the recorded state and the
report. The file calls are those of `engine.rs`, the server calls those of `Transport` as the server
answers them: `putFile` checks the precondition and makes missing parents, `remove` takes the whole
subtree.

`get_makeDirectories` is the one law of making directories; the engine uses it on either side.
-/

namespace Stashden.Sync

open Lib RelPath

/-- What a transport call answers when it fails. -/
inductive TransportError where
  | notFound | preconditionFailed | conflict | fileInTheWay
  deriving DecidableEq, Repr

/-- The reason of a `Failure`, with the path it names. -/
inductive Reason where
  | remoteVanished
  | localVanished
  | transport (source : TransportError)
  | creating (path : RelPath)
  | renaming (path : RelPath)
  | moving (path : RelPath)
  | removing (path : RelPath)
  | deleting (path : RelPath)
  deriving DecidableEq

/-- `Failure`. -/
structure Failure where
  path : RelPath
  reason : Reason
  deriving DecidableEq

/-- `Report`. -/
structure Report where
  uploaded : Nat
  downloaded : Nat
  deletedLocally : Nat
  deletedRemotely : Nat
  directoriesCreated : Nat
  directoriesCreatedRemotely : Nat
  directoriesRemovedLocally : Nat
  directoriesRemovedRemotely : Nat
  conflicts : List RelPath
  blocked : List RelPath
  held : List RelPath
  unsupported : List (RelPath × Str)
  skipped : List Str
  failures : List Failure

/-- `Report::default`. -/
def Report.default : Report := ⟨0, 0, 0, 0, 0, 0, 0, 0, [], [], [], [], [], []⟩

/-- The account's tree, and what `remove` sent to the trash. -/
structure Server where
  tree : Snapshot
  trash : List (RelPath × Entry)

structure World where
  disk : Snapshot
  server : Server
  state : SyncState
  report : Report

/-! ## Directories -/

/-- A directory made unless it stands; a file in its place is an error. -/
def makeDirectory (m : Snapshot) (d : RelPath) : Option Snapshot :=
  match m.get d with
  | none => some (m.insert d .directory)
  | some .directory => some m
  | some (.file ..) => none

/-- Every directory of the list, in order. -/
def makeDirectories (m : Snapshot) : List RelPath → Option Snapshot
  | [] => some m
  | d :: ds => (makeDirectory m d).bind fun m' => makeDirectories m' ds

theorem get_makeDirectory {m m' : Snapshot} {d : RelPath} (h : makeDirectory m d = some m')
    (p : RelPath) : m'.get p = if p = d then some .directory else m.get p := by
  unfold makeDirectory at h
  split at h
  · rw [← Option.some.inj h, OrdMap.get_insert]
  · rename_i hd
    rw [← Option.some.inj h]
    split_ifs with hp
    · rw [hp, hd]
    · rfl
  · exact absurd h (by simp)

/-- **Making directories** sets the listed paths to directories and leaves the rest. -/
theorem get_makeDirectories {ds : List RelPath} {m m' : Snapshot}
    (h : makeDirectories m ds = some m') (p : RelPath) :
    m'.get p = if p ∈ ds then some .directory else m.get p := by
  induction ds generalizing m with
  | nil => rw [← Option.some.inj h]; simp
  | cons d ds ih =>
    obtain ⟨m₁, h₁, h₂⟩ := Option.bind_eq_some_iff.mp h
    rw [ih h₂, get_makeDirectory h₁]
    by_cases hp : p ∈ ds <;> by_cases hd : p = d <;> simp [hp, hd]

/-- Where a directory was made, no file stood. -/
theorem not_file_of_makeDirectories {ds : List RelPath} {m m' : Snapshot}
    (h : makeDirectories m ds = some m') {p : RelPath} (hp : p ∈ ds) :
    m.get p = none ∨ m.get p = some .directory := by
  induction ds generalizing m with
  | nil => exact absurd hp List.not_mem_nil
  | cons d ds ih =>
    obtain ⟨m₁, h₁, h₂⟩ := Option.bind_eq_some_iff.mp h
    by_cases hd : p = d
    · subst hd
      unfold makeDirectory at h₁
      split at h₁
      · exact Or.inl ‹_›
      · exact Or.inr ‹_›
      · exact absurd h₁ (by simp)
    · have := ih h₂ ((List.mem_cons.mp hp).resolve_left hd)
      rwa [get_makeDirectory h₁, if_neg hd] at this

/-- The directories `create_dir_all` makes for a path, outermost first. -/
def chain (p : RelPath) : List RelPath := p.ancestors.reverse ++ [p]

theorem mem_chain_iff {p q : RelPath} : q ∈ chain p ↔ q = p ∨ p.isInside q = true := by
  unfold chain
  rw [List.mem_append, List.mem_reverse, mem_ancestors_iff, List.mem_singleton, or_comm]

/-! ## File calls -/

/-- `fs::create_dir_all`. -/
def createDirAll (path : RelPath) (disk : Snapshot) : Except Reason Snapshot :=
  match makeDirectories disk (chain path) with
  | some disk' => .ok disk'
  | none => .error (.creating path)

/-- `create_dir_all` of the directory a path is in; of the root, which stands, there is none. -/
def createParents (path : RelPath) (disk : Snapshot) : Except Reason Snapshot :=
  match path.parent with
  | some d => createDirAll d disk
  | none => .ok disk

/-- `fs::rename` of a file onto a name of the same directory: a file there is replaced, a directory
refuses. -/
def renameFile (reason : Reason) (src dst : RelPath) (disk : Snapshot) : Except Reason Snapshot :=
  match disk.get src with
  | some (.file etag size) =>
    if disk.get dst = some .directory then .error reason
    else .ok ((disk.erase src).insert dst (.file etag size))
  | _ => .error reason

/-- `remove_file` of the engine: a file that is already gone is no failure. -/
def removeFile (path : RelPath) (disk : Snapshot) : Except Reason Snapshot :=
  match disk.get path with
  | none => .ok disk
  | some (.file ..) => .ok (disk.erase path)
  | some .directory => .error (.deleting path)

/-- The ignored files directly inside a directory go (the loop of `remove_directory`). -/
def removeIgnored (u : Unicode) (path : RelPath) (disk : Snapshot) : Except Reason Snapshot :=
  if disk.get path = some .directory then
    .ok (disk.retain fun p =>
      !(decide (p.parent = some path) && isIgnored u p.fileName &&
        (disk.get p).any fun e => !e.isDirectory))
  else .error (.removing path)

/-- `fs::remove_dir`: only an empty directory goes. -/
def removeEmpty (path : RelPath) (disk : Snapshot) : Except Reason Snapshot :=
  if disk.get path = some .directory ∧ ∀ p ∈ disk.keys, p.isInside path = false then
    .ok (disk.erase path)
  else .error (.removing path)

/-! ## Server calls -/

/-- `Expect`. -/
inductive Expect where
  | absent
  | etag (tag : Str)
  deriving DecidableEq

/-- A conditional PUT of a file. -/
def putFile (path : RelPath) (tag : Str) (size : Nat) (expect : Expect) (server : Server) :
    Except TransportError Server :=
  match server.tree.get path, expect with
  | some .directory, _ => .error .conflict
  | some (.file ..), .absent => .error .preconditionFailed
  | some (.file stored _), .etag named =>
    if stored = named then
      .ok { server with tree := server.tree.insert path (.file tag size) }
    else .error .preconditionFailed
  | none, .etag _ => .error .preconditionFailed
  | none, .absent =>
    match makeDirectories server.tree path.ancestors.reverse with
    | some tree => .ok { server with tree := tree.insert path (.file tag size) }
    | none => .error .fileInTheWay

/-- `Transport::create_directory`: a name already taken is a conflict. -/
def createDirectory (path : RelPath) (server : Server) : Except TransportError Server :=
  match server.tree.get path with
  | some _ => .error .conflict
  | none =>
    match makeDirectories server.tree (chain path) with
    | some tree => .ok { server with tree := tree }
    | none => .error .fileInTheWay

/-- What stands at a path or inside it. -/
def atOrInside (path p : RelPath) : Bool := decide (p = path) || p.isInside path

theorem atOrInside_iff {path p : RelPath} :
    atOrInside path p = true ↔ p = path ∨ p.isInside path = true := by
  simp [atOrInside]

/-- `Transport::remove`: the path goes to the trash with everything inside it. -/
def remove (path : RelPath) (server : Server) : Except TransportError Server :=
  match server.tree.get path with
  | none => .error .notFound
  | some _ =>
    .ok { tree := server.tree.retain fun p => !atOrInside path p
          trash := server.trash ++ server.tree.entries.filter fun e => atOrInside path e.1 }

end Stashden.Sync
